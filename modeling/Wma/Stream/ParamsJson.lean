import Wma.Stream.Params
import Wma.Text.Json

/-!
# Stream parameters as JSON

Parameters are written as an object with a member for each of them, or as a list of their values in
order. The private data may be left out and is empty then. Members of other names mean nothing, but
no parameter may be given twice.
-/

namespace Wma.Params

def ofValues (sampleRate channels bitRate blockAlign codecTag : Json) (extradata : Option Json) :
    Option Params := do
  return {
    sampleRate := UInt32.ofNat (← sampleRate.naturalBelow UInt32.size)
    channels := UInt8.ofNat (← channels.naturalBelow UInt8.size)
    bitRate := UInt32.ofNat (← bitRate.naturalBelow UInt32.size)
    blockAlign := UInt16.ofNat (← blockAlign.naturalBelow UInt16.size)
    codecTag := UInt32.ofNat (← codecTag.naturalBelow UInt32.size)
    extradata := ← match extradata with
      | some bytes => bytes.bytes
      | none => some #[] }

/-- The values of the members with the given name. -/
def valuesOf (name : String) (members : List (Option String × Json)) : List Json :=
  (members.filter fun m => m.1 == some name).map (·.2)

def only : List Json → Option Json
  | [x] => some x
  | _ => none

/-- The parameters that the members of an object give. -/
def ofMembers (members : List (Option String × Json)) : Option Params := do
  guard (members.all fun m => m.1.isSome)
  let extradata := valuesOf "extradata" members
  guard (extradata.length ≤ 1)
  ofValues (← only (valuesOf "sample_rate" members)) (← only (valuesOf "channels" members))
    (← only (valuesOf "bit_rate" members)) (← only (valuesOf "block_align" members))
    (← only (valuesOf "codec_tag" members)) extradata.head?

def ofJson : Json → Option Params
  | .object members => ofMembers members
  | .list [rate, channels, bitRate, align, tag] => ofValues rate channels bitRate align tag none
  | .list [rate, channels, bitRate, align, tag, extradata] =>
    ofValues rate channels bitRate align tag (some extradata)
  | _ => none

def ofText (s : String) : Option Params :=
  Json.ofText s >>= ofJson

end Wma.Params
