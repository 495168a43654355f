import Wma.Bits.Parse
import Wma.Stream.Config

/-!
# The bit reservoir

A frame may begin in one packet and end in a later one. The reservoir holds the bytes of such a
frame that have come so far; its first bits may belong to the frame before and are skipped.
-/

namespace Wma

/-- The bytes of a frame that is not complete. -/
structure Reservoir where
  bytes : Array UInt8
  /-- Bits at the beginning that do not belong to the frame. -/
  bitOffset : Nat
deriving DecidableEq, Repr

namespace Reservoir

def empty : Reservoir := ⟨#[], 0⟩

def size (r : Reservoir) : Nat :=
  r.bytes.size

/-- Whether no frame waits to be completed. -/
def isEmpty (r : Reservoir) : Bool :=
  r.bytes.isEmpty

def push (byte : Nat) : Parse Reservoir Unit :=
  Parse.update fun r => { r with bytes := r.bytes.push (UInt8.ofNat byte) }

def appendBytes : (count : Nat) → Parse Reservoir Unit
  | 0 => return ()
  | count + 1 => do
    push (← Parse.read 8)
    appendBytes count

/-- Reads `count` bits and appends them. The last byte is filled up with zeros. -/
def appendBits (count : Nat) : Parse Reservoir Unit := do
  let held := (← Parse.state).size
  Parse.require (held + (count + 7) / 8 ≤ maxPacketBytes) (.reservoirBits held count)
  appendBytes (count / 8)
  if 0 < count % 8 then
    push ((← Parse.read (count % 8)) * 2 ^ (8 - count % 8))

def extend (bytes : Array UInt8) : Parse Reservoir Unit := do
  let held := (← Parse.state).size
  Parse.require (held + bytes.size ≤ maxPacketBytes) (.reservoirBytes held bytes.size)
  Parse.update fun r => { r with bytes := r.bytes ++ bytes }

/-- Holds the beginning of another frame from now on. -/
def store (tail : Array UInt8) (bitOffset : Nat) : Parse Reservoir Unit := do
  Parse.require (tail.size ≤ maxPacketBytes) (.tailTooLong tail.size)
  Parse.setState ⟨tail, bitOffset⟩

end Reservoir

end Wma
