import Wma.Stream.Params
import Wma.Text.Radix

/-!
# Command line arguments

The command takes the path of a file of packets and options, each with a value. An option is written
`--name value` or `--name=value`, and `-o` is short for `--output`; behind `-o` the value may follow
at once, with or without an equals sign. Arguments behind `--` are no options. A value that is an
argument of its own does not begin with a dash, unless it is a dash alone.

Arguments are taken in order. The first one that cannot be taken stops the command, and so does a
request for help or for the version.
-/

namespace Wma.CommandLine

/-- Why the command does not run. -/
inductive Stop
  | usage
  | information
deriving DecidableEq, Repr

inductive OptionName
  | output
  | params
  | sampleRate
  | channels
  | bitRate
  | blockAlign
  | codecTag
  | extradata
deriving DecidableEq, Repr

namespace OptionName

def ofText : String → Option OptionName
  | "output" => some output
  | "params" => some params
  | "sample-rate" => some sampleRate
  | "channels" => some channels
  | "bit-rate" => some bitRate
  | "block-align" => some blockAlign
  | "codec-tag" => some codecTag
  | "extradata" => some extradata
  | _ => none

end OptionName

structure Arguments where
  file : Option String := none
  output : Option String := none
  params : Option String := none
  sampleRate : Option UInt32 := none
  channels : Option UInt8 := none
  bitRate : Option UInt32 := none
  blockAlign : Option UInt16 := none
  codecTag : Option UInt32 := none
  extradata : Option String := none
deriving DecidableEq, Repr

/-! ### Values -/

/-- A number with an optional sign, as far as a word of 64 bits holds it. -/
def signed (s : String) : Option Int := do
  let (negative, digits) := match s.toList with
    | '-' :: cs => (true, cs)
    | '+' :: cs => (false, cs)
    | cs => (false, cs)
  let n ← Radix.value 10 digits
  let value : Int := if negative then -n else n
  if -2 ^ (63 : Nat) ≤ value ∧ value < 2 ^ (63 : Nat) then some value else none

def number (bound : Nat) (s : String) : Option Nat := do
  let value ← signed s
  if 0 ≤ value ∧ value < bound then some value.toNat else none

/-- A number below `2 ^ 32` without a minus sign. -/
def word32 (base : Nat) (digits : List Char) : Option UInt32 := do
  let digits := match digits with
    | '+' :: cs => cs
    | cs => cs
  let n ← Radix.value base digits
  if n < UInt32.size then some (UInt32.ofNat n) else none

/-- A codec tag, in base sixteen behind the mark `0x` and in base ten otherwise. -/
def codecTag (s : String) : Option UInt32 :=
  match s.toList with
  | '0' :: 'x' :: cs => word32 16 cs
  | cs => word32 10 cs

def path (s : String) : Option String :=
  if s.isEmpty then none else some s

def fill {α : Type} (place value : Option α) : Except Stop (Option α) :=
  match place, value with
  | none, some x => .ok (some x)
  | _, _ => .error .usage

namespace Arguments

def setOption (a : Arguments) (name : OptionName) (s : String) : Except Stop Arguments := do
  match name with
  | .output => return { a with output := ← fill a.output (path s) }
  | .params => return { a with params := ← fill a.params (path s) }
  | .sampleRate =>
    return { a with sampleRate := ← fill a.sampleRate ((number UInt32.size s).map UInt32.ofNat) }
  | .channels =>
    return { a with channels := ← fill a.channels ((number UInt8.size s).map UInt8.ofNat) }
  | .bitRate => return { a with bitRate := ← fill a.bitRate ((number UInt32.size s).map UInt32.ofNat) }
  | .blockAlign =>
    return { a with blockAlign := ← fill a.blockAlign ((number UInt16.size s).map UInt16.ofNat) }
  | .codecTag => return { a with codecTag := ← fill a.codecTag (CommandLine.codecTag s) }
  | .extradata => return { a with extradata := ← fill a.extradata (some s) }

def setFile (a : Arguments) (s : String) : Except Stop Arguments := do
  return { a with file := ← fill a.file (path s) }

end Arguments

/-! ### Options -/

inductive Word
  | separator
  /-- An option that takes a value, with the value if it is attached. -/
  | option (name : OptionName) (value : Option String)
  | value (s : String)
  | stop (why : Stop)
deriving DecidableEq, Repr

namespace Word

def ofLong (s : List Char) : Word :=
  let name := String.ofList (s.takeWhile (· != '='))
  let value := match s.dropWhile (· != '=') with
    | '=' :: cs => some (String.ofList cs)
    | _ => none
  if name = "help" ∨ name = "version" then
    stop (if value.isSome then .usage else .information)
  else
    match OptionName.ofText name with
    | some name => option name value
    | none => stop .usage

def ofShort : List Char → Word
  | ['o'] => option .output none
  | 'o' :: '=' :: cs => option .output (some (String.ofList cs))
  | 'o' :: cs => option .output (some (String.ofList cs))
  | 'h' :: _ => stop .information
  | 'V' :: _ => stop .information
  | _ => stop .usage

/-- What an argument is that stands before any separator. -/
def ofArgument (s : String) : Word :=
  match s.toList with
  | ['-', '-'] => separator
  | '-' :: '-' :: cs => ofLong cs
  | ['-'] => value s
  | '-' :: cs => ofShort cs
  | _ => value s

end Word

/-- Takes arguments in order, after those that gave `a`. -/
def take : List String → Arguments → Except Stop Arguments
  | [], a => .ok a
  | s :: rest, a =>
    match Word.ofArgument s with
    | .separator => rest.foldlM Arguments.setFile a
    | .value s => do take rest (← a.setFile s)
    | .option name (some value) => do take rest (← a.setOption name value)
    | .option name none =>
      match rest with
      | [] => .error .usage
      | s :: rest =>
        match Word.ofArgument s with
        | .value value => do take rest (← a.setOption name value)
        | _ => .error .usage
    | .stop why => .error why

end Wma.CommandLine
