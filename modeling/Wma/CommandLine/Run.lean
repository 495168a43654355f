import Wma.CommandLine.Arguments
import Wma.Decoder
import Wma.Stream.ParamsJson
import Wma.Text.Radix

/-!
# The command

The command reads a file of packets, one after the other, and writes the values that they give, each
as two bytes, the low one first. Packets that cannot be decoded are left out. The parameters of the
stream come from options, or from a JSON file, in which case the options for them mean nothing.

`run` works on any `Directory`, that is, on anything that can read and write files.
-/

namespace Wma.CommandLine

/-- Where files are read and written. -/
structure Directory (m : Type → Type) where
  read : String → m (Option (Array UInt8))
  /-- Writes a file and tells whether that worked. -/
  write : String → Array UInt8 → m Bool

inductive Failure
  | io
  | json
  | hex
  | decoder (e : Error)
deriving DecidableEq, Repr

namespace Failure

def message : Failure → String
  | io => "Io"
  | json => "Json"
  | hex => "Hex"
  | decoder (.setup cause) => "Decoder(InitFailed(\"" ++ cause.message ++ "\"))"
  | decoder e => "Decoder(" ++ e.message ++ ")"

end Failure

inductive Outcome
  | done
  | stopped (why : Stop)
  | failed (f : Failure)
deriving DecidableEq, Repr

namespace Outcome

def code : Outcome → Nat
  | done => 0
  | stopped .information => 0
  | failed _ => 1
  | stopped .usage => 2

end Outcome

def optionParams (a : Arguments) : Except Failure Params :=
  match Hex.bytes (a.extradata.getD "00001f00").toList with
  | some extradata =>
    .ok {
      sampleRate := a.sampleRate.getD 44100
      channels := a.channels.getD 2
      bitRate := a.bitRate.getD 128000
      blockAlign := a.blockAlign.getD 4096
      codecTag := a.codecTag.getD 0x161
      extradata := extradata.toArray }
  | none => .error .hex

def fileParams (bytes : Array UInt8) : Except Failure Params :=
  match String.fromUTF8? ⟨bytes⟩ with
  | some text =>
    match Params.ofText text with
    | some p => .ok p
    | none => .error .json
  | none => .error .io

/-- Cuts bytes into packets. The last one may be shorter. -/
def packets (size : Nat) (bytes : Array UInt8) : List (Array UInt8) :=
  (List.range ((bytes.size + size - 1) / size)).map fun i =>
    bytes.extract (i * size) ((i + 1) * size)

/-- The bytes of a value, the low one first. -/
def valueBytes (x : Int16) : Array UInt8 :=
  #[UInt8.ofNat x.toUInt16.toNat, UInt8.ofNat (x.toUInt16.toNat / 256)]

/-- Decodes packets one after the other, and appends the bytes of their values to `out`. -/
def decodePackets (d : Decoder) (pcm : Array Int16) :
    List (Array UInt8) → (out : Array UInt8) → Except Failure (Array UInt8)
  | [], out => .ok out
  | packet :: rest, out =>
    let o := d.decode packet pcm
    match o.report with
    | .ok report =>
      let values := o.pcm.extract 0 report.samples
      decodePackets o.decoder o.pcm rest (out ++ values.flatMap valueBytes)
    | .error e =>
      if e.isRecoverable then decodePackets o.decoder o.pcm rest out else .error (.decoder e)

def decodeFile (d : Decoder) (bytes : Array UInt8) : Except Failure (Array UInt8) :=
  decodePackets d (Array.replicate d.maxSamples 0) (packets d.config.blockAlign bytes) #[]

variable {m : Type → Type} [Monad m]

def ofExcept {α : Type} (x : Except Failure α) : ExceptT Failure m α :=
  ExceptT.mk (pure x)

def require (dir : Directory m) (path : String) : ExceptT Failure m (Array UInt8) := do
  match ← dir.read path with
  | some bytes => return bytes
  | none => throw .io

def paramsOf (dir : Directory m) (a : Arguments) : ExceptT Failure m Params := do
  match a.params with
  | some path => ofExcept (fileParams (← require dir path))
  | none => ofExcept (optionParams a)

def convert (dir : Directory m) (a : Arguments) (file output : String) :
    ExceptT Failure m Unit := do
  let params ← paramsOf dir a
  let d ← ofExcept ((Decoder.ofParams params).mapError Failure.decoder)
  let bytes ← require dir file
  let out ← ofExcept (decodeFile d bytes)
  unless ← dir.write output out do throw .io

def run (dir : Directory m) (args : List String) : m Outcome := do
  match take args {} with
  | .error why => return .stopped why
  | .ok a =>
    match a.file, a.output with
    | some file, some output =>
      match ← (convert dir a file output).run with
      | .ok _ => return .done
      | .error f => return .failed f
    | _, _ => return .stopped .usage

end Wma.CommandLine
