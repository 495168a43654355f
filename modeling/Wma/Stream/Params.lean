import Wma.Error

/-!
# Stream parameters

What a container says about a stream, before any of it is checked, and the small types into which it
is sorted: the version of the format, the channel layout and the flag word.
-/

namespace Wma

inductive Version
  | v1
  | v2
deriving DecidableEq, Repr

namespace Version

def tag : Version → Nat
  | v1 => 0x160
  | v2 => 0x161

def ofTag (tag : Nat) : Except Error Version :=
  if tag = v1.tag then .ok v1
  else if tag = v2.tag then .ok v2
  else .error (.setup (.codecTag tag))

end Version

inductive ChannelLayout
  | mono
  | stereo
deriving DecidableEq, Repr

namespace ChannelLayout

def count : ChannelLayout → Nat
  | mono => 1
  | stereo => 2

def ofCount (count : Nat) : Except Error ChannelLayout :=
  if count = 1 then .ok mono
  else if count = 2 then .ok stereo
  else .error (.setup (.channelCount count))

end ChannelLayout

/-- The parameters of a stream as a container states them. -/
structure Params where
  sampleRate : UInt32
  channels : UInt8
  bitRate : UInt32
  blockAlign : UInt16
  codecTag : UInt32
  /-- Data private to the codec, which holds the flag word. -/
  extradata : Array UInt8
deriving DecidableEq, Repr

structure StreamFlags where
  bits : UInt16
deriving DecidableEq, Repr

namespace StreamFlags

/-- Place of the flag word in private data of the given size. -/
def place (version : Version) (size : Nat) : Option Nat :=
  if version = .v2 ∧ 6 ≤ size then some 4
  else if 4 ≤ size then some 2
  else if 2 ≤ size then some 0
  else none

/-- The flag word in the private data, low byte first. -/
def ofExtradata (version : Version) (extradata : Array UInt8) : Except Error StreamFlags :=
  match place version extradata.size with
  | some i =>
    .ok ⟨(extradata.getD i 0).toUInt16 ||| (extradata.getD (i + 1) 0).toUInt16 <<< 8⟩
  | none => .error (.setup (.noFlagWord extradata.size))

def steppedEnvelope (f : StreamFlags) : Bool :=
  f.bits &&& 1 != 0

def bitReservoir (f : StreamFlags) : Bool :=
  f.bits &&& 2 != 0

def variableBlocks (f : StreamFlags) : Bool :=
  f.bits &&& 4 != 0

/-- Number of block sizes that the encoder asks for beyond its default. -/
def extraBlockSizes (f : StreamFlags) : Nat :=
  ((f.bits >>> 3) &&& 3).toNat

end StreamFlags

end Wma
