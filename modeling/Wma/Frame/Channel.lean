import Wma.Spectrum.SideInfo

/-!
# Channels

A `Channel` holds what is known of one channel: the block at hand in its stages, the envelope it was
last given, and the samples that blocks still overlap in. `PerChannel` holds one value for each
channel of a stream, which has one channel or two.
-/

namespace Wma

/-- What is known of a channel. The first three arrays have room for a frame. -/
structure Channel where
  levels : Array Int32
  spectrum : Array Int32
  /-- Envelope as ratios of its peak, with 30 fractional bits. -/
  envelope : Array UInt32
  /-- Index of the block size that the envelope was read for. -/
  envelopeSize : Nat
  hasEnvelope : Bool
  noiseBands : NoiseBands
  /-- Whether the block has a spectrum. -/
  coded : Bool
  /-- Samples of two frames, the first of which is complete when its last block is. -/
  overlap : Array Int32
deriving DecidableEq, Repr

namespace Channel

def initial (frameLength : Nat) : Channel where
  levels := Array.replicate frameLength 0
  spectrum := Array.replicate frameLength 0
  envelope := Array.replicate frameLength 0
  envelopeSize := 0
  hasEnvelope := false
  noiseBands := .none
  coded := false
  overlap := Array.replicate (2 * frameLength) 0

/-- Drops the first frame of the overlap and makes room for another behind the second. -/
def shift (frameLength : Nat) (c : Channel) : Channel :=
  { c with
    overlap := c.overlap.extract frameLength c.overlap.size ++ Array.replicate frameLength 0 }

end Channel

inductive ChannelPlace
  | first
  | second
deriving DecidableEq, Repr

inductive PerChannel (α : Type)
  | mono (only : α)
  | stereo (first second : α)
deriving DecidableEq, Repr

namespace PerChannel

variable {α : Type}

def replicate (a : α) : ChannelLayout → PerChannel α
  | .mono => .mono a
  | .stereo => .stereo a a

/-- The places that have a value of their own. -/
def places : PerChannel α → List ChannelPlace
  | mono _ => [.first]
  | stereo .. => [.first, .second]

/-- The value at a place. A single channel stands at both. -/
def get : PerChannel α → ChannelPlace → α
  | mono a, _ => a
  | stereo a _, .first => a
  | stereo _ b, .second => b

def set : PerChannel α → ChannelPlace → α → PerChannel α
  | mono _, _, c => .mono c
  | stereo _ b, .first, c => .stereo c b
  | stereo a _, .second, c => .stereo a c

def map {β : Type} (f : α → β) : PerChannel α → PerChannel β
  | mono a => .mono (f a)
  | stereo a b => .stereo (f a) (f b)

def toList : PerChannel α → List α
  | mono a => [a]
  | stereo a b => [a, b]

end PerChannel

end Wma
