import Wma.Bands.Layout
import Wma.Bits.Parse
import Wma.Frame.Channel
import Wma.Spectrum.Noise
import Wma.Synthesis.Window
import Wma.Transform.Imdct

/-!
# The state of frame decoding

A `Stream` is what stays the same throughout a stream, and a `FrameState` what changes from block to
block. The work buffers of the latter belong to no block: whatever they hold, it is written over
before it is used, except that the second channel of a mid/side block may take over the samples of
the first.
-/

namespace Wma

/-- What stays the same throughout a stream. -/
structure Stream where
  config : Config
  layout : BandLayout
  books : Books

namespace Stream

/-- Prepares a stream, if there is a transform for every block size. -/
def ofConfig (c : Config) : Except Error Stream := do
  let books ← Books.builtIn
  (List.range c.sizeCount).forM fun index => checkBlock (c.frameBits - index)
  return { config := c, layout := .ofConfig c, books }

end Stream

/-- Where a block stands among its neighbours. -/
structure BlockState where
  prevBits : Nat
  bits : Nat
  nextBits : Nat
  /-- Whether the next block states all three lengths. -/
  reset : Bool
  /-- Samples of the frame in front of the block. -/
  position : Nat
  length : Nat
  /-- Whether the channels are mid and side. -/
  midSide : Bool
deriving DecidableEq, Repr

namespace BlockState

def initial (frameBits : Nat) : BlockState where
  prevBits := frameBits
  bits := frameBits
  nextBits := frameBits
  reset := true
  position := 0
  length := 2 ^ frameBits
  midSide := false

def shape (b : BlockState) : BlockShape :=
  ⟨b.prevBits, b.bits, b.nextBits⟩

end BlockState

structure WorkBuffers where
  samples : Array Int32
  points : Array (Phasor Int32)
  /-- An envelope before it is divided by its peak. -/
  curve : Array Gain
deriving DecidableEq, Repr

namespace WorkBuffers

def initial (frameLength : Nat) : WorkBuffers where
  samples := Array.replicate (2 * frameLength) 0
  points := Array.replicate (frameLength / 2) ⟨0, 0⟩
  curve := Array.replicate frameLength .zero

end WorkBuffers

/-- What changes from block to block. -/
structure FrameState where
  block : BlockState
  channels : PerChannel Channel
  noise : Noise
  work : WorkBuffers
deriving DecidableEq, Repr

/-- The part of the state that one channel works on. -/
structure Lane where
  channel : Channel
  noise : Noise
  work : WorkBuffers
deriving DecidableEq, Repr

namespace FrameState

def initial (c : Config) : FrameState where
  block := .initial c.frameBits
  channels := .replicate (.initial c.frameLength) c.channels
  noise := .ofDivisor c.noiseDivisor
  work := .initial c.frameLength

/-- Goes back to the start of a stream. The work buffers stay as they are. -/
def restart (c : Config) (s : FrameState) : FrameState :=
  { s with
    block := .initial c.frameBits
    channels := s.channels.map fun _ => .initial c.frameLength
    noise := s.noise.rewind }

/-- Makes the next block state all three lengths. -/
def resetLengths (s : FrameState) : FrameState :=
  { s with block := { s.block with reset := true } }

def lane (place : ChannelPlace) (s : FrameState) : Lane :=
  ⟨s.channels.get place, s.noise, s.work⟩

def setLane (place : ChannelPlace) (l : Lane) (s : FrameState) : FrameState :=
  { s with channels := s.channels.set place l.channel, noise := l.noise, work := l.work }

def onBlock {α : Type} (p : Parse BlockState α) : Parse FrameState α :=
  Parse.focus (·.block) (fun b s => { s with block := b }) p

def eachChannel (p : ChannelPlace → Parse Lane Unit) : Parse FrameState Unit := do
  (← Parse.state).channels.places.forM fun place =>
    Parse.focus (lane place) (setLane place) (p place)

end FrameState

namespace Lane

variable {α : Type}

def onChannel (p : Parse Channel α) : Parse Lane α :=
  Parse.focus (·.channel) (fun c l => { l with channel := c }) p

/-- Runs a step if the block of the channel has a spectrum. -/
def whenCoded (p : Parse Lane Unit) : Parse Lane Unit := do
  if (← Parse.state).channel.coded then p

end Lane

end Wma
