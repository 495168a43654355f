import Wma.Frame.State
import Wma.Synthesis.Overlap

/-!
# From spectra to samples

The spectrum of a channel is transformed into samples, which are overlapped with those of the blocks
around it. A channel without a spectrum is silent; but if the side channel of a mid/side pair has
none, the samples of the mid channel stand for both.

Samples become 16-bit values, two of them in a row for each moment: one of the left and one of the
right channel. A single channel goes to both sides.
-/

namespace Wma

namespace Pcm

def fracBits : Nat := 10

/-- The 16-bit value of a sample, rounded down and clipped. -/
def ofSample (x : Int32) : Int16 :=
  Int16.ofInt (max (-2 ^ (15 : Nat)) (min (x.toInt / 2 ^ fracBits) (2 ^ (15 : Nat) - 1)))

/-- The values of both channels in turn, as far as both go. -/
def interleave (left right : Array Int32) : Array Int16 :=
  (left.zip right).flatMap fun (l, r) => #[ofSample l, ofSample r]

end Pcm

namespace Lane

/-- The samples of a channel's block, in the work buffers. -/
def transform (block : BlockState) (place : ChannelPlace) (l : Lane) :
    Except Error WorkBuffers := do
  Buffer.room l.work.samples (2 * block.length)
  if l.channel.coded then
    let (samples, points) ←
      Imdct.ofSpectrum (block.bits - 1) l.channel.spectrum l.work.points
    return { l.work with samples := Buffer.overlay l.work.samples samples, points }
  else if block.midSide ∧ place = .second then
    return l.work
  else
    let silence := Array.replicate (2 * block.length) 0
    return { l.work with samples := Buffer.overlay l.work.samples silence }

/-- Overlaps the samples of a channel's block with those of the blocks around it. Whatever the length
of the block, the first half of its samples has its middle half a frame behind the position of the
block, so that the samples of a block as long as the frame fill the overlap buffer. -/
def synthesize (frameLength : Nat) (block : BlockState) (place : ChannelPlace) (l : Lane) :
    Except Error Lane := do
  let work ← l.transform block place
  let start ← difference (frameLength / 2 + block.position) (block.length / 2)
  let overlap ← block.shape.overlapAdd l.channel.overlap start work.samples
  return { l with channel := { l.channel with overlap }, work }

end Lane

namespace FrameState

/-- Turns the spectra of a block into samples. -/
def synthesize (c : Config) : Parse FrameState Unit := do
  let block := (← Parse.state).block
  Parse.ofExcept (checkBlock block.bits)
  eachChannel fun place => Parse.updateM (·.synthesize c.frameLength block place)

def values (c : Config) (s : FrameState) : Except Error (Array Int16) := do
  let left ← Buffer.slice (s.channels.get .first).overlap 0 c.frameLength
  let right ← Buffer.slice (s.channels.get .second).overlap 0 c.frameLength
  return Pcm.interleave left right

def shift (c : Config) (s : FrameState) : FrameState :=
  { s with channels := s.channels.map (·.shift c.frameLength) }

end FrameState

end Wma
