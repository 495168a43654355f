import Wma.Envelope.LinePairs
import Wma.Envelope.Stepped
import Wma.Frame.State
import Wma.Spectrum.Dequantize
import Wma.Spectrum.Levels

/-!
# The spectra of a block

A block of which any channel is coded goes on with its gain, the noise bands, the envelopes and the
levels of its coded channels. These are then turned into spectra, and mid and side into left and
right.

Each kind of data is read for all channels before the next kind begins. An envelope is read for a
block of the length of the frame, and for a shorter one only if a bit asks for it; otherwise the
last envelope goes on to hold.
-/

namespace Wma

/-- Left and right channel of a mid and a side channel, their mean and half their difference. What
one of them has more than the other stays as it is. -/
def leftRight (mid side : Array Int32) : Array Int32 × Array Int32 :=
  (Array.zipWith addSaturated mid side ++ mid.extract side.size mid.size,
    Array.zipWith subSaturated mid side ++ side.extract mid.size side.size)

namespace Lane

def readNoiseFlags (bands : BlockBands) : Parse Lane Unit :=
  onChannel <| Parse.focus (·.noiseBands) (fun n c => { c with noiseBands := n })
    (NoiseBands.readFlags bands.highBands)

def readNoiseGains (s : Stream) : Parse Lane Unit :=
  onChannel <| Parse.focus (·.noiseBands) (fun n c => { c with noiseBands := n })
    (NoiseBands.readGains s.books.noiseGain)

def readRatios (s : Stream) (bands : BlockBands) : Parse Lane (Array UInt32) := do
  if s.config.steppedEnvelope then
    SteppedEnvelope.read s.books.envelope s.config.version bands.envelopeBands bands.length
  else
    let pairs ← LinePairs.read
    let work := (← Parse.state).work
    let (ratios, curve) ← Parse.ofExcept
      (LinePairs.ratios s.layout.lineCosines pairs work.curve bands.length)
    Parse.update fun l => { l with work := { l.work with curve } }
    return ratios

def readEnvelope (s : Stream) (sizeIndex : Nat) (bands : BlockBands) : Parse Lane Unit := do
  Parse.ofExcept (Buffer.room (← Parse.state).channel.envelope bands.length)
  let ratios ← readRatios s bands
  onChannel <| Parse.update fun c =>
    { c with
      envelope := Buffer.overlay c.envelope ratios
      envelopeSize := sizeIndex
      hasEnvelope := true }

/-- Number of levels of a block. Coefficients that noise stands for have none. -/
def levelCount (s : Stream) (bands : BlockBands) (noise : NoiseBands) : Except Error Nat := do
  let coded ← difference bands.coefsEnd s.layout.coefsStart
  if s.config.noiseCoding then
    difference coded (noise.substituted bands.highBands)
  else
    return coded

def readLevels (s : Stream) (bands : BlockBands) (book : RunLevelBook) (levelBits : Nat) :
    Parse Lane Unit :=
  onChannel do
    let count ← Parse.ofExcept (levelCount s bands (← Parse.state).noiseBands)
    Parse.ofExcept (Buffer.room (← Parse.state).levels bands.length)
    Parse.focus (·.levels.extract 0 bands.length)
      (fun levels c => { c with levels := Buffer.overlay c.levels levels })
      (Levels.read book levelBits s.config.frameBits count)

def dequantize (scaling : Scaling) : Parse Lane Unit :=
  Parse.updateM fun l => do
    let c := l.channel
    let (spectrum, noise) ←
      scaling.dequantize c.levels c.envelope c.envelopeSize c.noiseBands l.noise c.spectrum
    return { l with channel := { c with spectrum }, noise }

end Lane

namespace FrameState

/-- Whether the block brings new envelopes. -/
def readEnvelopeBit (s : Stream) : Parse FrameState Bool := do
  if (← Parse.state).block.bits = s.config.frameBits then return true else Parse.readBit

/-- Reads the envelopes of a block, if there are any, and makes sure that no channel goes
without. -/
def readEnvelopes (s : Stream) (sizeIndex : Nat) (bands : BlockBands) : Parse FrameState Unit := do
  if ← readEnvelopeBit s then
    eachChannel fun _ => Lane.whenCoded (Lane.readEnvelope s sizeIndex bands)
  let channels := (← Parse.state).channels.toList
  Parse.require (channels.all fun c => !c.coded || c.hasEnvelope) .noEnvelope

def levelBook (s : Stream) (midSide : Bool) (place : ChannelPlace) : Except Error RunLevelBook := do
  let (plain, side) ← Buffer.lookup s.books.levels s.config.rateClass
  return if midSide ∧ place = .second then side else plain

/-- Reads the levels of all channels. In the first version of the format, each of two channels ends
on a byte boundary, whether it is coded or not. -/
def readLevels (s : Stream) (bands : BlockBands) (gain : Int) : Parse FrameState Unit := do
  let midSide := (← Parse.state).block.midSide
  eachChannel fun place => do
    Lane.whenCoded do
      let book ← Parse.ofExcept (levelBook s midSide place)
      Lane.readLevels s bands book (BlockGain.levelBits gain)
    if s.config.version = .v1 ∧ s.config.channels = .stereo then
      Parse.align

/-- What the channels of a block have in common. -/
def scaling (s : Stream) (blockBits sizeIndex : Nat) (bands : BlockBands) (gain : Int) :
    Scaling where
  bands := bands
  coefsStart := s.layout.coefsStart
  sizeIndex := sizeIndex
  gain := gain
  norm := BlockGain.blockNorm s.config.version blockBits
  noiseDivisor := s.config.noiseDivisor
  noise := s.config.noiseCoding

/-- Left and right of a mid and a side channel. A mid channel that is not coded is silent. -/
def separate (length : Nat) (mid side : Channel) : Except Error (Channel × Channel) := do
  let middle ← Buffer.slice mid.spectrum 0 length
  let middle := if mid.coded then middle else Array.replicate length 0
  let (left, right) := leftRight middle (← Buffer.slice side.spectrum 0 length)
  return ({ mid with spectrum := Buffer.overlay mid.spectrum left, coded := true },
    { side with spectrum := Buffer.overlay side.spectrum right })

/-- Turns mid and side into left and right. Where the side channel is not coded, both are the mid
channel, and nothing is done. -/
def undoMidSide (length : Nat) (s : FrameState) : Except Error FrameState :=
  match s.channels with
  | .mono _ => .ok s
  | .stereo mid side =>
    if s.block.midSide && side.coded then do
      let (left, right) ← separate length mid side
      return { s with channels := .stereo left right }
    else
      .ok s

def readSpectra (s : Stream) : Parse FrameState Unit := do
  let blockBits := (← Parse.state).block.bits
  let sizeIndex ← Parse.ofExcept (difference s.config.frameBits blockBits)
  let some bands := s.layout.blocks[sizeIndex]? | Parse.corrupt (.noBandLayout sizeIndex)
  let gain ← BlockGain.read
  if s.config.noiseCoding then
    eachChannel fun _ => Lane.whenCoded (Lane.readNoiseFlags bands)
    eachChannel fun _ => Lane.whenCoded (Lane.readNoiseGains s)
  readEnvelopes s sizeIndex bands
  readLevels s bands gain
  eachChannel fun _ =>
    Lane.whenCoded (Lane.dequantize (scaling s blockBits sizeIndex bands gain))
  Parse.updateM (undoMidSide bands.length)

end FrameState

end Wma
