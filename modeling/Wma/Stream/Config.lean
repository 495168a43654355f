import Wma.Fixed.Root
import Wma.Stream.Params

/-!
# Stream configuration

`Config.ofParams` checks the parameters of a stream and works out every constant that decoding
needs: the frame length, the number of block sizes, the widths of header fields, the class of the
code books and the band above which noise may stand for coefficients. Rates per sample are compared
as exact fractions.
-/

namespace Wma

/-- Binary logarithm of the shortest block. -/
def minBlockBits : Nat := 7

def maxBlockBits : Nat := 11

/-- The most bytes that the bit reservoir holds, and the largest packet. -/
def maxPacketBytes : Nat := 16384

structure BitDensity where
  bits : Nat
  samples : Nat

namespace BitDensity

/-- Whether the density is at least `milli` thousandths. -/
def atLeast (d : BitDensity) (milli : Nat) : Bool :=
  milli * d.samples ≤ d.bits * 1000

def above (d : BitDensity) (milli : Nat) : Bool :=
  milli * d.samples < d.bits * 1000

end BitDensity

/-- Binary logarithm of the frame length at a sample rate. -/
def frameBitsOf (sampleRate : Nat) (version : Version) : Nat :=
  if sampleRate ≤ 16000 then 9
  else if sampleRate ≤ 22050 ∨ (sampleRate ≤ 32000 ∧ version = .v1) then 10
  else maxBlockBits

/-- The sample rate by which the second version chooses its noise policy. -/
def policyRate (version : Version) (sampleRate : Nat) : Nat :=
  match version with
  | .v1 => sampleRate
  | .v2 => ([44100, 22050, 16000, 11025, 8000].find? (· ≤ sampleRate)).getD sampleRate

/-- Start of the noise band in thousandths of a block, or nothing if no noise is used. `density` is
the rate of the stream, and `scaled` the same corrected for the gain of coding two channels. -/
def noiseBand (version : Version) (sampleRate : Nat) (density scaled : BitDensity) : Option Nat :=
  match policyRate version sampleRate with
  | 44100 => if scaled.atLeast 610 then none else some 400
  | 22050 =>
    if scaled.atLeast 1160 then none else if scaled.atLeast 720 then some 700 else some 600
  | 16000 => if density.above 500 then some 500 else some 300
  | 11025 => some 700
  | 8000 =>
    if !density.above 625 then some 500 else if density.above 750 then none else some 650
  | _ =>
    if density.atLeast 800 then some 750 else if density.atLeast 600 then some 600 else some 500

structure Config where
  version : Version
  channels : ChannelLayout
  sampleRate : Nat
  bitRate : Nat
  blockAlign : Nat
  flags : StreamFlags
  /-- Whether frames are split into blocks of varying length. -/
  variableBlocks : Bool
  frameBits : Nat
  /-- Number of block sizes, each half the one before. -/
  sizeCount : Nat
  /-- Width of the byte part of the bit offset in a superframe header. -/
  offsetBits : Nat
  rateClass : Nat
  /-- Start of the noise band in thousandths of a block, if noise is used. -/
  noiseStart : Option Nat
deriving DecidableEq, Repr

namespace Config

def frameLength (c : Config) : Nat :=
  2 ^ c.frameBits

/-- Interleaved values that a frame writes. -/
def frameSamples (c : Config) : Nat :=
  2 * c.frameLength

def steppedEnvelope (c : Config) : Bool :=
  c.flags.steppedEnvelope

/-- Whether frames may go on from packet to packet. -/
def bitReservoir (c : Config) : Bool :=
  c.flags.bitReservoir

/-- Whether noise stands for coefficients that are not coded. -/
def noiseCoding (c : Config) : Bool :=
  c.noiseStart.isSome

/-- Start of the noise band in thousandths of a block, which is its end if no noise is used. -/
def noisePermille (c : Config) : Nat :=
  c.noiseStart.getD 1000

/-- One divided by the amplitude of the noise, but for a constant factor. -/
def noiseDivisor (c : Config) : Nat :=
  if c.steppedEnvelope then 50 else 25

/-- Width of a block size selector; zero if there is one block size only. -/
def selectorBits (c : Config) : Nat :=
  if c.sizeCount ≤ 1 then 0 else log2Floor (c.sizeCount - 1) + 1

def headerBits (c : Config) : Nat :=
  4 + 4 + c.offsetBits + 3

end Config

def Params.check (p : Params) : Except Error Unit := do
  if p.sampleRate.toNat = 0 ∨ 96000 < p.sampleRate.toNat then
    throw (.setup (.sampleRate p.sampleRate.toNat))
  if p.bitRate.toNat = 0 then
    throw (.setup .zeroBitRate)
  if p.blockAlign.toNat = 0 ∨ maxPacketBytes < p.blockAlign.toNat then
    throw (.setup (.blockAlign p.blockAlign.toNat))

/-- Whether frames are split into blocks of varying length. The flag is not to be trusted in the
word `0x000d` of a known encoder, which writes at least eight bytes of private data. -/
def splitsFrames (version : Version) (flags : StreamFlags) (extradata : Array UInt8) : Bool :=
  flags.variableBlocks && !(version == .v2 && 8 ≤ extradata.size && flags.bits == 0x000d)

def blockSizes (flags : StreamFlags) (channelRate frameBits : Nat) : Nat :=
  let wanted := flags.extraBlockSizes + 1 + if 32000 ≤ channelRate then 2 else 0
  min wanted (frameBits - minBlockBits) + 1

def offsetBitsOf (density : BitDensity) (frameLength : Nat) : Nat :=
  let frameBytes := (2 * density.bits * frameLength + 8 * density.samples) / (16 * density.samples)
  log2Floor (min frameBytes (2 ^ (32 : Nat) - 1)) + 2

def rateClassOf (sampleRate : Nat) (scaled : BitDensity) : Nat :=
  if 32000 ≤ sampleRate then
    if !scaled.atLeast 720 then 0 else if !scaled.atLeast 1160 then 1 else 2
  else
    2

/-- Checks the parameters of a stream and works out its constants. -/
def Config.ofParams (p : Params) : Except Error Config := do
  let version ← Version.ofTag p.codecTag.toNat
  let channels ← ChannelLayout.ofCount p.channels.toNat
  p.check
  let flags ← StreamFlags.ofExtradata version p.extradata
  let sampleRate := p.sampleRate.toNat
  let bitRate := p.bitRate.toNat
  let variableBlocks := splitsFrames version flags p.extradata
  let frameBits := frameBitsOf sampleRate version
  let density : BitDensity := ⟨bitRate, channels.count * sampleRate⟩
  let scaled : BitDensity :=
    match channels with
    | .mono => density
    | .stereo => ⟨density.bits * 16, density.samples * 10⟩
  let offsetBits := offsetBitsOf density (2 ^ frameBits)
  if 25 < offsetBits + 3 then
    throw (.setup (.headerTooWide bitRate))
  return {
    version, channels, sampleRate, bitRate, flags, variableBlocks, frameBits, offsetBits
    blockAlign := p.blockAlign.toNat
    sizeCount :=
      if variableBlocks then blockSizes flags (bitRate / channels.count) frameBits else 1
    rateClass := rateClassOf sampleRate scaled
    noiseStart := noiseBand version sampleRate density scaled }

end Wma
