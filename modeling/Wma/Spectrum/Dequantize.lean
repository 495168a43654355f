import Wma.Bands.Layout
import Wma.Buffer
import Wma.Fixed.Gain
import Wma.Spectrum.Noise
import Wma.Spectrum.SideInfo

/-!
# Dequantization

A quantized block becomes a spectrum in two steps. The *plan* says for each coefficient, from the
lowest to the highest, where its value comes from: a level, noise, or both, and which entry of the
envelope scales it. Then the entries of the plan are worked out in turn, and each that needs noise
draws the next sample of it.

The envelope may be that of a block of another size. `Scaling.bin` takes a distance in the block to
a distance in the envelope. Distances and places are words of 64 bits: scaling up drops the high
bits of a distance.
-/

namespace Wma

/-- What the channels of a block have in common. -/
structure Scaling where
  bands : BlockBands
  coefsStart : Nat
  sizeIndex : Nat
  /-- Gain of the block in decibels. -/
  gain : Int
  norm : Gain
  noiseDivisor : Nat
  /-- Whether noise stands for coefficients that are not coded. -/
  noise : Bool
deriving DecidableEq, Repr

/-- Where the value of a coefficient comes from. The last field is the place in the envelope. -/
inductive BinSource
  | silence
  /-- What the buffer held before. -/
  | kept
  /-- A level alone. -/
  | level (index place : Nat)
  /-- Noise at the gain of the block. -/
  | noise (place : Nat)
  /-- A level with noise added. -/
  | noisyLevel (index place : Nat)
  /-- Noise at the gain of a high band. -/
  | bandNoise (band place : Nat)
deriving DecidableEq, Repr

/-- A stretch of coefficients with their levels or, if `band` is that of a noise band, without. -/
structure Segment where
  width : Nat
  band : Option Nat
deriving DecidableEq, Repr

namespace Scaling

/-- Fractional bits of a spectrum below those of a sample. -/
def unitBits : Int := 10

/-- Fractional bits of noise. -/
def noiseBits : Nat := 16

/-- Distance in the envelope of size index `envelopeSize` that `i` coefficients of the block
take. -/
def bin (s : Scaling) (envelopeSize i : Nat) : Nat :=
  i * 2 ^ s.sizeIndex % 2 ^ (64 : Nat) / 2 ^ envelopeSize

/-- The part below the noise band, and the high bands. -/
def segments (s : Scaling) (noise : NoiseBands) : List Segment :=
  ⟨s.bands.highStart - s.coefsStart, none⟩ ::
    s.bands.highBands.zipIdx.map fun (width, j) => ⟨width, if noise.holds j then some j else none⟩

/-- The plan of a block without noise, for `count` levels. Where levels are missing, the buffer
keeps what it held. -/
def plainPlan (s : Scaling) (envelopeSize count : Nat) : Except Error (List BinSource) := do
  let coded ← difference s.bands.coefsEnd s.coefsStart
  let room ← difference s.bands.length s.coefsStart
  let coded := min coded room
  if 0 < min coded count then
    checkShift s.sizeIndex
    checkShift envelopeSize
  return List.replicate s.coefsStart .silence ++
    (List.range (min coded count)).map (fun i => .level i (s.bin envelopeSize i)) ++
    List.replicate (coded - count) .kept ++
    List.replicate (room - coded) .silence

/-- The plan of segments for `room` more coefficients. The next level has the index `level`, and the
envelope goes on at `base`. What room the segments leave is filled with noise, all of it scaled by
the entry before the end of the envelope. -/
def noisyPlanFrom (s : Scaling) (envelopeSize : Nat) :
    List Segment → (level base room : Nat) → List BinSource
  | [], _, base, room =>
    let last := wrap64 base + -(2 ^ s.sizeIndex : Int) / 2 ^ envelopeSize
    List.replicate room (.noise last.toNat)
  | ⟨width, band⟩ :: rest, level, base, room =>
    let width := min width room
    let next := base + s.bin envelopeSize width
    match band with
    | some j =>
      (List.range width).map (fun i => .bandNoise j (base + s.bin envelopeSize i)) ++
        noisyPlanFrom s envelopeSize rest level next (room - width)
    | none =>
      (List.range width).map (fun i => .noisyLevel (level + i) (base + s.bin envelopeSize i)) ++
        noisyPlanFrom s envelopeSize rest (level + width) next (room - width)

/-- The plan of a block with noise. The length of the block's bins is negated, which takes one bit
more than the length. -/
def noisyPlan (s : Scaling) (envelopeSize : Nat) (noise : NoiseBands) :
    Except Error (List BinSource) := do
  checkShift (s.sizeIndex + 1)
  checkShift envelopeSize
  let room ← difference s.bands.length s.coefsStart
  return (List.range s.coefsStart).map (fun i => .noise (s.bin envelopeSize i)) ++
    noisyPlanFrom s envelopeSize (s.segments noise) 0 (s.bin envelopeSize s.coefsStart) room

/-- Where the values of the coefficients of a block with `count` levels come from. -/
def plan (s : Scaling) (envelopeSize count : Nat) (noise : NoiseBands) :
    Except Error (List BinSource) :=
  if s.noise then s.noisyPlan envelopeSize noise else s.plainPlan envelopeSize count

/-- An entry of an envelope; zero behind its end. -/
def entry (envelope : Array UInt32) (place : Nat) : Nat :=
  (envelope.getD place 0).toNat

/-- Mean square of the envelope over `width` coefficients from `base` on. -/
def bandPower (s : Scaling) (envelope : Array UInt32) (envelopeSize base width : Nat) : Nat :=
  ((List.range width).map fun i => entry envelope (base + s.bin envelopeSize i) ^ (2 : Nat)).sum /
    max width 1

def bandPowers (s : Scaling) (envelope : Array UInt32) (envelopeSize : Nat) (noise : NoiseBands) :
    (widths : List Nat) → (j base : Nat) → List Nat
  | [], _, _ => []
  | width :: widths, j, base =>
    (if noise.holds j then s.bandPower envelope envelopeSize base width else 0) ::
      bandPowers s envelope envelopeSize noise widths (j + 1) (base + s.bin envelopeSize width)

/-- The last band that holds noise, or the first one if none does. -/
def lastNoiseBand (s : Scaling) (noise : NoiseBands) : Nat :=
  ((List.range s.bands.highBands.length).filter noise.holds).getLastD 0

def blockGain (s : Scaling) : Except Error Gain :=
  do (← (Gain.ofDecibels s.gain).checkedMul s.norm).checkedScale unitBits

/-- The gain of a noise band of the given power, relative to the last one. -/
def bandGain (s : Scaling) (noise : NoiseBands) (lastRecip : Gain) (j power : Nat) :
    Except Error Gain :=
  if noise.holds j then do
    let ratio ← (← (Gain.ofFraction power 60).checkedMul lastRecip).checkedSqrt
    let decibels ← Buffer.lookup noise.gains.toArray j
    let gain ← ratio.checkedMul (Gain.ofDecibels decibels)
    let gain ← gain.checkedMul (Gain.ofNat s.noiseDivisor)
    (← gain.checkedMul s.norm).checkedScale unitBits
  else
    return .zero

def bandGains (s : Scaling) (envelope : Array UInt32) (envelopeSize : Nat) (noise : NoiseBands) :
    Except Error (List Gain) := do
  let base := s.bin envelopeSize s.bands.highStart
  let powers := s.bandPowers envelope envelopeSize noise s.bands.highBands 0 base
  let lastRecip ← (Gain.ofFraction (powers.getD (s.lastNoiseBand noise) 0) 60).checkedRecip
  powers.zipIdx.mapM fun (power, j) => s.bandGain noise lastRecip j power

structure Sources where
  before : Array Int32
  levels : Array Int32
  envelope : Array UInt32
  /-- The noise in front of the first coefficient. -/
  noise : Noise
  blockGain : Gain
  bandGains : Array Gain

namespace Sources

def level (x : Sources) (i : Nat) : Int :=
  (x.levels.getD i 0).toInt

/-- Scales a value with `fracBits` fractional bits by an entry of the envelope. -/
def scaled (x : Sources) (gain : Gain) (value : Int) (place fracBits : Nat) :
    Except Error Int32 := do
  gain.checkedApply (← int64 (value * entry x.envelope place)) (fracBits + 30)

/-- The value of coefficient `i`, and the noise that its source leaves. -/
def draw (x : Sources) (i : Nat) (noise : Noise) : BinSource → Except Error (Int32 × Noise)
  | .silence => .ok (0, noise)
  | .kept => .ok (x.before.getD i 0, noise)
  | .level j place => do
    return (← x.scaled x.blockGain (x.level j) place 0, noise)
  | .noise place => do
    let (sample, noise) ← noise.next
    return (← x.scaled x.blockGain sample place noiseBits, noise)
  | .noisyLevel j place => do
    let (sample, noise) ← noise.next
    return (← x.scaled x.blockGain (x.level j * 2 ^ noiseBits + sample) place noiseBits, noise)
  | .bandNoise band place => do
    let (sample, noise) ← noise.next
    return (← x.scaled (← Buffer.lookup x.bandGains band) sample place noiseBits, noise)

/-- The values of the coefficients from `i` on, and the noise that they leave. -/
def drawFrom (x : Sources) : (i : Nat) → List BinSource → Noise →
    Except Error (List Int32 × Noise)
  | _, [], noise => .ok ([], noise)
  | i, source :: plan, noise => do
    let (value, noise) ← x.draw i noise source
    let (values, noise) ← drawFrom x (i + 1) plan noise
    return (value :: values, noise)

end Sources

/-- Writes the spectrum of a block over the beginning of `buffer`. Gives the noise that is left as
well. -/
def dequantize (s : Scaling) (levels : Array Int32) (envelope : Array UInt32) (envelopeSize : Nat)
    (bands : NoiseBands) (noise : Noise) (buffer : Array Int32) :
    Except Error (Array Int32 × Noise) := do
  let before ← Buffer.slice buffer 0 s.bands.length
  let plan ← s.plan envelopeSize levels.size bands
  let bandGains ← if s.noise then s.bandGains envelope envelopeSize bands else .ok []
  let sources : Sources :=
    { before, levels, envelope, noise
      blockGain := ← s.blockGain
      bandGains := bandGains.toArray }
  let (spectrum, noise) ← sources.drawFrom 0 plan noise
  return (Buffer.overlay buffer spectrum.toArray, noise)

end Scaling

end Wma
