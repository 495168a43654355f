import Wma.Bits.Parse
import Wma.Buffer
import Wma.Envelope.Tables
import Wma.Fixed.Gain

/-!
# Envelopes from line spectral pairs

Ten line spectral pairs describe a filter, and the envelope is one over the square root of its
amplitude response. The response is the sum of two products, one over the odd and one over the even
pairs. `curve` gives the response at a row of frequencies, and `ratios` divides it by its peak.
-/

namespace Wma.LinePairs

variable {σ : Type}

/-- Number of line spectral pairs. -/
def count : Nat := 10

def indexBits (i : Nat) : Nat :=
  if i = 0 ∨ 8 ≤ i then 3 else 4

/-- Reads the value of a pair, `2 * cos w` with 28 fractional bits. -/
def readOne (i : Nat) : Parse σ Int := do
  let index ← Parse.read (indexBits i)
  Parse.ofExcept do Buffer.lookup (← Buffer.lookup linePairLevels i) index

def read : Parse σ (List Int) :=
  (List.range count).mapM readOne

/-- Product of numbers with 28 fractional bits in a 64-bit word. -/
def mulQ28 (a b : Int) : Int :=
  wrap64 (a * b / 2 ^ (28 : Nat))

/-- Multiplies the distances of `w` from the pairs, those at even places into the first product and
those at odd places into the second. -/
def products (w : Int) : List Int → Int × Int → Int × Int
  | even :: odd :: pairs, (p, q) => products w pairs (mulQ28 p (w - even), mulQ28 q (w - odd))
  | _, acc => acc

/-- The power of the filter at a frequency `w`, given as `2 * cos` with 28 fractional bits. -/
def power (pairs : List Int) (w : Int) : Int :=
  let (even, odd) := products w pairs (2 ^ (27 : Nat), 2 ^ (27 : Nat))
  mulQ28 (mulQ28 odd odd) (2 ^ (29 : Nat) - w) + mulQ28 (mulQ28 even even) (2 ^ (29 : Nat) + w)

def response (pairs : List Int) (w : Int) : Except Error Gain := do
  let power ← int64 (power pairs w)
  (Gain.ofFraction power.toNat 28).checkedInvFourthRoot

/-- Writes the envelope over the beginning of `buffer`, as far as both it and the frequencies go.
Gives the peak of what it wrote as well. -/
def curve (cosines : Array Int) (pairs : List Int) (buffer : Array Gain) :
    Except Error (Gain × Array Gain) := do
  let values ← (cosines.extract 0 buffer.size).mapM (response pairs)
  return (values.foldl Gain.max .zero, Buffer.overlay buffer values)

/-- A value as a ratio of the peak, with 30 fractional bits. -/
def ratio (peakRecip value : Gain) : Except Error UInt32 := do
  let scaled ← (← value.checkedMul peakRecip).checkedApply (2 ^ (30 : Nat)) 0
  return UInt32.ofNat scaled.toInt.toNat

/-- The envelope of `length` bins, as ratios of its peak. The curve is worked out in `buffer`. -/
def ratios (cosines : Array Int) (pairs : List Int) (buffer : Array Gain) (length : Nat) :
    Except Error (Array UInt32 × Array Gain) := do
  let (peak, part) ← curve cosines pairs (← Buffer.slice buffer 0 length)
  let peakRecip ← peak.checkedRecip
  return (← part.mapM (ratio peakRecip), Buffer.overlay buffer part)

end Wma.LinePairs
