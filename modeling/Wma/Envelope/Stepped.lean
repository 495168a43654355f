import Wma.Buffer
import Wma.Code.Books
import Wma.Envelope.Tables
import Wma.Stream.Params

/-!
# Stepped envelopes

A stepped envelope has one level per band, in steps of one sixteenth of a decade. Each level is
coded as its difference from the level before. The levels become ratios of the highest of them, so
that the loudest band has the ratio one.
-/

namespace Wma.SteppedEnvelope

variable {σ : Type}

def lowest : Int := -60

def highest : Int := 155

/-- The level that the first difference counts from, where no level is written out. -/
def seed : Int := 36

def maxBands : Nat := 32

/-- Reads the levels of bands that begin at `start`, until the bands reach `length`. -/
def readFrom (code : PrefixCode) (length : Nat) : List Nat → (start : Nat) → (last : Int) →
    Parse σ (List Int)
  | [], _, _ => pure []
  | width :: widths, start, last =>
    if length ≤ start then
      pure []
    else do
      let symbol ← code.next
      let level ← Parse.ofExcept (int32 (last + symbol - Books.envelopeBias))
      Parse.require (lowest ≤ level ∧ level ≤ highest) (.exponentRange level)
      let levels ← readFrom code length widths (start + width) level
      return level :: levels

/-- Reads the levels of the bands that cover `length` bins. The first version of the format writes
the first level out. -/
def readLevels (code : PrefixCode) (version : Version) (widths : List Nat) (length : Nat) :
    Parse σ (List Int) :=
  match version with
  | .v1 => do
    let first : Int := (← Parse.read 5) + 10
    match widths with
    | [] => return []
    | width :: widths =>
      let levels ← readFrom code length widths width first
      return first :: levels
  | .v2 => readFrom code length widths 0 seed

def peak (levels : List Int) : Int :=
  levels.foldl max lowest

/-- The ratio of a level to the peak, with 30 fractional bits. -/
def ratio (peak level : Int) : Except Error UInt32 :=
  if 0 ≤ peak - level then Buffer.lookup peakRatios (peak - level).toNat
  else .error (.fault .index)

/-- Spreads the ratios of the bands over `length` bins; bins without a band have the ratio zero. -/
def spread : (widths : List Nat) → (ratios : List UInt32) → (length : Nat) → List UInt32
  | width :: widths, ratio :: ratios, length =>
    List.replicate (min width length) ratio ++ spread widths ratios (length - width)
  | _, _, length => List.replicate length 0

def read (code : PrefixCode) (version : Version) (widths : List Nat) (length : Nat) :
    Parse σ (Array UInt32) := do
  let levels ← readLevels code version widths length
  let ratios ← Parse.ofExcept ((levels.take maxBands).mapM (ratio (peak levels)))
  return (spread widths ratios length).toArray

end Wma.SteppedEnvelope
