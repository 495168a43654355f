import Wma.Buffer
import Wma.Fixed.Root

/-!
# Noise

`Noise` is an endless supply of pseudo-random samples: a table that is read from a moving place on
and starts over at its end. The samples are spread evenly between plus and minus the amplitude, and
have 16 fractional bits.
-/

namespace Wma

def Noise.period : Nat := 8192

instance : NeZero Noise.period :=
  ⟨by decide⟩

/-- A table of noise and a place in it. -/
structure Noise where
  table : Array Int
  index : Fin Noise.period
deriving DecidableEq, Repr

namespace Noise

def seedsAfter : (count : Nat) → (seed : UInt32) → List UInt32
  | 0, _ => []
  | count + 1, seed =>
    let next := seed * 314159 + 1
    next :: seedsAfter count next

/-- The square root of three over `divisor`, with 16 fractional bits. -/
def amplitude (divisor : Nat) : Nat :=
  isqrt32 (3 * 2 ^ (30 : Nat)) * 2 / max divisor 1

def sampleOf (amplitude : Nat) (seed : UInt32) : Int :=
  seed.toInt32.toInt * amplitude / 2 ^ (31 : Nat)

/-- Noise whose amplitude is divided by `divisor`, at its beginning. -/
def ofDivisor (divisor : Nat) : Noise where
  table := ((seedsAfter period 1).map (sampleOf (amplitude divisor))).toArray
  index := 0

/-- Draws a sample. Gives the noise behind it as well. -/
def next (n : Noise) : Except Error (Int × Noise) := do
  return (← Buffer.lookup n.table n.index, { n with index := n.index + 1 })

/-- The sample `i` places ahead. -/
def ahead (n : Noise) (i : Nat) : Int :=
  n.table.getD ((n.index + i) % period) 0

/-- The noise behind the next `count` samples. -/
def advance (n : Noise) (count : Nat) : Noise :=
  { n with index := .ofNat period (n.index + count) }

def rewind (n : Noise) : Noise :=
  { n with index := 0 }

end Noise

end Wma
