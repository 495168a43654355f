import Wma.Fixed.Sine

/-!
# Arithmetic of the transforms

The transforms are written once, over any `Arithmetic`: sums, differences, products with factors on
the unit circle, and the factors themselves. `fixedPoint` is the arithmetic that decoding uses. It
works on 32-bit words, wraps sums around, and rounds products down.
-/

namespace Wma

/-- A complex number. -/
structure Phasor (α : Type) where
  re : α
  im : α
deriving DecidableEq, Repr, Inhabited

namespace Phasor

def swap {α : Type} (z : Phasor α) : Phasor α := ⟨z.im, z.re⟩

end Phasor

/-- What a transform needs to know of its numbers. -/
structure Arithmetic (α : Type) where
  add : α → α → α
  sub : α → α → α
  neg : α → α
  /-- Product with a factor on the unit circle. -/
  mul : Phasor α → Phasor α → Phasor α
  /-- The factor at the angle `k / 2 ^ bits` of a turn. -/
  root : (bits k : Nat) → Phasor α
  /-- The opposite of the factor at the angle `(k + 1 / 8) / 2 ^ bits` of a turn. -/
  tilt : (bits k : Nat) → Phasor α

namespace Arithmetic

variable {α : Type} (A : Arithmetic α)

def conj (z : Phasor α) : Phasor α := ⟨z.re, A.neg z.im⟩

def plus (z w : Phasor α) : Phasor α := ⟨A.add z.re w.re, A.add z.im w.im⟩

def minus (z w : Phasor α) : Phasor α := ⟨A.sub z.re w.re, A.sub z.im w.im⟩

end Arithmetic

namespace FixedPoint

/-- Binary logarithm of the longest network. -/
def maxNetworkBits : Nat := 12

/-- Product with a factor that has 31 fractional bits, rounded down. -/
def mul (z w : Phasor Int32) : Phasor Int32 where
  re := saturate64 (mac64 (-(z.im.toInt64 * w.im.toInt64)) z.re w.re >>> 31)
  im := saturate64 (mac64 (z.im.toInt64 * w.re.toInt64) z.re w.im >>> 31)

def rootAt (bits k : Nat) : Phasor Int32 where
  re := cosine (turn / 2 ^ bits * k)
  im := sine (turn / 2 ^ bits * k)

/-- The opposite of the factor at the angle `(k + 1 / 8) / 2 ^ bits` of a turn, the angle rounded
down. -/
def tiltAt (bits k : Nat) : Phasor Int32 where
  re := negSaturated (cosine (turn / 8 * (8 * k + 1) / 2 ^ bits))
  im := negSaturated (sine (turn / 8 * (8 * k + 1) / 2 ^ bits))

def rootTable : Array (Array (Phasor Int32)) :=
  Array.ofFn fun bits : Fin (maxNetworkBits + 1) =>
    Array.ofFn fun k : Fin (2 ^ bits.val / 4) => rootAt bits k

def tiltTable : Array (Array (Phasor Int32)) :=
  Array.ofFn fun bits : Fin (maxNetworkBits + 3) =>
    Array.ofFn fun k : Fin (2 ^ bits.val / 4) => tiltAt bits k

/-- `rootAt`, from the table if it is there. -/
def root (bits k : Nat) : Phasor Int32 :=
  ((rootTable.getD bits #[])[k]?).getD (rootAt bits k)

def tilt (bits k : Nat) : Phasor Int32 :=
  ((tiltTable.getD bits #[])[k]?).getD (tiltAt bits k)

end FixedPoint

/-- The arithmetic of decoding. -/
def fixedPoint : Arithmetic Int32 where
  add := (· + ·)
  sub := (· - ·)
  neg := negSaturated
  mul := FixedPoint.mul
  root := FixedPoint.root
  tilt := FixedPoint.tilt

end Wma
