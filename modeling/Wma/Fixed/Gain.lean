import Wma.Fixed.Root
import Wma.Fixed.Tables

/-!
# Gains

A `Gain` is a positive factor of wide range: a mantissa with 30 fractional bits and a power of two.
The mantissa of every gain but zero lies between one and two, so a gain has one form only, and
comparing exponents and then mantissas compares the factors. Products, roots and table values are
rounded down; `apply` multiplies an integer and rounds down once.

A number of fractional bits is a 32-bit word, and what is counted from it is taken modulo `2 ^ 32`. So
the words from `2 ^ 31` on stand for negative numbers, that is, for zeros behind the last binary
digit.
-/

namespace Wma

/-- The factor `mantissa / 2 ^ 30 * 2 ^ exponent`. -/
structure Gain where
  mantissa : Nat
  exponent : Int
deriving DecidableEq, Repr, Inhabited

namespace Gain

def zero : Gain := ⟨0, 0⟩

def one : Gain := ⟨2 ^ (30 : Nat), 0⟩

/-- The greatest factor, which stands for one divided by zero. -/
def greatest : Gain := ⟨2 ^ (31 : Nat) - 1, 62⟩

def isZero (g : Gain) : Bool :=
  g.mantissa == 0

/-- `raw / 2 ^ fracBits`, rounded down to a mantissa of 31 bits. -/
def ofFraction (raw fracBits : Nat) : Gain :=
  if raw = 0 then
    zero
  else
    let top := raw.log2
    ⟨if 30 ≤ top then raw / 2 ^ (top - 30) else raw * 2 ^ (30 - top), wrap32 (top - fracBits)⟩

def ofNat (n : Nat) : Gain :=
  ofFraction n 0

/-- The factor times `2 ^ shift`. -/
def scale (g : Gain) (shift : Int) : Gain :=
  if g.isZero then g else ⟨g.mantissa, g.exponent + shift⟩

def mul (g h : Gain) : Gain :=
  if g.isZero || h.isZero then
    zero
  else
    (ofFraction (g.mantissa * h.mantissa) 60).scale (g.exponent + h.exponent)

def recip (g : Gain) : Gain :=
  if g.isZero then greatest else (ofFraction (inverse g.mantissa) 30).scale (-g.exponent)

def sqrt (g : Gain) : Gain :=
  if g.isZero then
    g
  else if g.exponent % 2 = 0 then
    (ofFraction (isqrt64 (g.mantissa * 2 ^ (30 : Nat))) 30).scale (g.exponent / 2)
  else
    (ofFraction (isqrt64 (g.mantissa * 2 * 2 ^ (30 : Nat))) 30).scale ((g.exponent - 1) / 2)

def invFourthRoot (g : Gain) : Gain :=
  g.sqrt.sqrt.recip

/-- `2 ^ x` for an exponent with 16 fractional bits, by a straight line between table entries. -/
def powerOfTwo (x : Int) : Gain :=
  let fraction := (x % 2 ^ (16 : Nat)).toNat
  have h : fraction / 1024 + 1 < powerSteps.size := by
    have size : powerSteps.size = 65 := rfl
    omega
  let low := powerSteps[fraction / 1024]
  let high := powerSteps[fraction / 1024 + 1]
  (ofFraction (low + (high - low) * (fraction % 1024) / 1024) 30).scale (x / 2 ^ (16 : Nat))

/-- `10 ^ (db / 20)`. -/
def ofDecibels (db : Int) : Gain :=
  powerOfTwo (saturate (db * decibelScale / 2 ^ (16 : Nat))).toInt

/-- How many places `apply` shifts a product to the right. -/
def shift (g : Gain) (fracBits : Nat) : Int :=
  wrap32 (30 + fracBits - g.exponent)

/-- `value / 2 ^ fracBits` times the factor, rounded down and brought into a 32-bit word. A factor
that is not zero is so large, once it would have to shift to the left, that the word overflows. -/
def apply (g : Gain) (value : Int) (fracBits : Nat) : Int32 :=
  if g.isZero ∨ value = 0 then
    0
  else
    let product := value * g.mantissa
    let shift := g.shift fracBits
    if 127 ≤ shift then
      if product < 0 then -1 else 0
    else if 0 ≤ shift then
      saturate (product / 2 ^ shift.toNat)
    else if product < 0 then
      Int32.minValue
    else
      Int32.maxValue

def compare (g h : Gain) : Ordering :=
  match g.isZero, h.isZero with
  | true, true => .eq
  | true, false => .lt
  | false, true => .gt
  | false, false => (Ord.compare g.exponent h.exponent).then (Ord.compare g.mantissa h.mantissa)

def max (g h : Gain) : Gain :=
  if h.compare g = .lt then g else h

/-! ### Checked arithmetic

The exponent of a gain is a 32-bit word. The operations that decoding uses fail where it, or a number
on the way to it, leaves its word; everywhere else they agree with those above. -/

/-- `scale`, if the exponent fits. -/
def checkedScale (g : Gain) (shift : Int) : Except Error Gain := do
  if g.isZero then
    return g
  else
    return ⟨g.mantissa, ← int32 (g.exponent + shift)⟩

def checkedMul (g h : Gain) : Except Error Gain := do
  if g.isZero || h.isZero then
    return zero
  else
    let product ← word64 (g.mantissa * h.mantissa)
    (ofFraction product 60).checkedScale (← int32 (g.exponent + h.exponent))

def checkedRecip (g : Gain) : Except Error Gain := do
  if g.isZero then
    return greatest
  else
    (ofFraction (← checkedInverse g.mantissa) 30).checkedScale (← int32 (-g.exponent))

def checkedSqrt (g : Gain) : Except Error Gain := do
  if g.isZero then
    return g
  else if g.exponent % 2 = 0 then
    (ofFraction (← checkedIsqrt64 (g.mantissa * 2 ^ (30 : Nat))) 30).checkedScale (g.exponent / 2)
  else
    let even ← int32 (g.exponent - 1)
    (ofFraction (← checkedIsqrt64 (g.mantissa * 2 * 2 ^ (30 : Nat))) 30).checkedScale (even / 2)

def checkedInvFourthRoot (g : Gain) : Except Error Gain := do
  (← (← g.checkedSqrt).checkedSqrt).checkedRecip

def checkedApply (g : Gain) (value : Int) (fracBits : Nat) : Except Error Int32 := do
  if g.isZero ∨ value = 0 then
    return 0
  else
    let places ← int32 (30 + signed32 fracBits)
    let _ ← int32 (places - g.exponent)
    return g.apply value fracBits

end Gain

end Wma
