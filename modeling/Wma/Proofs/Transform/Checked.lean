import Wma.Proofs.Fixed.Product
import Wma.Proofs.Transform.Homomorphism

/-!
# Transforms stay within their words

`checkedPoint` is the arithmetic of decoding with every product and every sum of products checked
against a word of 64 bits. A transform over it never fails and gives the numbers that decoding uses
(`Imdct.checked_full`): a sum of two products of words leaves its word only if all four of them are
the least word, and no factor of a transform is.
-/

namespace Wma

namespace FixedPoint

/-- `(first + second) / 2 ^ 31`, if both numbers and their sum fit a word of 64 bits. -/
def checkedSum (first second : Int) : Except Error Int32 := do
  return saturate ((← int64 ((← int64 first) + (← int64 second))) / 2 ^ 31)

/-- `mul`, if its products and sums fit their words. -/
def checkedMul (z w : Phasor (Except Error Int32)) : Phasor (Except Error Int32) where
  re := do
    let a ← z.re
    let b ← z.im
    let c ← w.re
    let d ← w.im
    checkedSum (-(← int64 (b.toInt * d.toInt))) (a.toInt * c.toInt)
  im := do
    let a ← z.re
    let b ← z.im
    let c ← w.re
    let d ← w.im
    checkedSum (b.toInt * c.toInt) (a.toInt * d.toInt)

end FixedPoint

/-- The arithmetic of decoding, with products and their sums checked. -/
def checkedPoint : Arithmetic (Except Error Int32) where
  add a b := return (← a) + (← b)
  sub a b := return (← a) - (← b)
  neg a := return negSaturated (← a)
  mul := FixedPoint.checkedMul
  root bits k := (FixedPoint.root bits k).map .ok
  tilt bits k := (FixedPoint.tilt bits k).map .ok

namespace FixedPoint

theorem root_eq (bits k : Nat) : root bits k = rootAt bits k := by
  unfold root rootTable
  rw [Array.getD_eq_getD_getElem?]
  rcases Nat.lt_or_ge bits (maxNetworkBits + 1) with h | h
  · rcases Nat.lt_or_ge k (2 ^ bits / 4) with h' | h' <;> simp [h, h']
  · simp [Nat.not_lt.mpr h]

theorem tilt_eq (bits k : Nat) : tilt bits k = tiltAt bits k := by
  unfold tilt tiltTable
  rw [Array.getD_eq_getD_getElem?]
  rcases Nat.lt_or_ge bits (maxNetworkBits + 3) with h | h
  · rcases Nat.lt_or_ge k (2 ^ bits / 4) with h' | h' <;> simp [h, h']
  · simp [Nat.not_lt.mpr h]

/-- Neither part of the factor is the least word. -/
def IsFactor (w : Phasor Int32) : Prop :=
  -2 ^ 31 < w.re.toInt ∧ -2 ^ 31 < w.im.toInt

theorem isFactor_root (bits k : Nat) : IsFactor (root bits k) := by
  rw [root_eq]
  unfold IsFactor rootAt
  dsimp only
  exact ⟨lt_toInt_cosine _, lt_toInt_sine _⟩

theorem isFactor_conj_root (bits k : Nat) : IsFactor (fixedPoint.conj (root bits k)) :=
  ⟨(isFactor_root bits k).1, lt_toInt_negSaturated _⟩

theorem isFactor_tilt (bits k : Nat) : IsFactor (tilt bits k) := by
  rw [tilt_eq]
  unfold IsFactor tiltAt
  dsimp only
  exact ⟨lt_toInt_negSaturated _, lt_toInt_negSaturated _⟩

theorem isFactor_swap {w : Phasor Int32} (h : IsFactor w) : IsFactor w.swap :=
  ⟨h.2, h.1⟩

theorem natAbs_product_lt (a : Int32) {b : Int32} (hb : -2 ^ 31 < b.toInt) :
    (a.toInt * b.toInt).natAbs ≤ 2 ^ 31 * (2 ^ 31 - 1) := by
  have high := b.toInt_lt
  calc (a.toInt * b.toInt).natAbs = a.toInt.natAbs * b.toInt.natAbs := Int.natAbs_mul ..
    _ ≤ 2 ^ 31 * (2 ^ 31 - 1) := Nat.mul_le_mul (natAbs_toInt_le a) (by omega)

theorem checkedSum_eq {first second : Int} (hf : first.natAbs ≤ 2 ^ 31 * (2 ^ 31 - 1))
    (hs : second.natAbs ≤ 2 ^ 31 * (2 ^ 31 - 1)) {sum : Int64} (h : sum.toInt = first + second) :
    checkedSum first second = .ok (saturate64 (sum >>> 31)) := by
  have f : int64 first = .ok first := if_pos (by unfold FitsInt64; omega)
  have s : int64 second = .ok second := if_pos (by unfold FitsInt64; omega)
  have both : int64 (first + second) = .ok (first + second) :=
    if_pos (by unfold FitsInt64; omega)
  unfold checkedSum
  rw [f, s, saturate64_eq, toInt_shiftRight31, h]
  show (do return saturate ((← int64 (first + second)) / 2 ^ 31) : Except Error Int32) = _
  rw [both]
  rfl

theorem toInt_sum_re (z : Phasor Int32) {w : Phasor Int32} (hw : IsFactor w) :
    (mac64 (-(z.im.toInt64 * w.im.toInt64)) z.re w.re).toInt =
      -(z.im.toInt * w.im.toInt) + z.re.toInt * w.re.toInt := by
  have first := natAbs_product_lt z.re hw.1
  have second := natAbs_product_lt z.im hw.2
  unfold mac64
  rw [Int64.toInt_add, Int64.toInt_neg, toInt_mul, toInt_mul,
    Int.bmod_eq_of_le (n := -(z.im.toInt * w.im.toInt)) (by omega) (by omega)]
  exact Int.bmod_eq_of_le (by omega) (by omega)

theorem toInt_sum_im (z : Phasor Int32) {w : Phasor Int32} (hw : IsFactor w) :
    (mac64 (z.im.toInt64 * w.re.toInt64) z.re w.im).toInt =
      z.im.toInt * w.re.toInt + z.re.toInt * w.im.toInt := by
  have first := natAbs_product_lt z.im hw.1
  have second := natAbs_product_lt z.re hw.2
  unfold mac64
  rw [Int64.toInt_add, toInt_mul, toInt_mul]
  exact Int.bmod_eq_of_le (by omega) (by omega)

theorem checkedMul_eq (z : Phasor Int32) {w : Phasor Int32} (hw : IsFactor w) :
    checkedMul (z.map .ok) (w.map .ok) = (mul z w).map .ok := by
  have imIm := natAbs_product_lt z.im hw.2
  have negated : int64 (z.im.toInt * w.im.toInt) = .ok (z.im.toInt * w.im.toInt) :=
    if_pos (by unfold FitsInt64; omega)
  have re : checkedSum (-(z.im.toInt * w.im.toInt)) (z.re.toInt * w.re.toInt) =
      .ok (mul z w).re :=
    checkedSum_eq (by omega) (natAbs_product_lt z.re hw.1) (toInt_sum_re z hw)
  have im : checkedSum (z.im.toInt * w.re.toInt) (z.re.toInt * w.im.toInt) =
      .ok (mul z w).im :=
    checkedSum_eq (natAbs_product_lt z.im hw.1) (natAbs_product_lt z.re hw.2) (toInt_sum_im z hw)
  have reStep : (checkedMul (z.map .ok) (w.map .ok)).re = .ok (mul z w).re := by
    show (do checkedSum (-(← int64 (z.im.toInt * w.im.toInt))) (z.re.toInt * w.re.toInt)) = _
    rw [negated]
    exact re
  show (⟨(checkedMul (z.map .ok) (w.map .ok)).re, _⟩ : Phasor (Except Error Int32)) = _
  rw [reStep]
  exact congrArg (Phasor.mk _) im

/-- The checks of `checkedPoint` never fail on the factors of a transform. -/
theorem hom_checkedPoint : fixedPoint.Hom checkedPoint .ok where
  add _ _ := rfl
  sub _ _ := rfl
  neg _ := rfl
  root _ _ := rfl
  tilt _ _ := rfl
  mul_root z bits k := checkedMul_eq z (isFactor_root bits k)
  mul_conj_root z bits k := checkedMul_eq z (isFactor_conj_root bits k)
  mul_tilt z bits k := checkedMul_eq z (isFactor_tilt bits k)
  mul_tilt_swap z bits k := checkedMul_eq z (isFactor_swap (isFactor_tilt bits k))

end FixedPoint

theorem Imdct.checked_full (bits : Nat) (input : Vector Int32 (2 ^ (bits + 1)))
    (scratch : Vector (Phasor Int32) (2 ^ bits)) :
    Imdct.full checkedPoint bits (input.map .ok) (scratch.map (Phasor.map .ok)) =
      (Imdct.full fixedPoint bits input scratch).map .ok :=
  Imdct.full_map FixedPoint.hom_checkedPoint bits input scratch

end Wma
