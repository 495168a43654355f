import Mathlib.Tactic.NormNum
import Wma.Fixed.Sine
import Wma.Proofs.Gives

/-!
# Words as integers

What saturation and the sine tables give, read as integers.
-/

namespace Wma

theorem toInt_saturate (x : Int) : (saturate x).toInt = max (-2 ^ 31) (min x (2 ^ 31 - 1)) :=
  Int32.toInt_ofInt_of_le (by omega) (by omega)

theorem toInt_saturate_of_fits {x : Int} (h : FitsInt32 x) : (saturate x).toInt = x := by
  obtain ⟨low, high⟩ := h
  rw [toInt_saturate]
  omega

theorem saturate64_eq (x : Int64) : saturate64 x = saturate x.toInt := by
  have low := x.le_toInt
  have high := x.toInt_lt
  have most : (2147483647 : Int64).toInt = 2147483647 := rfl
  have least : (-2147483648 : Int64).toInt = -2147483648 := rfl
  rw [← Int32.toInt_inj, toInt_saturate]
  unfold saturate64
  simp only [Int64.lt_iff_toInt_lt, most, least]
  split
  · rw [show (2147483647 : Int32).toInt = 2147483647 from rfl]; omega
  split
  · rw [show (-2147483648 : Int32).toInt = -2147483648 from rfl]; omega
  · rw [Int64.toInt_toInt32, Int.bmod_eq_of_le (by omega) (by omega)]; omega

theorem toInt_negSaturated (a : Int32) : (negSaturated a).toInt = min (-a.toInt) (2 ^ 31 - 1) := by
  have low := a.le_toInt
  have high := a.toInt_lt
  unfold negSaturated subSaturated
  rw [saturate64_eq, toInt_saturate, Int64.toInt_sub, Int32.toInt_toInt64, Int32.toInt_toInt64,
    Int.bmod_eq_of_le (by simp; omega) (by simp; omega)]
  simp
  omega

theorem toInt_shiftRight31 (x : Int64) : (x >>> 31).toInt = x.toInt / 2 ^ 31 := by
  show (x.toBitVec.sshiftRight' ((31 : Int64).toBitVec.smod 64)).toInt = _
  have places : ((31 : Int64).toBitVec.smod 64).toNat = 31 := by decide
  rw [BitVec.toInt_sshiftRight', places, Int.shiftRight_eq_div_pow]
  norm_num

theorem natAbs_toInt_le (a : Int32) : a.toInt.natAbs ≤ 2 ^ 31 := by
  have low := a.le_toInt
  have high := a.toInt_lt
  omega

theorem natAbs_product_le (a b : Int32) : (a.toInt * b.toInt).natAbs ≤ 2 ^ 62 := by
  calc (a.toInt * b.toInt).natAbs = a.toInt.natAbs * b.toInt.natAbs := Int.natAbs_mul ..
    _ ≤ 2 ^ 31 * 2 ^ 31 := Nat.mul_le_mul (natAbs_toInt_le a) (natAbs_toInt_le b)

theorem toInt_mul (a b : Int32) : (a.toInt64 * b.toInt64).toInt = a.toInt * b.toInt := by
  have := natAbs_product_le a b
  rw [Int64.toInt_mul, Int32.toInt_toInt64, Int32.toInt_toInt64]
  exact Int.bmod_eq_of_le (by omega) (by omega)

/-! ### Sines are not the least word -/

theorem toInt_getD_nonneg (table : Array Int32) (h : table.all (0 ≤ ·.toInt)) (i : Nat) :
    0 ≤ (table.getD i 0).toInt := by
  rcases Nat.lt_or_ge i table.size with hi | hi
  · rw [← Array.getElem_eq_getD (h := hi)]
    simpa using Array.all_eq_true'.mp h _ (Array.getElem_mem hi)
  · rw [Array.getD_eq_getD_getElem?, Array.getElem?_eq_none hi]
    decide

theorem product_range {a b : Int32} (ha : 0 ≤ a.toInt) (hb : 0 ≤ b.toInt) :
    0 ≤ a.toInt * b.toInt ∧ a.toInt * b.toInt < 2 ^ 62 := by
  have ha' := a.toInt_lt
  have hb' := b.toInt_lt
  refine ⟨Int.mul_nonneg ha hb, ?_⟩
  calc a.toInt * b.toInt ≤ (2 ^ 31 - 1) * (2 ^ 31 - 1) :=
      Int.mul_le_mul (by omega) (by omega) hb (by omega)
    _ < 2 ^ 62 := by omega

theorem toInt_quarterSine_nonneg (angle : Nat) : 0 ≤ (quarterSine angle).toInt := by
  have sine := toInt_getD_nonneg sineCoarse (by decide +kernel)
  have fineCosine := toInt_getD_nonneg cosineFine (by decide +kernel)
  have fineSine := toInt_getD_nonneg sineFine (by decide +kernel)
  unfold quarterSine
  dsimp only
  split
  · exact sine _
  · have first := product_range (sine (angle / 128)) (fineCosine (angle % 128))
    have second := product_range (sine (64 - angle / 128)) (fineSine (angle % 128))
    rw [saturate64_eq, toInt_saturate, toInt_shiftRight31, Int64.toInt_add, toInt_mul, toInt_mul,
      Int.bmod_eq_of_le (by omega) (by omega)]
    omega

theorem toInt_halfSine_nonneg (angle : Nat) : 0 ≤ (halfSine angle).toInt := by
  unfold halfSine
  split <;> exact toInt_quarterSine_nonneg _

theorem lt_toInt_sine (angle : Nat) : -2 ^ 31 < (sine angle).toInt := by
  unfold sine
  dsimp only
  split
  · have low := toInt_halfSine_nonneg (angle % turn - turn / 2)
    have high := (halfSine (angle % turn - turn / 2)).toInt_lt
    rw [Int32.toInt_neg, Int.bmod_eq_of_le (by omega) (by omega)]
    omega
  · have low := toInt_halfSine_nonneg (angle % turn)
    omega

theorem lt_toInt_cosine (angle : Nat) : -2 ^ 31 < (cosine angle).toInt :=
  lt_toInt_sine _

theorem lt_toInt_negSaturated (a : Int32) : -2 ^ 31 < (negSaturated a).toInt := by
  have := a.toInt_lt
  rw [toInt_negSaturated]
  omega

end Wma
