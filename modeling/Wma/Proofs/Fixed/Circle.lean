import Mathlib.Tactic.Linarith
import Wma.Proofs.Fixed.Product

/-!
# Factors are close to the unit circle

The sine and the cosine of an angle are the quarter sines of two angles that make up a quarter turn
(`sine_sq_eq`). Both sums of table entries that these come from are bounded by the coarse entries
alone, so that a check of the coarse table bounds the modulus of every factor
(`sine_sq_add_cosine_sq_le`).
-/

namespace Wma

theorem toInt_getD_le (table : Array Int32) {b : Int} (hb : 0 ≤ b) (h : table.all (·.toInt ≤ b))
    (i : Nat) : (table.getD i 0).toInt ≤ b := by
  rcases Nat.lt_or_ge i table.size with hi | hi
  · rw [← Array.getElem_eq_getD (h := hi)]
    simpa using Array.all_eq_true'.mp h _ (Array.getElem_mem hi)
  · rw [Array.getD_eq_getD_getElem?, Array.getElem?_eq_none hi]
    exact hb

def coarseSine (i : Nat) : Int :=
  (sineCoarse.getD i 0).toInt

theorem coarseSine_nonneg (i : Nat) : 0 ≤ coarseSine i :=
  toInt_getD_nonneg sineCoarse (by decide +kernel) i

/-- A fine sine is less than one part in 41. -/
theorem quarterSine_le (angle : Nat) : 41 * (quarterSine angle).toInt ≤
    41 * coarseSine (angle / 128) + coarseSine (64 - angle / 128) := by
  have first := coarseSine_nonneg (angle / 128)
  have second := coarseSine_nonneg (64 - angle / 128)
  unfold quarterSine
  dsimp only
  split
  · show 41 * coarseSine (angle / 128) ≤ _
    omega
  · have fineCosine := toInt_getD_nonneg cosineFine (by decide +kernel) (angle % 128)
    have fineSine := toInt_getD_nonneg sineFine (by decide +kernel) (angle % 128)
    have fineSine' := toInt_getD_le sineFine (b := 52290235) (by decide) (by decide +kernel)
      (angle % 128)
    have product := product_range first fineCosine
    have product' := product_range second fineSine
    rw [saturate64_eq, toInt_saturate, toInt_shiftRight31, Int64.toInt_add, toInt_mul, toInt_mul,
      Int.bmod_eq_of_le (by omega) (by omega)]
    change 0 ≤ coarseSine _ * _ ∧ _ at product
    change 0 ≤ coarseSine _ * _ ∧ _ at product'
    change 41 * max (-2 ^ 31) (min ((coarseSine _ * _ + coarseSine _ * _) / 2 ^ 31) _) ≤ _
    have high := (cosineFine.getD (angle % 128) 0).toInt_lt
    have bound : coarseSine (angle / 128) * (cosineFine.getD (angle % 128) 0).toInt ≤
        coarseSine (angle / 128) * 2 ^ 31 := Int.mul_le_mul_of_nonneg_left (by omega) first
    have bound' : coarseSine (64 - angle / 128) * (sineFine.getD (angle % 128) 0).toInt ≤
        coarseSine (64 - angle / 128) * 52290235 := Int.mul_le_mul_of_nonneg_left fineSine' second
    omega

/-- How far an angle is from the nearest half turn. -/
def halfTurnDistance (angle : Nat) : Nat :=
  min (angle % 16384) (16384 - angle % 16384)

theorem halfTurnDistance_le (angle : Nat) : halfTurnDistance angle ≤ 8192 := by
  unfold halfTurnDistance
  omega

theorem halfTurnDistance_add_quarter (angle : Nat) :
    halfTurnDistance (angle % turn + turn / 4) = 8192 - halfTurnDistance angle := by
  unfold halfTurnDistance turn
  omega

theorem halfSine_eq {angle : Nat} (h : angle < 16384) :
    halfSine angle = quarterSine (halfTurnDistance angle) := by
  unfold halfSine halfTurnDistance
  rw [Nat.mod_eq_of_lt h]
  split
  · rename_i front
    rw [Nat.min_eq_left (by unfold turn at front; omega)]
  · rename_i behind
    rw [Nat.min_eq_right (by unfold turn at behind; omega)]
    rfl

theorem sine_sq_eq (angle : Nat) :
    (sine angle).toInt ^ 2 = (quarterSine (halfTurnDistance angle)).toInt ^ 2 := by
  unfold sine
  dsimp only
  split
  · rename_i lower
    have whole : halfTurnDistance (angle % turn - turn / 2) = halfTurnDistance angle := by
      unfold halfTurnDistance turn at *
      omega
    have nonneg := toInt_quarterSine_nonneg (halfTurnDistance angle)
    have high := (quarterSine (halfTurnDistance angle)).toInt_lt
    rw [halfSine_eq (by unfold turn at *; omega), whole, Int32.toInt_neg,
      Int.bmod_eq_of_le (by omega) (by omega), neg_sq]
  · rename_i upper
    have whole : halfTurnDistance (angle % turn) = halfTurnDistance angle := by
      unfold halfTurnDistance turn at *
      omega
    rw [halfSine_eq (by unfold turn at *; omega), whole]

theorem cosine_sq_eq (angle : Nat) :
    (cosine angle).toInt ^ 2 = (quarterSine (8192 - halfTurnDistance angle)).toInt ^ 2 := by
  unfold cosine
  rw [sine_sq_eq, halfTurnDistance_add_quarter]

/-! ### The coarse table -/

theorem coarse_apart : ∀ c < 64, 64 ^ 2 * ((41 * coarseSine c + coarseSine (64 - c)) ^ 2 +
    (41 * coarseSine (63 - c) + coarseSine (c + 1)) ^ 2) ≤ 41 ^ 2 * 65 ^ 2 * 2 ^ 62 := by
  decide +kernel

theorem coarse_alone : ∀ c < 65, 64 ^ 2 * (coarseSine c ^ 2 + coarseSine (64 - c) ^ 2) ≤
    65 ^ 2 * 2 ^ 62 := by
  decide +kernel

theorem quarterSine_sq_add_le {angle : Nat} (h : angle ≤ 8192) :
    64 ^ 2 * ((quarterSine angle).toInt ^ 2 + (quarterSine (8192 - angle)).toInt ^ 2) ≤
      65 ^ 2 * 2 ^ 62 := by
  by_cases fine : angle % 128 = 0
  · have first : (quarterSine angle).toInt = coarseSine (angle / 128) := by
      unfold quarterSine
      dsimp only
      rw [if_pos fine]
      rfl
    have second : (quarterSine (8192 - angle)).toInt = coarseSine (64 - angle / 128) := by
      have places : (8192 - angle) / 128 = 64 - angle / 128 := by omega
      unfold quarterSine
      dsimp only
      rw [if_pos (by omega), places]
      rfl
    rw [first, second]
    exact coarse_alone _ (by omega)
  · have first := quarterSine_le angle
    have second := quarterSine_le (8192 - angle)
    have places : (8192 - angle) / 128 = 63 - angle / 128 := by omega
    have places' : 64 - (63 - angle / 128) = angle / 128 + 1 := by omega
    rw [places, places'] at second
    have table := coarse_apart (angle / 128) (by omega)
    have square := pow_le_pow_left₀
      (mul_nonneg (by norm_num) (toInt_quarterSine_nonneg angle)) first 2
    have square' := pow_le_pow_left₀
      (mul_nonneg (by norm_num) (toInt_quarterSine_nonneg (8192 - angle))) second 2
    rw [mul_pow] at square square'
    linarith

/-- A factor is longer than one by a part in 64 at most. -/
theorem sine_sq_add_cosine_sq_le (angle : Nat) :
    64 ^ 2 * ((sine angle).toInt ^ 2 + (cosine angle).toInt ^ 2) ≤ 65 ^ 2 * 2 ^ 62 := by
  rw [sine_sq_eq, cosine_sq_eq]
  exact quarterSine_sq_add_le (halfTurnDistance_le angle)

end Wma
