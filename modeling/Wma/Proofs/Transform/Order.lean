import Mathlib.Data.Fintype.EquivFin
import Mathlib.Tactic.LinearCombination
import Mathlib.Tactic.Ring
import Wma.Transform.Network

/-!
# The order of inputs

`Network.order` tells which input stands at a place of a network: it follows the halves and quarters
in which the place lies, and counts backwards and around. `Network.slot` undoes it
(`Network.slot_inputAt`), so that every place takes one input (`Network.bijective_slot`), and a place
holds its input after loading (`Network.getElem_load`).
-/

namespace Wma.Network

/-! ### The inputs of the three parts -/

theorem slot_even (bits j : Nat) : slot (bits + 2) (2 * j) = slot (bits + 1) j := by
  rw [slot, if_pos (by omega), Nat.mul_div_cancel_left _ (by decide)]

/-- The second quarter network takes the inputs behind multiples of four. -/
theorem slot_after (bits j : Nat) :
    slot (bits + 2) (4 * j + 1) = 2 ^ (bits + 1) + 2 ^ bits + slot bits j := by
  rw [slot, if_neg (by omega), if_neg (by omega), show (4 * j + 1) / 4 = j by omega]

/-- The first quarter network takes the inputs in front of multiples of four, the last input of all
standing in front of zero. -/
theorem slot_before {bits j : Nat} (hj : j < 2 ^ bits) :
    slot (bits + 2) ((4 * j + 2 ^ (bits + 2) - 1) % 2 ^ (bits + 2)) =
      2 ^ (bits + 1) + slot bits j := by
  have whole : 2 ^ (bits + 2) = 4 * 2 ^ bits := by ring
  rcases Nat.eq_zero_or_pos j with rfl | hpos
  · have place : (4 * 0 + 2 ^ (bits + 2) - 1) % 2 ^ (bits + 2) = 4 * 2 ^ bits - 1 := by
      rw [Nat.mod_eq_of_lt (by omega)]
      omega
    have wrapped : (4 * 2 ^ bits - 1 + 1) / 4 % 2 ^ bits = 0 := by
      rw [Nat.sub_add_cancel (by omega), Nat.mul_div_cancel_left _ (by decide), Nat.mod_self]
    rw [place, slot, if_neg (by omega), if_pos (by omega), wrapped]
  · have place : (4 * j + 2 ^ (bits + 2) - 1) % 2 ^ (bits + 2) = 4 * j - 1 := by
      rw [show 4 * j + 2 ^ (bits + 2) - 1 = 4 * j - 1 + 2 ^ (bits + 2) by omega, Nat.add_mod_right,
        Nat.mod_eq_of_lt (by omega)]
    have back : (4 * j - 1 + 1) / 4 % 2 ^ bits = j := by
      rw [Nat.sub_add_cancel (by omega), Nat.mul_div_cancel_left _ (by decide), Nat.mod_eq_of_lt hj]
    rw [place, slot, if_neg (by omega), if_pos (by omega), back]

/-! ### Places and their inputs -/

/-- The number of the input at place `i`, with the opposite sign and not yet brought below
`2 ^ bits`. -/
def order : (bits i : Nat) → Int
  | 0, i => i % 2
  | 1, i => i % 2
  | bits + 2, i =>
    if i / 2 ^ (bits + 1) % 2 = 0 then 2 * order (bits + 1) i
    else if i / 2 ^ bits % 2 = 0 then 4 * order bits i + 1
    else 4 * order bits i - 1

/-- The input at place `i`. -/
def inputAt (bits i : Nat) : Nat :=
  (-order bits i % 2 ^ bits).toNat

theorem exists_neg_order_eq (bits i : Nat) :
    ∃ q : Int, -order bits i = inputAt bits i + 2 ^ bits * q := by
  have positive : (0 : Int) < 2 ^ bits := Int.pow_pos (by decide)
  refine ⟨-order bits i / 2 ^ bits, ?_⟩
  rw [inputAt, Int.toNat_of_nonneg (Int.emod_nonneg _ positive.ne'), Int.emod_add_mul_ediv]

theorem inputAt_lt (bits i : Nat) : inputAt bits i < 2 ^ bits := by
  have positive : (0 : Int) < 2 ^ bits := Int.pow_pos (by decide)
  have below := Int.emod_lt_of_pos (-order bits i) positive
  have nonneg := Int.emod_nonneg (-order bits i) positive.ne'
  have cast : ((2 ^ bits : Nat) : Int) = 2 ^ bits := by push_cast; rfl
  unfold inputAt
  omega

theorem inputAt_eq {bits i k : Nat} {q : Int} (h : -order bits i = k + 2 ^ bits * q) :
    inputAt bits i = k % 2 ^ bits := by
  rw [inputAt, h, Int.add_mul_emod_self_left]
  norm_cast

/-- The input at a place is loaded into that place. -/
theorem slot_inputAt : ∀ bits i : Nat, slot bits (inputAt bits i) = i % 2 ^ bits
  | 0, i => by simp [slot]; omega
  | 1, i => by simp only [slot, inputAt, order]; omega
  | bits + 2, i => by
    have outer := Nat.mod_pow_succ (x := i) (b := 2) (k := bits + 1)
    have inner := Nat.mod_pow_succ (x := i) (b := 2) (k := bits)
    by_cases half : i / 2 ^ (bits + 1) % 2 = 0
    · obtain ⟨q, hq⟩ := exists_neg_order_eq (bits + 1) i
      have small := inputAt_lt (bits + 1) i
      have step : -order (bits + 2) i = (2 * inputAt (bits + 1) i : Nat) + 2 ^ (bits + 2) * q := by
        rw [order, if_pos half]
        push_cast
        linear_combination 2 * hq
      rw [inputAt_eq step, Nat.mod_eq_of_lt (by rw [Nat.pow_succ 2 (bits + 1)]; omega), slot_even,
        slot_inputAt (bits + 1) i, outer, half]
      rfl
    have upper : i / 2 ^ (bits + 1) % 2 = 1 := by omega
    obtain ⟨q, hq⟩ := exists_neg_order_eq bits i
    have small := inputAt_lt bits i
    by_cases third : i / 2 ^ bits % 2 = 0
    · have step : -order (bits + 2) i =
          (4 * inputAt bits i + 2 ^ (bits + 2) - 1 : Nat) + 2 ^ (bits + 2) * (q - 1) := by
        have := Nat.two_pow_pos (bits + 2)
        rw [order, if_neg half, if_pos third, Nat.cast_sub (by omega)]
        push_cast
        linear_combination 4 * hq
      rw [inputAt_eq step, slot_before small, slot_inputAt bits i, outer, upper, inner, third]
      omega
    · have fourth : i / 2 ^ bits % 2 = 1 := by omega
      have step : -order (bits + 2) i = (4 * inputAt bits i + 1 : Nat) + 2 ^ (bits + 2) * q := by
        rw [order, if_neg half, if_neg third]
        push_cast
        linear_combination 4 * hq
      rw [inputAt_eq step, Nat.mod_eq_of_lt (by rw [Nat.pow_succ, Nat.pow_succ]; omega), slot_after,
        slot_inputAt bits i, outer, upper, inner, fourth]
      omega

theorem bijective_slot (bits : Nat) :
    Function.Bijective fun k : Fin (2 ^ bits) =>
      (⟨slot bits k, slot_lt bits k⟩ : Fin (2 ^ bits)) := by
  refine Finite.surjective_iff_bijective.mp fun i => ⟨⟨inputAt bits i, inputAt_lt bits i⟩, ?_⟩
  exact Fin.ext ((slot_inputAt bits i).trans (Nat.mod_eq_of_lt i.isLt))

/-! ### Loading -/

variable {α : Type} {bits : Nat}

theorem getElem_foldl_set (input : Fin (2 ^ bits) → Phasor α) {k : Fin (2 ^ bits)}
    (hk : slot bits k < 2 ^ bits) :
    ∀ (l : List (Fin (2 ^ bits))) {z : Vector (Phasor α) (2 ^ bits)},
    (k ∈ l ∨ z[slot bits k] = input k) →
    (l.foldl (fun z (k : Fin (2 ^ bits)) => z.set (slot bits k) (input k) (slot_lt bits k)) z)[
      slot bits k] = input k
  | [], _, h => by simpa using h
  | k' :: l, z, h => by
    refine getElem_foldl_set input hk l ?_
    by_cases here : slot bits k' = slot bits k
    · obtain rfl : k' = k := (bijective_slot bits).injective (Fin.ext here)
      right
      simp
    · rcases h with h | h
      · rcases List.mem_cons.mp h with rfl | h
        · exact absurd rfl here
        · exact .inl h
      · right
        rw [Vector.getElem_set_ne _ _ here, h]

theorem getElem_load (input : Fin (2 ^ bits) → Phasor α) (z : Vector (Phasor α) (2 ^ bits))
    (k : Fin (2 ^ bits)) (hk : slot bits k < 2 ^ bits) :
    (load bits input z)[slot bits k] = input k :=
  getElem_foldl_set input hk _ (.inl (List.mem_finRange k))

end Wma.Network
