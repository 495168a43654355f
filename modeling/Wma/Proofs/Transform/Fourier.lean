import Mathlib.Algebra.BigOperators.Intervals
import Wma.Proofs.Transform.Exact
import Wma.Proofs.Transform.Order
import Wma.Proofs.Transform.Recursion

/-!
# The network computes Fourier sums

Over exact arithmetic, a network of `n` points gives `∑ k, x k * e ^ (2 π i k m / n)` at `m` if its
inputs are loaded in their order (`Network.run_load_eq_sum`). The sum falls into one over the even `k`,
one over those in front of multiples of four and one over those behind (`fourier_add_two`), as a join
does (`Network.toComplex_point_joinAt`); the rest is induction along the recursion of the network.
-/

namespace Wma

open Complex (I exp)
open Finset
open scoped Real

/-! ### Sums in three parts -/

section Sums

variable {M : Type} [AddCommMonoid M]

theorem sum_range_two_mul (f : ℕ → M) (n : ℕ) :
    ∑ k ∈ range (2 * n), f k = ∑ j ∈ range n, f (2 * j) + ∑ j ∈ range n, f (2 * j + 1) := by
  induction n with
  | zero => simp
  | succ n ih =>
    rw [show 2 * (n + 1) = 2 * n + 1 + 1 by omega, sum_range_succ, sum_range_succ, ih, sum_range_succ,
      sum_range_succ, add_add_add_comm, add_assoc]

/-- What stands in front of multiples of four also stands three places behind one. -/
theorem sum_range_before (f : ℕ → M) (n : ℕ) :
    ∑ j ∈ range n, f ((4 * j + 4 * n - 1) % (4 * n)) = ∑ j ∈ range n, f (4 * j + 3) := by
  cases n with
  | zero => simp
  | succ n =>
    rw [sum_range_succ', sum_range_succ (fun j => f (4 * j + 3))]
    congr 1
    · refine sum_congr rfl fun j hj => congrArg f ?_
      rw [mem_range] at hj
      rw [show 4 * (j + 1) + 4 * (n + 1) - 1 = 4 * j + 3 + 4 * (n + 1) by omega, Nat.add_mod_right,
        Nat.mod_eq_of_lt (by omega)]
    · refine congrArg f ?_
      rw [Nat.mod_eq_of_lt (by omega)]
      omega

theorem sum_range_four_mul (f : ℕ → M) (n : ℕ) :
    ∑ k ∈ range (4 * n), f k = ∑ j ∈ range (2 * n), f (2 * j) +
      (∑ j ∈ range n, f ((4 * j + 4 * n - 1) % (4 * n)) + ∑ j ∈ range n, f (4 * j + 1)) := by
  rw [show 4 * n = 2 * (2 * n) by omega, sum_range_two_mul]
  congr 1
  rw [sum_range_two_mul, show 2 * (2 * n) = 4 * n by omega, sum_range_before, add_comm]
  congr 1
  · exact sum_congr rfl fun j _ => congrArg f (by omega)
  · exact sum_congr rfl fun j _ => congrArg f (by omega)

end Sums

/-! ### Fourier sums -/

/-- The Fourier sum at `m` of the first `2 ^ bits` numbers. -/
noncomputable def fourier (bits : ℕ) (x : ℕ → ℂ) (m : ℕ) : ℂ :=
  ∑ k ∈ range (2 ^ bits), x k * unitRoot bits ^ (k * m)

theorem fourier_add_mul (bits : ℕ) (x : ℕ → ℂ) (m turns : ℕ) :
    fourier bits x (m + 2 ^ bits * turns) = fourier bits x m := by
  refine sum_congr rfl fun k _ => ?_
  rw [Nat.mul_add, Nat.mul_left_comm, pow_add, pow_mul _ (2 ^ bits), unitRoot_pow_card, one_pow,
    mul_one]

/-- The sum over the even numbers has half the period. -/
theorem fourier_half (bits : ℕ) (x : ℕ → ℂ) (quarter k : ℕ) :
    fourier (bits + 1) x (2 ^ bits * quarter + k) =
      fourier (bits + 1) x (if quarter % 2 = 0 then k else 2 ^ bits + k) := by
  rcases Nat.even_or_odd' quarter with ⟨turns, rfl | rfl⟩
  · rw [if_pos (by omega), ← fourier_add_mul _ _ k turns]
    congr 1
    rw [pow_succ]
    ring
  · rw [if_neg (by omega), ← fourier_add_mul _ _ (2 ^ bits + k) turns]
    congr 1
    rw [pow_succ]
    ring

theorem fourier_add_two (bits : ℕ) (x : ℕ → ℂ) (m : ℕ) :
    fourier (bits + 2) x m = fourier (bits + 1) (fun j => x (2 * j)) m +
      ((unitRoot (bits + 2) ^ m)⁻¹ *
          fourier bits (fun j => x ((4 * j + 2 ^ (bits + 2) - 1) % 2 ^ (bits + 2))) m +
        unitRoot (bits + 2) ^ m * fourier bits (fun j => x (4 * j + 1)) m) := by
  have whole : 2 ^ (bits + 2) = 4 * 2 ^ bits := by ring
  have positive := Nat.two_pow_pos bits
  have half : unitRoot (bits + 2) ^ 2 = unitRoot (bits + 1) := unitRoot_succ_sq (bits + 1)
  have fourth : unitRoot (bits + 2) ^ 4 = unitRoot bits := unitRoot_add_pow bits 2
  have period := unitRoot_pow_card (bits + 2)
  have nonzero := unitRoot_ne_zero (bits + 2)
  unfold fourier
  rw [whole] at period ⊢
  rw [sum_range_four_mul, ← pow_succ', mul_sum, mul_sum]
  congr 1
  · refine sum_congr rfl fun j _ => ?_
    rw [← half, ← pow_mul, mul_assoc, ← mul_assoc 2, mul_assoc]
  congr 1
  · refine sum_congr rfl fun j _ => ?_
    have turn : unitRoot (bits + 2) ^ ((4 * j + 4 * 2 ^ bits - 1) % (4 * 2 ^ bits)) *
        unitRoot (bits + 2) = unitRoot bits ^ j := by
      rw [← pow_eq_pow_mod _ period, ← pow_succ, Nat.sub_add_cancel (by omega), pow_add, period,
        mul_one, pow_mul, fourth]
    rw [pow_mul, pow_mul (unitRoot bits), ← turn, mul_pow]
    field_simp
  · refine sum_congr rfl fun j _ => ?_
    rw [← fourth, ← pow_mul, mul_left_comm, ← pow_add]
    ring_nf

/-! ### The network -/

namespace Network

open Phasor

theorem toComplex_point_butterfly (z w p q : Phasor ℝ) {quarter : ℕ} (h : quarter < 4) :
    ((butterfly realPoint z w p q).point quarter).toComplex =
      (if quarter % 2 = 0 then z else w).toComplex +
        ((I ^ quarter)⁻¹ * p.toComplex + I ^ quarter * q.toComplex) := by
  interval_cases quarter <;> refine Complex.ext ?_ ?_ <;>
    simp [butterfly, Quad.point, toComplex, realPoint, pow_succ] <;> ring

theorem joinAt_eq_turned (bits k : ℕ) (z w p q : Phasor ℝ) :
    joinAt realPoint bits k z w p q = turned realPoint (realPoint.root bits k) z w p q := by
  unfold joinAt
  split
  · subst k
    simp [turned, realPoint, Arithmetic.conj]
  · rfl

theorem toComplex_point_joinAt (bits k : ℕ) (z w p q : Phasor ℝ) {quarter : ℕ} (h : quarter < 4) :
    ((joinAt realPoint (bits + 2) k z w p q).point quarter).toComplex =
      (if quarter % 2 = 0 then z else w).toComplex +
        ((unitRoot (bits + 2) ^ (2 ^ bits * quarter + k))⁻¹ * p.toComplex +
          unitRoot (bits + 2) ^ (2 ^ bits * quarter + k) * q.toComplex) := by
  have turn : unitRoot (bits + 2) ^ (2 ^ bits * quarter + k) =
      I ^ quarter * unitRoot (bits + 2) ^ k := by
    rw [pow_add, pow_mul, Nat.add_comm bits 2, unitRoot_add_pow, unitRoot_two]
  rw [joinAt_eq_turned, turned, toComplex_point_butterfly _ _ _ _ h, toComplex_mul, toComplex_mul,
    toComplex_conj_root, toComplex_root, turn, mul_inv]
  ring

theorem root_four_two : realPoint.root 4 2 = realPoint.root 3 1 := by
  have angle : ((2 : ℕ) : ℝ) / 2 ^ 4 = ((1 : ℕ) : ℝ) / 2 ^ 3 := by norm_num
  simp only [realPoint, angle]

/-- The places of a network hold the numbers `x`, each in its place. -/
def Loaded (bits : ℕ) (x : ℕ → Phasor ℝ) (z : Vector (Phasor ℝ) (2 ^ bits)) : Prop :=
  ∀ k, k < 2 ^ bits → ∀ h : slot bits k < 2 ^ bits, z[slot bits k] = x k

section Parts

variable {bits : ℕ} {x : ℕ → Phasor ℝ} {z : Vector (Phasor ℝ) (2 ^ (bits + 2))}

theorem Loaded.half (h : Loaded (bits + 2) x z) :
    Loaded (bits + 1) (fun j => x (2 * j)) (part z 0 (2 ^ (bits + 1)) (half_le bits)) := by
  have whole : 2 ^ (bits + 2) = 2 * 2 ^ (bits + 1) := by ring
  intro j hj hslot
  rw [getElem_part]
  simpa only [slot_even, Nat.zero_add] using h (2 * j) (by omega) (slot_lt _ _)

theorem Loaded.third (h : Loaded (bits + 2) x z) :
    Loaded bits (fun j => x ((4 * j + 2 ^ (bits + 2) - 1) % 2 ^ (bits + 2)))
      (part z (2 ^ (bits + 1)) (2 ^ bits) (third_le bits)) := by
  intro j hj hslot
  have inside : (4 * j + 2 ^ (bits + 2) - 1) % 2 ^ (bits + 2) < 2 ^ (bits + 2) :=
    Nat.mod_lt _ (Nat.two_pow_pos _)
  rw [getElem_part]
  simpa only [slot_before hj] using h _ inside (slot_lt _ _)

theorem Loaded.fourth (h : Loaded (bits + 2) x z) :
    Loaded bits (fun j => x (4 * j + 1))
      (part z (2 ^ (bits + 1) + 2 ^ bits) (2 ^ bits) (fourth_le bits)) := by
  have whole : 2 ^ (bits + 2) = 4 * 2 ^ bits := by ring
  intro j hj hslot
  rw [getElem_part]
  simpa only [slot_after] using h (4 * j + 1) (by omega) (slot_lt _ _)

end Parts

theorem Loaded.toComplex_run : ∀ {bits : ℕ} {x : ℕ → Phasor ℝ} {z : Vector (Phasor ℝ) (2 ^ bits)},
    Loaded bits x z → ∀ (m : ℕ) (hm : m < 2 ^ bits),
      ((run realPoint bits z)[m]).toComplex = fourier bits (fun k => (x k).toComplex) m
  | 0, x, z, h, m, hm => by
    obtain rfl : m = 0 := by omega
    have first : z[0] = x 0 := h 0 (by decide) (by decide)
    simp [run, fourier, first]
  | 1, x, z, h, m, hm => by
    have first : z[0] = x 0 := h 0 (by decide) (by decide)
    have second : z[1] = x 1 := h 1 (by decide) (by decide)
    obtain rfl | rfl : m = 0 ∨ m = 1 := by omega
    · simp [run, two, fourier, first, second, sum_range_succ, Arithmetic.plus, realPoint, toComplex,
        Complex.ext_iff]
    · simp [run, two, fourier, first, second, sum_range_succ, Arithmetic.minus, realPoint, toComplex,
        Complex.ext_iff, unitRoot_one, sub_eq_add_neg]
  | bits + 2, x, z, h, m, hm => by
    have whole : 2 ^ (bits + 2) = 2 ^ bits * 4 := by ring
    obtain ⟨quarter, k, hq, hk, rfl⟩ :
        ∃ quarter k, quarter < 4 ∧ k < 2 ^ bits ∧ m = 2 ^ bits * quarter + k :=
      ⟨m / 2 ^ bits, m % 2 ^ bits, Nat.div_lt_of_lt_mul (by omega),
        Nat.mod_lt _ (Nat.two_pow_pos bits), (Nat.div_add_mod _ _).symm⟩
    have period : ∀ y, fourier bits y (2 ^ bits * quarter + k) = fourier bits y k := fun y => by
      rw [Nat.add_comm, fourier_add_mul]
    rw [run_add_two realPoint root_four_two bits z, runJoined,
      getElem_join _ _ _ _ _ hk (by omega) (by omega), toComplex_point_joinAt _ _ _ _ _ _ hq,
      h.third.toComplex_run k hk, h.fourth.toComplex_run k hk, fourier_add_two, period, period,
      fourier_half]
    congr 1
    split
    · exact h.half.toComplex_run k (by omega)
    · exact h.half.toComplex_run (2 ^ bits + k) (by omega)

/-- What a network gives for inputs that were loaded, as a sum of powers of one root. -/
theorem toComplex_run_load (bits : ℕ) (x : Fin (2 ^ bits) → Phasor ℝ)
    (z : Vector (Phasor ℝ) (2 ^ bits)) (m : Fin (2 ^ bits)) :
    ((run realPoint bits (load bits x z)).get m).toComplex =
      ∑ k : Fin (2 ^ bits), (x k).toComplex * unitRoot bits ^ (k.val * m.val) := by
  have positive := Nat.two_pow_pos bits
  have loaded : Loaded bits (fun k => x ⟨k % 2 ^ bits, Nat.mod_lt _ positive⟩) (load bits x z) := by
    intro k hk hslot
    have same : (⟨k, hk⟩ : Fin (2 ^ bits)) = ⟨k % 2 ^ bits, Nat.mod_lt _ positive⟩ :=
      Fin.ext (Nat.mod_eq_of_lt hk).symm
    exact (getElem_load x z ⟨k, hk⟩ hslot).trans (congrArg x same)
  rw [get_eq_getElem, loaded.toComplex_run m m.isLt, fourier, ← Fin.sum_univ_eq_sum_range
    (fun k => (x ⟨k % 2 ^ bits, Nat.mod_lt _ positive⟩).toComplex * unitRoot bits ^ (k * m.val))]
  refine sum_congr rfl fun k _ => ?_
  congr 3
  exact Fin.ext (Nat.mod_eq_of_lt k.isLt)

/-- The inputs of a network of `2 ^ bits` points are loaded into its places in an order that puts
each into one place of its own: into place `i` the input `inputAt bits i`. What the network then gives
over exact arithmetic are the Fourier sums of the inputs. Every network of at least four points is a
join of smaller ones, also those that are written out. -/
theorem run_load_eq_sum (bits : ℕ) (x : Fin (2 ^ bits) → Phasor ℝ)
    (z : Vector (Phasor ℝ) (2 ^ bits)) :
    (∀ i < 2 ^ bits, slot bits (inputAt bits i) = i) ∧
      Function.Bijective (fun k : Fin (2 ^ bits) =>
        (⟨slot bits k, slot_lt bits k⟩ : Fin (2 ^ bits))) ∧
      (∀ m : Fin (2 ^ bits), ((run realPoint bits (load bits x z)).get m).toComplex =
        ∑ k : Fin (2 ^ bits), (x k).toComplex * exp (2 * π * I * k * m / 2 ^ bits)) ∧
      ∀ (fewer : ℕ) (w : Vector (Phasor ℝ) (2 ^ (fewer + 2))),
        run realPoint (fewer + 2) w = runJoined realPoint fewer w := by
  refine ⟨fun i hi => ?_, bijective_slot bits, fun m => ?_, run_add_two realPoint root_four_two⟩
  · rw [slot_inputAt, Nat.mod_eq_of_lt hi]
  · rw [toComplex_run_load]
    refine sum_congr rfl fun k _ => ?_
    rw [unitRoot, ← Complex.exp_nat_mul]
    congr 2
    push_cast
    ring

end Network

end Wma
