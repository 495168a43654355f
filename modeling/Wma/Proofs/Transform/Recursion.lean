import Mathlib.Tactic.IntervalCases
import Wma.Proofs.Transform.Homomorphism

/-!
# Every network is a join

A network of `n` points joins one of `n / 2` points with two of `n / 4` points. This is how long
networks are defined, and it holds of the ones that are written out as well (`Network.run_add_two`).
The network of sixteen points takes its second factor from the circle of eight, so it needs an
arithmetic in which the two factors are one.
-/

namespace Wma.Network

variable {α : Type} (A : Arithmetic α)

theorem getElem_part {n : Nat} (z : Vector (Phasor α) n) (start count : Nat) (h : start + count ≤ n)
    {i : Nat} (hi : i < count) : (part z start count h)[i] = z[start + i] := by
  simp only [part, get_eq_getElem, Vector.getElem_ofFn]

/-- The points of a join, a quarter of a turn apart from each other. -/
theorem getElem_join (bits : Nat) (half : Vector (Phasor α) (2 ^ (bits + 1)))
    (third fourth : Vector (Phasor α) (2 ^ bits)) {quarter k : Nat} (hk : k < 2 ^ bits)
    (hl : k < 2 ^ (bits + 1)) (hr : 2 ^ bits + k < 2 ^ (bits + 1))
    (h : 2 ^ bits * quarter + k < 2 ^ (bits + 2)) :
    (join A bits half third fourth)[2 ^ bits * quarter + k] =
      (joinAt A (bits + 2) k half[k] half[2 ^ bits + k] third[k] fourth[k]).point quarter := by
  have place : (2 ^ bits * quarter + k) % 2 ^ bits = k := by
    rw [Nat.mul_add_mod, Nat.mod_eq_of_lt hk]
  have quotient : (2 ^ bits * quarter + k) / 2 ^ bits = quarter := by
    rw [Nat.mul_add_div (Nat.two_pow_pos bits), Nat.div_eq_of_lt hk, Nat.add_zero]
  simp only [join, get_eq_getElem, Vector.getElem_ofFn, place, quotient]

/-! ### Networks that are written out -/

theorem four_eq (z : Vector (Phasor α) 4) :
    four A z = join A 0 (two A (part z 0 2 (by decide))) (part z 2 1 (by decide))
      (part z 3 1 (by decide)) := by
  ext1 i hi
  obtain ⟨quarter, k, hq, hk, rfl⟩ : ∃ quarter k, quarter < 4 ∧ k < 2 ^ 0 ∧ i = 2 ^ 0 * quarter + k :=
    ⟨i, 0, hi, by decide, by omega⟩
  rw [getElem_join A 0 _ _ _ hk (by omega) (by omega)]
  obtain rfl : k = 0 := by omega
  interval_cases quarter <;> simp [four, two, joinAt, Quad.point, getElem_part] <;> rfl

theorem eight_eq (z : Vector (Phasor α) 8) :
    eight A z = join A 1 (four A (part z 0 4 (by decide))) (two A (part z 4 2 (by decide)))
      (two A (part z 6 2 (by decide))) := by
  ext1 i hi
  obtain ⟨quarter, k, hq, hk, rfl⟩ : ∃ quarter k, quarter < 4 ∧ k < 2 ^ 1 ∧ i = 2 ^ 1 * quarter + k :=
    ⟨i / 2, i % 2, by omega, by omega, by omega⟩
  rw [getElem_join A 1 _ _ _ hk (by omega) (by omega)]
  interval_cases k <;> interval_cases quarter <;>
    simp [eight, four, two, joinAt, Quad.point, getElem_part]

theorem sixteen_eq (h : A.root 4 2 = A.root 3 1) (z : Vector (Phasor α) 16) :
    sixteen A z = join A 2 (eight A (part z 0 8 (by decide))) (four A (part z 8 4 (by decide)))
      (four A (part z 12 4 (by decide))) := by
  have half : part z 0 8 (by decide) = #v[z[0], z[1], z[2], z[3], z[4], z[5], z[6], z[7]] := by
    ext1 i hi
    interval_cases i <;> simp [getElem_part]
  have third : part z 8 4 (by decide) = #v[z[8], z[9], z[10], z[11]] := by
    ext1 i hi
    interval_cases i <;> simp [getElem_part]
  have fourth : part z 12 4 (by decide) = #v[z[12], z[13], z[14], z[15]] := by
    ext1 i hi
    interval_cases i <;> simp [getElem_part]
  ext1 i hi
  obtain ⟨quarter, k, hq, hk, rfl⟩ : ∃ quarter k, quarter < 4 ∧ k < 2 ^ 2 ∧ i = 2 ^ 2 * quarter + k :=
    ⟨i / 4, i % 4, by omega, by omega, by omega⟩
  rw [getElem_join A 2 _ _ _ hk (by omega) (by omega), half, third, fourth]
  interval_cases k <;> interval_cases quarter <;> simp [sixteen, joinAt, Quad.point, h]

/-! ### All networks -/

theorem half_le (bits : Nat) : 0 + 2 ^ (bits + 1) ≤ 2 ^ (bits + 2) := by
  rw [Nat.pow_succ 2 (bits + 1)]
  omega

theorem third_le (bits : Nat) : 2 ^ (bits + 1) + 2 ^ bits ≤ 2 ^ (bits + 2) := by
  rw [Nat.pow_succ 2 (bits + 1), Nat.pow_succ]
  omega

theorem fourth_le (bits : Nat) : 2 ^ (bits + 1) + 2 ^ bits + 2 ^ bits ≤ 2 ^ (bits + 2) := by
  rw [Nat.pow_succ 2 (bits + 1), Nat.pow_succ]
  omega

/-- A join of smaller networks over the parts of `z`: over its first half, and over its last two
quarters. -/
def runJoined (bits : Nat) (z : Vector (Phasor α) (2 ^ (bits + 2))) :
    Vector (Phasor α) (2 ^ (bits + 2)) :=
  join A bits (run A (bits + 1) (part z 0 (2 ^ (bits + 1)) (half_le bits)))
    (run A bits (part z (2 ^ (bits + 1)) (2 ^ bits) (third_le bits)))
    (run A bits (part z (2 ^ (bits + 1) + 2 ^ bits) (2 ^ bits) (fourth_le bits)))

theorem run_add_two (h : A.root 4 2 = A.root 3 1) :
    ∀ (bits : Nat) (z : Vector (Phasor α) (2 ^ (bits + 2))), run A (bits + 2) z = runJoined A bits z
  | 0, z => four_eq A z
  | 1, z => eight_eq A z
  | 2, z => sixteen_eq A h z
  | _ + 3, _ => rfl

end Wma.Network
