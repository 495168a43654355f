import Mathlib.Tactic.Linarith
import Mathlib.Tactic.Ring
import Wma.Fixed.Root

/-!
# Square roots, digit by digit

Going through the digits of a root keeps what they leave of the number in `rest`: after the digits
that make up `p`, it is `n - p * p`, and `root` is `p` at the weight of the next digit
(`rootDigits_eq_sqrt`). The checked loops meet the same digits, less the zeros at the front, and no
sum of theirs leaves its word (`checkedIsqrt_eq_ok`).
-/

namespace Wma

/-- Of what is left after the digits of `p`, fewer than `digits` more cannot be the root. -/
theorem rootDigits_eq_sqrt : ∀ {digits p rest : Nat}, rest < 2 * p * 2 ^ digits + 4 ^ digits →
    rootDigits digits rest (p * 2 ^ digits) = (p * p + rest).sqrt
  | 0, p, rest, h => by
    rw [Nat.pow_zero, Nat.mul_one, Nat.sqrt_add_eq p (by omega)]
    rfl
  | digits + 1, p, rest, h => by
    have weight : 2 ^ digits * 2 ^ digits = 4 ^ digits := by rw [← Nat.mul_pow]
    have root : p * 2 ^ (digits + 1) = 2 * (p * 2 ^ digits) := by ring
    have bound : 2 * p * 2 ^ (digits + 1) + 4 ^ (digits + 1) =
        4 * (p * 2 ^ digits) + 4 * 4 ^ digits := by ring
    have next : (p + 2 ^ digits) * 2 ^ digits = p * 2 ^ digits + 4 ^ digits := by
      rw [Nat.add_mul, weight]
    have square : (p + 2 ^ digits) * (p + 2 ^ digits) =
        p * p + (2 * (p * 2 ^ digits) + 4 ^ digits) := by rw [← weight]; ring
    rw [bound] at h
    rw [rootDigits, root, Nat.mul_div_cancel_left _ (by decide)]
    split
    · -- The digit is one, and the square of the longer root is taken off.
      rw [← next, rootDigits_eq_sqrt (by rw [Nat.mul_assoc, next]; omega), square]
      congr 1
      omega
    · rw [rootDigits_eq_sqrt (by rw [Nat.mul_assoc]; omega)]

theorem isqrt32_eq_sqrt {n : Nat} (h : n < 2 ^ 32) : isqrt32 n = n.sqrt := by
  simpa [isqrt32] using @rootDigits_eq_sqrt 16 0 n (by omega)

theorem isqrt64_eq_sqrt {n : Nat} (h : n < 2 ^ 64) : isqrt64 n = n.sqrt := by
  simpa [isqrt64] using @rootDigits_eq_sqrt 32 0 n (by omega)

/-! ### The loops -/

/-- Weights that are more than the number belong to zeros. -/
theorem checkedWeight_eq_ok (n : Nat) : ∀ {digits rounds : Nat}, digits < rounds →
    ∃ first ≤ digits, checkedWeight n rounds (4 ^ digits / 4) = .ok (4 ^ first / 4) ∧
      rootDigits first n 0 = rootDigits digits n 0
  | 0, rounds + 1, _ => ⟨0, Nat.le_refl 0, if_pos (Nat.zero_le n), rfl⟩
  | digits + 1, rounds + 1, h => by
    have weight : 4 ^ (digits + 1) / 4 = 4 ^ digits := by
      rw [Nat.pow_succ, Nat.mul_div_cancel _ (by decide)]
    by_cases held : 4 ^ digits ≤ n
    · exact ⟨digits + 1, Nat.le_refl _, by rw [weight]; exact if_pos held, rfl⟩
    · obtain ⟨first, le, found, same⟩ := checkedWeight_eq_ok n (Nat.lt_of_succ_lt_succ h)
      refine ⟨first, Nat.le_succ_of_le le, ?_, ?_⟩
      · rw [weight, checkedWeight, if_neg held, found]
      · rw [same, rootDigits, if_neg (by omega)]

/-- The digits found so far, at their weight, are less than the bits of half a word. -/
theorem checkedDigits_eq_ok {width : Nat} : ∀ {digits rounds rest root : Nat}, digits < rounds →
    digits ≤ width → root + 4 ^ digits ≤ 2 ^ (width + digits) →
    checkedDigits (2 * width) rounds rest root (4 ^ digits / 4) = .ok (rootDigits digits rest root)
  | 0, rounds + 1, _, _, _, _, _ => rfl
  | digits + 1, rounds + 1, rest, root, hrounds, hd, h => by
    have weight : 4 ^ (digits + 1) / 4 = 4 ^ digits := by
      rw [Nat.pow_succ, Nat.mul_div_cancel _ (by decide)]
    have four : 4 ^ (digits + 1) = 4 * 4 ^ digits := by ring
    have bound : 2 ^ (width + (digits + 1)) = 2 * 2 ^ (width + digits) := by ring
    have positive : 0 < 4 ^ digits := Nat.pow_pos (by decide)
    have top : 2 ^ (width + (digits + 1)) ≤ 2 ^ (2 * width) :=
      Nat.pow_le_pow_right (by decide) (by omega)
    have sum : word (2 * width) (root + 4 ^ digits) = .ok (root + 4 ^ digits) :=
      if_pos (by omega)
    have next : word (2 * width) (root / 2 + 4 ^ digits) = .ok (root / 2 + 4 ^ digits) :=
      if_pos (by omega)
    rw [weight, checkedDigits, if_neg (by omega), sum, rootDigits]
    show (if root + 4 ^ digits ≤ rest then _ else _) = _
    by_cases held : root + 4 ^ digits ≤ rest
    · rw [if_pos held, if_pos held, next]
      exact checkedDigits_eq_ok (by omega) (by omega) (by omega)
    · rw [if_neg held, if_neg held]
      exact checkedDigits_eq_ok (by omega) (by omega) (by omega)

theorem checkedIsqrt_eq_ok (digits n : Nat) :
    checkedIsqrt (digits + 1) n = .ok (rootDigits (digits + 1) n 0) := by
  obtain ⟨first, le, found, same⟩ := checkedWeight_eq_ok n (Nat.lt_succ_self (digits + 1))
  have start : 4 ^ (digits + 1 - 1) = 4 ^ (digits + 1) / 4 := by
    rw [Nat.add_sub_cancel, Nat.pow_succ, Nat.mul_div_cancel _ (by decide)]
  have room : 0 + 4 ^ first ≤ 2 ^ (digits + 1 + first) := by
    rw [Nat.zero_add, show 4 = 2 ^ 2 from rfl, ← Nat.pow_mul]
    exact Nat.pow_le_pow_right (by decide) (by omega)
  rw [checkedIsqrt, start, found, ← same]
  exact checkedDigits_eq_ok (Nat.lt_succ_of_le le) le room

theorem checkedIsqrt32_eq_ok (n : Nat) : checkedIsqrt32 n = .ok (isqrt32 n) :=
  checkedIsqrt_eq_ok 15 n

theorem checkedIsqrt64_eq_ok (n : Nat) : checkedIsqrt64 n = .ok (isqrt64 n) :=
  checkedIsqrt_eq_ok 31 n

/-- The loops come to an end for every word, zero and the greatest one included, no sum on the way
leaves its word, and what comes out is the one number whose square is not beyond the word while that
of its successor is. -/
theorem isqrt_exact {n m : Nat} (hn : n < 2 ^ 64) (hm : m < 2 ^ 32) :
    (checkedIsqrt64 n = .ok (isqrt64 n) ∧ isqrt64 n < 2 ^ 32 ∧
      ∀ r, isqrt64 n = r ↔ r ^ 2 ≤ n ∧ n < (r + 1) ^ 2) ∧
    (checkedIsqrt32 m = .ok (isqrt32 m) ∧
      ∀ r, isqrt32 m = r ↔ r ^ 2 ≤ m ∧ m < (r + 1) ^ 2) := by
  refine ⟨⟨checkedIsqrt64_eq_ok n, ?_, fun r => ?_⟩, checkedIsqrt32_eq_ok m, fun r => ?_⟩
  · rw [isqrt64_eq_sqrt hn]
    exact Nat.sqrt_lt.mpr hn
  · rw [isqrt64_eq_sqrt hn, eq_comm, Nat.eq_sqrt']
  · rw [isqrt32_eq_sqrt hm, eq_comm, Nat.eq_sqrt']

theorem isqrt_exact_ends : 2 ^ 64 - 1 < 2 ^ 64 ∧ 0 < 2 ^ 32 ∧
    checkedIsqrt64 (2 ^ 64 - 1) = .ok (2 ^ 32 - 1) ∧ checkedIsqrt32 0 = .ok 0 := by
  obtain ⟨⟨wide, -, root⟩, narrow, root'⟩ :=
    isqrt_exact (n := 2 ^ 64 - 1) (m := 0) (by decide) (by decide)
  refine ⟨by decide, by decide, ?_, ?_⟩
  · rw [wide, (root (2 ^ 32 - 1)).mpr ⟨by decide, by decide⟩]
  · rw [narrow, (root' 0).mpr ⟨by decide, by decide⟩]

end Wma
