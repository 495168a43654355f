import Mathlib.Tactic.Ring
import Wma.Code.PrefixCode
import Wma.Proofs.Bits.List

/-!
# Numbers that are written out

`CodeWord.bitsOf` writes a number out and `Bits.value` reads it back (`Bits.value_bitsOf`,
`Bits.bitsOf_value`). Rows of bits that begin with a given one are a range of numbers
(`Bits.bitsOf_prefix_iff`).
-/

namespace Wma

namespace Bits

open CodeWord

variable {v n : Nat} {l m : List Bool}

@[simp] theorem length_bitsOf (v n : Nat) : (bitsOf v n).length = n := by
  simp [bitsOf]

theorem getElem_bitsOf {i : Nat} (h : i < (bitsOf v n).length) :
    (bitsOf v n)[i] = v.testBit (n - 1 - i) := by
  simp [bitsOf]

theorem value_append (l m : List Bool) : value (l ++ m) = value l * 2 ^ m.length + value m := by
  induction m using List.reverseRecOn with
  | nil => simp [value]
  | append_singleton m b ih =>
    rw [← List.append_assoc, value_concat, value_concat, ih, List.length_append,
      List.length_singleton, Nat.pow_succ]
    ring

/-- A number is read back from its bits. -/
theorem value_bitsOf (h : v < 2 ^ n) : value (bitsOf v n) = v := by
  have fits := value_lt (bitsOf v n)
  rw [length_bitsOf] at fits
  refine Nat.eq_of_testBit_eq fun j => ?_
  by_cases hj : j < n
  · rw [testBit_value (by simpa using hj), getElem_bitsOf, length_bitsOf]
    congr 1
    omega
  · have wide : 2 ^ n ≤ 2 ^ j := Nat.pow_le_pow_right (by decide) (by omega)
    rw [Nat.testBit_lt_two_pow (Nat.lt_of_lt_of_le fits wide),
      Nat.testBit_lt_two_pow (Nat.lt_of_lt_of_le h wide)]

theorem bitsOf_value (l : List Bool) : bitsOf (value l) l.length = l := by
  refine List.ext_getElem (by simp) fun i hi hi' => ?_
  rw [getElem_bitsOf, testBit_value (by omega)]
  congr 1
  omega

theorem value_replicate_true (n : Nat) : value (List.replicate n true) + 1 = 2 ^ n := by
  induction n with
  | zero => rfl
  | succ n ih =>
    rw [List.replicate_succ', value_concat, Nat.pow_succ, Bool.toNat_true]
    omega

/-- A number is written out in two parts. -/
theorem bitsOf_add (v n m : Nat) : bitsOf v (n + m) = bitsOf (v / 2 ^ m) n ++ bitsOf (v % 2 ^ m) m := by
  refine List.ext_getElem (by simp) fun i hi hi' => ?_
  rw [length_bitsOf] at hi
  rw [getElem_bitsOf, List.getElem_append]
  split
  · rename_i first
    rw [length_bitsOf] at first
    rw [getElem_bitsOf, Nat.testBit_div_two_pow]
    congr 1
    omega
  · rename_i second
    rw [length_bitsOf] at second
    have inside : m - 1 - (i - n) < m := by omega
    simp only [getElem_bitsOf, length_bitsOf, Nat.testBit_mod_two_pow, inside, decide_true,
      Bool.true_and]
    congr 1
    omega

/-- The rows of bits that begin with a word are a range of numbers. -/
theorem bitsOf_prefix_iff (h : v < 2 ^ n) (hn : n ≤ l.length) : bitsOf v n <+: l ↔
    v * 2 ^ (l.length - n) ≤ value l ∧ value l < (v + 1) * 2 ^ (l.length - n) := by
  constructor
  · rintro ⟨rest, rfl⟩
    have tail := value_lt rest
    rw [value_append, value_bitsOf h, List.length_append, length_bitsOf, Nat.add_sub_cancel_left,
      Nat.add_mul]
    omega
  · rintro ⟨low, high⟩
    have parts := value_append (l.take n) (l.drop n)
    have tail := value_lt (l.drop n)
    rw [List.take_append_drop, List.length_drop] at parts
    rw [List.length_drop] at tail
    rw [parts] at low high
    have first : value (l.take n) = v := by
      have below : v < value (l.take n) + 1 := by
        refine Nat.lt_of_mul_lt_mul_right (a := 2 ^ (l.length - n)) ?_
        rw [Nat.add_mul]
        omega
      have above : value (l.take n) < v + 1 := by
        refine Nat.lt_of_mul_lt_mul_right (a := 2 ^ (l.length - n)) ?_
        omega
      omega
    have taken := bitsOf_value (l.take n)
    rw [first, List.length_take, Nat.min_eq_left hn] at taken
    rw [taken]
    exact List.take_prefix n l

end Bits

/-- A field that has been written is read back. -/
theorem Parse.wp_read_bitsOf {σ : Type} {s : Scan σ} {E : Error → Scan σ → Prop}
    {Q : Nat → Scan σ → Prop} {v n : Nat} {rest : List Bool} (hn : n ≤ 32) (hv : v < 2 ^ n)
    (h : s.reader.remaining = CodeWord.bitsOf v n ++ rest)
    (hQ : ∀ q, s.reader.Moved n q → q.remaining = rest → Q v ⟨q, s.state⟩) :
    (read n).wp Q E s := by
  have left : n ≤ s.reader.left := by
    rw [← s.reader.length_remaining, h, List.length_append, Bits.length_bitsOf]
    exact Nat.le_add_right ..
  refine wp_read_of_le hn left fun q hm => ?_
  rw [h, List.take_left' (Bits.length_bitsOf v n), Bits.value_bitsOf hv]
  exact hQ q hm (by rw [hm.remaining, h, List.drop_left' (Bits.length_bitsOf v n)])

end Wma
