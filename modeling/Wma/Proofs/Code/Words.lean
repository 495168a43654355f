import Mathlib.Data.Finset.Card
import Mathlib.Data.List.Pairwise
import Mathlib.Data.List.Perm.Basic
import Mathlib.Order.Interval.Finset.Nat
import Wma.Code.PrefixCode
import Wma.Proofs.Bits.Numbers
import Wma.Proofs.Gives

/-!
# Words of a code

`IsWord` says which words the tables of a code list, and `Unlike` that neither of two words begins
the other. Of the patterns of some number of bits, a word takes those that it begins
(`CodeWord.Begins`), so two words that are unlike share none (`CodeWord.exists_begins_iff`).
-/

namespace Wma

/-- Neither of two rows of bits begins the other. -/
def Apart (v w : List Bool) : Prop :=
  ¬v <+: w ∧ ¬w <+: v

theorem Apart.symm {v w : List Bool} (h : Apart v w) : Apart w v :=
  ⟨h.2, h.1⟩

theorem not_apart_iff {v w : List Bool} : ¬Apart v w ↔ v <+: w ∨ w <+: v := by
  unfold Apart
  tauto

namespace CodeWord

open Bits

variable {v w : CodeWord} {n m i : Nat} {l : List Bool}

@[simp] theorem length_path (w : CodeWord) : w.path.length = w.length := by
  simp [path]

/-- The bits of a word fit its length, which is at most `n`. -/
structure Fits (n : Nat) (w : CodeWord) : Prop where
  length_le : w.length ≤ n
  bits_lt : w.bits < 2 ^ w.length

/-- The pattern `i` of `n` bits begins with the word. -/
def Begins (w : CodeWord) (n i : Nat) : Prop :=
  w.length ≤ n ∧ i / 2 ^ (n - w.length) = w.bits

instance : Decidable (w.Begins n i) :=
  inferInstanceAs (Decidable (_ ∧ _))

theorem Fits.begins_iff (hw : w.Fits n) : w.Begins n i ↔
    w.bits * 2 ^ (n - w.length) ≤ i ∧ i < (w.bits + 1) * 2 ^ (n - w.length) := by
  rw [Begins, and_iff_right hw.length_le, Nat.div_eq_iff (Nat.two_pow_pos _), Nat.add_mul,
    Nat.one_mul, Nat.lt_iff_le_pred (by have := Nat.two_pow_pos (n - w.length); omega)]

/-- The patterns that a word begins lie among those that there are. -/
theorem Fits.last_le (hw : w.Fits n) : (w.bits + 1) * 2 ^ (n - w.length) ≤ 2 ^ n := by
  have whole : 2 ^ n = 2 ^ w.length * 2 ^ (n - w.length) := by
    rw [← Nat.pow_add, Nat.add_sub_cancel' hw.length_le]
  rw [whole]
  exact Nat.mul_le_mul_right _ hw.bits_lt

theorem begins_iff (hw : w.bits < 2 ^ w.length) (hi : i < 2 ^ n) :
    w.Begins n i ↔ w.path <+: bitsOf i n := by
  by_cases hle : w.length ≤ n
  · rw [Fits.begins_iff ⟨hle, hw⟩, path, bitsOf_prefix_iff hw (by simpa using hle), length_bitsOf,
      value_bitsOf hi]
  · refine iff_of_false (fun h => hle h.1) fun h => hle ?_
    simpa using h.length_le

/-- Two words have a pattern in common just if one of them begins the other. -/
theorem exists_begins_iff (hv : v.Fits n) (hw : w.Fits n) :
    (∃ i < 2 ^ n, v.Begins n i ∧ w.Begins n i) ↔ ¬Apart v.path w.path := by
  rw [not_apart_iff]
  constructor
  · rintro ⟨i, hi, hvi, hwi⟩
    rw [begins_iff hv.bits_lt hi] at hvi
    rw [begins_iff hw.bits_lt hi] at hwi
    exact List.prefix_or_prefix_of_prefix hvi hwi
  · -- The first pattern of the longer word begins with both.
    have shared : ∀ {v w : CodeWord}, v.Fits n → w.Fits n → v.path <+: w.path →
        ∃ i < 2 ^ n, v.Begins n i ∧ w.Begins n i := fun {v w} hv hw hpre => by
      have last := hw.last_le
      have room := Nat.two_pow_pos (n - w.length)
      rw [Nat.add_mul] at last
      have first : w.bits * 2 ^ (n - w.length) < 2 ^ n := by omega
      have begins : w.Begins n (w.bits * 2 ^ (n - w.length)) :=
        ⟨hw.length_le, Nat.mul_div_cancel _ room⟩
      refine ⟨_, first, (begins_iff hv.bits_lt first).mpr ?_, begins⟩
      exact hpre.trans ((begins_iff hw.bits_lt first).mp begins)
    rintro (hpre | hpre)
    · exact shared hv hw hpre
    · obtain ⟨i, hi, hwi, hvi⟩ := shared hw hv hpre
      exact ⟨i, hi, hvi, hwi⟩

/-! ### The two parts of a word -/

theorem path_eq_append (h : n ≤ w.length) : w.path = bitsOf (w.head n) n ++ (w.tail n).path := by
  obtain ⟨m, hm⟩ := Nat.exists_eq_add_of_le h
  unfold path head tail
  rw [hm, Nat.add_sub_cancel_left, bitsOf_add]

theorem head_lt (hw : w.bits < 2 ^ w.length) (h : n ≤ w.length) : w.head n < 2 ^ n := by
  refine Nat.div_lt_of_lt_mul ?_
  rwa [← Nat.pow_add, Nat.sub_add_cancel h]

theorem fits_tail (hw : w.Fits (n + m)) : (w.tail n).Fits m where
  length_le := by
    have := hw.length_le
    show w.length - n ≤ m
    omega
  bits_lt := Nat.mod_lt _ (Nat.two_pow_pos _)

theorem bitsOf_inj {a b : Nat} (ha : a < 2 ^ n) (hb : b < 2 ^ n) (h : bitsOf a n = bitsOf b n) :
    a = b := by
  rw [← value_bitsOf ha, h, value_bitsOf hb]

/-- Words whose first `n` bits differ are unlike. -/
theorem apart_of_head_ne (hv : v.bits < 2 ^ v.length) (hw : w.bits < 2 ^ w.length)
    (hnv : n ≤ v.length) (hnw : n ≤ w.length) (h : v.head n ≠ w.head n) :
    Apart v.path w.path := by
  have same : ∀ {v w : CodeWord}, v.bits < 2 ^ v.length → w.bits < 2 ^ w.length → n ≤ v.length →
      n ≤ w.length → v.path <+: w.path → v.head n = w.head n := fun {v w} hv hw hnv hnw hpre => by
    rw [path_eq_append hnv, path_eq_append hnw] at hpre
    have first := (List.prefix_append ..).trans hpre
    have second := List.prefix_append (bitsOf (w.head n) n) (w.tail n).path
    refine bitsOf_inj (head_lt hv hnv) (head_lt hw hnw) ?_
    exact (List.prefix_of_prefix_length_le first second (by simp)).eq_of_length (by simp)
  exact ⟨fun hpre => h (same hv hw hnv hnw hpre), fun hpre => h (same hw hv hnw hnv hpre).symm⟩

/-- A word meets a longer one just if the pattern at the front of that one begins with it. -/
theorem begins_head_iff (hv : v.Fits n) (hw : w.bits < 2 ^ w.length) (h : n < w.length) :
    v.Begins n (w.head n) ↔ ¬Apart v.path w.path := by
  have split := path_eq_append h.le
  have front : bitsOf (w.head n) n <+: w.path := split ▸ List.prefix_append ..
  rw [begins_iff hv.bits_lt (head_lt hw h.le), not_apart_iff]
  constructor
  · exact fun hpre => .inl (hpre.trans front)
  · rintro (hpre | hpre)
    · exact List.prefix_of_prefix_length_le hpre front (by simpa using hv.length_le)
    · have short := hpre.length_le
      have := hv.length_le
      rw [length_path, length_path] at short
      omega

/-- Where the first `n` bits are the same, the rest decides. -/
theorem apart_tail_iff (hnv : n ≤ v.length) (hnw : n ≤ w.length) (h : v.head n = w.head n) :
    Apart (v.tail n).path (w.tail n).path ↔ Apart v.path w.path := by
  unfold Apart
  rw [path_eq_append hnv, path_eq_append hnw, h, List.prefix_append_right_inj,
    List.prefix_append_right_inj]

end CodeWord

namespace PrefixCode

/-- The tables list the word; a length of zero stands for no word. -/
structure IsWord (words lengths : List Nat) (w : CodeWord) : Prop where
  bits : words[w.symbol]? = some w.bits
  length : lengths[w.symbol]? = some w.length
  pos : w.length ≠ 0

/-- Neither of the two words begins the other. -/
def Unlike (v w : CodeWord) : Prop :=
  Apart v.path w.path

instance : Std.Symm Unlike :=
  ⟨fun _ _ => Apart.symm⟩

variable {words lengths : List Nat} {v w : CodeWord} {l : List CodeWord}

theorem mem_wordsOf : w ∈ wordsOf words lengths ↔ IsWord words lengths w := by
  obtain ⟨symbol, bits, length⟩ := w
  simp only [wordsOf, List.mem_map, List.mem_filter, Prod.exists, List.mem_zipIdx_iff_getElem?,
    List.getElem?_zip_eq_some, decide_eq_true_eq, CodeWord.mk.injEq]
  constructor
  · rintro ⟨_, _, _, ⟨⟨hbits, hlength⟩, hpos⟩, rfl, rfl, rfl⟩
    exact ⟨hbits, hlength, hpos⟩
  · rintro ⟨hbits, hlength, hpos⟩
    exact ⟨_, _, _, ⟨⟨hbits, hlength⟩, hpos⟩, rfl, rfl, rfl⟩

theorem pairwise_wordsOf (words lengths : List Nat) :
    (wordsOf words lengths).Pairwise fun v w => v.symbol ≠ w.symbol := by
  have index : (words.zip lengths).zipIdx.Pairwise fun x y => x.2 ≠ y.2 := by
    rw [← List.pairwise_map (f := Prod.snd), List.zipIdx_map_snd]
    exact List.nodup_range'
  exact List.pairwise_map.mpr (index.filter _)

/-- Words that pass the check fit. -/
theorem check_eq_ok_iff {u : Unit} :
    check w = .ok u ↔ w.symbol < 65536 ∧ w.Fits 32 := by
  have fits : w.Fits 32 ↔ w.length ≤ 32 ∧ w.bits < 2 ^ w.length :=
    ⟨fun h => ⟨h.length_le, h.bits_lt⟩, fun h => ⟨h.1, h.2⟩⟩
  rw [fits]
  unfold check maxLength
  split
  · simp; omega
  · split
    · simp; omega
    · simp; omega

theorem forM_check_eq_ok_iff {u : Unit} : l.forM check = .ok u ↔ ∀ w ∈ l, check w = .ok () := by
  induction l with
  | nil => simp [pure, Except.pure]
  | cons w l ih =>
    rw [List.forall_mem_cons, ← ih]
    show (check w >>= fun _ => l.forM check) = .ok u ↔ _
    cases check w with
    | error e => simp [bind, Except.bind]
    | ok _ => simp [bind, Except.bind]

theorem pairwise_unlike_iff : (wordsOf words lengths).Pairwise Unlike ↔
    ∀ v w, IsWord words lengths v → IsWord words lengths w → v.symbol ≠ w.symbol →
      ¬v.path <+: w.path := by
  constructor
  · intro h v w hv hw hne
    exact (h.forall (mem_wordsOf.mpr hv) (mem_wordsOf.mpr hw) fun heq => hne (by rw [heq])).1
  · intro h
    refine (pairwise_wordsOf words lengths).imp_of_mem fun hv hw hne => ?_
    rw [mem_wordsOf] at hv hw
    exact ⟨h _ _ hv hw hne, h _ _ hw hv hne.symm⟩

/-- The words take as many patterns as there is room for their bits. -/
theorem card_begins {n : Nat} (hfits : ∀ w ∈ l, w.Fits n) (unlike : l.Pairwise Unlike) :
    ((Finset.range (2 ^ n)).filter fun i => ∃ w ∈ l, w.Begins n i).card =
      (l.map fun w => 2 ^ (n - w.length)).sum := by
  induction l with
  | nil => simp
  | cons w l ih =>
    obtain ⟨hw, hfits⟩ := List.forall_mem_cons.mp hfits
    obtain ⟨first, unlike⟩ := List.pairwise_cons.mp unlike
    have own : (Finset.range (2 ^ n)).filter (w.Begins n) =
        Finset.Ico (w.bits * 2 ^ (n - w.length)) ((w.bits + 1) * 2 ^ (n - w.length)) := by
      have last := hw.last_le
      ext i
      rw [Finset.mem_filter, Finset.mem_range, hw.begins_iff, Finset.mem_Ico]
      omega
    have apart : Disjoint ((Finset.range (2 ^ n)).filter (w.Begins n))
        ((Finset.range (2 ^ n)).filter fun i => ∃ v ∈ l, v.Begins n i) := by
      refine Finset.disjoint_filter.mpr fun i hi hwi => ?_
      rintro ⟨v, hv, hvi⟩
      exact (CodeWord.exists_begins_iff hw (hfits v hv)).mp
        ⟨i, Finset.mem_range.mp hi, hwi, hvi⟩ (first v hv)
    simp only [List.mem_cons, exists_eq_or_imp]
    rw [Finset.filter_or, Finset.card_union_of_disjoint apart, own, Nat.card_Ico, ih hfits unlike,
      List.map_cons, List.sum_cons, Nat.add_mul, Nat.one_mul, Nat.add_sub_cancel_left]

/-- Words that take all patterns leave none over. -/
theorem exists_begins {n i : Nat} (hfits : ∀ w ∈ l, w.Fits n) (unlike : l.Pairwise Unlike)
    (hsum : (l.map fun w => 2 ^ (n - w.length)).sum = 2 ^ n) (hi : i < 2 ^ n) :
    ∃ w ∈ l, w.Begins n i := by
  have all : (Finset.range (2 ^ n)).filter (fun i => ∃ w ∈ l, w.Begins n i) =
      Finset.range (2 ^ n) :=
    Finset.eq_of_subset_of_card_le (Finset.filter_subset ..)
      (by rw [card_begins hfits unlike, hsum, Finset.card_range])
  have member := Finset.mem_range.mpr hi
  rw [← all, Finset.mem_filter] at member
  exact member.2

/-- Whether words are unlike can be seen from their numbers. -/
theorem unlike_iff {n m : Nat} (hv : v.Fits n) (hw : w.Fits m) :
    Unlike v w ↔ ¬v.Begins w.length w.bits ∧ ¬w.Begins v.length v.bits := by
  unfold Unlike Apart
  rw [CodeWord.begins_iff hv.bits_lt hw.bits_lt, CodeWord.begins_iff hw.bits_lt hv.bits_lt]
  rfl

end PrefixCode

end Wma
