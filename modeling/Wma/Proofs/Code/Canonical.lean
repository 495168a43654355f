import Mathlib.Algebra.Order.BigOperators.Group.List
import Mathlib.Algebra.Order.Field.Rat
import Mathlib.Tactic.FieldSimp
import Wma.Code.Canonical
import Wma.Proofs.Code.PrefixCode

/-!
# Canonical codes fill the code space from below

Of the patterns of 32 bits, a word takes those that begin with it. A canonical code hands the
patterns out in the order of its words, so that each word begins where the words before it end
(`Handed`): the words of the code take the first patterns, as many as Kraft's sum says, and the code
can be built just if there are enough of them (`exists_words_iff`).
-/

namespace Wma

open PrefixCode

/-- The part of the code space that words of the given lengths take. -/
def kraftSum (lengths : List Nat) : ℚ :=
  (lengths.map fun length => 1 / 2 ^ length).sum

namespace CodeWord

/-- The first pattern of 32 bits that begins with the word. -/
def aligned (w : CodeWord) : Nat :=
  w.bits * 2 ^ (maxLength - w.length)

end CodeWord

namespace Canonical

variable {lengths : List Nat} {l : List (Nat × Nat)} {p q : Progress} {e : Nat × Nat}

/-! ### The order of the words -/

/-- Words go by their length, and by their symbol among words of one length. -/
def Precedes (a b : Nat × Nat) : Prop :=
  a.1 < b.1 ∨ a.1 = b.1 ∧ a.2 < b.2

theorem mem_order : e ∈ order lengths ↔ lengths[e.2]? = some e.1 ∧ e.1 ≠ 0 := by
  simp [order, (List.mergeSort_perm _ _).mem_iff, List.mem_zipIdx_iff_getElem?]

/-- Sorting by length keeps the order of the symbols among words of one length. -/
theorem pairwise_mergeSort_of_pairwise (h : l.Pairwise (·.2 < ·.2)) :
    (l.mergeSort fun a b => a.1 ≤ b.1).Pairwise Precedes := by
  have trans : ∀ a b c : Nat × Nat,
      decide (a.1 ≤ b.1) → decide (b.1 ≤ c.1) → decide (a.1 ≤ c.1) := by simp; omega
  have total : ∀ a b : Nat × Nat, (decide (a.1 ≤ b.1) || decide (b.1 ≤ a.1)) = true := by simp; omega
  induction l with
  | nil => simp
  | cons a l ih =>
    obtain ⟨first, rest⟩ := List.pairwise_cons.mp h
    obtain ⟨shorter, others, hsort, htail, hshorter⟩ := List.mergeSort_cons trans total a l
    have sorted := List.pairwise_mergeSort trans total (a :: l)
    have tail := ih rest
    have perm := List.mergeSort_perm l fun a b => decide (a.1 ≤ b.1)
    rw [hsort] at sorted ⊢
    rw [htail] at tail perm
    obtain ⟨before, after, across⟩ := List.pairwise_append.mp tail
    refine List.pairwise_append.mpr ⟨before, List.pairwise_cons.mpr ⟨fun b hb => ?_, after⟩, ?_⟩
    · have le := (List.pairwise_cons.mp (List.pairwise_append.mp sorted).2.1).1 b hb
      have symbol := first b (perm.mem_iff.mp (List.mem_append_right _ hb))
      simp only [decide_eq_true_eq] at le
      unfold Precedes
      omega
    · intro b hb c hc
      rcases List.mem_cons.mp hc with rfl | hc
      · have lt := hshorter b hb
        simp only [Bool.not_eq_true', decide_eq_false_iff_not] at lt
        exact .inl (by omega)
      · exact across b hb c hc

theorem pairwise_order (lengths : List Nat) : (order lengths).Pairwise Precedes := by
  refine pairwise_mergeSort_of_pairwise (List.Pairwise.filter _ ?_)
  rw [← List.pairwise_map (f := Prod.snd), List.zipIdx_map_snd]
  exact List.pairwise_lt_range'

/-- No symbol stands twice in the order. -/
theorem pairwise_symbol (lengths : List Nat) : (order lengths).Pairwise (·.2 ≠ ·.2) := by
  refine ((List.mergeSort_perm _ _).pairwise_iff Ne.symm).mpr (List.Pairwise.filter _ ?_)
  rw [← List.pairwise_map (f := Prod.snd), List.zipIdx_map_snd]
  exact List.nodup_range'

/-- A word that is longer, or of the same length, and for another symbol. -/
def InTurn (a b : Nat × Nat) : Prop :=
  a.1 ≤ b.1 ∧ a.2 ≠ b.2

theorem pairwise_inTurn (lengths : List Nat) : (order lengths).Pairwise InTurn := by
  refine ((pairwise_order lengths).and (pairwise_symbol lengths)).imp fun ⟨before, symbol⟩ => ?_
  unfold Precedes at before
  exact ⟨by omega, symbol⟩

/-! ### The patterns that words take -/

/-- Number of patterns of 32 bits that words of the given lengths take. -/
def space (lengths : List Nat) : Nat :=
  (lengths.map fun length => 2 ^ (maxLength - length)).sum

/-- Number of patterns that the first `i` words take. -/
def edge (l : List (Nat × Nat)) (i : Nat) : Nat :=
  space ((l.take i).map Prod.fst)

theorem edge_succ {i : Nat} (h : i < l.length) :
    edge l (i + 1) = edge l i + 2 ^ (maxLength - l[i].1) := by
  unfold edge space
  rw [List.take_succ_eq_append_getElem h, List.map_append, List.map_append, List.sum_append]
  rfl

theorem edge_length (l : List (Nat × Nat)) : edge l l.length = space (l.map Prod.fst) := by
  rw [edge, List.take_length]

theorem edge_append {l' : List (Nat × Nat)} {i : Nat} (h : i ≤ l.length) :
    edge (l ++ l') i = edge l i := by
  rw [edge, List.take_append_of_le_length h, edge]

theorem edge_le {i j : Nat} (h : i ≤ j) : edge l i ≤ edge l j := by
  obtain ⟨d, rfl⟩ := Nat.exists_eq_add_of_le h
  unfold edge space
  rw [List.take_add]
  simp

/-- A pattern that the words take together is taken by one of them. -/
theorem exists_edge {x : Nat} : ∀ n ≤ l.length, x < edge l n →
    ∃ i < l.length, edge l i ≤ x ∧ x < edge l (i + 1)
  | 0, _, hx => by simp [edge, space] at hx
  | n + 1, hn, hx => by
    by_cases below : x < edge l n
    · exact exists_edge n (by omega) below
    · exact ⟨n, hn, by omega, hx⟩

theorem cast_space {lengths : List Nat} (h : ∀ n ∈ lengths, n ≤ maxLength) :
    (space lengths : ℚ) = kraftSum lengths * 2 ^ maxLength := by
  induction lengths with
  | nil => simp [space, kraftSum]
  | cons n lengths ih =>
    have rest := ih fun m hm => h m (List.mem_cons_of_mem _ hm)
    have first : (2 : ℚ) ^ (maxLength - n) = 1 / 2 ^ n * 2 ^ maxLength := by
      rw [pow_sub₀ _ two_ne_zero (h n List.mem_cons_self)]
      ring
    unfold space kraftSum at rest ⊢
    rw [List.map_cons, List.sum_cons, Nat.cast_add, rest, List.map_cons, List.sum_cons, add_mul]
    push_cast
    rw [first]

theorem space_le_iff {lengths : List Nat} (h : ∀ n ∈ lengths, n ≤ maxLength) :
    space lengths ≤ 2 ^ maxLength ↔ kraftSum lengths ≤ 1 := by
  rw [← Nat.cast_le (α := ℚ), cast_space h, Nat.cast_pow, Nat.cast_ofNat]
  exact mul_le_iff_le_one_left (pow_pos two_pos _)

/-! ### Handing them out -/

/-- The words of `l` have been handed out in turn: each begins where those before it end. -/
structure Handed (n : Nat) (l : List (Nat × Nat)) (p : Progress) : Prop where
  size : p.words.size = n
  length_le : ∀ e ∈ l, e.1 ≤ maxLength
  width : p.width = 0 ∨ ∃ e ∈ l, e.1 = p.width
  next : p.next * 2 ^ (maxLength - p.width) = edge l l.length
  le : edge l l.length ≤ 2 ^ maxLength
  words : ∀ i (h : i < l.length), ∃ word,
    p.words[l[i].2]? = some word ∧ word * 2 ^ (maxLength - l[i].1) = edge l i

/-- A word can be handed out if enough patterns are left. -/
theorem assign_eq_ok_iff (h : p.width ≤ e.1) : assign p e = .ok q ↔ e.1 ≤ maxLength ∧
    p.next * 2 ^ (maxLength - p.width) + 2 ^ (maxLength - e.1) ≤ 2 ^ maxLength ∧
    q = ⟨p.next * 2 ^ (e.1 - p.width) + 1, e.1,
      p.words.setIfInBounds e.2 (p.next * 2 ^ (e.1 - p.width))⟩ := by
  unfold assign
  by_cases long : maxLength < e.1
  · simp [long]
  have hle : e.1 ≤ maxLength := by omega
  have scaled : p.next * 2 ^ (maxLength - p.width) =
      p.next * 2 ^ (e.1 - p.width) * 2 ^ (maxLength - e.1) := by
    rw [Nat.mul_assoc, ← Nat.pow_add]
    congr 2
    omega
  have whole : 2 ^ maxLength = 2 ^ e.1 * 2 ^ (maxLength - e.1) := by
    rw [← Nat.pow_add]
    congr 1
    omega
  have enough : p.next * 2 ^ (maxLength - p.width) + 2 ^ (maxLength - e.1) ≤ 2 ^ maxLength ↔
      ¬2 ^ e.1 ≤ p.next * 2 ^ (e.1 - p.width) := by
    rw [scaled, whole, ← Nat.succ_mul, Nat.mul_le_mul_right_iff (Nat.two_pow_pos _)]
    omega
  dsimp only
  rw [if_neg long, enough]
  split
  · simp [*]
  · simp [*, eq_comm]

namespace Handed

variable {n : Nat} {m : List (Nat × Nat)}

theorem nil (n : Nat) : Handed n [] ⟨0, 0, Array.replicate n 0⟩ where
  size := Array.size_replicate
  length_le := by simp
  width := .inl rfl
  next := by simp [edge, space]
  le := by simp [edge, space]
  words := by simp

theorem width_le (h : Handed n l p) (he : ∀ a ∈ l, InTurn a e) : p.width ≤ e.1 := by
  rcases h.width with zero | ⟨a, ha, hwidth⟩
  · omega
  · exact hwidth ▸ (he a ha).1

theorem assign (h : Handed n l p) (he : ∀ a ∈ l, InTurn a e) (hn : e.2 < n)
    (hq : assign p e = .ok q) : Handed n (l ++ [e]) q := by
  obtain ⟨hlength, room, rfl⟩ := (assign_eq_ok_iff (h.width_le he)).mp hq
  have scaled : p.next * 2 ^ (e.1 - p.width) * 2 ^ (maxLength - e.1) = edge l l.length := by
    rw [← h.next, Nat.mul_assoc, ← Nat.pow_add]
    congr 2
    have := h.width_le he
    omega
  have total : edge (l ++ [e]) (l ++ [e]).length = edge l l.length + 2 ^ (maxLength - e.1) := by
    rw [List.length_append, List.length_singleton, edge_succ (by simp),
      edge_append (Nat.le_refl _)]
    simp
  refine ⟨?_, ?_, .inr ⟨e, by simp, rfl⟩, ?_, ?_, fun i hi => ?_⟩
  · simpa using h.size
  · intro a ha
    rcases List.mem_append.mp ha with ha | ha
    · exact h.length_le a ha
    · rwa [List.mem_singleton.mp ha]
  · rw [total, ← scaled, Nat.succ_mul]
  · rw [total, ← h.next]
    exact room
  · rw [List.length_append, List.length_singleton] at hi
    by_cases old : i < l.length
    · obtain ⟨word, hword, hedge⟩ := h.words i old
      have other : e.2 ≠ l[i].2 := (he _ (List.getElem_mem old)).2.symm
      refine ⟨word, ?_, ?_⟩
      · rw [List.getElem_append_left old, Array.getElem?_setIfInBounds_ne other, hword]
      · rw [List.getElem_append_left old, hedge, edge_append (by omega)]
    · obtain rfl : i = l.length := by omega
      refine ⟨p.next * 2 ^ (e.1 - p.width), ?_, ?_⟩
      · rw [List.getElem_concat_length rfl]
        exact Array.getElem?_setIfInBounds_self_of_lt (by rw [h.size]; exact hn)
      · rw [List.getElem_concat_length rfl, scaled, edge_append (Nat.le_refl _)]

theorem foldlM (h : Handed n l p) (hl : (l ++ m).Pairwise InTurn) (hn : ∀ e ∈ m, e.2 < n)
    (hq : m.foldlM Canonical.assign p = .ok q) : Handed n (l ++ m) q := by
  induction m generalizing l p with
  | nil =>
    cases hq
    rwa [List.append_nil]
  | cons e m ih =>
    rw [List.foldlM_cons] at hq
    obtain ⟨r, hr, hq⟩ := ok_of_bind hq
    have first : ∀ a ∈ l, InTurn a e := fun a ha =>
      (List.pairwise_append.mp hl).2.2 a ha e List.mem_cons_self
    rw [List.append_cons] at hl ⊢
    exact ih (h.assign first (hn e List.mem_cons_self) hr) hl
      (fun a ha => hn a (List.mem_cons_of_mem _ ha)) hq

theorem exists_foldlM (h : Handed n l p) (hl : (l ++ m).Pairwise InTurn) (hn : ∀ e ∈ m, e.2 < n)
    (hlength : ∀ e ∈ m, e.1 ≤ maxLength)
    (room : edge (l ++ m) (l ++ m).length ≤ 2 ^ maxLength) :
    ∃ q, m.foldlM Canonical.assign p = .ok q := by
  induction m generalizing l p with
  | nil => exact ⟨p, rfl⟩
  | cons e m ih =>
    have first : ∀ a ∈ l, InTurn a e := fun a ha =>
      (List.pairwise_append.mp hl).2.2 a ha e List.mem_cons_self
    have part := edge_le (l := l ++ e :: m) (i := l.length + 1) (j := (l ++ e :: m).length) (by simp)
    rw [edge_succ (by simp), edge_append (Nat.le_refl _), ← h.next,
      List.getElem_append_right (Nat.le_refl _)] at part
    simp only [Nat.sub_self, List.getElem_cons_zero] at part
    obtain ⟨r, hr⟩ : ∃ r, Canonical.assign p e = .ok r :=
      ⟨_, (assign_eq_ok_iff (h.width_le first)).mpr
        ⟨hlength e List.mem_cons_self, by omega, rfl⟩⟩
    rw [List.foldlM_cons, hr]
    rw [List.append_cons] at hl room
    exact ih (h.assign first (hn e List.mem_cons_self) hr) hl
      (fun a ha => hn a (List.mem_cons_of_mem _ ha))
      (fun a ha => hlength a (List.mem_cons_of_mem _ ha)) room

end Handed

variable {ws : List Nat} {v w : CodeWord}

theorem lt_length_of_mem_order (he : e ∈ order lengths) : e.2 < lengths.length :=
  (List.getElem?_eq_some_iff.mp (mem_order.mp he).1).1

/-- The words of a code have been handed out in its order. -/
theorem exists_handed (h : words lengths = .ok ws) :
    ∃ p, Handed lengths.length (order lengths) p ∧ ws = p.words.toList := by
  obtain ⟨p, hp, h⟩ := ok_of_bind h
  cases h
  refine ⟨p, ?_, rfl⟩
  exact (Handed.nil lengths.length).foldlM (m := order lengths) (pairwise_inTurn lengths)
    (fun _ => lt_length_of_mem_order) hp

theorem perm_order_lengths (lengths : List Nat) :
    ((order lengths).map Prod.fst).Perm (lengths.filter (· ≠ 0)) := by
  refine ((List.mergeSort_perm _ _).map Prod.fst).trans ?_
  have first := List.filter_map (f := Prod.fst) (p := fun n => decide (n ≠ 0)) (l := lengths.zipIdx)
  rw [List.zipIdx_map_fst] at first
  rw [first]
  exact .refl _

theorem space_order (lengths : List Nat) :
    edge (order lengths) (order lengths).length = space (lengths.filter (· ≠ 0)) := by
  rw [edge_length]
  exact ((perm_order_lengths lengths).map _).sum_eq

/-- A canonical code exists just if its words find room in the code space. -/
theorem exists_words_iff : (∃ ws, words lengths = .ok ws) ↔
    (∀ n ∈ lengths, n ≤ maxLength) ∧ kraftSum (lengths.filter (· ≠ 0)) ≤ 1 := by
  have member : ∀ n, n ∈ lengths.filter (· ≠ 0) ↔ ∃ e ∈ order lengths, e.1 = n := fun n => by
    rw [← (perm_order_lengths lengths).mem_iff, List.mem_map]
  constructor
  · rintro ⟨ws, h⟩
    obtain ⟨p, hp, -⟩ := exists_handed h
    have short : ∀ n ∈ lengths.filter (· ≠ 0), n ≤ maxLength := fun n hn => by
      obtain ⟨e, he, rfl⟩ := (member n).mp hn
      exact hp.length_le e he
    refine ⟨fun n hn => ?_, (space_le_iff short).mp ?_⟩
    · by_cases zero : n = 0
      · omega
      · exact short n (by simp [hn, zero])
    · rw [← space_order]
      exact hp.le
  · rintro ⟨short, room⟩
    rw [← space_le_iff fun n hn => short n (List.mem_of_mem_filter hn), ← space_order] at room
    obtain ⟨q, hq⟩ := (Handed.nil lengths.length).exists_foldlM (m := order lengths)
      (pairwise_inTurn lengths) (fun _ => lt_length_of_mem_order)
      (fun e he => short _ (List.mem_of_mem_filter ((member _).mpr ⟨e, he, rfl⟩))) room
    exact ⟨q.words.toList, by rw [words, hq]; rfl⟩

/-! ### The words of a code -/

/-- The place of a word in the order tells which patterns it takes. -/
structure Placed (lengths : List Nat) (w : CodeWord) (i : Nat) : Prop where
  lt : i < (order lengths).length
  entry : (order lengths)[i] = (w.length, w.symbol)
  length_le : w.length ≤ maxLength
  first : w.aligned = edge (order lengths) i
  last : w.aligned + 2 ^ (maxLength - w.length) = edge (order lengths) (i + 1)

theorem Handed.exists_placed (h : Handed lengths.length (order lengths) p) {i : Nat}
    (hi : i < (order lengths).length) :
    ∃ w, p.words[w.symbol]? = some w.bits ∧ Placed lengths w i := by
  obtain ⟨word, hword, hedge⟩ := h.words i hi
  refine ⟨⟨(order lengths)[i].2, word, (order lengths)[i].1⟩, hword, hi, rfl, ?_, hedge, ?_⟩
  · exact h.length_le _ (List.getElem_mem hi)
  · rw [edge_succ hi, ← hedge]
    rfl

/-- There is a word at every place of the order. -/
theorem exists_word (h : words lengths = .ok ws) {i : Nat} (hi : i < (order lengths).length) :
    ∃ w, IsWord ws lengths w ∧ Placed lengths w i := by
  obtain ⟨p, hp, rfl⟩ := exists_handed h
  obtain ⟨w, hw, hplaced⟩ := hp.exists_placed hi
  have member := mem_order.mp (List.getElem_mem hi)
  rw [hplaced.entry] at member
  exact ⟨w, ⟨by rwa [Array.getElem?_toList], member.1, member.2⟩, hplaced⟩

theorem exists_placed (h : words lengths = .ok ws) (hw : IsWord ws lengths w) :
    ∃ i, Placed lengths w i := by
  obtain ⟨i, hi, entry⟩ :=
    List.getElem_of_mem (mem_order (e := (w.length, w.symbol)).mpr ⟨hw.length, hw.pos⟩)
  obtain ⟨v, hv, hplaced⟩ := exists_word h hi
  obtain ⟨length, symbol⟩ := Prod.mk.inj (hplaced.entry.symm.trans entry)
  have bits := hv.bits
  rw [symbol, hw.bits] at bits
  obtain rfl : v = w := by
    cases v
    cases w
    simp_all
  exact ⟨i, hplaced⟩

namespace Placed

variable {i j : Nat}

/-- Words take patterns one after the other. -/
theorem le_aligned (hv : Placed lengths v i) (hw : Placed lengths w j) (h : i < j) :
    v.aligned + 2 ^ (maxLength - v.length) ≤ w.aligned := by
  rw [hv.last, hw.first]
  exact edge_le h

theorem lt_of_precedes (hv : Placed lengths v i) (hw : Placed lengths w j)
    (h : Precedes (v.length, v.symbol) (w.length, w.symbol)) : i < j := by
  rw [← hv.entry, ← hw.entry] at h
  by_contra hle
  rcases Nat.lt_or_eq_of_le (Nat.le_of_not_lt hle) with lt | rfl
  · have := List.pairwise_iff_getElem.mp (pairwise_order lengths) j i hw.lt hv.lt lt
    unfold Precedes at this h
    omega
  · unfold Precedes at h
    omega

/-- The patterns that begin with the word are those that it takes. -/
theorem prefix_iff (hw : Placed lengths w i) (fits : w.bits < 2 ^ w.length) {l : List Bool}
    (hl : l.length = maxLength) : w.path <+: l ↔
      edge (order lengths) i ≤ Bits.value l ∧ Bits.value l < edge (order lengths) (i + 1) := by
  have hle := hw.length_le
  rw [CodeWord.path, Bits.bitsOf_prefix_iff fits (by omega), hl, Nat.succ_mul, ← hw.last, ← hw.first]
  rfl

end Placed

theorem fits (h : words lengths = .ok ws) (hw : IsWord ws lengths w) : w.bits < 2 ^ w.length := by
  obtain ⟨i, hi⟩ := exists_placed h hw
  obtain ⟨p, hp, -⟩ := exists_handed h
  have inside : (w.bits + 1) * 2 ^ (maxLength - w.length) ≤
      2 ^ w.length * 2 ^ (maxLength - w.length) := by
    have hle := hi.length_le
    calc (w.bits + 1) * 2 ^ (maxLength - w.length)
        = edge (order lengths) (i + 1) := by rw [← hi.last, Nat.succ_mul]; rfl
      _ ≤ 2 ^ maxLength := Nat.le_trans (edge_le hi.lt) hp.le
      _ = 2 ^ w.length * 2 ^ (maxLength - w.length) := by rw [← Nat.pow_add]; congr 1; omega
  exact Nat.le_of_mul_le_mul_right inside (Nat.two_pow_pos _)

/-- The words take the patterns below Kraft's sum, and no others. -/
theorem exists_prefix_iff (h : words lengths = .ok ws) {l : List Bool} (hl : l.length = maxLength) :
    (∃ w, IsWord ws lengths w ∧ w.path <+: l) ↔
      Bits.value l < edge (order lengths) (order lengths).length := by
  constructor
  · rintro ⟨w, hw, hpre⟩
    obtain ⟨i, hi⟩ := exists_placed h hw
    exact Nat.lt_of_lt_of_le ((hi.prefix_iff (fits h hw) hl).mp hpre).2 (edge_le hi.lt)
  · intro below
    obtain ⟨i, hi, inside⟩ := exists_edge _ (Nat.le_refl _) below
    obtain ⟨w, hw, hplaced⟩ := exists_word h hi
    exact ⟨w, hw, (hplaced.prefix_iff (fits h hw) hl).mpr inside⟩

/-- No word begins another. -/
theorem not_prefix (h : words lengths = .ok ws) (hv : IsWord ws lengths v)
    (hw : IsWord ws lengths w) (hne : v.symbol ≠ w.symbol) : ¬v.path <+: w.path := by
  intro hpre
  obtain ⟨i, hi⟩ := exists_placed h hv
  obtain ⟨j, hj⟩ := exists_placed h hw
  -- The pattern of `w` that ends in zeros begins with both words.
  have shared := hpre.trans (List.prefix_append w.path (List.replicate (maxLength - w.length) false))
  have value : Bits.value (w.path ++ List.replicate (maxLength - w.length) false) = w.aligned := by
    rw [Bits.value_append_zeros, CodeWord.path, Bits.value_bitsOf (fits h hw)]
    rfl
  have hlength := hj.length_le
  rw [hi.prefix_iff (fits h hv) (by simp; omega), value, hj.first] at shared
  have room := Nat.two_pow_pos (maxLength - w.length)
  have last := hj.last
  rw [hj.first] at last
  rcases Nat.lt_trichotomy i j with lt | rfl | lt
  · have := edge_le (l := order lengths) (i := i + 1) (j := j) lt
    omega
  · have same := hi.entry.symm.trans hj.entry
    exact hne (Prod.mk.inj same).2
  · have := edge_le (l := order lengths) (i := j + 1) (j := i) lt
    omega

/-- A word of ones leaves no pattern over. -/
theorem one_le_kraftSum (h : words lengths = .ok ws) (hw : IsWord ws lengths w) {n : Nat}
    (hpre : w.path <+: List.replicate n true) : 1 ≤ kraftSum (lengths.filter (· ≠ 0)) := by
  obtain ⟨i, hi⟩ := exists_placed h hw
  have short := (exists_words_iff.mp ⟨ws, h⟩).1
  have ones : w.path <+: List.replicate maxLength true := by
    rw [List.prefix_replicate_iff, CodeWord.length_path] at hpre ⊢
    exact ⟨hi.length_le, hpre.2⟩
  have last := Bits.value_replicate_true maxLength
  have below := (exists_prefix_iff h List.length_replicate).mp ⟨w, hw, ones⟩
  rw [space_order] at below
  have full : ((2 ^ maxLength : Nat) : ℚ) ≤ space (lengths.filter (· ≠ 0)) :=
    Nat.cast_le.mpr (by omega)
  rw [cast_space fun n hn => short n (List.mem_of_mem_filter hn), Nat.cast_pow,
    Nat.cast_ofNat] at full
  exact (le_mul_iff_one_le_left (pow_pos two_pos _)).mp full

/-! ### Prefix codes of canonical words -/

theorem not_isOverlap_of_assign {err : Error} (h : assign p e = .error err) : ¬err.IsOverlap := by
  unfold assign at h
  dsimp only at h
  split at h
  · cases h; exact id
  split at h
  · cases h; exact id
  · cases h

theorem not_isOverlap_of_words {err : Error} (h : words lengths = .error err) : ¬err.IsOverlap := by
  rcases error_of_bind h with h | ⟨p, -, h⟩
  · exact error_of_foldlM (fun _ _ _ => not_isOverlap_of_assign) h
  · cases h

theorem not_isOverlap_of_check {err : Error} (h : check w = .error err) : ¬err.IsOverlap := by
  unfold check at h
  split at h
  · cases h; exact id
  split at h
  · cases h; exact id
  · cases h

/-- Words of which none begins another meet nowhere. -/
theorem not_isOverlap_of_ofWords {window : Nat} {err : Error}
    (unlike : (wordsOf ws lengths).Pairwise Unlike)
    (h : ofWords ws lengths window = .error err) : ¬err.IsOverlap := by
  unfold ofWords at h
  split at h
  · cases h; exact id
  split at h
  · cases h; exact id
  split at h
  · rename_i refused
    cases h
    exact error_of_forM (fun _ _ => not_isOverlap_of_check) refused
  rename_i checked
  split at h
  · rename_i refused
    have fits : ∀ w ∈ wordsOf ws lengths, w.Fits 32 := fun w hw =>
      (check_eq_ok_iff.mp (forM_check_eq_ok_iff.mp checked w hw)).2
    rcases CodeTable.ofWords_cases window fits with ⟨t, -, ht, -⟩ | ⟨meet, -⟩
    · rw [refused] at ht
      cases ht
    · exact absurd unlike meet
  · cases h

theorem length_eq (h : words lengths = .ok ws) : ws.length = lengths.length := by
  obtain ⟨p, hp, rfl⟩ := exists_handed h
  rw [Array.length_toList, hp.size]

theorem pairwise_unlike (h : words lengths = .ok ws) : (wordsOf ws lengths).Pairwise Unlike :=
  pairwise_unlike_iff.mpr fun _ _ hv hw hne => not_prefix h hv hw hne

/-- A code of canonical words never meets an overlap. -/
theorem not_isOverlap_of_code {window : Nat} {err : Error} (h : code lengths window = .error err) :
    ¬err.IsOverlap := by
  rcases error_of_bind h with h | ⟨ws, hws, h⟩
  · exact not_isOverlap_of_words h
  · exact not_isOverlap_of_ofWords (pairwise_unlike hws) h

theorem exists_code_iff {window : Nat} (hlow : 1 ≤ window) (hhigh : window ≤ 16)
    (hcount : lengths.length ≤ 65536) :
    (∃ c, code lengths window = .ok c) ↔ ∃ ws, words lengths = .ok ws := by
  constructor
  · rintro ⟨c, h⟩
    obtain ⟨ws, hws, -⟩ := ok_of_bind h
    exact ⟨ws, hws⟩
  · rintro ⟨ws, hws⟩
    have fit : ∀ w, IsWord ws lengths w →
        w.symbol < 65536 ∧ w.length ≤ 32 ∧ w.bits < 2 ^ w.length := fun w hw => by
      obtain ⟨i, hi⟩ := exists_placed hws hw
      obtain ⟨inside, -⟩ := List.getElem?_eq_some_iff.mp hw.length
      exact ⟨by omega, hi.length_le, fits hws hw⟩
    obtain ⟨c, hc⟩ := exists_ofWords_iff.mpr
      ⟨length_eq hws, hlow, hhigh, fit, fun v w hv hw hne => not_prefix hws hv hw hne⟩
    exact ⟨c, by rw [code, hws]; exact hc⟩

/-- Canonical codes are complete. They exist just if no length is above 32 and Kraft's sum is at most
one. Their words fit their lengths and none begins another; filled up with zeros they ascend in the
order of length and symbol; and the patterns that begin with no word lie above all words, so a row of
ones begins with none if Kraft's sum is below one. A prefix code of them never meets an overlap:
where the window and the number of symbols are in range, it exists just if the words do. -/
theorem words_complete (lengths : List Nat) :
    ((∃ ws, words lengths = .ok ws) ↔
      (∀ n ∈ lengths, n ≤ 32) ∧ kraftSum (lengths.filter (· ≠ 0)) ≤ 1) ∧
    (∀ ws, words lengths = .ok ws →
      ws.length = lengths.length ∧
      (∀ w, IsWord ws lengths w → w.bits < 2 ^ w.length) ∧
      (∀ v w, IsWord ws lengths v → IsWord ws lengths w → v.symbol ≠ w.symbol →
        ¬v.path <+: w.path) ∧
      (∀ v w, IsWord ws lengths v → IsWord ws lengths w →
        v.length < w.length ∨ v.length = w.length ∧ v.symbol < w.symbol →
        v.aligned < w.aligned) ∧
      (∀ l : List Bool, l.length = 32 → (∀ v, IsWord ws lengths v → ¬v.path <+: l) →
        ∀ w, IsWord ws lengths w → w.aligned < Bits.value l) ∧
      (kraftSum (lengths.filter (· ≠ 0)) < 1 →
        ∀ n w, IsWord ws lengths w → ¬w.path <+: List.replicate n true)) ∧
    ∀ window,
      (∀ err, code lengths window = .error err → ¬err.IsOverlap) ∧
      (1 ≤ window → window ≤ 16 → lengths.length ≤ 65536 →
        ((∃ c, code lengths window = .ok c) ↔
          (∀ n ∈ lengths, n ≤ 32) ∧ kraftSum (lengths.filter (· ≠ 0)) ≤ 1)) := by
  refine ⟨exists_words_iff, fun ws h => ⟨length_eq h, fun w => fits h, fun v w => not_prefix h,
    fun v w hv hw before => ?_, fun l hl free w hw => ?_, fun room n w hw ones => ?_⟩,
    fun window => ⟨fun err => not_isOverlap_of_code, fun hlow hhigh hcount => ?_⟩⟩
  · obtain ⟨i, hi⟩ := exists_placed h hv
    obtain ⟨j, hj⟩ := exists_placed h hw
    have ascending := hi.le_aligned hj (hi.lt_of_precedes hj before)
    have room := Nat.two_pow_pos (maxLength - v.length)
    omega
  · obtain ⟨i, hi⟩ := exists_placed h hw
    have above : ¬Bits.value l < edge (order lengths) (order lengths).length := fun below => by
      obtain ⟨v, hv, hpre⟩ := (exists_prefix_iff h hl).mpr below
      exact free v hv hpre
    have last := hi.last
    have room := Nat.two_pow_pos (maxLength - w.length)
    have inside := edge_le (l := order lengths) (i := i + 1) hi.lt
    omega
  · exact absurd (one_le_kraftSum h hw ones) (not_le.mpr room)
  · rw [exists_code_iff hlow hhigh hcount, exists_words_iff]
    rfl

example : words [2, 1, 3, 3] = .ok [2, 0, 6, 7] := by cbv

end Canonical

end Wma
