import Mathlib.Algebra.BigOperators.Group.Finset.Basic
import Mathlib.Algebra.Order.BigOperators.Group.Finset
import Mathlib.Data.List.SplitBy
import Wma.Proofs.Code.Words

/-!
# What a code table says

Words are entered into the part of a table that begins at `start` and has `2 ^ bits` places: each
word takes the places of the patterns that it begins (`CodeTable.Part`). It is refused just if a word
before it has taken one of them, that is, if one of the two begins the other (`Part.enter_cases`).

The whole of a table is described by `CodeTable.Holds`. The words that fit the window are in the part
at the front. The longer ones that begin with a pattern `q` of the window are in a part of their own,
as wide as the longest of them asks for (`partBits`), and these parts follow the front in the order
of the patterns (`partStart`). A group that is entered keeps this (`Holds.enterGroup_cases`), so a
table can be filled just if no word begins another (`CodeTable.ofWords_cases`).

What the front says about a part is its place modulo `2 ^ 32`.
-/

namespace Wma

/-- The error says that two words of a code meet. -/
def Error.IsOverlap : Error → Prop
  | .setup .wordsOverlap => True
  | .setup (.wordClash _) => True
  | _ => False

namespace CodeTable

open PrefixCode

variable {t t' : CodeTable} {e : CodeEntry} {start count bits window i q : Nat} {w : CodeWord}
  {ws l : List CodeWord}

/-! ### Places -/

@[simp] theorem entry_ofSize (n i : Nat) : (ofSize n).entry i = .empty := rfl

@[simp] theorem entry_grow (t : CodeTable) (n i : Nat) : (t.grow n).entry i = t.entry i := rfl

theorem entry_of_le (h : t.size ≤ i) : t.entry i = .empty :=
  t.get_eq_empty i h

theorem lookup_eq_ok (h : i < t.size) : t.lookup i = .ok (t.entry i) :=
  if_pos h

theorem exists_set (e : CodeEntry) (h : i < t.size) : ∃ t', t.set i e = .ok t' ∧
    t'.size = t.size ∧ ∀ j, t'.entry j = if j = i then e else t.entry j :=
  ⟨_, dif_pos h, rfl, fun j => CodeEntries.get_put e t.entries i j⟩

theorem occupy_eq_set (inside : i < t.size) (h : t.entry i = .empty) : occupy e t i = t.set i e := by
  unfold occupy
  rw [lookup_eq_ok inside, h]
  rfl

theorem occupy_eq_error (inside : i < t.size) (h : t.entry i ≠ .empty) :
    occupy e t i = .error (.setup .wordsOverlap) := by
  unfold occupy
  rw [lookup_eq_ok inside]
  cases hentry : t.entry i with
  | empty => exact absurd hentry h
  | word x n => rfl
  | part a b => rfl

theorem foldlM_occupy_cases (e : CodeEntry) (count : Nat) : ∀ {t : CodeTable} {start : Nat},
    start + count ≤ t.size →
    (∀ i, start ≤ i → i < start + count → t.entry i = .empty) ∧
      (∃ t', (List.range' start count).foldlM (occupy e) t = .ok t' ∧ t'.size = t.size ∧
        ∀ i, t'.entry i = if start ≤ i ∧ i < start + count then e else t.entry i) ∨
    (∃ i, start ≤ i ∧ i < start + count ∧ t.entry i ≠ .empty) ∧
      (List.range' start count).foldlM (occupy e) t = .error (.setup .wordsOverlap) := by
  induction count with
  | zero =>
    intro t start _
    exact .inl ⟨fun i _ _ => by omega, t, rfl, rfl, fun i => (if_neg (by omega)).symm⟩
  | succ count ih =>
    intro t start h
    have inside : start < t.size := by omega
    rw [List.range'_succ, List.foldlM_cons]
    by_cases free : t.entry start = .empty
    · obtain ⟨u, hu, hsize, hentry⟩ := exists_set e inside
      rw [occupy_eq_set inside free, hu]
      rcases @ih u (start + 1) (by omega) with ⟨hfree, t', ht', hsize', hentry'⟩ |
        ⟨⟨i, hlow, hhigh, taken⟩, herror⟩
      · refine .inl ⟨fun i hlow hhigh => ?_, t', ht', hsize'.trans hsize, fun i => ?_⟩
        · by_cases here : i = start
          · rwa [here]
          · have other := hfree i (by omega) (by omega)
            rwa [hentry, if_neg here] at other
        · rw [hentry', hentry]
          by_cases here : i = start
          · rw [if_neg (by omega), if_pos here, if_pos (by omega)]
          · simp only [if_neg here, show start + 1 ≤ i ∧ i < start + 1 + count ↔
              start ≤ i ∧ i < start + (count + 1) by omega]
      · rw [hentry, if_neg (by omega)] at taken
        exact .inr ⟨⟨i, by omega, by omega, taken⟩, herror⟩
    · rw [occupy_eq_error inside free]
      exact .inr ⟨⟨start, Nat.le_refl _, by omega, free⟩, rfl⟩

/-- Places are filled if all of them are empty. -/
theorem fill_cases (e : CodeEntry) (h : start + count ≤ t.size) :
    (∀ i, start ≤ i → i < start + count → t.entry i = .empty) ∧
      (∃ t', t.fill start count e = .ok t' ∧ t'.size = t.size ∧
        ∀ i, t'.entry i = if start ≤ i ∧ i < start + count then e else t.entry i) ∨
    (∃ i, start ≤ i ∧ i < start + count ∧ t.entry i ≠ .empty) ∧
      t.fill start count e = .error (.setup .wordsOverlap) := by
  unfold fill
  rw [if_pos h]
  exact foldlM_occupy_cases e count h

/-! ### Words in a part of a table -/

/-- The places of a part are those of the words that begin them, and all others there are empty. -/
structure Part (t : CodeTable) (start bits : Nat) (ws : List CodeWord) : Prop where
  inside : start + 2 ^ bits ≤ t.size
  fits : ∀ w ∈ ws, w.Fits bits
  entry_iff : ∀ i < 2 ^ bits, ∀ e ≠ .empty,
    t.entry (start + i) = e ↔ ∃ w ∈ ws, w.Begins bits i ∧ .word w.symbol w.length = e
  unlike : ws.Pairwise Unlike

/-- The tables that differ in a part only. -/
structure SameElsewhere (start bits : Nat) (t t' : CodeTable) : Prop where
  size : t'.size = t.size
  entry : ∀ i, i < start ∨ start + 2 ^ bits ≤ i → t'.entry i = t.entry i

theorem SameElsewhere.refl (t : CodeTable) : SameElsewhere start bits t t :=
  ⟨rfl, fun _ _ => rfl⟩

theorem SameElsewhere.trans {u : CodeTable} (h : SameElsewhere start bits t u)
    (h' : SameElsewhere start bits u t') : SameElsewhere start bits t t' :=
  ⟨h'.size.trans h.size, fun i hi => (h'.entry i hi).trans (h.entry i hi)⟩

namespace Part

theorem nil (inside : start + 2 ^ bits ≤ t.size)
    (h : ∀ i < 2 ^ bits, t.entry (start + i) = .empty) : Part t start bits [] where
  inside := inside
  fits := by simp
  entry_iff i hi e he := by simp [h i hi, he.symm]
  unlike := .nil

theorem congr (h : Part t start bits ws) (inside : start + 2 ^ bits ≤ t'.size)
    (hentry : ∀ i < 2 ^ bits, t'.entry (start + i) = t.entry (start + i)) :
    Part t' start bits ws :=
  ⟨inside, h.fits, fun i hi => by rw [hentry i hi]; exact h.entry_iff i hi, h.unlike⟩

/-- A place is taken just if one of the words begins it. -/
theorem ne_empty_iff (h : Part t start bits ws) {i : Nat} (hi : i < 2 ^ bits) :
    t.entry (start + i) ≠ .empty ↔ ∃ v ∈ ws, v.Begins bits i := by
  constructor
  · intro taken
    obtain ⟨v, hv, hbegins, -⟩ := (h.entry_iff i hi _ taken).mp rfl
    exact ⟨v, hv, hbegins⟩
  · rintro ⟨v, hv, hbegins⟩
    have hword := (h.entry_iff i hi (.word v.symbol v.length) nofun).mpr ⟨v, hv, hbegins, rfl⟩
    rw [hword]
    exact nofun

/-- A word goes in if it is unlike the words before it. -/
theorem enter_cases (h : Part t start bits ws) (hw : w.Fits bits) :
    (∀ v ∈ ws, Unlike v w) ∧
      (∃ t', enter start bits t w = .ok t' ∧ Part t' start bits (ws ++ [w]) ∧
        SameElsewhere start bits t t') ∨
    (∃ v ∈ ws, ¬Unlike v w) ∧ enter start bits t w = .error (.setup .wordsOverlap) := by
  have last := hw.last_le
  rw [Nat.add_mul, Nat.one_mul] at last
  have inside := h.inside
  -- The places to be filled are those of the patterns that the word begins.
  have place : ∀ i, start + w.bits * 2 ^ (bits - w.length) ≤ start + i ∧
      start + i < start + w.bits * 2 ^ (bits - w.length) + 2 ^ (bits - w.length) ↔
        w.Begins bits i := fun i => by
    rw [hw.begins_iff, Nat.add_mul, Nat.one_mul]
    omega
  have within : ∀ i, w.Begins bits i → i < 2 ^ bits := fun i hi => by
    have := (place i).mpr hi
    omega
  have room : start + w.bits * 2 ^ (bits - w.length) + 2 ^ (bits - w.length) ≤ t.size := by omega
  rcases fill_cases (.word w.symbol w.length) room with
    ⟨free, t', ht', hsize, hentry⟩ | ⟨⟨j, hlow, hhigh, taken⟩, herror⟩
  · have apart : ∀ i, w.Begins bits i → t.entry (start + i) = .empty := fun i hi =>
      free _ ((place i).mpr hi).1 ((place i).mpr hi).2
    have unlike : ∀ v ∈ ws, Unlike v w := fun v hv => by
      by_contra meet
      obtain ⟨i, hi, hvi, hwi⟩ := (CodeWord.exists_begins_iff (h.fits v hv) hw).mpr meet
      exact (h.ne_empty_iff hi).mpr ⟨v, hv, hvi⟩ (apart i hwi)
    refine .inl ⟨unlike, t', ht', ⟨by omega, ?_, fun i hi e he => ?_, ?_⟩, hsize, fun i hi => ?_⟩
    · simpa [or_imp, forall_and] using ⟨h.fits, hw⟩
    · rw [hentry]
      by_cases begins : w.Begins bits i
      · rw [if_pos ((place i).mpr begins)]
        constructor
        · rintro rfl
          exact ⟨w, by simp, begins, rfl⟩
        · rintro ⟨v, hv, hvi, rfl⟩
          rcases List.mem_append.mp hv with hv | hv
          · exact absurd (apart i begins) ((h.ne_empty_iff hi).mpr ⟨v, hv, hvi⟩)
          · rw [List.mem_singleton.mp hv]
      · rw [if_neg fun hplace => begins ((place i).mp hplace), h.entry_iff i hi e he]
        simp only [List.mem_append, List.mem_singleton]
        constructor
        · rintro ⟨v, hv, hvi, rfl⟩
          exact ⟨v, .inl hv, hvi, rfl⟩
        · rintro ⟨v, hv | rfl, hvi, rfl⟩
          · exact ⟨v, hv, hvi, rfl⟩
          · exact absurd hvi begins
    · refine List.pairwise_append.mpr ⟨h.unlike, List.pairwise_singleton _ _, fun v hv u hu => ?_⟩
      rw [List.mem_singleton.mp hu]
      exact unlike v hv
    · rw [hentry, if_neg (by omega)]
  · obtain ⟨i, rfl⟩ := Nat.exists_eq_add_of_le (show start ≤ j by omega)
    have hi := (place i).mp ⟨hlow, hhigh⟩
    obtain ⟨v, hv, hvi⟩ := (h.ne_empty_iff (within i hi)).mp taken
    refine .inr ⟨⟨v, hv, fun unlike => ?_⟩, herror⟩
    exact (CodeWord.exists_begins_iff (h.fits v hv) hw).mp ⟨i, within i hi, hvi, hi⟩ unlike

/-- Words go in one after the other if none begins another. -/
theorem foldlM_enter_cases (h : Part t start bits ws) (hl : ∀ w ∈ l, w.Fits bits) :
    (ws ++ l).Pairwise Unlike ∧
      (∃ t', l.foldlM (enter start bits) t = .ok t' ∧ Part t' start bits (ws ++ l) ∧
        SameElsewhere start bits t t') ∨
    ¬(ws ++ l).Pairwise Unlike ∧
      l.foldlM (enter start bits) t = .error (.setup .wordsOverlap) := by
  induction l generalizing ws t with
  | nil =>
    rw [List.append_nil]
    exact .inl ⟨h.unlike, t, rfl, h, .refl t⟩
  | cons w l ih =>
    obtain ⟨hw, hl⟩ := List.forall_mem_cons.mp hl
    rw [List.foldlM_cons]
    rcases h.enter_cases hw with ⟨-, u, hu, hpart, hsame⟩ | ⟨⟨v, hv, meet⟩, herror⟩
    · rw [hu, List.append_cons]
      refine (ih hpart hl).imp (fun ⟨unlike, t', ht', hpart', hsame'⟩ => ?_) id
      exact ⟨unlike, t', ht', hpart', hsame.trans hsame'⟩
    · rw [herror]
      refine .inr ⟨fun unlike => meet ?_, rfl⟩
      exact (List.pairwise_append.mp unlike).2.2 v hv w List.mem_cons_self

end Part

/-! ### Parts of a table -/

/-- The words longer than the window that begin with the pattern `q`. -/
def longWords (window : Nat) (ws : List CodeWord) (q : Nat) : List CodeWord :=
  ws.filter fun w => window < w.length ∧ w.head window = q

/-- Width of the part for the pattern `q`, which is zero if no longer word begins with it. -/
def partBits (window : Nat) (ws : List CodeWord) (q : Nat) : Nat :=
  ((longWords window ws q).map (·.length - window)).max?.getD 0

/-- Number of places behind the front that are in front of the part for the pattern `q`. -/
def partStart (window : Nat) (ws : List CodeWord) (q : Nat) : Nat :=
  2 ^ window + ∑ p ∈ Finset.range q, if partBits window ws p = 0 then 0 else 2 ^ partBits window ws p

theorem mem_longWords : w ∈ longWords window ws q ↔
    w ∈ ws ∧ window < w.length ∧ w.head window = q := by
  simp [longWords]

theorem le_partBits (hw : w ∈ ws) (h : window < w.length) :
    w.length - window ≤ partBits window ws (w.head window) := by
  have member : w.length - window ∈
      (longWords window ws (w.head window)).map (·.length - window) :=
    List.mem_map.mpr ⟨w, mem_longWords.mpr ⟨hw, h, rfl⟩, rfl⟩
  unfold partBits
  rw [List.max?_eq_some_max (List.ne_nil_of_mem member), Option.getD_some]
  exact List.le_max_of_mem member

/-- There is a part for `q` if a longer word begins with it, and its width is that of one of them. -/
theorem exists_partBits_eq (h : partBits window ws q ≠ 0) :
    ∃ w ∈ ws, window < w.length ∧ w.head window = q ∧ w.length - window = partBits window ws q := by
  unfold partBits at *
  cases hmax : ((longWords window ws q).map (·.length - window)).max? with
  | none => simp [hmax] at h
  | some n =>
    obtain ⟨w, hw, hn⟩ := List.mem_map.mp (List.max?_mem hmax)
    obtain ⟨hws, hlong, hhead⟩ := mem_longWords.mp hw
    exact ⟨w, hws, hlong, hhead, hn⟩

theorem partBits_ne_zero_iff :
    partBits window ws q ≠ 0 ↔ ∃ w ∈ ws, window < w.length ∧ w.head window = q := by
  constructor
  · intro h
    obtain ⟨w, hw, hlong, hhead, -⟩ := exists_partBits_eq h
    exact ⟨w, hw, hlong, hhead⟩
  · rintro ⟨w, hw, hlong, rfl⟩
    have := le_partBits hw hlong
    omega

theorem partStart_succ (window : Nat) (ws : List CodeWord) (q : Nat) :
    partStart window ws (q + 1) = partStart window ws q +
      if partBits window ws q = 0 then 0 else 2 ^ partBits window ws q := by
  unfold partStart
  rw [Finset.sum_range_succ, Nat.add_assoc]

theorem partStart_mono (window : Nat) (ws : List CodeWord) {p q : Nat} (h : p ≤ q) :
    partStart window ws p ≤ partStart window ws q := by
  induction h with
  | refl => exact Nat.le_refl _
  | step _ ih => exact Nat.le_trans ih (by rw [partStart_succ]; exact Nat.le_add_right ..)

/-- Parts do not overlap. -/
theorem partStart_add_le {p q : Nat} (hp : partBits window ws p ≠ 0) (h : p < q) :
    partStart window ws p + 2 ^ partBits window ws p ≤ partStart window ws q := by
  have next := partStart_mono window ws (Nat.succ_le_of_lt h)
  rwa [Nat.succ_eq_add_one, partStart_succ, if_neg hp] at next

theorem partStart_congr {ws' : List CodeWord}
    (h : ∀ p < q, partBits window ws' p = partBits window ws p) :
    partStart window ws' q = partStart window ws q := by
  unfold partStart
  congr 1
  exact Finset.sum_congr rfl fun p hp => by rw [h p (Finset.mem_range.mp hp)]

/-- Patterns that have no part take no room. -/
theorem partStart_eq {p : Nat} (hle : p ≤ q)
    (h : ∀ r, p ≤ r → r < q → partBits window ws r = 0) :
    partStart window ws q = partStart window ws p := by
  induction q, hle using Nat.le_induction with
  | base => rfl
  | succ q hle ih =>
    rw [partStart_succ, if_pos (h q hle (Nat.lt_succ_self q)), Nat.add_zero]
    exact ih fun r hr hlt => h r hr (Nat.lt_succ_of_lt hlt)

/-- What the entries of a table say that has been filled with `ws`. -/
structure Holds (window : Nat) (ws : List CodeWord) (t : CodeTable) : Prop where
  size : t.size = partStart window ws (2 ^ window)
  word_iff : ∀ i < 2 ^ window, ∀ x n, t.entry i = .word x n ↔
    ∃ w ∈ ws, w.Begins window i ∧ w.symbol = x ∧ w.length = n
  part_iff : ∀ q < 2 ^ window, ∀ a b, t.entry q = .part a b ↔ partBits window ws q ≠ 0 ∧
    a = partStart window ws q % 2 ^ 32 ∧ b = partBits window ws q
  part : ∀ q < 2 ^ window, partBits window ws q ≠ 0 → Part t (partStart window ws q)
    (partBits window ws q) ((longWords window ws q).map (·.tail window))
  unlike : ws.Pairwise Unlike

/-- Words that all are longer than the window and begin with the pattern `q`. -/
structure Group (window q : Nat) (g : List CodeWord) : Prop where
  ne_nil : g ≠ []
  fits : ∀ w ∈ g, w.Fits 32
  long : ∀ w ∈ g, window < w.length
  head : ∀ w ∈ g, w.head window = q

namespace Group

variable {g : List CodeWord} {p : Nat}

theorem lt (h : Group window q g) : q < 2 ^ window := by
  obtain ⟨w, hw⟩ := List.exists_mem_of_ne_nil g h.ne_nil
  rw [← h.head w hw]
  exact CodeWord.head_lt (h.fits w hw).bits_lt (h.long w hw).le

theorem longWords_self (h : Group window q g) : longWords window g q = g :=
  List.filter_eq_self.mpr fun w hw => by simp [h.long w hw, h.head w hw]

theorem longWords_append (h : Group window q g)
    (hws : ∀ v ∈ ws, window < v.length → v.head window < q) :
    longWords window (ws ++ g) p = if p = q then g else longWords window ws p := by
  have own : longWords window g p = if p = q then g else [] := by
    split
    · subst p
      exact h.longWords_self
    · rename_i hne
      refine List.filter_eq_nil_iff.mpr fun w hw => ?_
      simp only [h.head w hw, decide_eq_true_eq, not_and]
      exact fun _ heq => hne heq.symm
  have before : p = q → longWords window ws p = [] := fun heq => by
    refine List.filter_eq_nil_iff.mpr fun v hv => ?_
    simp only [decide_eq_true_eq, not_and]
    intro hlong hhead
    have := hws v hv hlong
    omega
  rw [show longWords window (ws ++ g) p = longWords window ws p ++ longWords window g p from
    List.filter_append .., own]
  split
  · rw [before ‹_›, List.nil_append]
  · rw [List.append_nil]

theorem partBits_append (h : Group window q g)
    (hws : ∀ v ∈ ws, window < v.length → v.head window < q) :
    partBits window (ws ++ g) p = if p = q then partBits window g q else partBits window ws p := by
  unfold partBits
  rw [h.longWords_append hws]
  split
  · rw [h.longWords_self]
  · rfl

theorem partBits_ne_zero (h : Group window q g) : partBits window g q ≠ 0 := by
  obtain ⟨w, hw⟩ := List.exists_mem_of_ne_nil g h.ne_nil
  exact partBits_ne_zero_iff.mpr ⟨w, hw, h.long w hw, h.head w hw⟩

theorem fits_tails (h : Group window q g) :
    ∀ v ∈ g.map (·.tail window), v.Fits (partBits window g q) := fun v hv => by
  obtain ⟨w, hw, rfl⟩ := List.mem_map.mp hv
  have wide := le_partBits hw (h.long w hw)
  rw [h.head w hw] at wide
  exact CodeWord.fits_tail ⟨by omega, (h.fits w hw).bits_lt⟩

theorem pairwise_tails_iff (h : Group window q g) :
    (g.map (·.tail window)).Pairwise Unlike ↔ g.Pairwise Unlike := by
  rw [List.pairwise_map]
  have same : ∀ v ∈ g, ∀ w ∈ g, Unlike (v.tail window) (w.tail window) ↔ Unlike v w :=
    fun v hv w hw => CodeWord.apart_tail_iff (h.long v hv).le (h.long w hw).le
      ((h.head v hv).trans (h.head w hw).symm)
  exact ⟨fun hg => hg.imp_of_mem fun hv hw => (same _ hv _ hw).mp,
    fun hg => hg.imp_of_mem fun hv hw => (same _ hv _ hw).mpr⟩

/-- The words of a group are not among those that fit the window. -/
theorem exists_begins_append_iff (h : Group window q g) {P : CodeWord → Prop} :
    (∃ w ∈ ws ++ g, w.Begins window i ∧ P w) ↔ ∃ w ∈ ws, w.Begins window i ∧ P w := by
  constructor
  · rintro ⟨w, hw, hbegins, rest⟩
    rcases List.mem_append.mp hw with hw | hw
    · exact ⟨w, hw, hbegins, rest⟩
    · exact absurd hbegins.1 (Nat.not_le.mpr (h.long w hw))
  · rintro ⟨w, hw, rest⟩
    exact ⟨w, List.mem_append_left _ hw, rest⟩

/-- A group has its part behind all others. -/
theorem partStart_append (h : Group window q g)
    (hws : ∀ v ∈ ws, window < v.length → v.head window < q) (hp : p ≤ q) :
    partStart window (ws ++ g) p = partStart window ws p :=
  partStart_congr fun r hr => by rw [h.partBits_append hws, if_neg (by omega)]

/-- What it means to enter a group. -/
theorem enterGroup_eq (h : Group window q g) (hq : q < t.size) : enterGroup window t g =
    match t.entry q with
    | .empty => do
      let taken ← t.set q (.part (t.size % 2 ^ 32) (partBits window g q))
      (g.map (·.tail window)).foldlM (enter t.size (partBits window g q))
        (taken.grow (2 ^ partBits window g q))
    | _ => .error (.setup (.wordClash q)) := by
  cases g with
  | nil => exact absurd rfl h.ne_nil
  | cons w g =>
    have bits : ((w :: g).map (·.length - window)).max?.getD 1 = partBits window (w :: g) q := by
      unfold partBits
      rw [h.longWords_self, List.max?_eq_some_max (by simp), Option.getD_some, Option.getD_some]
    unfold enterGroup
    dsimp only
    rw [h.head w List.mem_cons_self, lookup_eq_ok hq, bits]
    rfl

/-- What entering a group at a place that is empty does: the part of the group comes behind the table,
and its place is noted at the pattern of the group. -/
structure Joined (window q : Nat) (g : List CodeWord) (t t' : CodeTable) : Prop where
  size : t'.size = t.size + 2 ^ partBits window g q
  entry : ∀ i < t.size, t'.entry i =
    if i = q then .part (t.size % 2 ^ 32) (partBits window g q) else t.entry i
  part : Part t' t.size (partBits window g q) (g.map (·.tail window))

theorem enterGroup_cases (h : Group window q g) (hq : q < t.size) (hempty : t.entry q = .empty) :
    g.Pairwise Unlike ∧ (∃ t', enterGroup window t g = .ok t' ∧ Joined window q g t t') ∨
    ¬g.Pairwise Unlike ∧ enterGroup window t g = .error (.setup .wordsOverlap) := by
  obtain ⟨taken, hset, hsize, htaken⟩ :=
    exists_set (.part (t.size % 2 ^ 32) (partBits window g q)) hq
  have fresh : Part (taken.grow (2 ^ partBits window g q)) t.size (partBits window g q) [] := by
    refine .nil (Nat.le_of_eq (congrArg (· + _) hsize.symm)) fun i _ => ?_
    rw [entry_grow, htaken, if_neg (by omega), entry_of_le (Nat.le_add_right ..)]
  rw [h.enterGroup_eq hq, hempty, ← h.pairwise_tails_iff]
  dsimp only
  rw [hset]
  refine (fresh.foldlM_enter_cases h.fits_tails).imp (fun ⟨unlike, t', ht', hpart, hsame⟩ => ?_) id
  refine ⟨unlike, t', ht', hsame.size.trans (congrArg (· + _) hsize), fun i hi => ?_, hpart⟩
  rw [hsame.entry i (.inl hi), entry_grow, htaken]

end Group

namespace Holds

variable {g : List CodeWord}

theorem pow_le_size (h : Holds window ws t) : 2 ^ window ≤ t.size := by
  rw [h.size]
  exact Nat.le_add_right ..

section group

variable (h : Holds window ws t) (hg : Group window q g)
  (hws : ∀ v ∈ ws, window < v.length → v.head window < q)

include hws in
/-- There are no parts yet for the patterns from that of the group on. -/
theorem partBits_eq_zero {p : Nat} (hp : q ≤ p) : partBits window ws p = 0 := by
  by_contra hne
  obtain ⟨v, hv, hlong, rfl⟩ := partBits_ne_zero_iff.mp hne
  have := hws v hv hlong
  omega

include h hg hws

theorem size_eq_partStart : t.size = partStart window ws q :=
  h.size.trans (partStart_eq hg.lt.le fun _ hr _ => partBits_eq_zero hws hr)

/-- The place of the pattern is empty, and no word before meets the group, or a shorter word has taken
it and meets all words of the group. -/
theorem entry_cases (hfits : ∀ w ∈ ws, w.Fits 32) :
    t.entry q = .empty ∧ (∀ v ∈ ws, ∀ w ∈ g, Unlike v w) ∨
    (∃ x n, t.entry q = .word x n) ∧ ∃ v ∈ ws, ∀ w ∈ g, ¬Unlike v w := by
  -- A shorter word meets the group just if it has taken the place of its pattern.
  have meets : ∀ v ∈ ws, v.length ≤ window → ∀ w ∈ g, (v.Begins window q ↔ ¬Unlike v w) :=
    fun v hv hshort w hw => by
      rw [← hg.head w hw]
      exact CodeWord.begins_head_iff ⟨hshort, (hfits v hv).bits_lt⟩ (hg.fits w hw).bits_lt
        (hg.long w hw)
  cases hentry : t.entry q with
  | part a b =>
    exact absurd (partBits_eq_zero hws (Nat.le_refl q)) ((h.part_iff q hg.lt a b).mp hentry).1
  | word x n =>
    obtain ⟨v, hv, hbegins, -⟩ := (h.word_iff q hg.lt x n).mp hentry
    exact .inr ⟨⟨x, n, rfl⟩, v, hv, fun w hw => (meets v hv hbegins.1 w hw).mp hbegins⟩
  | empty =>
    refine .inl ⟨rfl, fun v hv w hw => ?_⟩
    by_cases hshort : v.length ≤ window
    · by_contra meet
      have hword := (h.word_iff q hg.lt v.symbol v.length).mpr
        ⟨v, hv, (meets v hv hshort w hw).mpr meet, rfl, rfl⟩
      rw [hentry] at hword
      cases hword
    · have before := hws v hv (by omega)
      rw [← hg.head w hw] at before
      exact CodeWord.apart_of_head_ne (hfits v hv).bits_lt (hg.fits w hw).bits_lt (by omega)
        (hg.long w hw).le before.ne

/-- A table that a group has joined holds its words as well. -/
theorem joined (hempty : t.entry q = .empty) (unlike : (ws ++ g).Pairwise Unlike)
    (hjoined : Group.Joined window q g t t') : Holds window (ws ++ g) t' := by
  have front := h.pow_le_size
  have start := h.size_eq_partStart hg hws
  have width := fun p => hg.partBits_append (p := p) hws
  have grown := hjoined.size
  refine ⟨?_, fun i hi x n => ?_, fun p hp a b => ?_, fun p hp hne => ?_, unlike⟩
  · have last : partStart window (ws ++ g) (2 ^ window) = partStart window (ws ++ g) (q + 1) :=
      partStart_eq hg.lt fun r hr _ => by
        rw [width, if_neg (by omega), partBits_eq_zero hws (by omega)]
    rw [last, partStart_succ, hg.partStart_append hws (Nat.le_refl q), width, if_pos rfl,
      if_neg hg.partBits_ne_zero, grown, start]
  · rw [hg.exists_begins_append_iff, ← h.word_iff i hi x n, hjoined.entry i (by omega)]
    split
    · rename_i here
      rw [here, hempty]
      exact iff_of_false nofun nofun
    · rfl
  · rw [hjoined.entry p (by omega), width]
    split
    · rename_i here
      rw [here, hg.partStart_append hws (Nat.le_refl q), ← start]
      simp [hg.partBits_ne_zero, eq_comm]
    · rw [h.part_iff p hp]
      rcases Nat.lt_or_ge p q with hlt | hge
      · rw [hg.partStart_append hws hlt.le]
      · simp [partBits_eq_zero hws hge]
  · rw [width] at hne ⊢
    rw [hg.longWords_append hws]
    split
    · rename_i here
      rw [here, hg.partStart_append hws (Nat.le_refl q), ← start]
      exact hjoined.part
    · rename_i other
      rw [if_neg other] at hne
      have hlt : p < q := Nat.lt_of_not_le fun hge => hne (partBits_eq_zero hws hge)
      -- The part for `p` lies behind the front and ends before that of the group.
      have behind := partStart_add_le hne hlt
      have low : 2 ^ window ≤ partStart window ws p := Nat.le_add_right ..
      have pattern := hg.lt
      have longer : t.size ≤ t'.size := grown ▸ Nat.le_add_right ..
      rw [hg.partStart_append hws hlt.le]
      refine (h.part p hp hne).congr (by omega) fun i hi => ?_
      rw [hjoined.entry _ (by omega), if_neg (by omega)]

end group

/-- A group goes in if its words are unlike each other and those before it. -/
theorem enterGroup_cases (h : Holds window ws t) (hfits : ∀ w ∈ ws, w.Fits 32)
    (hg : Group window q g) (hws : ∀ v ∈ ws, window < v.length → v.head window < q) :
    (∃ t', enterGroup window t g = .ok t' ∧ Holds window (ws ++ g) t') ∨
    ¬(ws ++ g).Pairwise Unlike ∧ ∃ err, enterGroup window t g = .error err ∧ err.IsOverlap := by
  have hq : q < t.size := Nat.lt_of_lt_of_le hg.lt h.pow_le_size
  rcases h.entry_cases hg hws hfits with ⟨hempty, unmet⟩ | ⟨⟨x, n, hentry⟩, v, hv, meet⟩
  · rcases hg.enterGroup_cases hq hempty with ⟨unlike, t', ht', hjoined⟩ | ⟨meet, herror⟩
    · have all := List.pairwise_append.mpr ⟨h.unlike, unlike, unmet⟩
      exact .inl ⟨t', ht', h.joined hg hws hempty all hjoined⟩
    · exact .inr ⟨fun all => meet (List.pairwise_append.mp all).2.1, _, herror, trivial⟩
  · obtain ⟨w, hw⟩ := List.exists_mem_of_ne_nil g hg.ne_nil
    rw [hg.enterGroup_eq hq, hentry]
    exact .inr ⟨fun all => meet w hw ((List.pairwise_append.mp all).2.2 v hv w hw), _, rfl, trivial⟩

/-- Groups go in one after the other if no word begins another. -/
theorem foldlM_enterGroup_cases {gs : List (List CodeWord)} (h : Holds window ws t)
    (hfits : ∀ w ∈ ws, w.Fits 32) (hgs : ∀ g ∈ gs, ∃ q, Group window q g)
    (ascending : gs.Pairwise fun g g' => ∀ v ∈ g, ∀ w ∈ g', v.head window < w.head window)
    (hws : ∀ v ∈ ws, window < v.length → ∀ g ∈ gs, ∀ w ∈ g, v.head window < w.head window) :
    (∃ t', gs.foldlM (enterGroup window) t = .ok t' ∧ Holds window (ws ++ gs.flatten) t') ∨
    ¬(ws ++ gs.flatten).Pairwise Unlike ∧
      ∃ err, gs.foldlM (enterGroup window) t = .error err ∧ err.IsOverlap := by
  induction gs generalizing ws t with
  | nil =>
    rw [List.flatten_nil, List.append_nil]
    exact .inl ⟨t, rfl, h⟩
  | cons g gs ih =>
    obtain ⟨⟨q, hg⟩, hgs⟩ := List.forall_mem_cons.mp hgs
    obtain ⟨first, ascending⟩ := List.pairwise_cons.mp ascending
    have below : ∀ v ∈ ws, window < v.length → v.head window < q := fun v hv hlong => by
      obtain ⟨w, hw⟩ := List.exists_mem_of_ne_nil g hg.ne_nil
      exact hg.head w hw ▸ hws v hv hlong g List.mem_cons_self w hw
    rw [List.foldlM_cons, List.flatten_cons, ← List.append_assoc]
    rcases h.enterGroup_cases hfits hg below with ⟨u, hu, hholds⟩ | ⟨meet, err, herr, hoverlap⟩
    · rw [hu]
      refine ih hholds (fun w hw => ?_) hgs ascending fun v hv hlong g' hg' w hw => ?_
      · exact (List.mem_append.mp hw).elim (hfits w) (hg.fits w)
      · rcases List.mem_append.mp hv with hv | hv
        · exact hws v hv hlong g' (List.mem_cons_of_mem _ hg') w hw
        · exact first g' hg' v hv w hw
    · rw [herr]
      exact .inr ⟨fun unlike => meet (List.pairwise_append.mp unlike).1, err, rfl, hoverlap⟩

end Holds

/-- The words that fit the window are all that a table holds before the longer ones come. -/
theorem Part.holds (h : Part t 0 window ws) (hsize : t.size = 2 ^ window) : Holds window ws t := by
  have none : ∀ q, partBits window ws q = 0 := fun q => by
    by_contra hne
    obtain ⟨w, hw, hlong, -⟩ := partBits_ne_zero_iff.mp hne
    have := (h.fits w hw).length_le
    omega
  have entry : ∀ i < 2 ^ window, ∀ e ≠ .empty,
      t.entry i = e ↔ ∃ w ∈ ws, w.Begins window i ∧ .word w.symbol w.length = e := by
    simpa only [Nat.zero_add] using h.entry_iff
  refine ⟨?_, fun i hi x n => ?_, fun q hq a b => ?_, fun q _ hne => absurd (none q) hne, h.unlike⟩
  · rw [hsize, partStart_eq (Nat.zero_le _) fun r _ _ => none r]
    rfl
  · rw [entry i hi (.word x n) nofun]
    simp only [CodeEntry.word.injEq]
  · rw [entry q hq (.part a b) nofun]
    simp [none q]

/-! ### Groups of longer words -/

theorem head_lt_of_chain {gs : List (List CodeWord)} (hne : ∀ g ∈ gs, g ≠ [])
    (same : ∀ g ∈ gs, ∀ v ∈ g, ∀ w ∈ g, v.head window = w.head window)
    (sorted : gs.flatten.Pairwise fun v w => v.head window ≤ w.head window)
    (chain : gs.IsChain fun a b => ∃ ha hb, (a.getLast ha).head window ≠ (b.head hb).head window) :
    gs.Pairwise fun g g' => ∀ v ∈ g, ∀ w ∈ g', v.head window < w.head window := by
  induction gs with
  | nil => exact .nil
  | cons g gs ih =>
    rw [List.flatten_cons, List.pairwise_append] at sorted
    obtain ⟨-, later, across⟩ := sorted
    refine List.pairwise_cons.mpr ⟨fun g' hg' v hv w hw => ?_,
      ih (fun g hg => hne g (List.mem_cons_of_mem _ hg))
        (fun g hg => same g (List.mem_cons_of_mem _ hg)) later chain.tail⟩
    cases gs with
    | nil => simp at hg'
    | cons next gs =>
      -- The group behind `g` begins with another pattern, and what follows lies above it.
      obtain ⟨hlast, hhead, differ⟩ := (List.isChain_cons_cons.mp chain).1
      have own := same g List.mem_cons_self v hv _ (List.getLast_mem hlast)
      have step := across v hv (next.head hhead)
        (List.mem_flatten_of_mem List.mem_cons_self (List.head_mem hhead))
      have above : (next.head hhead).head window ≤ w.head window := by
        rcases List.mem_cons.mp hg' with rfl | hg'
        · exact (same g' (by simp) _ (List.head_mem hhead) w hw).le
        · rw [List.flatten_cons, List.pairwise_append] at later
          exact later.2.2 _ (List.head_mem hhead) w (List.mem_flatten_of_mem hg' hw)
      omega

theorem mem_flatten_groups : w ∈ (groups window ws).flatten ↔ w ∈ ws ∧ window < w.length := by
  unfold groups
  rw [List.flatten_splitBy, (List.mergeSort_perm _ _).mem_iff, List.mem_filter, decide_eq_true_eq]

theorem exists_group {g : List CodeWord} (hfits : ∀ w ∈ ws, w.Fits 32)
    (hg : g ∈ groups window ws) : ∃ q, Group window q g := by
  have hne : g ≠ [] := List.ne_nil_of_mem_splitBy hg
  have member : ∀ w ∈ g, w ∈ ws ∧ window < w.length := fun w hw =>
    mem_flatten_groups.mp (List.mem_flatten_of_mem hg hw)
  refine ⟨(g.head hne).head window, hne, fun w hw => hfits w (member w hw).1,
    fun w hw => (member w hw).2, fun w hw => ?_⟩
  have chain := List.isChain_of_mem_splitBy hg
  have trans : IsTrans CodeWord fun v w => (v.head window == w.head window) = true :=
    ⟨fun u v w huv hvw => by simp only [beq_iff_eq] at *; exact huv.trans hvw⟩
  cases g with
  | nil => exact absurd rfl hne
  | cons v g =>
    rcases List.mem_cons.mp hw with rfl | hw
    · rfl
    · have same := (List.pairwise_cons.mp (List.isChain_iff_pairwise.mp chain)).1 w hw
      exact (beq_iff_eq.mp same).symm

/-- The groups come in the order of their patterns. -/
theorem pairwise_groups (hfits : ∀ w ∈ ws, w.Fits 32) : (groups window ws).Pairwise
    fun g g' => ∀ v ∈ g, ∀ w ∈ g', v.head window < w.head window := by
  refine head_lt_of_chain (fun g hg => List.ne_nil_of_mem_splitBy hg)
    (fun g hg v hv w hw => ?_) ?_ ?_
  · obtain ⟨q, hgroup⟩ := exists_group hfits hg
    rw [hgroup.head v hv, hgroup.head w hw]
  · unfold groups
    rw [List.flatten_splitBy]
    have sorted := @List.pairwise_mergeSort _ (fun v w => decide (v.head window ≤ w.head window))
      (fun u v w huv hvw => by simp only [decide_eq_true_eq] at *; omega)
      (fun v w => by simp only [Bool.or_eq_true, decide_eq_true_eq]; omega)
      (ws.filter (window < ·.length))
    exact sorted.imp fun h => of_decide_eq_true h
  · exact (List.isChain_getLast_head_splitBy ..).imp fun a b ⟨ha, hb, h⟩ =>
      ⟨ha, hb, fun heq => by simp [heq] at h⟩

/-- The words of a table in the order in which they are entered. -/
theorem perm_groups (window : Nat) (ws : List CodeWord) :
    (ws.filter (·.length ≤ window) ++ (groups window ws).flatten).Perm ws := by
  have long : ws.filter (fun w => decide (window < w.length)) =
      ws.filter (fun w => !decide (w.length ≤ window)) := by
    simp only [← decide_not, Nat.not_le]
  unfold groups
  rw [List.flatten_splitBy]
  refine ((List.mergeSort_perm _ _).append_left _).trans ?_
  rw [long]
  exact List.filter_append_perm _ ws

/-- A table can be filled with words just if none begins another. -/
theorem ofWords_cases (window : Nat) (hfits : ∀ w ∈ ws, w.Fits 32) :
    (∃ t l, ofWords window ws = .ok t ∧ l.Perm ws ∧ Holds window l t) ∨
    ¬ws.Pairwise Unlike ∧ ∃ err, ofWords window ws = .error err ∧ err.IsOverlap := by
  have order := perm_groups window ws
  have meets : ∀ l, l <+: ws.filter (·.length ≤ window) ++ (groups window ws).flatten →
      ¬l.Pairwise Unlike → ¬ws.Pairwise Unlike := fun l hl meet unlike =>
    meet (((order.pairwise_iff Apart.symm).mpr unlike).sublist hl.sublist)
  have short : ∀ w ∈ ws.filter (·.length ≤ window), w.Fits window := fun w hw => by
    obtain ⟨hw, hlength⟩ := List.mem_filter.mp hw
    exact ⟨of_decide_eq_true hlength, (hfits w hw).bits_lt⟩
  have blank : Part (ofSize (2 ^ window)) 0 window [] :=
    .nil (Nat.le_of_eq (Nat.zero_add _)) fun i _ => entry_ofSize ..
  unfold ofWords
  rcases blank.foldlM_enter_cases short with ⟨-, t, ht, hpart, hsame⟩ | ⟨meet, herror⟩
  · rw [List.nil_append] at hpart
    rw [ht]
    have fits : ∀ w ∈ ws.filter (·.length ≤ window), w.Fits 32 := fun w hw =>
      hfits w (List.mem_filter.mp hw).1
    rcases (hpart.holds hsame.size).foldlM_enterGroup_cases fits (fun g => exists_group hfits)
        (pairwise_groups hfits) (fun v hv hlong => absurd (short v hv).length_le (by omega)) with
      ⟨t', ht', hholds⟩ | ⟨meet, err, herr, hoverlap⟩
    · exact .inl ⟨t', _, ht', order, hholds⟩
    · exact .inr ⟨meets _ (List.prefix_refl _) meet, err, herr, hoverlap⟩
  · rw [herror]
    exact .inr ⟨meets _ (List.prefix_append ..) (by simpa using meet), _, rfl, trivial⟩

end CodeTable

end Wma
