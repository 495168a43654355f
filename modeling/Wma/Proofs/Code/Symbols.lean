import Wma.Code.Books
import Wma.Proofs.Code.PrefixCode

/-!
# Symbols of a code

A code built from a list of words gives symbols below the number of words (`PrefixCode.Below`), so
that what a symbol looks up is there: a step of an envelope or of a noise gain stays within its word,
and a run/level book has a pair for each of its symbols (`RunLevelBook.Sound`).
-/

namespace Wma

namespace PrefixCode

/-- All symbols of the code are below `n`. -/
def Below (c : PrefixCode) (n : Nat) : Prop :=
  ∀ x p, c.Reads x p → x < n

/-- A code has no more symbols than words. -/
theorem below_of_ofWords {words lengths : List Nat} {window : Nat} {c : PrefixCode}
    (h : ofWords words lengths window = .ok c) : c.Below lengths.length := by
  intro x p hreads
  obtain ⟨w, hw, rfl, -⟩ := (reads_of_ofWords h).mp hreads
  obtain ⟨hlt, -⟩ := List.getElem?_eq_some_iff.mp hw.length
  exact hlt

end PrefixCode

theorem Parse.Triple.next {σ : Type} {I J : σ → Prop} {Q : Nat → σ → Prop} {c : PrefixCode}
    {n : Nat} (hc : c.Below n) (hJ : ∀ s, I s → J s) (hQ : ∀ a s, a < n → I s → Q a s) :
    Triple J I c.next Q := by
  refine ofReader hJ hQ fun r => (c.decode_cases r).imp ?_ fun h => h.2
  rintro ⟨x, p, q, hreads, -, hm, hdecode⟩
  exact ⟨x, q, _, hdecode, hc x p hreads, hm⟩

/-! ### Run/level books -/

namespace RunLevelBook

/-- A book has a pair for each symbol of its code, and its levels fit the widest field of a level
that is written out. -/
structure Sound (b : RunLevelBook) : Prop where
  below : b.code.Below b.pairs.size
  level : ∀ p ∈ b.pairs, p.level < 2 ^ 13

theorem level_of_mem_pairsFrom {p : RunLevel} : ∀ {level : Nat} {runs : List Nat},
    p ∈ pairsFrom level runs → p.level < level + runs.length
  | _, [], h => by simp [pairsFrom] at h
  | level, count :: runs, h => by
    rcases List.mem_append.mp h with h | h
    · obtain ⟨r, -, rfl⟩ := List.mem_map.mp h
      show level < level + (runs.length + 1)
      omega
    · have := level_of_mem_pairsFrom h
      rw [List.length_cons]; omega

theorem sound_of_ofLayout {layout : RunLevelLayout} {b : RunLevelBook}
    (h : ofLayout layout = .ok b) (hr : layout.runs.length < 100) : b.Sound := by
  unfold ofLayout at h
  dsimp only at h
  split at h
  · cases h
  rename_i hlength
  obtain ⟨code, hcode, h⟩ := ok_of_bind h
  obtain ⟨words, -, hcode⟩ := ok_of_bind hcode
  cases h
  refine ⟨?_, ?_⟩
  · have := PrefixCode.below_of_ofWords hcode
    rw [List.size_toArray, Decidable.not_not.mp hlength]
    exact this
  · intro p hp
    rw [List.mem_toArray] at hp
    simp only [pairsOf, List.mem_cons] at hp
    rcases hp with rfl | rfl | hp
    · decide
    · decide
    · have := level_of_mem_pairsFrom hp
      omega

end RunLevelBook

namespace Books

/-- Steps of the envelope and of the noise gains are small, and there is a sound pair of run/level
books for each of the three rate classes. -/
structure Sound (b : Books) : Prop where
  envelope : b.envelope.Below 121
  noiseGain : b.noiseGain.Below 37
  levels_size : b.levels.size = 3
  levels : ∀ p ∈ b.levels, p.1.Sound ∧ p.2.Sound

theorem sound_of_levelPair {l : RunLevelLayout × RunLevelLayout} (hl : l ∈ layouts)
    {p : RunLevelBook × RunLevelBook} (h : levelPair l = .ok p) : p.1.Sound ∧ p.2.Sound := by
  obtain ⟨plain, hplain, h⟩ := ok_of_bind h
  obtain ⟨side, hside, h⟩ := ok_of_bind h
  cases h
  have short : ∀ l ∈ layouts, l.1.runs.length < 100 ∧ l.2.runs.length < 100 := by decide
  exact ⟨RunLevelBook.sound_of_ofLayout hplain (short l hl).1,
    RunLevelBook.sound_of_ofLayout hside (short l hl).2⟩

theorem sound_of_builtIn {b : Books} (h : builtIn = .ok b) : b.Sound := by
  obtain ⟨envelope, henvelope, h⟩ := ok_of_bind h
  obtain ⟨noiseGain, hnoise, h⟩ := ok_of_bind h
  obtain ⟨levels, hlevels, h⟩ := ok_of_bind h
  cases h
  obtain ⟨hsize, hsound⟩ := ok_of_mapM hlevels fun l hl p => sound_of_levelPair hl
  exact ⟨PrefixCode.below_of_ofWords henvelope, PrefixCode.below_of_ofWords hnoise,
    by simpa [layouts] using hsize, by simpa using hsound⟩

end Books

end Wma
