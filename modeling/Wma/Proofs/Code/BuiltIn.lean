import Wma.Code.Books
import Wma.Proofs.Code.RunLevel
import Wma.Proofs.Gives

/-!
# The built-in books are codes

No word of a built-in code begins another, and every built-in book has as many words as pairs, so
`Books.builtIn` gives a set of books. Canonical words need no more than room in the code space
(`Books.layout_fits`). The words of the two other codes are written out in tables and are compared by
their numbers.
-/

namespace Wma

theorem exists_of_toBool {α : Type} {x : Except Error α} (h : x.toBool = true) :
    ∃ a, x = .ok a := by
  cases x with
  | error e => cases h
  | ok a => exact ⟨a, rfl⟩

namespace Books

theorem exists_envelope : ∃ c, PrefixCode.ofWords envelopeWords envelopeLengths 8 = .ok c :=
  PrefixCode.exists_ofWords_of_pairwise rfl (by decide) (by decide) (by decide +kernel)
    (by decide +kernel)

/-- Any bits begin with an envelope step or end within one. -/
theorem envelope_full {c : PrefixCode}
    (h : PrefixCode.ofWords envelopeWords envelopeLengths 8 = .ok c) : c.Full := by
  obtain ⟨hwindow, hlists⟩ := PrefixCode.of_ofWords h
  refine hlists.full (fun w _ missed => ?_) (by decide +kernel)
  rw [hwindow] at missed
  exact absurd missed.window (by decide)

theorem exists_noiseGain : ∃ c, PrefixCode.ofWords noiseGainWords noiseGainLengths 9 = .ok c :=
  PrefixCode.exists_ofWords_of_pairwise rfl (by decide) (by decide) (by decide +kernel)
    (by decide +kernel)

/-- Each built-in layout has as many words as pairs, and its words find room in the code space. -/
theorem layout_fits : ∀ l ∈ layouts.map (·.1) ++ layouts.map (·.2),
    (RunLevelBook.pairsOf l).length = l.lengths.length ∧ l.lengths.length ≤ 65536 ∧
      (∀ n ∈ l.lengths, n ≤ PrefixCode.maxLength) ∧
      Canonical.space (l.lengths.filter (· ≠ 0)) ≤ 2 ^ PrefixCode.maxLength := by
  decide +kernel

theorem exists_levelPair {l : RunLevelLayout × RunLevelLayout} (h : l ∈ layouts) :
    ∃ p, levelPair l = .ok p := by
  have book : ∀ l ∈ layouts.map (·.1) ++ layouts.map (·.2), ∃ b, RunLevelBook.ofLayout l = .ok b :=
    fun l hl => by
      obtain ⟨pairs, count, short, room⟩ := layout_fits l hl
      exact RunLevelBook.exists_ofLayout pairs count short room
  obtain ⟨plain, hplain⟩ := book l.1 (List.mem_append_left _ (List.mem_map_of_mem h))
  obtain ⟨side, hside⟩ := book l.2 (List.mem_append_right _ (List.mem_map_of_mem h))
  exact ⟨(plain, side), by unfold levelPair; rw [hplain, hside]; rfl⟩

theorem exists_builtIn : ∃ b, builtIn = .ok b := by
  obtain ⟨envelope, henvelope⟩ := exists_envelope
  obtain ⟨noiseGain, hnoise⟩ := exists_noiseGain
  obtain ⟨levels, hlevels, -⟩ : Gives (layouts.mapM levelPair) fun _ => True :=
    (Gives.mapM _ fun l hl => (exists_levelPair hl).imp fun _ h => ⟨h, trivial⟩).mono
      fun _ _ => trivial
  refine ⟨⟨envelope, noiseGain, levels.toArray⟩, ?_⟩
  unfold builtIn
  rw [henvelope, hnoise, hlevels]
  rfl

/-- The books of a rate class come from its layouts. -/
theorem exists_levels_of_builtIn {b : Books} (h : builtIn = .ok b) {i : Nat}
    {l : RunLevelLayout × RunLevelLayout} (hl : layouts[i]? = some l) :
    ∃ plain side, b.levels[i]? = some (plain, side) ∧ RunLevelBook.ofLayout l.1 = .ok plain ∧
      RunLevelBook.ofLayout l.2 = .ok side := by
  obtain ⟨envelope, -, h⟩ := ok_of_bind h
  obtain ⟨noiseGain, -, h⟩ := ok_of_bind h
  obtain ⟨levels, hlevels, h⟩ := ok_of_bind h
  cases h
  obtain ⟨p, hp, hpair⟩ := getElem?_of_mapM hlevels hl
  obtain ⟨plain, hplain, hpair⟩ := ok_of_bind hpair
  obtain ⟨side, hside, hpair⟩ := ok_of_bind hpair
  cases hpair
  exact ⟨plain, side, by rw [List.getElem?_toArray, hp], hplain, hside⟩

end Books

end Wma
