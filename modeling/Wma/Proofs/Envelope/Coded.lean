import Wma.Proofs.Bits.Numbers
import Wma.Proofs.Code.BuiltIn
import Wma.Proofs.Code.PrefixCode
import Wma.Proofs.Envelope.Stepped

/-!
# Stepped envelopes as they are written

A stepped envelope is written as a `Coding`: the first level, in the first version of the format, and
a step for each band that begins within the block (`bandCount`). The code of the steps is complete,
so whatever the bits are, they begin with a coding or end within one (`exists_coding`). A coding of
levels in range is read, and its levels are shown as ratios of the highest of them (`wp_read`); one
that leads out of range, or that the bits end within, is refused (`wp_read_of_bad`).
-/

namespace Wma

namespace SteppedEnvelope

/-- A symbol of the code of steps. -/
abbrev Step := Fin 121

def Step.word (x : Step) : List Bool :=
  CodeWord.bitsOf (envelopeWords.getD x 0) (envelopeLengths.getD x 0)

/-- The levels that steps lead to, one after the other. -/
def levelsFrom (last : Int) : List Step → List Int
  | [] => []
  | x :: steps => (last + x - Books.envelopeBias) :: levelsFrom (last + x - Books.envelopeBias) steps

/-- An envelope as it is written. The first field is there in the first version only. -/
structure Coding where
  first : Fin 32
  steps : List Step

namespace Coding

/-- The level that the first step counts from. -/
def start (version : Version) (e : Coding) : Int :=
  match version with
  | .v1 => e.first + 10
  | .v2 => seed

def levels (version : Version) (e : Coding) : List Int :=
  match version with
  | .v1 => e.start .v1 :: levelsFrom (e.start .v1) e.steps
  | .v2 => levelsFrom (e.start .v2) e.steps

def bits (version : Version) (e : Coding) : List Bool :=
  match version with
  | .v1 => CodeWord.bitsOf e.first 5 ++ e.steps.flatMap Step.word
  | .v2 => e.steps.flatMap Step.word

end Coding

/-- The number of bands that begin before `length`, where the first begins at `start`. -/
def bandCount (length start : Nat) (widths : List Nat) : Nat :=
  (List.range widths.length).countP fun j => start + (widths.take j).sum < length

/-- The number of steps of an envelope over `length` bins. -/
def stepCount (version : Version) (widths : List Nat) (length : Nat) : Nat :=
  match version with
  | .v1 => bandCount length 0 widths - 1
  | .v2 => bandCount length 0 widths

/-- Every bin of a band has the ratio of the level of its band to the highest level. -/
def Shows (widths : List Nat) (levels : List Int) (ratios : Array UInt32) : Prop :=
  ∀ j i, (widths.take j).sum ≤ i → i < (widths.take (j + 1)).sum →
    ∃ peak level, levels.max? = some peak ∧ levels[j]? = some level ∧ 0 ≤ peak - level ∧
      (peak - level).toNat < peakRatios.size ∧ ratios[i]? = peakRatios[(peak - level).toNat]?

/-! ### Bands -/

@[simp] theorem bandCount_nil (length start : Nat) : bandCount length start [] = 0 := rfl

theorem bandCount_cons (length start width : Nat) (widths : List Nat) :
    bandCount length start (width :: widths) =
      if length ≤ start then 0 else bandCount length (start + width) widths + 1 := by
  unfold bandCount
  split
  · rw [List.countP_eq_zero]
    simp only [decide_eq_true_eq]
    omega
  · rename_i inside
    rw [List.length_cons, List.range_succ_eq_map, List.countP_cons, List.countP_map]
    simp only [List.take_zero, List.sum_nil, Nat.add_zero, Nat.not_le.mp inside, decide_true,
      if_true, Function.comp_def, List.take_succ_cons, List.sum_cons, Nat.add_assoc]
    rfl

/-- The bands that begin before `length` come first. -/
theorem lt_bandCount {length start j : Nat} {widths : List Nat} (hj : j < widths.length)
    (h : start + (widths.take j).sum < length) : j < bandCount length start widths := by
  induction widths generalizing start j with
  | nil => cases hj
  | cons width widths ih =>
    rw [bandCount_cons, if_neg (by omega)]
    cases j with
    | zero => exact Nat.succ_pos _
    | succ j =>
      rw [List.take_succ_cons, List.sum_cons] at h
      exact Nat.succ_lt_succ (ih (Nat.lt_of_succ_lt_succ hj) (by omega))

@[simp] theorem length_levelsFrom (last : Int) (steps : List Step) :
    (levelsFrom last steps).length = steps.length := by
  induction steps generalizing last with
  | nil => rfl
  | cons x steps ih => rw [levelsFrom, List.length_cons, List.length_cons, ih]

/-! ### The code of steps -/

/-- A code with just the words of the steps, on any bits. -/
structure IsStepCode (code : PrefixCode) : Prop where
  reads : ∀ x : Step, code.Reads x x.word
  exists_step : ∀ y p, code.Reads y p → ∃ x : Step, x.word = p
  full : code.Full

theorem isStepCode_of_builtIn {books : Books} (h : Books.builtIn = .ok books) :
    IsStepCode books.envelope := by
  obtain ⟨code, hcode, h⟩ := ok_of_bind h
  obtain ⟨_, -, h⟩ := ok_of_bind h
  obtain ⟨_, -, h⟩ := ok_of_bind h
  cases h
  have words : envelopeWords.length = 121 := rfl
  have lengths : envelopeLengths.length = 121 := rfl
  have pos : ∀ n ∈ envelopeLengths, n ≠ 0 := by decide +kernel
  refine ⟨fun x => ?_, fun y p hp => ?_, Books.envelope_full hcode⟩
  · refine (PrefixCode.reads_of_ofWords_of_lt hcode (by decide)).mpr
      ⟨⟨x, envelopeWords.getD x 0, envelopeLengths.getD x 0⟩, ⟨?_, ?_, ?_⟩, rfl, rfl⟩
    · simp [List.getD_eq_getElem?_getD, words]
    · simp [List.getD_eq_getElem?_getD, lengths]
    · simpa [List.getD_eq_getElem?_getD, lengths] using pos _ (List.getElem_mem _)
  · obtain ⟨w, hw, rfl, rfl⟩ := (PrefixCode.reads_of_ofWords_of_lt hcode (by decide)).mp hp
    obtain ⟨hlt, -⟩ := List.getElem?_eq_some_iff.mp hw.length
    refine ⟨⟨w.symbol, by omega⟩, ?_⟩
    unfold Step.word CodeWord.path
    rw [List.getD_eq_getElem?_getD, List.getD_eq_getElem?_getD, hw.bits, hw.length]
    rfl

variable {σ : Type} {code : PrefixCode}

/-- Any bits begin with as many steps as one likes, or end within them. -/
theorem exists_steps (hcode : IsStepCode code) (n : Nat) (l : List Bool) :
    ∃ steps : List Step, steps.length = n ∧ (steps.flatMap Step.word <+: l ∨
      l <+: steps.flatMap Step.word ∧ l.length < (steps.flatMap Step.word).length) := by
  induction n generalizing l with
  | zero => exact ⟨[], rfl, .inl List.nil_prefix⟩
  | succ n ih =>
    obtain ⟨y, p, hp, ⟨rest, rfl⟩ | ⟨hl, hlt⟩⟩ := hcode.full l
    · obtain ⟨x, rfl⟩ := hcode.exists_step y p hp
      obtain ⟨steps, hcount, h⟩ := ih rest
      refine ⟨x :: steps, by rw [List.length_cons, hcount], ?_⟩
      rw [List.flatMap_cons, List.prefix_append_right_inj, List.prefix_append_right_inj]
      simpa using h
    · obtain ⟨x, rfl⟩ := hcode.exists_step y p hp
      refine ⟨x :: List.replicate n x, by simp, .inr ⟨?_, ?_⟩⟩
      · exact hl.trans (List.prefix_append ..)
      · rw [List.flatMap_cons, List.length_append]
        omega

/-! ### Steps of reading -/

variable {E : Error → Scan σ → Prop} {s : Scan σ} {length start : Nat} {last : Int} {widths : List Nat}
  {rest : List Bool} {steps : List Step}

theorem wp_readFrom_of_le {Q : List Int → Scan σ → Prop} (h : length ≤ start) (hQ : Q [] s) :
    (readFrom code length widths start last).wp Q E s := by
  cases widths with
  | nil => exact hQ
  | cons width widths =>
    unfold readFrom
    rw [Parse.wp_ite, if_pos h]
    exact hQ

theorem wp_readFrom_step {Q : List Int → Scan σ → Prop} {x : Step} {width : Nat}
    (hcode : IsStepCode code) (hlast : InRange last) (hstart : start < length)
    (hs : s.reader.remaining = x.word ++ rest)
    (hQ : InRange (last + x - Books.envelopeBias) →
      ∀ q, s.reader.Moved x.word.length q → q.remaining = rest →
      (readFrom code length widths (start + width) (last + x - Books.envelopeBias)).wp
        (fun levels t => Q ((last + x - Books.envelopeBias) :: levels) t) E ⟨q, s.state⟩)
    (hE : ¬InRange (last + x - Books.envelopeBias) → ∀ q cause, E (.corrupt cause) ⟨q, s.state⟩) :
    (readFrom code length (width :: widths) start last).wp Q E s := by
  have small := x.isLt
  have fits : int32 (last + x - Books.envelopeBias) = .ok (last + x - Books.envelopeBias) := by
    refine if_pos ?_
    unfold InRange lowest highest at hlast
    unfold FitsInt32 Books.envelopeBias
    omega
  unfold readFrom
  rw [Parse.wp_ite, if_neg (by omega), Parse.wp_bind]
  refine (hcode.reads x).wp_next hs fun q hm hs => ?_
  simp only [fits, Parse.wp_bind, Parse.wp_ofExcept_ok, Parse.wp_require, Parse.wp_pure]
  split
  · exact hQ ‹_› q hm hs
  · exact hE ‹_› q _

/-- Steps that lead to levels in range are read. -/
theorem wp_readFrom (hcode : IsStepCode code) (hlast : InRange last)
    (hcount : steps.length = bandCount length start widths)
    (hs : s.reader.remaining = steps.flatMap Step.word ++ rest)
    (hrange : ∀ l ∈ levelsFrom last steps, InRange l) :
    (readFrom code length widths start last).wp (fun levels t => levels = levelsFrom last steps ∧
      s.reader.Moved (steps.flatMap Step.word).length t.reader ∧ t.state = s.state)
      (fun _ _ => False) s := by
  induction widths generalizing start last steps s with
  | nil =>
    obtain rfl := List.eq_nil_of_length_eq_zero hcount
    exact ⟨rfl, ⟨rfl, rfl, rfl⟩, rfl⟩
  | cons width widths ih =>
    rw [bandCount_cons] at hcount
    split at hcount
    · obtain rfl := List.eq_nil_of_length_eq_zero hcount
      exact wp_readFrom_of_le ‹_› ⟨rfl, ⟨rfl, rfl, rfl⟩, rfl⟩
    · obtain ⟨x, steps, rfl⟩ := List.exists_cons_of_length_eq_add_one hcount
      rw [levelsFrom, List.forall_mem_cons] at hrange
      rw [List.flatMap_cons, List.append_assoc] at hs
      refine wp_readFrom_step hcode hlast (by omega) hs (fun hlevel q hm hs => ?_)
        fun out => absurd hrange.1 out
      refine Parse.wp_mono (ih hlevel (by simpa using hcount) hs hrange.2) (fun levels t h => ?_)
        fun _ _ h => h
      obtain ⟨rfl, hm', hstate⟩ := h
      exact ⟨rfl, by simpa using hm.trans hm', hstate⟩

/-- The steps that bits begin with lead out of range, or the bits end within them. -/
def Bad (last : Int) (steps : List Step) (l : List Bool) : Prop :=
  (steps.flatMap Step.word <+: l ∧ ∃ level ∈ levelsFrom last steps, ¬InRange level) ∨
    l <+: steps.flatMap Step.word ∧ l.length < (steps.flatMap Step.word).length

/-- Nothing but damage, and nothing done to the state. -/
def Refused (s : Scan σ) (e : Error) (t : Scan σ) : Prop :=
  (∃ cause, e = .corrupt cause) ∧ t.state = s.state

theorem wp_readFrom_of_bad (hcode : IsStepCode code) (hlast : InRange last)
    (hcount : steps.length ≤ bandCount length start widths)
    (h : Bad last steps s.reader.remaining) :
    (readFrom code length widths start last).wp (fun _ _ => False) (Refused s) s := by
  induction steps generalizing start last widths s with
  | nil => rcases h with ⟨-, level, hlevel, -⟩ | ⟨-, hlt⟩ <;> simp_all [levelsFrom]
  | cons x steps ih =>
    obtain ⟨width, widths, rfl⟩ : ∃ w ws, widths = w :: ws := by
      cases widths with
      | nil => simp at hcount
      | cons width widths => exact ⟨width, widths, rfl⟩
    rw [bandCount_cons] at hcount
    split at hcount
    · simp at hcount
    rename_i hstart
    by_cases there : x.word <+: s.reader.remaining
    · obtain ⟨rest, hs⟩ := there
      refine wp_readFrom_step hcode hlast (by omega) hs.symm (fun hlevel q hm hq => ?_)
        fun _ q cause => ⟨⟨cause, rfl⟩, rfl⟩
      refine ih hlevel (by simpa using hcount) ?_
      rw [← hs] at h
      unfold Bad at h
      rw [List.flatMap_cons, List.prefix_append_right_inj, List.prefix_append_right_inj] at h
      rw [hq]
      refine h.imp (fun ⟨hl, level, hmem, hout⟩ => ⟨hl, level, ?_, hout⟩) fun ⟨hl, hlt⟩ => ⟨hl, ?_⟩
      · exact (List.mem_cons.mp hmem).resolve_left fun heq => hout (heq ▸ hlevel)
      · simpa using hlt
    · -- The bits end within the word, so they begin with no word at all.
      have within : s.reader.remaining <+: x.word := by
        rcases h with ⟨hl, -⟩ | ⟨hl, -⟩
        · exact absurd ((List.prefix_append ..).trans hl) there
        · exact (List.prefix_or_prefix_of_prefix hl (List.prefix_append ..)).resolve_right there
      obtain ⟨cause, hnext⟩ := PrefixCode.exists_next_eq_error (c := code) (s := s) fun y p hp hl =>
        there ((hp.eq_of_prefix (hcode.reads x) (hl.trans within)).2 ▸ hl)
      unfold readFrom
      rw [Parse.wp_ite, if_neg hstart, Parse.wp_bind]
      unfold Parse.wp
      rw [hnext]
      exact ⟨⟨cause, rfl⟩, rfl⟩

/-! ### Codings -/

/-- The bits end within a coding, or go on with one that leads out of range. -/
def Coding.Bad (version : Version) (e : Coding) (l : List Bool) : Prop :=
  (e.bits version <+: l ∧ ∃ level ∈ levelsFrom (e.start version) e.steps, ¬InRange level) ∨
    l <+: e.bits version ∧ l.length < (e.bits version).length

theorem Coding.inRange_start (version : Version) (e : Coding) : InRange (e.start version) := by
  have small := e.first.isLt
  cases version with
  | v1 => unfold start InRange lowest highest; dsimp only; omega
  | v2 => show InRange seed; unfold InRange; decide

theorem Coding.inRange_levels {version : Version} {e : Coding}
    (h : ∀ l ∈ levelsFrom (e.start version) e.steps, InRange l) :
    ∀ l ∈ e.levels version, InRange l := by
  cases version with
  | v1 => exact List.forall_mem_cons.mpr ⟨e.inRange_start .v1, h⟩
  | v2 => exact h

theorem bandCount_le (length start : Nat) (widths : List Nat) :
    bandCount length start widths ≤ widths.length := by
  have count := List.countP_le_length
    (p := fun j => decide (start + (widths.take j).sum < length)) (l := List.range widths.length)
  rwa [List.length_range] at count

/-- There is a level for each band that begins within the block, and none without a band. -/
theorem Coding.length_levels {version : Version} {e : Coding} {length : Nat} {widths : List Nat}
    (hwidths : widths ≠ []) (h : e.steps.length = stepCount version widths length) :
    bandCount length 0 widths ≤ (e.levels version).length ∧
      (e.levels version).length ≤ widths.length := by
  have count := bandCount_le length 0 widths
  have pos := List.length_pos_iff.mpr hwidths
  unfold stepCount at h
  cases version with
  | v1 =>
    simp only [levels, List.length_cons, length_levelsFrom, h]
    omega
  | v2 =>
    simp only [levels, length_levelsFrom, h]
    omega

theorem bandCount_tail (length width : Nat) (widths : List Nat) :
    bandCount length width widths = bandCount length 0 (width :: widths) - 1 := by
  rw [bandCount_cons, Nat.zero_add]
  split
  · cases widths with
    | nil => rfl
    | cons next widths => rw [bandCount_cons, if_pos (by omega)]
  · rfl

variable {version : Version} {e : Coding}

/-- Any bits begin with a coding, or end within one. -/
theorem exists_coding (hcode : IsStepCode code) (version : Version) (n : Nat) (l : List Bool) :
    ∃ e : Coding, e.steps.length = n ∧ (e.bits version <+: l ∨
      l <+: e.bits version ∧ l.length < (e.bits version).length) := by
  cases version with
  | v2 =>
    obtain ⟨steps, hcount, h⟩ := exists_steps hcode n l
    exact ⟨⟨0, steps⟩, hcount, h⟩
  | v1 =>
    have first : ∀ f : List Bool, f.length = 5 →
        ∃ x : Fin 32, CodeWord.bitsOf x 5 = f := fun f hf => by
      have small := Bits.value_lt f
      rw [hf] at small
      exact ⟨⟨Bits.value f, small⟩, by rw [← hf]; exact Bits.bitsOf_value f⟩
    by_cases hl : 5 ≤ l.length
    · obtain ⟨f, m, hf, rfl⟩ : ∃ f m : List Bool, f.length = 5 ∧ l = f ++ m :=
        ⟨l.take 5, l.drop 5, by rw [List.length_take]; omega, (List.take_append_drop 5 l).symm⟩
      obtain ⟨x, rfl⟩ := first f hf
      obtain ⟨steps, hcount, h⟩ := exists_steps hcode n m
      refine ⟨⟨x, steps⟩, hcount, ?_⟩
      simp only [Coding.bits, List.prefix_append_right_inj, List.length_append]
      exact h.imp_right fun ⟨hm, hlt⟩ => ⟨hm, by omega⟩
    · obtain ⟨x, hx⟩ := first (l ++ List.replicate (5 - l.length) false) (by simp; omega)
      obtain ⟨steps, hcount, -⟩ := exists_steps hcode n []
      refine ⟨⟨x, steps⟩, hcount, .inr ⟨?_, ?_⟩⟩
      · unfold Coding.bits
        dsimp only
        rw [hx, List.append_assoc]
        exact List.prefix_append ..
      · simp only [Coding.bits, List.length_append, Bits.length_bitsOf]
        omega

/-- A coding of levels in range is read. -/
theorem wp_readLevels (hcode : IsStepCode code)
    (hcount : e.steps.length = stepCount version widths length)
    (hs : s.reader.remaining = e.bits version ++ rest)
    (hrange : ∀ l ∈ levelsFrom (e.start version) e.steps, InRange l) :
    (readLevels code version widths length).wp (fun levels t =>
      (levels = if widths = [] then [] else e.levels version) ∧
        s.reader.Moved (e.bits version).length t.reader ∧ t.state = s.state)
      (fun _ _ => False) s := by
  have start := e.inRange_start version
  unfold readLevels
  cases version with
  | v2 =>
    refine Parse.wp_mono (wp_readFrom hcode start hcount hs hrange) (fun levels t h => ?_)
      fun _ _ h => h
    obtain ⟨rfl, h⟩ := h
    refine ⟨?_, h⟩
    split
    · subst widths
      exact List.eq_nil_of_length_eq_zero ((length_levelsFrom _ _).trans hcount)
    · rfl
  | v1 =>
    simp only [Coding.bits, List.append_assoc] at hs
    rw [Parse.wp_bind]
    refine Parse.wp_read_bitsOf (by decide) e.first.isLt hs fun q hm hs => ?_
    cases widths with
    | nil =>
      obtain none := List.eq_nil_of_length_eq_zero hcount
      exact ⟨rfl, by simpa [Coding.bits, none] using hm, rfl⟩
    | cons width widths =>
      rw [Parse.wp_bind]
      refine Parse.wp_mono (wp_readFrom hcode start (hcount.trans (bandCount_tail ..).symm) hs hrange)
        (fun levels t h => ?_) fun _ _ h => h
      obtain ⟨rfl, hm', hstate⟩ := h
      exact ⟨rfl, by simpa [Coding.bits] using hm.trans hm', hstate⟩

theorem wp_readLevels_of_bad (hcode : IsStepCode code)
    (hcount : e.steps.length ≤ stepCount version widths length)
    (h : e.Bad version s.reader.remaining) :
    (readLevels code version widths length).wp (fun _ _ => False) (Refused s) s := by
  have start := e.inRange_start version
  unfold readLevels
  cases version with
  | v2 => exact wp_readFrom_of_bad hcode start hcount h
  | v1 =>
    rw [Parse.wp_bind]
    by_cases hl : s.reader.left < 5
    · exact Parse.wp_read_of_lt hl fun cause => ⟨⟨cause, rfl⟩, rfl⟩
    unfold Coding.Bad Coding.bits at h
    dsimp only at h
    have there : CodeWord.bitsOf e.first 5 <+: s.reader.remaining := by
      rcases h with ⟨hl, -⟩ | ⟨hl, -⟩
      · exact (List.prefix_append ..).trans hl
      · refine List.prefix_of_prefix_length_le (List.prefix_append ..) hl ?_
        rw [Bits.length_bitsOf, BitReader.length_remaining]
        omega
    obtain ⟨rest, hs⟩ := there
    rw [← hs, List.prefix_append_right_inj, List.prefix_append_right_inj] at h
    refine Parse.wp_read_bitsOf (by decide) e.first.isLt hs.symm fun q hm hq => ?_
    have bad : Bad (e.start .v1) e.steps q.remaining := by
      rw [hq]
      exact h.imp_right fun ⟨hl, hlt⟩ => ⟨hl, by simpa using hlt⟩
    cases widths with
    | nil =>
      have none := List.eq_nil_of_length_eq_zero (Nat.le_zero.mp hcount)
      rw [none] at bad
      rcases bad with ⟨-, level, hlevel, -⟩ | ⟨-, hlt⟩ <;> simp_all [levelsFrom]
    | cons width widths =>
      rw [Parse.wp_bind]
      exact Parse.wp_mono (wp_readFrom_of_bad hcode start
        (Nat.le_trans hcount (Nat.le_of_eq (bandCount_tail ..).symm)) bad) (fun _ _ h => h.elim)
        fun _ _ h => h

/-! ### Ratios -/

theorem max?_eq_peak {levels : List Int} (h : ∀ l ∈ levels, InRange l) (hne : levels ≠ []) :
    levels.max? = some (peak levels) := by
  obtain ⟨level, levels, rfl⟩ := List.exists_cons_of_ne_nil hne
  have first := (h level List.mem_cons_self).1
  rw [List.max?_cons', peak, List.foldl_cons, max_eq_right first]

theorem getElem?_spread : ∀ {widths : List Nat} {ratios : List UInt32} {length j i : Nat},
    j < ratios.length → (widths.take j).sum ≤ i → i < (widths.take (j + 1)).sum → i < length →
    (spread widths ratios length)[i]? = ratios[j]?
  | [], _, _, _, _, _, _, hhigh, _ => by simp at hhigh
  | _ :: _, [], _, _, _, hj, _, _, _ => by simp at hj
  | width :: widths, ratio :: ratios, length, 0, i, _, _, hhigh, hi => by
    have inside : i < width := by simpa using hhigh
    rw [spread, List.getElem?_append_left (by rw [List.length_replicate]; omega),
      List.getElem?_replicate, if_pos (by omega)]
    rfl
  | width :: widths, ratio :: ratios, length, j + 1, i, hj, hlow, hhigh, hi => by
    rw [List.take_succ_cons, List.sum_cons] at hlow hhigh
    have front : min width length = width := by omega
    rw [spread, List.getElem?_append_right (by rw [List.length_replicate]; omega),
      List.length_replicate, front, List.getElem?_cons_succ]
    exact getElem?_spread (Nat.lt_of_succ_lt_succ hj) (by omega) (by omega) (by omega)

/-- The bins of each band show the level of the band. -/
theorem shows_spread {levels : List Int} (hlevels : ∀ l ∈ levels, InRange l)
    (hsum : widths.sum = length) (hcount : bandCount length 0 widths ≤ levels.length) :
    Shows widths levels (spread widths
      (levels.map fun l => peakRatios.getD (peak levels - l).toNat 0) length).toArray := by
  intro j i hlow hhigh
  have hj : j < widths.length := by
    by_contra beyond
    rw [List.take_of_length_le (by omega)] at hlow hhigh
    omega
  have whole : (widths.take (j + 1)).sum ≤ widths.sum := by
    conv_rhs => rw [← List.take_append_drop (j + 1) widths, List.sum_append]
    omega
  have coded : j < levels.length :=
    Nat.lt_of_lt_of_le (lt_bandCount hj (by omega)) hcount
  have member : levels[j] ∈ levels := List.getElem_mem coded
  obtain ⟨above, within⟩ := distance_lt hlevels member
  refine ⟨peak levels, levels[j], max?_eq_peak hlevels (List.ne_nil_of_mem member),
    List.getElem?_eq_getElem coded, above, within, ?_⟩
  rw [List.getElem?_toArray, getElem?_spread (by rw [List.length_map]; exact coded) hlow hhigh
    (by omega), List.getElem?_map, List.getElem?_eq_getElem coded, Option.map_some,
    Array.getElem?_eq_getElem within, Array.getD_eq_getD_getElem?, Array.getElem?_eq_getElem within,
    Option.getD_some]

theorem wp_read (hcode : IsStepCode code) (hwidths : widths.length ≤ maxBands)
    (hsum : widths.sum = length) (hcount : e.steps.length = stepCount version widths length)
    (hs : s.reader.remaining = e.bits version ++ rest)
    (hrange : ∀ l ∈ levelsFrom (e.start version) e.steps, InRange l) :
    (read code version widths length).wp (fun ratios t => ratios.size = length ∧
      Shows widths (e.levels version) ratios ∧ s.reader.Moved (e.bits version).length t.reader ∧
      t.state = s.state) (fun _ _ => False) s := by
  unfold read
  rw [Parse.wp_bind]
  refine Parse.wp_mono (wp_readLevels hcode hcount hs hrange) (fun levels t h => ?_) fun _ _ h => h
  obtain ⟨hlevels, hm, hstate⟩ := h
  have inRange : ∀ l ∈ levels, InRange l := by
    rw [hlevels]
    split
    · simp
    · exact Coding.inRange_levels hrange
  have count : bandCount length 0 widths ≤ levels.length ∧ levels.length ≤ widths.length := by
    rw [hlevels]
    split
    · subst widths
      exact ⟨Nat.le_refl _, Nat.le_refl _⟩
    · exact Coding.length_levels ‹_› hcount
  have ratios : (levels.take maxBands).mapM (ratio (peak levels)) =
      .ok (levels.map fun l => peakRatios.getD (peak levels - l).toNat 0) := by
    rw [List.take_of_length_le (Nat.le_trans count.2 hwidths)]
    exact mapM_eq_ok fun l hl => ratio_eq_ok inRange hl
  rw [ratios, Parse.wp_bind, Parse.wp_ofExcept_ok, Parse.wp_pure]
  refine ⟨by rw [List.size_toArray, length_spread], ?_, hm, hstate⟩
  have shows := shows_spread inRange hsum count.1
  by_cases none : widths = []
  · subst widths
    exact fun j i _ hhigh => absurd hhigh (by simp)
  · rw [if_neg none] at hlevels
    rwa [hlevels] at shows ⊢

theorem wp_read_of_bad (hcode : IsStepCode code)
    (hcount : e.steps.length ≤ stepCount version widths length)
    (h : e.Bad version s.reader.remaining) :
    (read code version widths length).wp (fun _ _ => False) (Refused s) s := by
  unfold read
  rw [Parse.wp_bind]
  exact Parse.wp_mono (wp_readLevels_of_bad hcode hcount h) (fun _ _ h => h.elim) fun _ _ h => h

end SteppedEnvelope

end Wma
