import Wma.Envelope.Stepped
import Wma.Proofs.Code.Symbols
import Wma.Proofs.Parse.Success

/-!
# Stepped envelopes stay within their table

Every level lies between the lowest and the highest one, and the peak is one of them, so the table of
ratios has an entry for every distance from the peak.
-/

namespace Wma

namespace SteppedEnvelope

/-- A level that may be coded. -/
def InRange (level : Int) : Prop :=
  lowest ≤ level ∧ level ≤ highest

instance (level : Int) : Decidable (InRange level) :=
  inferInstanceAs (Decidable (_ ∧ _))

variable {σ : Type} {I : σ → Prop}

theorem triple_readFrom {code : PrefixCode} (hcode : code.Below 121) {length : Nat} :
    ∀ (widths : List Nat) (start : Nat) {last : Int}, InRange last →
    Parse.Triple I I (readFrom code length widths start last) fun levels s =>
      (∀ l ∈ levels, InRange l) ∧ I s
  | [], _, _, _ => .pure fun _ hs => ⟨by simp, hs⟩
  | width :: widths, start, last, hlast => by
    unfold readFrom
    refine .ite (fun _ => .pure fun _ hs => ⟨by simp, hs⟩) fun _ => ?_
    refine .bind (.next hcode (Q := fun symbol s => symbol < 121 ∧ I s) (fun _ h => h)
      fun _ _ h hs => ⟨h, hs⟩) fun symbol => .of_fact (fun _ h => h.1) fun hsymbol => ?_
    refine .bind (R := fun level s => I s) (.ofExcept fun _ hs => .int32 ?_ hs.2) fun level => ?_
    · unfold InRange lowest highest at hlast
      unfold FitsInt32 Books.envelopeBias
      omega
    refine .bind (R := fun _ s => InRange level ∧ I s)
      (.require trivial (fun _ h => h) fun h _ hs => ⟨h, hs⟩) fun _ => ?_
    refine .of_fact (fun _ h => h.1) fun hlevel => ?_
    refine .bind ((triple_readFrom hcode widths (start + width) hlevel).pre fun _ h => h.2)
      fun levels => .pure fun _ hs => ⟨?_, hs.2⟩
    intro l hl
    rcases List.mem_cons.mp hl with rfl | hl
    · exact hlevel
    · exact hs.1 l hl

theorem triple_readLevels {code : PrefixCode} (hcode : code.Below 121) (version : Version)
    (widths : List Nat) (length : Nat) :
    Parse.Triple I I (readLevels code version widths length) fun levels s =>
      (∀ l ∈ levels, InRange l) ∧ I s := by
  unfold readLevels
  cases version with
  | v2 => exact triple_readFrom hcode widths 0 (by unfold InRange; decide)
  | v1 =>
    refine .bind (R := fun first s => first < 2 ^ 5 ∧ I s)
      (.read (fun _ h => h) fun _ _ h hs => ⟨h, hs⟩) fun first => ?_
    refine .of_fact (fun _ h => h.1) fun hfirst => ?_
    have hlevel : InRange (first + 10) := by unfold InRange lowest highest; omega
    cases widths with
    | nil => exact .pure fun _ hs => ⟨by simp, hs.2⟩
    | cons width widths =>
      refine .bind ((triple_readFrom hcode widths width hlevel).pre fun _ h => h.2)
        fun levels => .pure fun _ hs => ⟨?_, hs.2⟩
      intro l hl
      rcases List.mem_cons.mp hl with rfl | hl
      · exact hlevel
      · exact hs.1 l hl

theorem foldl_max_bounds {levels : List Int} (h : ∀ l ∈ levels, InRange l) {start : Int}
    (hs : InRange start) :
    InRange (levels.foldl max start) ∧ start ≤ levels.foldl max start ∧
      ∀ l ∈ levels, l ≤ levels.foldl max start := by
  induction levels generalizing start with
  | nil => exact ⟨hs, Int.le_refl _, by simp⟩
  | cons l levels ih =>
    have hl := h l (by simp)
    have hmax : InRange (max start l) := by unfold InRange at *; omega
    obtain ⟨hr, hle, hall⟩ := ih (fun l hl => h l (by simp [hl])) hmax
    rw [List.foldl_cons]
    refine ⟨hr, by omega, fun l' hl' => ?_⟩
    rcases List.mem_cons.mp hl' with rfl | hl'
    · omega
    · exact hall l' hl'

theorem peakRatios_lt : ∀ r ∈ peakRatios, r.toNat < 2 ^ 31 := by
  have all : peakRatios.all (·.toNat < 2 ^ 31) := by decide +kernel
  simpa using Array.all_eq_true'.mp all

/-- No level of an envelope is further below the peak than the table of ratios goes. -/
theorem distance_lt {levels : List Int} (h : ∀ l ∈ levels, InRange l) {level : Int}
    (hl : level ∈ levels) :
    0 ≤ peak levels - level ∧ (peak levels - level).toNat < peakRatios.size := by
  have start : InRange lowest := by unfold InRange; decide
  obtain ⟨hr, -, hall⟩ := foldl_max_bounds h start
  have low := h level hl
  have high := hall level hl
  have size : peakRatios.size = 216 := rfl
  unfold peak
  unfold InRange lowest highest at *
  omega

theorem Gives.ratio {levels : List Int} (h : ∀ l ∈ levels, InRange l) {level : Int}
    (hl : level ∈ levels) : Gives (ratio (peak levels) level) (·.toNat < 2 ^ 31) := by
  obtain ⟨above, within⟩ := distance_lt h hl
  unfold SteppedEnvelope.ratio
  rw [if_pos above]
  exact .lookup within peakRatios_lt

theorem ratio_eq_ok {levels : List Int} (h : ∀ l ∈ levels, InRange l) {level : Int}
    (hl : level ∈ levels) :
    ratio (peak levels) level = .ok (peakRatios.getD (peak levels - level).toNat 0) := by
  obtain ⟨above, within⟩ := distance_lt h hl
  unfold ratio Buffer.lookup
  rw [if_pos above, Array.getD_eq_getD_getElem?, Array.getElem?_eq_getElem within]
  rfl

theorem length_spread : ∀ {widths : List Nat} {ratios : List UInt32} {length : Nat},
    (spread widths ratios length).length = length
  | width :: widths, ratio :: ratios, length => by
    simp only [spread, List.length_append, List.length_replicate, length_spread]
    omega
  | [], _, _ => by simp [spread]
  | _ :: _, [], _ => by simp [spread]

/-- A stepped envelope has a ratio for each bin. -/
theorem size_of_read {σ : Type} {s t : Scan σ} {code : PrefixCode} {version : Version}
    {widths : List Nat} {length : Nat} {ratios : Array UInt32}
    (h : read code version widths length s = .ok ratios t) : ratios.size = length := by
  obtain ⟨levels, u, -, h⟩ := Parse.ok_bind h
  obtain ⟨found, v, -, h⟩ := Parse.ok_bind h
  cases h
  rw [List.size_toArray, length_spread]

theorem mem_spread {r : UInt32} : ∀ {widths : List Nat} {ratios : List UInt32} {length : Nat},
    r ∈ spread widths ratios length → r ∈ ratios ∨ r = 0
  | width :: widths, ratio :: ratios, length, h => by
    simp only [spread, List.mem_append, List.mem_replicate] at h
    rcases h with ⟨-, rfl⟩ | h
    · exact .inl (by simp)
    · exact (mem_spread h).imp_left (List.mem_cons_of_mem _)
  | [], _, _, h => .inr (List.eq_of_mem_replicate h)
  | _ :: _, [], _, h => .inr (List.eq_of_mem_replicate h)

theorem triple_read {code : PrefixCode} (hcode : code.Below 121) (version : Version)
    (widths : List Nat) (length : Nat) :
    Parse.Triple I I (read code version widths length) fun ratios s =>
      (ratios.size = length ∧ ∀ r ∈ ratios, r.toNat < 2 ^ 31) ∧ I s := by
  refine .bind (triple_readLevels hcode version widths length) fun levels => ?_
  refine .of_fact (fun _ h => h.1) fun hlevels => ?_
  refine .bind (R := fun ratios s => (∀ r ∈ ratios, r.toNat < 2 ^ 31) ∧ I s)
    (.ofExcept fun _ hs => ?_) fun ratios => .pure fun _ hs => ⟨⟨?_, fun r hr => ?_⟩, hs.2⟩
  · refine (Wma.Gives.mapM _ fun l hl => ?_).mono fun _ h => ⟨h.2, hs.2⟩
    exact Gives.ratio hlevels (List.mem_of_mem_take hl)
  · rw [List.size_toArray, length_spread]
  · rcases mem_spread (List.mem_toArray.mp hr) with hr | rfl
    · exact hs.1 r hr
    · decide

end SteppedEnvelope

end Wma
