import Mathlib.Algebra.Order.Ring.Abs
import Wma.Envelope.LinePairs
import Wma.Proofs.Bits.Reading
import Wma.Proofs.Fixed.Gain

/-!
# Envelopes from line spectral pairs stay within their words

The cosines of frequencies and the values of the pairs are at most two (`Unit28`), so the ten factors
of the response make it grow by a power of two that a 64-bit word holds. Where there is a frequency
for every bin, the whole curve is worked out anew, and its ratios to the peak are numbers of 31 bits.
-/

namespace Wma

namespace LinePairs

/-- A number of 28 fractional bits that is at most two. -/
def Unit28 (w : Int) : Prop :=
  |w| ≤ 2 ^ 29

theorem mulQ28_le {a b A : Int} (ha : |a| ≤ A) (hb : |b| ≤ 2 ^ 30) (hA : A ≤ 2 ^ 60) :
    |mulQ28 a b| ≤ 4 * A + 1 := by
  have product : |a * b| ≤ A * 2 ^ 30 := by
    rw [abs_mul]
    exact mul_le_mul ha hb (abs_nonneg b) (le_trans (abs_nonneg a) ha)
  have ⟨low, high⟩ := abs_le.mp product
  have wrap : mulQ28 a b = a * b / 2 ^ 28 := by
    unfold mulQ28 wrap64
    exact Int.bmod_eq_of_le (by omega) (by omega)
  rw [wrap, abs_le]
  constructor <;> omega

theorem distance_le {w v : Int} (hw : Unit28 w) (hv : Unit28 v) : |w - v| ≤ 2 ^ 30 := by
  have := abs_le.mp hw; have := abs_le.mp hv
  rw [abs_le]
  constructor <;> omega

/-- Five pairs of factors. The bound grows by a factor of four and a rounding with each. -/
theorem products_le {w : Int} (hw : Unit28 w) {pairs : List Int} (hp : ∀ v ∈ pairs, Unit28 v)
    (hlength : pairs.length = count) :
    |(products w pairs (2 ^ 27, 2 ^ 27)).1| ≤ 2 ^ 37 + 341 ∧
      |(products w pairs (2 ^ 27, 2 ^ 27)).2| ≤ 2 ^ 37 + 341 := by
  obtain ⟨a, b, c, d, e, f, g, h, i, j, rfl⟩ : ∃ a b c d e f g h i j,
      pairs = [a, b, c, d, e, f, g, h, i, j] := by
    match pairs, hlength with
    | [a, b, c, d, e, f, g, h, i, j], _ => exact ⟨a, b, c, d, e, f, g, h, i, j, rfl⟩
  have step : ∀ v ∈ [a, b, c, d, e, f, g, h, i, j], ∀ p A : Int, |p| ≤ A → A ≤ 2 ^ 60 →
      |mulQ28 p (w - v)| ≤ 4 * A + 1 :=
    fun v hv p A hpA hA => mulQ28_le hpA (distance_le hw (hp v hv)) hA
  have start : |(2 ^ 27 : Int)| ≤ 2 ^ 27 := by decide
  have first := step a (by simp) _ _ start (by decide)
  have third := step c (by simp) _ _ first (by decide)
  have fifth := step e (by simp) _ _ third (by decide)
  have seventh := step g (by simp) _ _ fifth (by decide)
  have ninth := step i (by simp) _ _ seventh (by decide)
  have second := step b (by simp) _ _ start (by decide)
  have fourth := step d (by simp) _ _ second (by decide)
  have sixth := step f (by simp) _ _ fourth (by decide)
  have eighth := step h (by simp) _ _ sixth (by decide)
  have tenth := step j (by simp) _ _ eighth (by decide)
  exact ⟨le_trans ninth (by decide), le_trans tenth (by decide)⟩

theorem mulQ28_square_le {p : Int} (hp : |p| ≤ 2 ^ 37 + 341) : |mulQ28 p p| ≤ 2 ^ 47 := by
  have product : |p * p| ≤ (2 ^ 37 + 341) * (2 ^ 37 + 341) := by
    rw [abs_mul]
    exact mul_le_mul hp hp (abs_nonneg p) (by decide)
  have ⟨low, high⟩ := abs_le.mp product
  have wrap : mulQ28 p p = p * p / 2 ^ 28 := by
    unfold mulQ28 wrap64
    exact Int.bmod_eq_of_le (by omega) (by omega)
  rw [wrap, abs_le]
  constructor <;> omega

theorem power_le {w : Int} (hw : Unit28 w) {pairs : List Int} (hp : ∀ v ∈ pairs, Unit28 v)
    (hlength : pairs.length = count) : |power pairs w| ≤ 2 ^ 51 := by
  have ⟨he, ho⟩ := products_le hw hp hlength
  have two : Unit28 (2 ^ 29) := by unfold Unit28; decide
  have minusTwo : Unit28 (-2 ^ 29) := by unfold Unit28; decide
  have low := mulQ28_le (mulQ28_square_le ho) (distance_le two hw) (by decide)
  have high := mulQ28_le (mulQ28_square_le he) (distance_le hw minusTwo) (by decide)
  rw [sub_neg_eq_add, add_comm w] at high
  calc |power pairs w| ≤ _ + _ := abs_add_le _ _
    _ ≤ (4 * 2 ^ 47 + 1) + (4 * 2 ^ 47 + 1) := add_le_add low high
    _ ≤ 2 ^ 51 := by decide

theorem Gives.response {w : Int} (hw : Unit28 w) {pairs : List Int} (hp : ∀ v ∈ pairs, Unit28 v)
    (hlength : pairs.length = count) : Gives (response pairs w) (Gain.Within 256) := by
  have ⟨low, high⟩ := abs_le.mp (power_le hw hp hlength)
  refine .bind (.int64 (Q := fun p => p = power pairs w) ?_ rfl) fun p hp => ?_
  · unfold FitsInt64; omega
  subst hp
  exact (Gain.Within.ofFraction (by omega) (by decide)).checkedInvFourthRoot (by decide)

theorem within_foldl_max {n : Nat} {values : Array Gain} (h : ∀ g ∈ values, g.Within n) :
    (values.foldl Gain.max .zero).Within n := by
  rw [← Array.foldl_toList]
  refine List.foldlRecOn (motive := Gain.Within n) _ _ Gain.Within.zero fun b hb a ha => ?_
  exact hb.max (h a (by simpa using ha))

section

variable {cosines : Array Int} {pairs : List Int} {buffer : Array Gain}

theorem Gives.curve (hcos : ∀ w ∈ cosines, Unit28 w) (hp : ∀ v ∈ pairs, Unit28 v)
    (hlength : pairs.length = count) (hsize : buffer.size ≤ cosines.size) :
    Gives (curve cosines pairs buffer) fun (peak, part) =>
      peak.Within 256 ∧ part.size = buffer.size ∧ ∀ g ∈ part, g.Within 256 := by
  have size : (cosines.extract 0 buffer.size).size = buffer.size := by
    rw [Array.size_extract]; omega
  refine (Gives.arrayMapM (Q := Gain.Within 256) _ fun w hw => ?_).bind fun values hvalues => ?_
  · exact Gives.response (hcos w (Buffer.mem_extract hw)) hp hlength
  refine .pure ⟨within_foldl_max hvalues.2, ?_, fun g hg => ?_⟩
  · rw [Buffer.size_overlay (by omega)]
  · rw [Buffer.overlay_of_size_le (by omega)] at hg
    exact hvalues.2 g hg

theorem Gives.ratio {peakRecip value : Gain} (hr : peakRecip.Within 320) (hv : value.Within 256) :
    Gives (ratio peakRecip value) (·.toNat < 2 ^ 31) := by
  refine (hv.checkedMul hr (by decide)).bind fun g hg => ?_
  refine (hg.checkedApply (by decide)).bind fun x _ => .pure ?_
  have high := x.toInt_lt
  have fits : x.toInt.toNat < UInt32.size := by
    show x.toInt.toNat < 2 ^ 32
    omega
  rw [UInt32.toNat_ofNat_of_lt' fits]
  omega

theorem Gives.ratios {length : Nat} (hcos : ∀ w ∈ cosines, Unit28 w) (hp : ∀ v ∈ pairs, Unit28 v)
    (hcount : pairs.length = count) (hlength : length ≤ cosines.size)
    (hbuffer : length ≤ buffer.size) :
    Gives (ratios cosines pairs buffer length) fun (ratios, curve) =>
      (ratios.size = length ∧ ∀ e ∈ ratios, e.toNat < 2 ^ 31) ∧ curve.size = buffer.size := by
  have size : (buffer.extract 0 (0 + length)).size = length := by
    rw [Array.size_extract]; omega
  refine .bind (.slice (Q := fun b => b = buffer.extract 0 (0 + length)) (by omega) rfl)
    fun b hb => ?_
  subst hb
  refine (Gives.curve hcos hp hcount (by omega)).bind fun (peak, part) ⟨hpeak, hpart, hall⟩ => ?_
  refine (hpeak.checkedRecip (by decide)).bind fun peakRecip hr => ?_
  refine (Wma.Gives.arrayMapM part fun g hg => Gives.ratio hr (hall g hg)).bind fun out hout => ?_
  refine .pure ⟨⟨by omega, hout.2⟩, ?_⟩
  rw [Buffer.size_overlay (by omega)]

end

theorem size_of_curve {cosines : Array Int} {pairs : List Int} {buffer : Array Gain}
    {x : Gain × Array Gain} (h : curve cosines pairs buffer = .ok x) : x.2.size = buffer.size := by
  obtain ⟨values, hvalues, h⟩ := ok_of_bind h
  cases h
  have size := size_of_mapM hvalues
  rw [Array.size_extract] at size
  exact Buffer.size_overlay (by omega)

/-- An envelope has a ratio for each bin. -/
theorem size_of_ratios {cosines : Array Int} {pairs : List Int} {buffer curve : Array Gain}
    {length : Nat} {out : Array UInt32}
    (h : ratios cosines pairs buffer length = .ok (out, curve)) : out.size = length := by
  obtain ⟨whole, hwhole, h⟩ := ok_of_bind h
  obtain ⟨⟨peak, part⟩, hpart, h⟩ := ok_of_bind h
  obtain ⟨recip, -, h⟩ := ok_of_bind h
  obtain ⟨values, hvalues, h⟩ := ok_of_bind h
  cases h
  rw [size_of_mapM hvalues, size_of_curve hpart, Buffer.size_of_slice hwhole]

/-! ### Reading the pairs -/

theorem unit_linePairLevels : ∀ row ∈ linePairLevels, ∀ v ∈ row, |v| ≤ 2 ^ 29 := by decide

theorem size_linePairLevels : ∀ row ∈ linePairLevels, row.size = 16 := by decide

variable {σ : Type} {I : σ → Prop}

theorem triple_readOne {i : Nat} (hi : i < count) :
    Parse.Triple I I (readOne i) fun v s => Unit28 v ∧ I s := by
  refine .bind (R := fun index s => index < 16 ∧ I s) (.read (fun _ h => h) ?_) fun index => ?_
  · intro index s hindex hs
    refine ⟨lt_of_lt_of_le hindex ?_, hs⟩
    unfold indexBits
    split <;> decide
  · refine .of_fact (fun _ h => h.1) fun hindex => .ofExcept fun s hs => ?_
    refine .bind (.lookup (Q := fun row => row.size = 16 ∧ ∀ v ∈ row, Unit28 v) hi fun row hrow =>
      ⟨size_linePairLevels row hrow, unit_linePairLevels row hrow⟩) fun row hrow => ?_
    exact .lookup (by omega) fun v hv => ⟨hrow.2 v hv, hs.2⟩

theorem triple_read : Parse.Triple I I read fun pairs s =>
    (pairs.length = count ∧ ∀ v ∈ pairs, Unit28 v) ∧ I s := by
  refine (Parse.Triple.mapM (P := Unit28) (List.range count) fun i hi => ?_).post fun pairs s h => ?_
  · exact triple_readOne (List.mem_range.mp hi)
  · rwa [List.length_range] at h

end LinePairs

end Wma
