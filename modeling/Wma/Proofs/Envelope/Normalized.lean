import Wma.Proofs.Bands.Layout
import Wma.Proofs.Bits.List
import Wma.Proofs.Fixed.Order

/-!
# Envelopes from line spectral pairs are divided by their peak

The ratios that an envelope is made of have the order of the curve, and the greatest of them is one,
up to the rounding of a reciprocal and of a product (`LinePairs.isNormalized_map`). This holds for
every reading of pairs and every block length, whatever an earlier block has left in the buffer
(`LinePairs.isNormalized_ratios`).
-/

namespace Wma

namespace LinePairs

/-- Ratios with 30 fractional bits of which the greatest is one, up to a few units, and that have
the order of a curve. -/
structure IsNormalized (curve : Array Gain) (ratios : Array UInt32) : Prop where
  size_eq : ratios.size = curve.size
  peak : ∃ top ∈ ratios, |(top.toNat : Int) - 2 ^ 30| ≤ 16 ∧ ∀ e ∈ ratios, e ≤ top
  order : ∀ (i j : Nat) (hi : i < curve.size) (hj : j < curve.size), curve[i].AtMost curve[j] →
    ratios[i] ≤ ratios[j]

/-- A value as a ratio of the peak. -/
def ratioTo (peakRecip value : Gain) : UInt32 :=
  UInt32.ofNat ((value.mul peakRecip).apply (2 ^ 30) 0).toInt.toNat

/-- The highest factor of a curve. -/
def peakOf (curve : Array Gain) : Gain :=
  curve.foldl Gain.max .zero

variable {curve : Array Gain} {peakRecip g h : Gain} {n m : Nat}

theorem toNat_ratioTo (peakRecip value : Gain) : (ratioTo peakRecip value).toNat =
    ((value.mul peakRecip).apply (2 ^ 30) 0).toInt.toNat := by
  have high := ((value.mul peakRecip).apply (2 ^ 30) 0).toInt_lt
  exact UInt32.toNat_ofNat_of_lt' (show _ < 2 ^ 32 by omega)

theorem ratio_eq_ok (hr : peakRecip.Within 320) (hg : g.Within 256) :
    ratio peakRecip g = .ok (ratioTo peakRecip g) := by
  have product := hg.checkedMul_eq hr (by decide)
  have places := (hg.mul hr).fits_places (f := 0) (by decide)
  exact bind_eq_ok product (bind_eq_ok (Gain.checkedApply_eq_ok (by decide) places) rfl)

/-- Ratios have the order of the curve. -/
theorem ratioTo_mono (hgh : g.AtMost h) (hg : g.Within 256) (hh : h.Within 256)
    (hr : peakRecip.Within 320) : ratioTo peakRecip g ≤ ratioTo peakRecip h := by
  have le := (hgh.mul hg hh hr).apply_le (v := 2 ^ 30) (hg.mul hr) (hh.mul hr) (by decide)
    (by decide) (by decide)
  rw [UInt32.le_iff_toNat_le, toNat_ratioTo, toNat_ratioTo]
  omega

/-- The ratio of the peak is one, up to the roundings. -/
theorem abs_ratioTo_peak_sub_le (hg : g.Within 256) (hz : g.mantissa ≠ 0) :
    |((ratioTo g.recip g).toNat : Int) - 2 ^ 30| ≤ 16 := by
  have near := Gain.abs_value_mul_recip_sub_le hg hg.recip hz
  have word := Gain.apply_zero_eq (v := 2 ^ 30) (hg.mul hg.recip) (by decide) (by decide)
  have low : 2 ^ 30 - 16 ≤ ⌊((2 ^ 30 : Int) : ℚ) * (g.mul g.recip).value⌋ := by
    rw [Int.le_floor]
    push_cast
    linarith [(abs_le.mp near).1]
  have high : ⌊((2 ^ 30 : Int) : ℚ) * (g.mul g.recip).value⌋ < 2 ^ 30 + 16 := by
    rw [Int.floor_lt]
    push_cast
    linarith [(abs_le.mp near).2]
  rw [toNat_ratioTo, word, toInt_saturate, abs_le]
  omega

/-- A curve that is divided by its peak. -/
theorem isNormalized_map (hsize : 0 < curve.size) (hcurve : ∀ g ∈ curve, g.Within 256 ∧
    g.mantissa ≠ 0) : IsNormalized curve (curve.map (ratioTo (peakOf curve).recip)) := by
  obtain ⟨-, all, member⟩ := Gain.foldl_max curve.toList .zero
  rw [Array.foldl_toList] at all member
  change ∀ h ∈ curve.toList, h.AtMost (peakOf curve) at all
  change peakOf curve = _ ∨ peakOf curve ∈ _ at member
  have peak : peakOf curve ∈ curve := by
    rcases member with zero | member
    · -- Some value of the curve is not zero.
      have first : curve[0] ∈ curve := Array.getElem_mem hsize
      have below := all curve[0] (by simp)
      rw [zero, Gain.atMost_iff] at below
      rcases below with below | ⟨below, -⟩
      · exact absurd below (hcurve _ first).2
      · exact absurd rfl below
    · simpa using member
  obtain ⟨within, nonzero⟩ := hcurve _ peak
  have hr : (peakOf curve).recip.Within 320 := within.recip
  refine ⟨Array.size_map .., ⟨_, Array.mem_map_of_mem peak, abs_ratioTo_peak_sub_le within nonzero,
    fun e he => ?_⟩, fun i j hi hj hij => ?_⟩
  · obtain ⟨g, hg, rfl⟩ := Array.mem_map.mp he
    exact ratioTo_mono (all g (by simpa using hg)) (hcurve g hg).1 within hr
  · rw [Array.getElem_map, Array.getElem_map]
    exact ratioTo_mono hij (hcurve _ (Array.getElem_mem hi)).1 (hcurve _ (Array.getElem_mem hj)).1 hr

/-- No value of a curve is zero. -/
theorem within_of_response {w : Int} (hw : Unit28 w) {pairs : List Int}
    (hp : ∀ v ∈ pairs, Unit28 v) (hlength : pairs.length = count) :
    Gives (response pairs w) fun g => g.Within 256 ∧ g.mantissa ≠ 0 := by
  obtain ⟨g, hg, within⟩ := Gives.response hw hp hlength
  refine ⟨g, hg, within, ?_⟩
  have ⟨low, high⟩ := abs_le.mp (power_le hw hp hlength)
  obtain ⟨p, hpower, hg⟩ := ok_of_bind hg
  rw [eq_of_int64 hpower] at hg
  have start : (Gain.ofFraction (power pairs w).toNat 28).Within 64 :=
    .ofFraction (by omega) (by decide)
  cases (start.checkedInvFourthRoot_eq (by decide)).symm.trans hg
  exact Gain.mantissa_recip_ne_zero start.sqrt.sqrt

/-- The values of `curve` are those of the response at the first frequencies. -/
def Follows (cosines : Array Int) (pairs : List Int) (curve : Array Gain) : Prop :=
  ∀ i < curve.size, ∃ w g, cosines[i]? = some w ∧ curve[i]? = some g ∧ response pairs w = .ok g

section

variable {cosines : Array Int} {pairs : List Int} {buffer : Array Gain} {length : Nat}

theorem exists_curve (hcos : ∀ w ∈ cosines, Unit28 w) (hp : ∀ v ∈ pairs, Unit28 v)
    (hcount : pairs.length = count) (hlength : length ≤ cosines.size) :
    ∃ curve, (cosines.extract 0 length).mapM (response pairs) = .ok curve ∧
      curve.size = length ∧ Follows cosines pairs curve ∧
      ∀ g ∈ curve, g.Within 256 ∧ g.mantissa ≠ 0 := by
  obtain ⟨curve, hcurve, size, within⟩ := Gives.arrayMapM (cosines.extract 0 length) fun w hw =>
    within_of_response (hcos w (Buffer.mem_extract hw)) hp hcount
  rw [Array.size_extract] at size
  refine ⟨curve, hcurve, by omega, fun i hi => ?_, within⟩
  have frequency : (cosines.extract 0 length)[i]? = some cosines[i] := by
    rw [Array.getElem?_extract, if_pos (by omega), Nat.zero_add,
      Array.getElem?_eq_getElem (by omega)]
  obtain ⟨g, hg, response⟩ :=
    getElem?_of_mapM (toList_of_mapM hcurve) (Array.getElem?_toList.trans frequency)
  rw [Array.getElem?_toList] at hg
  exact ⟨_, g, Array.getElem?_eq_getElem (by omega), hg, response⟩

/-- The curve of a block is worked out anew, and divided by its peak. -/
theorem ratios_eq_ok (hcos : ∀ w ∈ cosines, Unit28 w) (hp : ∀ v ∈ pairs, Unit28 v)
    (hcount : pairs.length = count) (hlength : length ≤ cosines.size) (hpos : 0 < length)
    (hbuffer : length ≤ buffer.size) :
    ∃ curve out, ratios cosines pairs buffer length = .ok (out, Buffer.overlay buffer curve) ∧
      curve.size = length ∧ Follows cosines pairs curve ∧ IsNormalized curve out := by
  obtain ⟨curve, hcurve, size, follows, within⟩ := exists_curve hcos hp hcount hlength
  have normalized := isNormalized_map (by omega) within
  have part : (buffer.extract 0 (0 + length)).size = length := by
    rw [Array.size_extract]
    omega
  have slice : Buffer.slice buffer 0 length = .ok (buffer.extract 0 (0 + length)) :=
    if_pos (by omega)
  have whole : LinePairs.curve cosines pairs (buffer.extract 0 (0 + length)) =
      .ok (peakOf curve, curve) := by
    rw [LinePairs.curve, part, hcurve]
    show Except.ok (peakOf curve, Buffer.overlay (buffer.extract 0 (0 + length)) curve) = _
    rw [Buffer.overlay_of_size_le (by omega)]
  have peak : (peakOf curve).Within 256 := within_foldl_max fun g hg => (within g hg).1
  have recip := peak.checkedRecip_eq (by decide)
  have divided := arrayMapM_eq_ok fun g hg => ratio_eq_ok peak.recip (within g hg).1
  refine ⟨curve, _, ?_, size, follows, normalized⟩
  exact bind_eq_ok slice (bind_eq_ok whole (bind_eq_ok recip (bind_eq_ok divided rfl)))

end

/-! ### Reading the pairs -/

section

variable {σ : Type}

theorem wp_readOne {s : Scan σ} {i : Nat} (hi : i < count) (hleft : indexBits i ≤ s.reader.left) :
    (readOne i).wp (fun v t => Unit28 v ∧ s.reader.Moved (indexBits i) t.reader ∧ t.state = s.state)
      (fun _ _ => False) s := by
  have width : indexBits i ≤ 32 ∧ 2 ^ indexBits i ≤ 16 := by
    unfold indexBits
    split <;> decide
  unfold readOne
  rw [Parse.wp_bind]
  refine Parse.wp_read_of_le width.1 hleft fun q hm => ?_
  have fits : Bits.value (s.reader.remaining.take (indexBits i)) < 16 := by
    have low := Bits.value_lt (s.reader.remaining.take (indexBits i))
    have short : 2 ^ (s.reader.remaining.take (indexBits i)).length ≤ 2 ^ indexBits i :=
      Nat.pow_le_pow_right (by decide) (List.length_take_le ..)
    omega
  generalize Bits.value (s.reader.remaining.take (indexBits i)) = index at fits ⊢
  obtain ⟨v, hv, unit⟩ : Gives (do Buffer.lookup (← Buffer.lookup linePairLevels i) index) Unit28 :=
    (Gives.lookup (Q := (· ∈ linePairLevels)) hi fun _ h => h).bind fun row hrow =>
      .lookup (by rwa [size_linePairLevels row hrow]) (unit_linePairLevels row hrow)
  rw [hv]
  exact ⟨unit, hm, rfl⟩

theorem wp_mapM_readOne : ∀ {l : List Nat} {s : Scan σ}, (∀ i ∈ l, i < count) →
    (l.map indexBits).sum ≤ s.reader.left →
      (l.mapM readOne).wp (fun pairs t => (pairs.length = l.length ∧ ∀ v ∈ pairs, Unit28 v) ∧
        s.reader.Moved (l.map indexBits).sum t.reader ∧ t.state = s.state) (fun _ _ => False) s
  | [], _, _, _ => ⟨⟨rfl, by simp⟩, ⟨rfl, rfl, rfl⟩, rfl⟩
  | i :: l, s, hl, hleft => by
    rw [List.map_cons, List.sum_cons] at hleft
    rw [List.mapM_cons, Parse.wp_bind]
    refine Parse.wp_mono (wp_readOne (hl i List.mem_cons_self) (by omega)) ?_ fun _ _ h => h
    rintro v t ⟨unit, moved, state⟩
    have left := moved.left
    rw [Parse.wp_bind]
    refine Parse.wp_mono (wp_mapM_readOne (fun j hj => hl j (List.mem_cons_of_mem _ hj))
      (by omega)) ?_ fun _ _ h => h
    rintro pairs u ⟨⟨length, units⟩, moved', state'⟩
    refine ⟨⟨congrArg (· + 1) length, fun v' hv' => ?_⟩, moved.trans moved', state'.trans state⟩
    rcases List.mem_cons.mp hv' with rfl | hv'
    · exact unit
    · exact units v' hv'

/-- Enough bits give pairs. -/
theorem exists_read {s : Scan σ} (h : 37 ≤ s.reader.left) : ∃ pairs t,
    read s = .ok pairs t ∧ (pairs.length = count ∧ ∀ v ∈ pairs, Unit28 v) ∧
      s.reader.Moved 37 t.reader ∧ t.state = s.state := by
  refine Parse.exists_of_wp (Parse.wp_mono (wp_mapM_readOne (l := List.range count) ?_ h)
    (fun pairs t ht => ?_) fun _ _ h => h)
  · exact fun i hi => List.mem_range.mp hi
  · rwa [List.length_range] at ht

end

/-- Wherever there are bits for the pairs, an envelope comes out, for every block that is not longer
than a frame. Its ratios are those of the responses at the frequencies of the block, divided by their
peak, whatever the buffer holds: the greatest one is one up to a few units, and they have the order
of the responses. -/
theorem isNormalized_ratios {σ : Type} {s : Scan σ} {frameLength length : Nat}
    {buffer : Array Gain} (hbits : 37 ≤ s.reader.left) (hpos : 0 < length)
    (hlength : length ≤ frameLength) (hbuffer : length ≤ buffer.size) :
    ∃ pairs t curve out, read s = .ok pairs t ∧ s.reader.Moved 37 t.reader ∧ t.state = s.state ∧
      ratios (BandLayout.cosines frameLength) pairs buffer length =
        .ok (out, Buffer.overlay buffer curve) ∧
      curve.size = length ∧ Follows (BandLayout.cosines frameLength) pairs curve ∧
      IsNormalized curve out := by
  obtain ⟨pairs, t, hread, ⟨hcount, units⟩, moved, state⟩ := exists_read hbits
  have size : (BandLayout.cosines frameLength).size = frameLength := Array.size_ofFn
  obtain ⟨curve, out, hratios, hsize, follows, normalized⟩ :=
    ratios_eq_ok (BandLayout.unit_cosines frameLength) units hcount (by omega) hpos hbuffer
  exact ⟨pairs, t, curve, out, hread, moved, state, hratios, hsize, follows, normalized⟩

/-- Two of four frequencies, over what an earlier block has left. -/
theorem isNormalized_ratios_zeros :
    let s : Scan Unit := ⟨.ofBytes (Array.replicate 5 0), ()⟩
    let buffer : Array Gain := #[.greatest, .one, .zero]
    37 ≤ s.reader.left ∧ 2 ≤ buffer.size ∧
      ∃ pairs t curve out, read s = .ok pairs t ∧ s.reader.Moved 37 t.reader ∧
        t.state = s.state ∧
        ratios (BandLayout.cosines 4) pairs buffer 2 = .ok (out, Buffer.overlay buffer curve) ∧
        curve.size = 2 ∧ Follows (BandLayout.cosines 4) pairs curve ∧ IsNormalized curve out :=
  ⟨by decide, by decide, isNormalized_ratios (by decide) (by decide) (by decide) (by decide)⟩

end LinePairs

end Wma
