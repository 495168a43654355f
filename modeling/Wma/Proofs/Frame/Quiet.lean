import Wma.Proofs.Fixed.Apply
import Wma.Proofs.Frame.Places

/-!
# Noise that is not heard

Where the samples of the noise are zero and no high band holds noise, a block with noise has the
levels of one without (`FrameState.dequantize_of_quiet`): noise takes sixteen more fractional bits,
which are then all zero.

The two plans look up the envelope at different places. With noise, the coefficient at bin `i` is
scaled by the entry of bin `i`. Without noise, the first coded coefficient is scaled by the first
entry, whatever bin it is at; so the envelopes have to be apart by the bins in front of it. In the
second version of the format there are none, and the envelopes are the same.
-/

namespace Wma

/-! ### Silent noise -/

namespace Noise

/-- All samples are zero. -/
structure Quiet (n : Noise) : Prop where
  size : n.table.size = period
  silent : ∀ x ∈ n.table, x = 0

theorem Quiet.sound {n : Noise} (h : n.Quiet) : n.Sound :=
  ⟨h.size, fun x hx => by simp [h.silent x hx]⟩

theorem Quiet.ahead_eq {n : Noise} (h : n.Quiet) (i : Nat) : n.ahead i = 0 := by
  have inside : (n.index + i) % period < n.table.size := by
    rw [h.size]
    exact Nat.mod_lt _ (by decide)
  unfold ahead
  rw [← Array.getElem_eq_getD (h := inside)]
  exact h.silent _ (Array.getElem_mem inside)

/-- The noise is silent if its amplitude is divided by a large number. -/
theorem quiet_ofDivisor {divisor : Nat} (h : 113510 < divisor) : (ofDivisor divisor).Quiet := by
  have root : isqrt32 (3 * 2 ^ 30) = 56755 := by decide +kernel
  have none : amplitude divisor = 0 := by
    unfold amplitude
    rw [root]
    exact Nat.div_eq_of_lt (by omega)
  refine ⟨(sound_ofDivisor divisor).size, fun x hx => ?_⟩
  simp only [ofDivisor, List.mem_toArray, List.mem_map] at hx
  obtain ⟨seed, -, rfl⟩ := hx
  simp [sampleOf, none]

end Noise

namespace Scaling

variable {s : Scaling} {c : Config} {bits envelopeSize : Nat} {noise : NoiseBands}

/-! ### Bins of a longer block -/

/-- In the envelope of a longer block, a coefficient takes a whole number of entries. -/
theorem bin_eq (he : envelopeSize ≤ s.sizeIndex) {i : Nat} (hi : i * 2 ^ s.sizeIndex < 2 ^ 64) :
    s.bin envelopeSize i = i * 2 ^ (s.sizeIndex - envelopeSize) := by
  have parts : 2 ^ s.sizeIndex = 2 ^ (s.sizeIndex - envelopeSize) * 2 ^ envelopeSize := by
    rw [← Nat.pow_add, Nat.sub_add_cancel he]
  rw [bin_of_lt hi, parts, ← Nat.mul_assoc, Nat.mul_div_cancel _ (Nat.two_pow_pos _)]

theorem bin_add (he : envelopeSize ≤ s.sizeIndex) {i j : Nat}
    (h : (i + j) * 2 ^ s.sizeIndex < 2 ^ 64) :
    s.bin envelopeSize i + s.bin envelopeSize j = s.bin envelopeSize (i + j) := by
  have first : i * 2 ^ s.sizeIndex ≤ (i + j) * 2 ^ s.sizeIndex := Nat.mul_le_mul_right _ (by omega)
  have second : j * 2 ^ s.sizeIndex ≤ (i + j) * 2 ^ s.sizeIndex := Nat.mul_le_mul_right _ (by omega)
  rw [bin_eq he (by omega), bin_eq he (by omega), bin_eq he h, Nat.add_mul]

/-! ### Plans without noise bands -/

/-- Segments that all have levels are one stretch. -/
theorem noisyPlanFrom_of_band_eq_none (he : envelopeSize ≤ s.sizeIndex) :
    ∀ {segments : List Segment} (level start room : Nat), (∀ x ∈ segments, x.band = none) →
      (segments.map Segment.width).sum ≤ room → (start + room) * 2 ^ s.sizeIndex < 2 ^ 64 →
      ∃ last, s.noisyPlanFrom envelopeSize segments level (s.bin envelopeSize start) room =
        (List.range (segments.map Segment.width).sum).map
            (fun i => .noisyLevel (level + i) (s.bin envelopeSize (start + i))) ++
          List.replicate (room - (segments.map Segment.width).sum) (.noise last)
  | [], level, start, room, _, _, _ => by
    refine ⟨(wrap64 (s.bin envelopeSize start) +
      -(2 ^ s.sizeIndex : Int) / 2 ^ envelopeSize).toNat, ?_⟩
    simp only [noisyPlanFrom, List.map_nil, List.sum_nil, List.range_zero, List.nil_append,
      Nat.sub_zero]
  | ⟨width, band⟩ :: segments, level, start, room, hband, hwidth, hroom => by
    obtain rfl : band = none := hband ⟨width, band⟩ List.mem_cons_self
    simp only [List.map_cons, List.sum_cons] at hwidth ⊢
    have fits : min width room = width := by omega
    have near : ∀ i ≤ width, (start + i) * 2 ^ s.sizeIndex < 2 ^ 64 := fun i hi =>
      Nat.lt_of_le_of_lt (Nat.mul_le_mul_right _ (by omega)) hroom
    obtain ⟨last, rest⟩ := noisyPlanFrom_of_band_eq_none he
      (level + width) (start + width) (room - width)
      (fun x hx => hband x (List.mem_cons_of_mem _ hx)) (by omega)
      (Nat.lt_of_le_of_lt (Nat.mul_le_mul_right _ (by omega)) hroom)
    refine ⟨last, ?_⟩
    simp only [noisyPlanFrom, fits]
    rw [bin_add he (near width (Nat.le_refl _)), rest, List.range_add, List.map_append,
      List.map_map, List.append_assoc, Nat.sub_sub]
    congr 1
    · refine List.map_congr_left fun i hi => ?_
      rw [bin_add he (near i (Nat.le_of_lt (List.mem_range.mp hi)))]
    · congr 1
      refine List.map_congr_left fun i _ => ?_
      simp only [Function.comp_apply, Nat.add_assoc]

/-- A block that has noise in none of its high bands. -/
theorem noisyPlan_of_holds_eq_false (hs : s.Sound c bits) (ht : s.Tiled) (hn : s.noise = true)
    (he : envelopeSize ≤ s.sizeIndex) (hroom : s.bands.length * 2 ^ s.sizeIndex < 2 ^ 64)
    (hheld : ∀ j, noise.holds j = false) :
    ∃ last, s.noisyPlan envelopeSize noise =
      .ok ((List.range s.coefsStart).map (fun i => .noise (s.bin envelopeSize i)) ++
        ((List.range (s.bands.coefsEnd - s.coefsStart)).map
            (fun i => .noisyLevel i (s.bin envelopeSize (s.coefsStart + i))) ++
          List.replicate (s.bands.length - s.bands.coefsEnd) (.noise last))) := by
  have low := ht.start_le
  have high := ht.end_le
  have sum : ((s.segments noise).map Segment.width).sum = s.bands.coefsEnd - s.coefsStart :=
    sum_segments ht hn
  have quiet : ∀ x ∈ s.segments noise, x.band = none := by
    intro x hx
    rcases List.mem_cons.mp hx with rfl | hx
    · rfl
    · obtain ⟨⟨width, j⟩, -, rfl⟩ := List.mem_map.mp hx
      simp [hheld]
  obtain ⟨last, plan⟩ := noisyPlanFrom_of_band_eq_none he 0 s.coefsStart
    (s.bands.length - s.coefsStart) quiet (by omega)
    (by rwa [Nat.add_sub_cancel' (by omega)])
  have index := hs.sizeIndex_lt
  refine ⟨last, ?_⟩
  rw [noisyPlan_eq_ok hs (by omega), plan, sum, Nat.sub_sub_sub_cancel_right low]
  simp only [Nat.zero_add]

/-- Only the bands that hold noise are looked at. -/
theorem dequantize_of_holds_eq_false (s : Scaling) (levels : Array Int32) (envelope : Array UInt32)
    (envelopeSize : Nat) (hheld : ∀ j, noise.holds j = false) (samples : Noise)
    (buffer : Array Int32) :
    s.dequantize levels envelope envelopeSize noise samples buffer =
      s.dequantize levels envelope envelopeSize .none samples buffer := by
  have held : noise.holds = NoiseBands.none.holds := funext fun j => by rw [hheld]; rfl
  have none : ∀ j, NoiseBands.none.holds j = false := fun _ => rfl
  have segments : s.segments noise = s.segments .none := by
    unfold Scaling.segments
    rw [held]
  have powers : ∀ widths j base, s.bandPowers envelope envelopeSize noise widths j base =
      s.bandPowers envelope envelopeSize .none widths j base := by
    intro widths
    induction widths with
    | nil => intro j base; rfl
    | cons width widths ih =>
      intro j base
      simp only [bandPowers, ih, held]
  have gains : s.bandGains envelope envelopeSize noise =
      s.bandGains envelope envelopeSize .none := by
    unfold bandGains bandGain lastNoiseBand
    simp only [powers, held, none, Bool.false_eq_true, if_false]
  have plan : ∀ count, s.plan envelopeSize count noise = s.plan envelopeSize count .none := by
    intro count
    unfold Scaling.plan noisyPlan
    rw [segments]
  unfold dequantize
  rw [plan, gains]

/-! ### What the two plans place at a bin -/

variable {plan : List BinSource} {i : Nat}

/-- With noise, a level is scaled by the entry of its own bin. -/
theorem source_of_noisyPlan (hs : s.Sound c bits) (ht : s.Tiled) (hn : s.noise = true)
    (he : envelopeSize ≤ s.sizeIndex) (hroom : s.bands.length * 2 ^ s.sizeIndex < 2 ^ 64)
    (hheld : ∀ j, noise.holds j = false) (hplan : s.noisyPlan envelopeSize noise = .ok plan)
    (hi : i < s.bands.length) :
    (s.coefsStart ≤ i → i < s.bands.coefsEnd →
        plan[i]? = some (.noisyLevel (i - s.coefsStart) (s.bin envelopeSize i))) ∧
      (i < s.coefsStart ∨ s.bands.coefsEnd ≤ i → ∃ place, plan[i]? = some (.noise place)) := by
  have low := ht.start_le
  have high := ht.end_le
  obtain ⟨last, whole⟩ := noisyPlan_of_holds_eq_false hs ht hn he hroom hheld
  obtain rfl := Except.ok.inj (whole.symm.trans hplan)
  constructor
  · intro hstart hend
    rw [List.getElem?_append_right (by simpa using hstart),
      List.getElem?_append_left (by simp; omega)]
    have inside : i - s.coefsStart < s.bands.coefsEnd - s.coefsStart := by omega
    simp [List.getElem?_range inside, Nat.add_sub_cancel' hstart]
  · rintro (hbefore | hbehind)
    · refine ⟨s.bin envelopeSize i, ?_⟩
      rw [List.getElem?_append_left (by simpa using hbefore)]
      simp [List.getElem?_range hbefore]
    · refine ⟨last, ?_⟩
      rw [List.getElem?_append_right (by simp; omega), List.getElem?_append_right (by simp; omega)]
      refine List.getElem?_replicate_of_lt ?_
      simp
      omega

/-- Without noise, a level is scaled as if the first coded coefficient was at the first bin. -/
theorem source_of_plainPlan (hs : s.Sound c bits) (ht : s.Tiled) (he : envelopeSize < 64)
    {count : Nat} (hplan : s.plainPlan envelopeSize count = .ok plan) (hi : i < s.bands.length) :
    (s.coefsStart ≤ i → i < s.bands.coefsEnd → i < s.coefsStart + count →
        plan[i]? = some (.level (i - s.coefsStart) (s.bin envelopeSize (i - s.coefsStart)))) ∧
      (i < s.coefsStart ∨ s.bands.coefsEnd ≤ i → plan[i]? = some .silence) := by
  have low := ht.start_le
  have high := ht.end_le
  have coded : s.bands.coefsEnd - s.coefsStart =
      min (s.bands.coefsEnd - s.coefsStart) (s.bands.length - s.coefsStart) := by omega
  obtain rfl := Except.ok.inj ((plainPlan_eq_ok hs he coded count).symm.trans hplan)
  constructor
  · intro hstart hend hcount
    rw [List.getElem?_append_left (by simp; omega), List.getElem?_append_left (by simp; omega),
      List.getElem?_append_right (by simpa using hstart), List.length_replicate, List.getElem?_map,
      List.getElem?_range (by omega), Option.map_some]
  · rintro (hbefore | hbehind)
    · rw [List.getElem?_append_left (by simp; omega), List.getElem?_append_left (by simp; omega),
        List.getElem?_append_left (by simpa using hbefore)]
      exact List.getElem?_replicate_of_lt hbefore
    · rw [List.getElem?_append_right (by simp; omega)]
      refine List.getElem?_replicate_of_lt ?_
      simp
      omega

/-! ### Values without noise -/

namespace Sources

variable {x y : Sources} {g : Gain} {v : Int} {place place' : Nat}

theorem fits_product (hv : v.natAbs ≤ 2 ^ 30) (envelope : Array UInt32) (place : Nat) :
    FitsInt64 (v * entry envelope place) := by
  have product : (v * entry envelope place).natAbs ≤ 2 ^ 30 * (2 ^ 32 - 1) := by
    rw [Int.natAbs_mul, Int.natAbs_natCast]
    exact Nat.mul_le_mul hv (Nat.le_sub_one_of_lt (entry_lt envelope place))
  unfold FitsInt64
  omega

theorem scaled_eq_ok (hg : g.Within (2 ^ 20)) (hv : v.natAbs ≤ 2 ^ 30) (place : Nat)
    {fracBits : Nat} (hf : fracBits ≤ 16) : x.scaled g v place fracBits =
      .ok (g.apply (v * entry x.envelope place) (fracBits + 30)) := by
  unfold scaled
  rw [int64, if_pos (fits_product hv x.envelope place)]
  exact Gain.checkedApply_eq_ok (by omega) (hg.fits_places (by omega))

theorem scaled_zero (x : Sources) (hg : g.Within (2 ^ 20)) (place : Nat) {fracBits : Nat}
    (hf : fracBits ≤ 16) : x.scaled g 0 place fracBits = .ok 0 := by
  rw [scaled_eq_ok hg (by decide) place hf, Int.zero_mul, Gain.apply, if_pos (.inr rfl)]

/-- A level with sixteen bits of silent noise. -/
theorem scaled_noiseBits (hg : g.Within (2 ^ 20)) (hv : v.natAbs ≤ 2 ^ 13)
    (hentry : entry x.envelope place = entry y.envelope place') :
    x.scaled g (v * 2 ^ noiseBits) place noiseBits = y.scaled g v place' 0 := by
  have wide : (v * 2 ^ noiseBits).natAbs ≤ 2 ^ 30 := by
    unfold noiseBits
    omega
  have shifted : v * 2 ^ noiseBits * entry x.envelope place =
      v * entry y.envelope place' * 2 ^ noiseBits := by
    rw [hentry, Int.mul_right_comm]
  have fits := fits_product wide x.envelope place
  rw [scaled_eq_ok hg wide place (by decide), scaled_eq_ok hg (by omega) place' (by decide)]
  rw [shifted] at fits ⊢
  rw [Nat.zero_add, Nat.add_comm, Gain.apply_mul_two_pow hg fits (hg.fits_places (by decide))
    (hg.fits_places (by decide))]

/-- A level with silent noise has the value of the level alone. -/
theorem value_noisyLevel_of_quiet (hn : x.noise.Quiet) (hg : x.blockGain.Within (2 ^ 20))
    (hgain : y.blockGain = x.blockGain) {i j : Nat} (hlevel : y.level j = x.level j)
    (hsmall : (x.level j).natAbs ≤ 2 ^ 13)
    (hentry : entry x.envelope place = entry y.envelope place') :
    x.value i (.noisyLevel j place) = y.value i (.level j place') := by
  rw [value, value, hn.ahead_eq, Int.add_zero, scaled_noiseBits hg hsmall hentry, hgain, hlevel]

/-- Silent noise is silence. -/
theorem value_noise_of_quiet (hn : x.noise.Quiet) (hg : x.blockGain.Within (2 ^ 20)) (i : Nat) :
    x.value i (.noise place) = y.value i .silence := by
  rw [value, value, hn.ahead_eq, scaled_zero x hg place (by decide)]

end Sources

/-! ### Spectra without noise -/

/-- The same scaling, without noise. -/
def silenced (s : Scaling) : Scaling :=
  { s with noise := false }

variable {levels noisy plain buffer : Array Int32} {envelope : Array UInt32} {samples : Noise}
  {x y : Sources}

theorem entry_extract (envelope : Array UInt32) (start place : Nat) :
    entry (envelope.extract start envelope.size) place = entry envelope (start + place) := by
  unfold entry
  rw [Array.getD_eq_getD_getElem?, Array.getD_eq_getD_getElem?, Array.getElem?_extract]
  split
  · rfl
  · rw [Array.getElem?_eq_none (by omega)]

/-- Where two sources have the same value, so have the spectra. -/
theorem Dequantized.getElem?_eq_of_value {s' : Scaling} {envelope' : Array UInt32}
    {rest : List BinSource} {source source' : BinSource}
    (hx : s.Dequantized levels envelope envelopeSize noise samples buffer noisy plan x)
    (hy : s'.Dequantized levels envelope' envelopeSize noise samples buffer plain rest y)
    (hsource : plan[i]? = some source) (hsource' : rest[i]? = some source')
    (hvalue : x.value i source = y.value i source') : plain[i]? = noisy[i]? := by
  obtain ⟨a, ha, hvalue₁⟩ := hx.value i _ hsource
  obtain ⟨b, hb, hvalue₂⟩ := hy.value i _ hsource'
  rw [ha, hb, Except.ok.inj (hvalue₂.symm.trans (hvalue.symm.trans hvalue₁))]

/-- A coefficient has one value in both spectra, if its level is there. -/
theorem Dequantized.getElem?_eq (hs : s.Sound c bits) (ht : s.Tiled) (hn : s.noise = true)
    (he : envelopeSize ≤ s.sizeIndex) (hroom : s.bands.length * 2 ^ s.sizeIndex < 2 ^ 64)
    (hheld : ∀ j, noise.holds j = false) (hsamples : samples.Quiet)
    {size : Nat} (hlevels : Levels.Small size levels) {rest : List BinSource}
    (hx : s.Dequantized levels envelope envelopeSize noise samples buffer noisy plan x)
    (hy : s.silenced.Dequantized levels
      (envelope.extract (s.bin envelopeSize s.coefsStart) envelope.size) envelopeSize noise samples
      buffer plain rest y)
    (hi : i < s.coefsStart + levels.size ∨ s.bands.coefsEnd ≤ i) : plain[i]? = noisy[i]? := by
  have index := hs.sizeIndex_lt
  rcases Nat.lt_or_ge i s.bands.length with inside | behind
  swap
  · rw [hx.behind i behind]
    exact hy.behind i behind
  have quiet : x.noise.Quiet := hx.noise ▸ hsamples
  obtain ⟨g, hgain, hg⟩ := Gives.blockGain hs
  obtain rfl : g = x.blockGain := Except.ok.inj (hgain.symm.trans hx.blockGain)
  have gain : y.blockGain = x.blockGain := Except.ok.inj (hy.blockGain.symm.trans hx.blockGain)
  have noisyPlan : s.noisyPlan envelopeSize noise = .ok plan := by
    rw [← hx.plan_eq, Scaling.plan, if_pos hn]
  have plainPlan : s.plainPlan envelopeSize levels.size = .ok rest := hy.plan_eq
  obtain ⟨coded, uncoded⟩ := source_of_noisyPlan hs ht hn he hroom hheld noisyPlan inside
  obtain ⟨codedPlain, uncodedPlain⟩ := source_of_plainPlan hs ht (by omega) plainPlan inside
  by_cases hcoded : s.coefsStart ≤ i ∧ i < s.bands.coefsEnd
  · obtain ⟨hstart, hend⟩ := hcoded
    have small : (x.level (i - s.coefsStart)).natAbs ≤ 2 ^ 13 := by
      unfold Sources.level
      rw [hx.levels]
      exact hlevels.natAbs_getD_le _
    have level : y.level (i - s.coefsStart) = x.level (i - s.coefsStart) := by
      unfold Sources.level
      rw [hx.levels, hy.levels]
    have whole := bin_add he (i := s.coefsStart) (j := i - s.coefsStart) (by
      rw [Nat.add_sub_cancel' hstart]
      exact Nat.lt_of_le_of_lt (Nat.mul_le_mul_right _ inside.le) hroom)
    have entries : entry x.envelope (s.bin envelopeSize i) =
        entry y.envelope (s.bin envelopeSize (i - s.coefsStart)) := by
      rw [hx.envelope, hy.envelope, entry_extract, whole, Nat.add_sub_cancel' hstart]
    exact hx.getElem?_eq_of_value hy (coded hstart hend) (codedPlain hstart hend (by omega))
      (Sources.value_noisyLevel_of_quiet quiet hg gain level small entries)
  · have outside : i < s.coefsStart ∨ s.bands.coefsEnd ≤ i := by omega
    obtain ⟨place, hsource⟩ := uncoded outside
    exact hx.getElem?_eq_of_value hy hsource (uncodedPlain outside)
      (Sources.value_noise_of_quiet quiet hg i)

end Scaling

namespace FrameState

/-- What noise that is not heard leaves of a block. Where the samples of the noise are zero and no
high band holds noise, dequantization with noise gives each coefficient the value that it has
without noise, wherever there is a level for it.

But without noise, the first entry of the envelope belongs to the first coded coefficient, and not
to the first bin of the block. So the envelopes are apart by the entries of the bins before it; they
are the same in the second version of the format, which codes all bins. -/
theorem dequantize_of_quiet {s : Stream} {p : Params} (hconfig : Config.ofParams p = .ok s.config)
    (hlayout : s.layout = .ofConfig s.config) (hn : s.config.noiseCoding = true) {k : Nat}
    {bands : BlockBands} (hbands : s.layout.blocks[k]? = some bands) {gain : Int} {scaled : Scaling}
    (hscaled : scaled = scaling s (s.config.frameBits - k) k bands gain) {levels : Array Int32}
    (hlevels : ∀ x ∈ levels, -2 ^ 13 < x.toInt ∧ x.toInt < 2 ^ 13) (envelope : Array UInt32)
    {envelopeSize : Nat} (hsize : envelopeSize ≤ k) {noise : NoiseBands}
    (hnoise : ∀ j, noise.holds j = false) {samples : Noise} (hsamples : samples.Quiet)
    {buffer : Array Int32} (hbuffer : bands.length ≤ buffer.size) {later : Array UInt32}
    (hlater : later =
      envelope.extract (scaled.bin envelopeSize scaled.coefsStart) envelope.size) :
    ∃ noisy plain,
      scaled.dequantize levels envelope envelopeSize noise samples buffer =
        .ok (noisy, samples.advance bands.length) ∧
      { scaled with noise := false }.dequantize levels later envelopeSize noise samples buffer =
        .ok (plain, samples) ∧
      (∀ i, i < scaled.coefsStart + levels.size ∨ bands.coefsEnd ≤ i → plain[i]? = noisy[i]?) ∧
      (s.config.version = .v2 → later = envelope) := by
  subst hscaled hlater
  have hc := Config.sound_of_ofParams hconfig
  have tiled := tiled_scaling hc hlayout hbands (s.config.frameBits - k) gain
  have sound := sound_scaling_of_blocks hc hlayout hbands gain
  have sizes := hc.sizeCount_le_five
  have start : s.layout.coefsStart = BandLayout.firstCoef s.config.version :=
    congrArg BandLayout.coefsStart hlayout
  rw [hlayout] at hbands
  obtain ⟨hk, rfl⟩ := BandLayout.of_blocks_ofConfig hbands
  have soundPlain : (scaling s (s.config.frameBits - k) k (BandLayout.block s.config k)
      gain).silenced.Sound s.config (s.config.frameBits - k) :=
    ⟨sound.bands, sound.coefsStart_eq, sound.sizeIndex_lt, sound.norm, sound.noiseDivisor_lt⟩
  have room : (BandLayout.block s.config k).length * 2 ^ k < 2 ^ 64 := by
    rw [BandLayout.length_block_mul hc hk]
    exact Nat.lt_trans hc.frameLength_lt (by decide)
  have small : Levels.Small levels.size levels := ⟨rfl, hlevels⟩
  obtain ⟨⟨noisy, after⟩, hnoisy, ⟨plan, x, hx⟩, rfl⟩ := Scaling.Gives.dequantize sound small
    envelope (show envelopeSize < 64 by omega) NoiseBands.sound_none hsamples.sound hbuffer
  obtain ⟨⟨plain, after⟩, hplain, ⟨rest, y, hy⟩, rfl⟩ := Scaling.Gives.dequantize soundPlain small
    (envelope.extract ((scaling s (s.config.frameBits - k) k (BandLayout.block s.config k)
      gain).bin envelopeSize s.layout.coefsStart) envelope.size)
    (show envelopeSize < 64 by omega) NoiseBands.sound_none hsamples.sound hbuffer
  refine ⟨noisy, plain, ?_, ?_, fun i hi => ?_, fun hversion => ?_⟩
  · rw [Scaling.dequantize_of_holds_eq_false _ _ _ _ hnoise, hnoisy]
    exact congrArg (fun after => Except.ok (noisy, after)) (if_pos hn)
  · rw [Scaling.dequantize_of_holds_eq_false _ _ _ _ hnoise]
    exact hplain
  · exact hx.getElem?_eq sound tiled hn hsize room (fun _ => rfl) hsamples small hy hi
  · have none : s.layout.coefsStart = 0 := by
      rw [start, hversion]
      rfl
    show envelope.extract (s.layout.coefsStart * 2 ^ k % 2 ^ 64 / 2 ^ envelopeSize)
      envelope.size = _
    rw [none, Nat.zero_mul, Nat.zero_mod, Nat.zero_div, Array.extract_size]

end FrameState

/-- The parameters of a stream of the first version with noise. -/
def Params.whispering : Params :=
  ⟨8000, 1, 4000, 64, 0x160, #[0, 0, 1, 0]⟩

/-- The constants of a stream whose first coded coefficient is at bin 3. -/
def Config.whispering : Config where
  version := .v1
  channels := .mono
  sampleRate := 8000
  bitRate := 4000
  blockAlign := 64
  flags := ⟨1⟩
  variableBlocks := false
  frameBits := 9
  sizeCount := 1
  offsetBits := 7
  rateClass := 2
  noiseStart := some 500

theorem Config.ofParams_whispering : ofParams .whispering = .ok whispering := by
  cbv

def Stream.whispering (books : Books) : Stream :=
  ⟨.whispering, .ofConfig .whispering, books⟩

namespace FrameState

/-- A falling envelope, and the same without its first three entries. There are levels for all coded
coefficients, so the two spectra are equal. -/
theorem dequantize_of_quiet_whispering : ∃ books, Books.builtIn = .ok books ∧ ∃ spectrum,
    (scaling (.whispering books) 9 0 (BandLayout.block .whispering 0) 40).dequantize
        (Array.replicate 463 100) (Array.ofFn fun i : Fin 512 => UInt32.ofNat (2 ^ 30 / (i + 1))) 0
        .none (.ofDivisor 200000) (Array.replicate 512 0) =
      .ok (spectrum, { Noise.ofDivisor 200000 with index := 512 }) ∧
    { scaling (.whispering books) 9 0 (BandLayout.block .whispering 0) 40 with
        noise := false }.dequantize
        (Array.replicate 463 100)
        ((Array.ofFn fun i : Fin 512 => UInt32.ofNat (2 ^ 30 / (i + 1))).extract 3 512) 0
        .none (.ofDivisor 200000) (Array.replicate 512 0) =
      .ok (spectrum, .ofDivisor 200000) := by
  obtain ⟨books, hbooks⟩ := Books.exists_builtIn
  have config : Config.ofParams .whispering = .ok (Stream.whispering books).config :=
    Config.ofParams_whispering
  have bands : (Stream.whispering books).layout.blocks[0]? =
      some (BandLayout.block .whispering 0) := BandLayout.blocks_ofConfig (by decide)
  have scaled : scaling (.whispering books) 9 0 (BandLayout.block .whispering 0) 40 =
      scaling (.whispering books) (Config.whispering.frameBits - 0) 0
        (BandLayout.block .whispering 0) 40 := rfl
  have small : ∀ x ∈ Array.replicate 463 (100 : Int32), -2 ^ 13 < x.toInt ∧ x.toInt < 2 ^ 13 := by
    intro x hx
    rw [(Array.mem_replicate.mp hx).2]
    decide
  have length : (BandLayout.block .whispering 0).length = 512 := by decide +kernel
  have coded : (BandLayout.block .whispering 0).coefsEnd = 466 := by decide +kernel
  have room : (BandLayout.block .whispering 0).length ≤ (Array.replicate 512 (0 : Int32)).size := by
    rw [length, Array.size_replicate]
  have quiet : (Noise.ofDivisor 200000).Quiet := Noise.quiet_ofDivisor (by decide)
  have first :
      (scaling (.whispering books) 9 0 (BandLayout.block .whispering 0) 40).bin 0 3 = 3 := by
    show 3 * 2 ^ 0 % 2 ^ 64 / 2 ^ 0 = 3
    norm_num
  have later : ∀ envelope : Array UInt32, envelope.size = 512 →
      envelope.extract 3 512 = envelope.extract
        ((scaling (.whispering books) 9 0 (BandLayout.block .whispering 0) 40).bin 0 3)
        envelope.size := by
    intro envelope hsize
    rw [hsize, first]
  obtain ⟨noisy, plain, hnoisy, hplain, agree, -⟩ := dequantize_of_quiet config rfl rfl bands scaled
    small (Array.ofFn fun i : Fin 512 => UInt32.ofNat (2 ^ 30 / (i + 1))) (Nat.le_refl 0)
    (show ∀ j, NoiseBands.none.holds j = false from fun _ => rfl) quiet room
    (later _ Array.size_ofFn)
  have same : plain = noisy := by
    refine Array.ext_getElem? fun i => agree i ?_
    rw [coded, Array.size_replicate]
    exact Nat.lt_or_ge i 466
  refine ⟨books, hbooks, noisy, ?_, ?_⟩
  · rw [length] at hnoisy
    exact hnoisy
  · rw [same] at hplain
    exact hplain

end FrameState

end Wma
