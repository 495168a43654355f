import Wma.Proofs.Spectrum.Places

/-!
# Lookups in the envelope

The envelope of a block may be that of a block of another size. `Scaling.lookups` are the places
where a block looks it up: those of the bins in front of the coded ones, those of the high bands
whose power is taken, those of the coded bins and of the noise that stands for them, and one place
for all bins behind. Nothing else of the envelope has a part in the spectrum
(`Scaling.dequantize_congr`).

Blocks of both sizes fill a frame. A row of distances takes no more of the envelope than one
distance that is as long (`Scaling.bin_add_le`), so no segment gets ahead of its bins, and all
places are within the envelope (`Scaling.lookups_inside`).
-/

namespace Wma

/-- The place in the envelope that a source uses, if it uses one. -/
def BinSource.place? : BinSource → Option Nat
  | .silence | .kept => none
  | .level _ place | .noise place | .noisyLevel _ place | .bandNoise _ place => some place

namespace Scaling

/-- The places of `width` bins from `base` on. -/
def stretch (s : Scaling) (envelopeSize base width : Nat) : List Int :=
  (List.range width).map fun i => (base + s.bin envelopeSize i : Nat)

/-- The places that the powers of the noise bands are taken at. -/
def powerLookups (s : Scaling) (envelopeSize : Nat) (noise : NoiseBands) :
    (widths : List Nat) → (j base : Nat) → List Int
  | [], _, _ => []
  | width :: widths, j, base =>
    (if noise.holds j then s.stretch envelopeSize base width else []) ++
      powerLookups s envelopeSize noise widths (j + 1) (base + s.bin envelopeSize width)

/-- The places of segments for `room` more coefficients, and that of all coefficients behind them,
before it is brought into the envelope. -/
def segmentLookups (s : Scaling) (envelopeSize : Nat) :
    List Segment → (base room : Nat) → List Int
  | [], base, _ => [wrap64 base + -(2 ^ s.sizeIndex : Int) / 2 ^ envelopeSize]
  | ⟨width, _⟩ :: rest, base, room =>
    let width := min width room
    s.stretch envelopeSize base width ++
      segmentLookups s envelopeSize rest (base + s.bin envelopeSize width) (room - width)

/-- All places where a block with `count` levels looks up its envelope. -/
def lookups (s : Scaling) (envelopeSize count : Nat) (noise : NoiseBands) : List Int :=
  if s.noise then
    s.stretch envelopeSize 0 s.coefsStart ++
      s.powerLookups envelopeSize noise s.bands.highBands 0
        (s.bin envelopeSize s.bands.highStart) ++
      s.segmentLookups envelopeSize (s.segments noise) (s.bin envelopeSize s.coefsStart)
        (s.bands.length - s.coefsStart)
  else
    let coded := min (s.bands.coefsEnd - s.coefsStart) (s.bands.length - s.coefsStart)
    s.stretch envelopeSize 0 (min coded count)

variable {s : Scaling} {c : Config} {bits envelopeSize count : Nat} {noise : NoiseBands}

theorem mem_stretch {base width : Nat} {i : Int} :
    i ∈ s.stretch envelopeSize base width ↔
      ∃ j < width, ((base + s.bin envelopeSize j : Nat) : Int) = i := by
  simp [stretch]

/-! ### Nothing else is looked up -/

theorem exists_of_mem_noisyPlanFrom {place : Nat} : ∀ {segments : List Segment}
    {level base room : Nat} {source : BinSource},
    source ∈ s.noisyPlanFrom envelopeSize segments level base room → source.place? = some place →
    ∃ i ∈ s.segmentLookups envelopeSize segments base room, i.toNat = place
  | [], _, _, _, source, h, hplace => by
    rw [List.eq_of_mem_replicate h] at hplace
    exact ⟨_, List.mem_singleton_self _, Option.some.inj hplace⟩
  | ⟨width, band⟩ :: segments, level, base, room, source, h, hplace => by
    rw [segmentLookups]
    cases band <;>
    · simp only [noisyPlanFrom, List.mem_append, List.mem_map, List.mem_range] at h
      rcases h with ⟨i, hi, rfl⟩ | h
      · cases hplace
        exact ⟨_, List.mem_append_left _ (mem_stretch.mpr ⟨i, hi, rfl⟩), rfl⟩
      · obtain ⟨i, hi, hplace⟩ := exists_of_mem_noisyPlanFrom h hplace
        exact ⟨i, List.mem_append_right _ hi, hplace⟩

/-- The sources of a block use places that are looked up. -/
theorem exists_of_mem_plan (hs : s.Sound c bits) (he : envelopeSize < 64) {plan : List BinSource}
    (hplan : s.plan envelopeSize count noise = .ok plan) {source : BinSource} (h : source ∈ plan)
    {place : Nat} (hplace : source.place? = some place) :
    ∃ i ∈ s.lookups envelopeSize count noise, i.toNat = place := by
  unfold Scaling.plan at hplan
  unfold lookups
  split at hplan
  · rename_i hn
    rw [noisyPlan_eq_ok hs he] at hplan
    cases hplan
    rw [if_pos hn]
    rcases List.mem_append.mp h with h | h
    · obtain ⟨i, hi, rfl⟩ := List.mem_map.mp h
      cases hplace
      refine ⟨_, List.mem_append_left _ (List.mem_append_left _ (mem_stretch.mpr
        ⟨i, List.mem_range.mp hi, rfl⟩)), ?_⟩
      rw [Nat.zero_add, Int.toNat_natCast]
    · obtain ⟨i, hi, hplace⟩ := exists_of_mem_noisyPlanFrom h hplace
      exact ⟨i, List.mem_append_right _ hi, hplace⟩
  · rename_i hn
    rw [plainPlan_eq_ok hs he rfl] at hplan
    cases hplan
    rw [if_neg hn]
    simp only [List.mem_append, List.mem_replicate, List.mem_map, List.mem_range] at h
    rcases h with ((⟨-, rfl⟩ | ⟨i, hi, rfl⟩) | ⟨-, rfl⟩) | ⟨-, rfl⟩
    · cases hplace
    · cases hplace
      refine ⟨_, mem_stretch.mpr ⟨i, hi, rfl⟩, ?_⟩
      rw [Nat.zero_add, Int.toNat_natCast]
    · cases hplace
    · cases hplace

variable {x y : Array UInt32}

theorem entry_eq_of_extract {n i : Nat} (h : x.extract 0 n = y.extract 0 n)
    (hi : i < n) : entry x i = entry y i := by
  have same : ∀ z : Array UInt32, z[i]? = (z.extract 0 n)[i]? := by
    intro z
    rw [Array.getElem?_extract]
    split
    · rw [Nat.zero_add]
    · rw [Array.getElem?_eq_none (by omega)]
  unfold entry
  rw [Array.getD_eq_getD_getElem?, Array.getD_eq_getD_getElem?, same x, same y, h]

theorem bandPowers_congr : ∀ {widths : List Nat} {j base : Nat},
    (∀ i ∈ s.powerLookups envelopeSize noise widths j base, entry x i.toNat = entry y i.toNat) →
    s.bandPowers x envelopeSize noise widths j base =
      s.bandPowers y envelopeSize noise widths j base
  | [], _, _, _ => rfl
  | width :: widths, j, base, h => by
    have rest := bandPowers_congr fun i hi => h i (List.mem_append_right _ hi)
    have power : (if noise.holds j then s.bandPower x envelopeSize base width else 0) =
        if noise.holds j then s.bandPower y envelopeSize base width else 0 := by
      split
      · rename_i hj
        have same : ∀ i ∈ List.range width, entry x (base + s.bin envelopeSize i) ^ 2 =
            entry y (base + s.bin envelopeSize i) ^ 2 := by
          intro i hi
          have mem : ((base + s.bin envelopeSize i : Nat) : Int) ∈
              s.powerLookups envelopeSize noise (width :: widths) j base := by
            rw [powerLookups, if_pos hj]
            exact List.mem_append_left _ (mem_stretch.mpr ⟨i, List.mem_range.mp hi, rfl⟩)
          have agree := h _ mem
          rw [Int.toNat_natCast] at agree
          rw [agree]
        unfold bandPower
        rw [List.map_congr_left same]
      · rfl
    rw [bandPowers, bandPowers, power, rest]

theorem Sources.draw_congr (z : Sources) {i : Nat} {n : Noise} {source : BinSource}
    (h : ∀ place, source.place? = some place → entry z.envelope place = entry y place) :
    z.draw i n source = { z with envelope := y }.draw i n source := by
  cases source with
  | silence | kept => rfl
  | level j place | noise place | noisyLevel j place | bandNoise j place =>
    simp only [draw, scaled, level, h place rfl]

theorem Sources.drawFrom_congr (z : Sources) {plan : List BinSource} (h : ∀ source ∈ plan,
    ∀ place, source.place? = some place → entry z.envelope place = entry y place) (i : Nat)
    (n : Noise) : z.drawFrom i plan n = { z with envelope := y }.drawFrom i plan n := by
  induction plan generalizing i n with
  | nil => rfl
  | cons source plan ih =>
    obtain ⟨hs, hplan⟩ := List.forall_mem_cons.mp h
    rw [drawFrom, drawFrom, draw_congr z hs]
    refine bind_congr fun drawn => ?_
    obtain ⟨value, behind⟩ := drawn
    exact congrArg (· >>= _) (ih hplan (i + 1) behind)

/-- Envelopes with the same entries where a block looks them up make the same spectrum of it. -/
theorem dequantize_congr (hs : s.Sound c bits) (he : envelopeSize < 64) {levels : Array Int32}
    (h : ∀ i ∈ s.lookups envelopeSize levels.size noise, entry x i.toNat = entry y i.toNat)
    (samples : Noise) (buffer : Array Int32) :
    s.dequantize levels x envelopeSize noise samples buffer =
      s.dequantize levels y envelopeSize noise samples buffer := by
  have gains : s.noise = true →
      s.bandGains x envelopeSize noise = s.bandGains y envelopeSize noise := by
    intro hn
    unfold lookups at h
    rw [if_pos hn] at h
    unfold bandGains
    dsimp only
    rw [bandPowers_congr fun i hi => h i (List.mem_append_left _ (List.mem_append_right _ hi))]
  unfold dequantize
  refine bind_congr fun before => ?_
  cases hplan : s.plan envelopeSize levels.size noise with
  | error e => rfl
  | ok plan =>
    have values : ∀ (blockGain : Gain) (bandGains : Array Gain),
        (⟨before, levels, x, samples, blockGain, bandGains⟩ : Sources).drawFrom 0 plan samples =
          (⟨before, levels, y, samples, blockGain, bandGains⟩ : Sources).drawFrom 0 plan samples := by
      intro blockGain bandGains
      refine Sources.drawFrom_congr _ (fun source hsource place hplace => ?_) 0 samples
      obtain ⟨i, hi, rfl⟩ := exists_of_mem_plan hs he hplan hsource hplace
      exact h i hi
    show (if s.noise then _ else _) = if s.noise then _ else _
    split
    · rw [gains ‹_›]
      exact bind_congr fun bandGains => bind_congr fun blockGain =>
        congrArg (· >>= _) (values blockGain bandGains.toArray)
    · exact bind_congr fun bandGains => bind_congr fun blockGain =>
        congrArg (· >>= _) (values blockGain bandGains.toArray)

/-! ### All places are within the envelope -/

section

variable {n : Nat} (hwhole : s.bands.length * 2 ^ s.sizeIndex = n * 2 ^ envelopeSize)
  (hsmall : n * 2 ^ envelopeSize < 2 ^ 63)

include hwhole hsmall

theorem bin_of_le {i : Nat} (hi : i ≤ s.bands.length) :
    s.bin envelopeSize i = i * 2 ^ s.sizeIndex / 2 ^ envelopeSize := by
  have inside : i * 2 ^ s.sizeIndex ≤ s.bands.length * 2 ^ s.sizeIndex := Nat.mul_le_mul_right _ hi
  exact bin_of_lt (by omega)

theorem bin_lt {i : Nat} (hi : i < s.bands.length) : s.bin envelopeSize i < n := by
  have inside : i * 2 ^ s.sizeIndex < n * 2 ^ envelopeSize := by
    rw [← hwhole]
    exact Nat.mul_lt_mul_of_pos_right hi (Nat.two_pow_pos _)
  rw [bin_of_le hwhole hsmall hi.le]
  exact Nat.div_lt_of_lt_mul (by rwa [Nat.mul_comm n] at inside)

theorem bin_le {i : Nat} (hi : i ≤ s.bands.length) : s.bin envelopeSize i ≤ n := by
  have inside : i * 2 ^ s.sizeIndex ≤ n * 2 ^ envelopeSize := by
    rw [← hwhole]
    exact Nat.mul_le_mul_right _ hi
  rw [bin_of_le hwhole hsmall hi]
  exact Nat.div_le_of_le_mul (by rwa [Nat.mul_comm n] at inside)

/-- Two distances take no more of the envelope than one that is as long as both. -/
theorem bin_add_le {i j : Nat} (h : i + j ≤ s.bands.length) :
    s.bin envelopeSize i + s.bin envelopeSize j ≤ s.bin envelopeSize (i + j) := by
  rw [bin_of_le hwhole hsmall (by omega), bin_of_le hwhole hsmall (by omega),
    bin_of_le hwhole hsmall h, Nat.add_mul]
  exact Nat.div_add_div_le_add_div

theorem stretch_inside (start : Nat) {width base : Nat} (hwidth : start + width ≤ s.bands.length)
    (hbase : base ≤ s.bin envelopeSize start) :
    ∀ i ∈ s.stretch envelopeSize base width, 0 ≤ i ∧ i < n := by
  intro i hi
  obtain ⟨j, hj, rfl⟩ := mem_stretch.mp hi
  have near := bin_add_le hwhole hsmall (i := start) (j := j) (by omega)
  have inside := bin_lt hwhole hsmall (i := start + j) (by omega)
  omega

theorem powerLookups_inside : ∀ {widths : List Nat} {j : Nat} (start : Nat) {base : Nat},
    start + widths.sum ≤ s.bands.length → base ≤ s.bin envelopeSize start →
    ∀ i ∈ s.powerLookups envelopeSize noise widths j base, 0 ≤ i ∧ i < n
  | [], _, _, _, _, _, i, hi => by cases hi
  | width :: widths, j, start, base, hwidths, hbase, i, hi => by
    rw [List.sum_cons] at hwidths
    rcases List.mem_append.mp hi with hi | hi
    · split at hi
      · exact stretch_inside hwhole hsmall start (by omega) hbase i hi
      · cases hi
    · have near := bin_add_le hwhole hsmall (i := start) (j := width) (by omega)
      exact powerLookups_inside (start + width) (by omega) (by omega) i hi

/-- The entry before the end of what the segments take is behind the beginning of the envelope. -/
theorem tail_inside {base : Nat} (hbase : base ≤ n)
    (hleast : 2 ^ s.sizeIndex ≤ base * 2 ^ envelopeSize) :
    0 ≤ wrap64 base + -(2 ^ s.sizeIndex : Int) / 2 ^ envelopeSize ∧
      wrap64 base + -(2 ^ s.sizeIndex : Int) / 2 ^ envelopeSize < n := by
  have small : n ≤ n * 2 ^ envelopeSize := Nat.le_mul_of_pos_right _ (Nat.two_pow_pos _)
  have wrapped : wrap64 base = base := by
    unfold wrap64
    rw [Int.bmod_eq_of_le] <;> omega
  have positive : (0 : Int) < 2 ^ envelopeSize := by positivity
  have one : -(2 ^ s.sizeIndex : Int) / 2 ^ envelopeSize < 0 :=
    Int.ediv_neg_of_neg_of_pos (by simp) positive
  have least : -(base : Int) ≤ -(2 ^ s.sizeIndex : Int) / 2 ^ envelopeSize := by
    rw [Int.le_ediv_iff_mul_le positive, Int.neg_mul]
    exact Int.neg_le_neg (by exact_mod_cast hleast)
  rw [wrapped]
  omega

theorem segmentLookups_inside : ∀ {segments : List Segment} (start : Nat) {base room : Nat},
    start + room ≤ s.bands.length → base ≤ s.bin envelopeSize start →
    2 ^ s.sizeIndex ≤ base * 2 ^ envelopeSize →
    ∀ i ∈ s.segmentLookups envelopeSize segments base room, 0 ≤ i ∧ i < n
  -- Along the segments, `base` is not ahead of the bin that it stands for, and is far enough from the
  -- beginning for the one place behind them.
  | [], start, base, room, hroom, hbase, hleast, i, hi => by
    rw [List.mem_singleton.mp hi]
    have within := bin_le hwhole hsmall (i := start) (by omega)
    exact tail_inside hwhole hsmall (by omega) hleast
  | ⟨width, band⟩ :: segments, start, base, room, hroom, hbase, hleast, i, hi => by
    rcases List.mem_append.mp hi with hi | hi
    · exact stretch_inside hwhole hsmall start (by omega) hbase i hi
    · have near := bin_add_le hwhole hsmall (i := start) (j := min width room) (by omega)
      have further : base * 2 ^ envelopeSize ≤
          (base + s.bin envelopeSize (min width room)) * 2 ^ envelopeSize :=
        Nat.mul_le_mul_right _ (Nat.le_add_right _ _)
      exact segmentLookups_inside (start + min width room) (by omega) (by omega)
        (Nat.le_trans hleast further) i hi

/-- Where the coefficients below the noise take more of the envelope than one of them and one entry,
no place is outside the envelope. -/
theorem lookups_inside (ht : s.Tiled) (hlow : s.noise = true → 2 ^ s.sizeIndex + 2 ^ envelopeSize ≤
      (s.bands.highStart - s.coefsStart) * 2 ^ s.sizeIndex) :
    ∀ i ∈ s.lookups envelopeSize count noise, 0 ≤ i ∧ i < n := by
  have start := ht.start_le
  have inside := ht.end_le
  intro i hi
  unfold lookups at hi
  split at hi
  · rename_i hn
    have low := ht.start_le_high hn
    have high := ht.sum_high hn
    rcases List.mem_append.mp hi with hi | hi
    · rcases List.mem_append.mp hi with hi | hi
      · exact stretch_inside hwhole hsmall 0 (by omega) (Nat.zero_le _) i hi
      · exact powerLookups_inside hwhole hsmall s.bands.highStart (by omega)
          (Nat.le_refl _) i hi
    · rcases List.mem_append.mp hi with hi | hi
      · exact stretch_inside hwhole hsmall s.coefsStart (by omega) (Nat.le_refl _) i hi
      · have fits : min (s.bands.highStart - s.coefsStart) (s.bands.length - s.coefsStart) =
          s.bands.highStart - s.coefsStart := by omega
        rw [fits] at hi
        -- The first segment has no noise. It alone takes enough of the envelope.
        have near := bin_add_le hwhole hsmall (i := s.coefsStart)
          (j := s.bands.highStart - s.coefsStart) (by omega)
        have whole := Nat.div_add_mod' ((s.bands.highStart - s.coefsStart) * 2 ^ s.sizeIndex)
          (2 ^ envelopeSize)
        have part := Nat.mod_lt ((s.bands.highStart - s.coefsStart) * 2 ^ s.sizeIndex)
          (Nat.two_pow_pos envelopeSize)
        have enough := hlow hn
        refine segmentLookups_inside hwhole hsmall
          (s.coefsStart + (s.bands.highStart - s.coefsStart)) (by omega) near ?_ i hi
        rw [← bin_of_le hwhole hsmall (by omega)] at whole
        rw [Nat.add_mul]
        omega
  · exact stretch_inside hwhole hsmall 0 (by omega) (Nat.zero_le _) i hi

end

end Scaling

end Wma
