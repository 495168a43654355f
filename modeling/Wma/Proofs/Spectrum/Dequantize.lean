import Mathlib.Algebra.Order.BigOperators.Group.List
import Wma.Proofs.Bands.Layout
import Wma.Proofs.Spectrum.Levels
import Wma.Proofs.Spectrum.SideInfo
import Wma.Spectrum.Dequantize

/-!
# Dequantization stays within its words and buffers

The plan of a block has an entry for each of its coefficients (`Scaling.Gives.plan`), and all sources
are small enough for the products of a value with an entry of the envelope and with a gain. So
dequantization gives a spectrum (`Scaling.Gives.dequantize`).
-/

namespace Wma

namespace Noise

@[simp] theorem advance_zero (n : Noise) : n.advance 0 = n := by
  unfold advance
  rw [Nat.add_zero, Fin.ofNat_val_eq_self]

/-- The table of noise is complete, and its samples are below two. -/
structure Sound (n : Noise) : Prop where
  size : n.table.size = period
  bounded : ∀ x ∈ n.table, x.natAbs ≤ 2 ^ 17

theorem length_seedsAfter : ∀ (count : Nat) (seed : UInt32), (seedsAfter count seed).length = count
  | 0, _ => rfl
  | count + 1, seed => by simp [seedsAfter, length_seedsAfter count]

theorem amplitude_le (divisor : Nat) : amplitude divisor ≤ 113510 := by
  have root : isqrt32 (3 * 2 ^ 30) = 56755 := by decide +kernel
  unfold amplitude
  rw [root]
  exact Nat.div_le_self _ _

theorem sound_ofDivisor (divisor : Nat) : (ofDivisor divisor).Sound := by
  refine ⟨?_, fun x hx => ?_⟩
  · simp [ofDivisor, length_seedsAfter]
  · simp only [ofDivisor, List.mem_toArray, List.mem_map] at hx
    obtain ⟨seed, -, rfl⟩ := hx
    have low := seed.toInt32.le_toInt
    have high := seed.toInt32.toInt_lt
    have scale : (amplitude divisor : Int) ≤ 113510 := by exact_mod_cast amplitude_le divisor
    have : -2 ^ 31 * 113510 ≤ seed.toInt32.toInt * amplitude divisor := by nlinarith
    have : seed.toInt32.toInt * amplitude divisor ≤ 2 ^ 31 * 113510 := by nlinarith
    unfold sampleOf
    omega

namespace Sound

variable {n : Noise}

/-- A sample is drawn after the `i` before it. -/
theorem next_advance (h : n.Sound) (i : Nat) :
    (n.advance i).next = .ok (n.ahead i, n.advance (i + 1)) := by
  have inside : (n.index + i) % period < n.table.size := by
    rw [h.size]
    exact Nat.mod_lt _ (by decide)
  have found : Buffer.lookup (n.advance i).table (n.advance i).index = .ok (n.ahead i) := by
    show Buffer.lookup n.table ((n.index + i) % period) = _
    unfold ahead Buffer.lookup
    rw [Array.getD_eq_getD_getElem?, Array.getElem?_eq_getElem inside]
    rfl
  have behind : (n.advance i).index + 1 = (n.advance (i + 1)).index := by
    refine Fin.ext ?_
    show ((n.index + i) % period + 1 % period) % period = (n.index + (i + 1)) % period
    rw [← Nat.add_mod, Nat.add_assoc]
  unfold next
  rw [found, behind]
  rfl

theorem natAbs_ahead_le (h : n.Sound) (i : Nat) : (n.ahead i).natAbs ≤ 2 ^ 17 := by
  have inside : (n.index + i) % period < n.table.size := by
    rw [h.size]
    exact Nat.mod_lt _ (by decide)
  unfold ahead
  rw [← Array.getElem_eq_getD (h := inside)]
  exact h.bounded _ (Array.getElem_mem inside)

end Sound

/-- The amplitude of the noise is divided by `divisor`. -/
def IsOf (divisor : Nat) (n : Noise) : Prop :=
  n.table = (ofDivisor divisor).table

theorem IsOf.sound {divisor : Nat} {n : Noise} (h : n.IsOf divisor) : n.Sound :=
  ⟨h ▸ (sound_ofDivisor divisor).size, h ▸ (sound_ofDivisor divisor).bounded⟩

end Noise

theorem BlockGain.within_blockNorm (version : Version) {bits : Nat} (h : bits ≤ maxBlockBits) :
    (blockNorm version bits).Within 64 := by
  have all : ∀ bits ≤ maxBlockBits, ∀ g ∈ [blockNorm .v1 bits, blockNorm .v2 bits],
      g.mantissa < 2 ^ 31 ∧ (g.mantissa ≠ 0 → 2 ^ 30 ≤ g.mantissa) ∧ -64 ≤ g.exponent ∧
        g.exponent ≤ 64 := by decide +kernel
  cases version with
  | v1 =>
    obtain ⟨h1, h2, h3, h4⟩ := all bits h (blockNorm .v1 bits) (by simp)
    exact ⟨h1, h2, h3, h4⟩
  | v2 =>
    obtain ⟨h1, h2, h3, h4⟩ := all bits h (blockNorm .v2 bits) (by simp)
    exact ⟨h1, h2, h3, h4⟩

/-- Whether there is noise in the value of a source. -/
def BinSource.Noisy : BinSource → Prop
  | .noise _ => True
  | .noisyLevel _ _ => True
  | .bandNoise _ _ => True
  | _ => False

/-- The source refers to one of `n` high bands, if to any. -/
def BinSource.Fits (n : Nat) : BinSource → Prop
  | .bandNoise band _ => band < n
  | _ => True

namespace Scaling

/-- A scaling for blocks of `2 ^ bits` coefficients of a stream. -/
structure Sound (c : Config) (bits : Nat) (s : Scaling) : Prop where
  bands : s.bands.Sound c bits
  coefsStart_eq : s.coefsStart = BandLayout.firstCoef c.version
  sizeIndex_lt : s.sizeIndex < 32
  norm : s.norm.Within 64
  noiseDivisor_lt : s.noiseDivisor < 2 ^ 64

variable {c : Config} {bits : Nat} {s : Scaling}

/-! ### The plan -/

theorem bin_of_lt {envelopeSize i : Nat} (h : i * 2 ^ s.sizeIndex < 2 ^ 64) :
    s.bin envelopeSize i = i * 2 ^ s.sizeIndex / 2 ^ envelopeSize := by
  unfold bin
  rw [Nat.mod_eq_of_lt h]

theorem length_noisyPlanFrom (s : Scaling) (envelopeSize : Nat) : ∀ (segments : List Segment)
    (level base room : Nat), (s.noisyPlanFrom envelopeSize segments level base room).length = room
  | [], _, _, _ => by simp [noisyPlanFrom]
  | ⟨width, band⟩ :: segments, level, base, room => by
    cases band with
    | some j =>
      simp only [noisyPlanFrom, List.length_append, List.length_map, List.length_range,
        length_noisyPlanFrom]
      omega
    | none =>
      simp only [noisyPlanFrom, List.length_append, List.length_map, List.length_range,
        length_noisyPlanFrom]
      omega

theorem fits_noisyPlanFrom (s : Scaling) (envelopeSize n : Nat) : ∀ (segments : List Segment)
    (level base room : Nat), (∀ x ∈ segments, ∀ j, x.band = some j → j < n) →
    ∀ source ∈ s.noisyPlanFrom envelopeSize segments level base room, source.Fits n ∧ source.Noisy
  | [], _, _, _, _, source, hs => by
    rw [List.eq_of_mem_replicate hs]
    exact ⟨trivial, trivial⟩
  | ⟨width, band⟩ :: segments, level, base, room, h, source, hs => by
    have rest : ∀ x ∈ segments, ∀ j, x.band = some j → j < n := fun x hx => h x (by simp [hx])
    cases band with
    | some j =>
      simp only [noisyPlanFrom, List.mem_append, List.mem_map] at hs
      rcases hs with ⟨i, -, rfl⟩ | hs
      · exact ⟨h ⟨width, some j⟩ (by simp) j rfl, trivial⟩
      · exact fits_noisyPlanFrom s envelopeSize n segments _ _ _ rest source hs
    | none =>
      simp only [noisyPlanFrom, List.mem_append, List.mem_map] at hs
      rcases hs with ⟨i, -, rfl⟩ | hs
      · exact ⟨trivial, trivial⟩
      · exact fits_noisyPlanFrom s envelopeSize n segments _ _ _ rest source hs

theorem band_of_mem_segments {noise : NoiseBands} {x : Segment} (hx : x ∈ s.segments noise) {j : Nat}
    (hj : x.band = some j) : j < s.bands.highBands.length := by
  rcases List.mem_cons.mp hx with rfl | hx
  · cases hj
  · obtain ⟨⟨width, k⟩, hk, rfl⟩ := List.mem_map.mp hx
    dsimp only at hj
    split at hj
    · cases hj
      have := (List.mem_zipIdx hk).2.1
      omega
    · cases hj

theorem noisyPlan_eq_ok (hs : s.Sound c bits) {envelopeSize : Nat} (he : envelopeSize < 64)
    (noise : NoiseBands) : s.noisyPlan envelopeSize noise =
      .ok ((List.range s.coefsStart).map (fun i => .noise (s.bin envelopeSize i)) ++
        s.noisyPlanFrom envelopeSize (s.segments noise) 0 (s.bin envelopeSize s.coefsStart)
          (s.bands.length - s.coefsStart)) := by
  have start := hs.bands.start_le_length
  rw [← hs.coefsStart_eq] at start
  have index := hs.sizeIndex_lt
  have scale : checkShift (s.sizeIndex + 1) = .ok () := if_pos (by omega)
  have size : checkShift envelopeSize = .ok () := if_pos he
  have room : difference s.bands.length s.coefsStart = .ok (s.bands.length - s.coefsStart) :=
    if_pos start
  unfold noisyPlan
  rw [scale, size, room]
  rfl

theorem plainPlan_eq_ok (hs : s.Sound c bits) {envelopeSize : Nat} (he : envelopeSize < 64)
    {coded : Nat} (hcoded : coded = min (s.bands.coefsEnd - s.coefsStart)
      (s.bands.length - s.coefsStart)) (count : Nat) : s.plainPlan envelopeSize count =
      .ok (List.replicate s.coefsStart .silence ++
        (List.range (min coded count)).map (fun i => .level i (s.bin envelopeSize i)) ++
        List.replicate (coded - count) .kept ++
        List.replicate (s.bands.length - s.coefsStart - coded) .silence) := by
  have start := hs.bands.start_le_length
  have first := hs.bands.start_le_end
  rw [← hs.coefsStart_eq] at start first
  have index := hs.sizeIndex_lt
  have scale : checkShift s.sizeIndex = .ok () := if_pos (by omega)
  have size : checkShift envelopeSize = .ok () := if_pos he
  have whole : difference s.bands.coefsEnd s.coefsStart = .ok (s.bands.coefsEnd - s.coefsStart) :=
    if_pos first
  have room : difference s.bands.length s.coefsStart = .ok (s.bands.length - s.coefsStart) :=
    if_pos start
  subst hcoded
  unfold plainPlan
  rw [whole, room, scale, size]
  simp only [bind, Except.bind, pure, Except.pure, ite_self]

theorem Gives.noisyPlan (hs : s.Sound c bits) {envelopeSize : Nat} (he : envelopeSize < 64)
    (noise : NoiseBands) :
    Gives (s.noisyPlan envelopeSize noise) fun plan => plan.length = s.bands.length ∧
      ∀ source ∈ plan, source.Fits s.bands.highBands.length ∧ source.Noisy := by
  have start := hs.bands.start_le_length
  rw [← hs.coefsStart_eq] at start
  refine .of_eq (noisyPlan_eq_ok hs he noise) ⟨?_, fun source hsource => ?_⟩
  · simp only [List.length_append, List.length_map, List.length_range, length_noisyPlanFrom]
    omega
  · rcases List.mem_append.mp hsource with h | h
    · obtain ⟨i, -, rfl⟩ := List.mem_map.mp h
      exact ⟨trivial, trivial⟩
    · exact fits_noisyPlanFrom s _ _ _ _ _ _ (fun x hx j hj => band_of_mem_segments hx hj) _ h

theorem Gives.plainPlan (hs : s.Sound c bits) {envelopeSize : Nat} (he : envelopeSize < 64)
    (count : Nat) :
    Gives (s.plainPlan envelopeSize count) fun plan =>
      plan.length = s.bands.length ∧ ∀ source ∈ plan, source.Fits 0 ∧ ¬source.Noisy := by
  have start := hs.bands.start_le_length
  rw [← hs.coefsStart_eq] at start
  refine .of_eq (plainPlan_eq_ok hs he rfl count) ⟨?_, fun source hsource => ?_⟩
  · simp only [List.length_append, List.length_map, List.length_range, List.length_replicate]
    omega
  · simp only [List.mem_append, List.mem_replicate, List.mem_map] at hsource
    rcases hsource with ((⟨-, rfl⟩ | ⟨i, -, rfl⟩) | ⟨-, rfl⟩) | ⟨-, rfl⟩ <;> exact ⟨trivial, id⟩

/-- Number of gains that a plan may refer to. -/
def gainCount (s : Scaling) : Nat :=
  if s.noise then s.bands.highBands.length else 0

/-- Every coefficient of a block has a source, and these need noise if the block does. -/
theorem Gives.plan (hs : s.Sound c bits) {envelopeSize : Nat} (he : envelopeSize < 64) (count : Nat)
    (noise : NoiseBands) :
    Gives (s.plan envelopeSize count noise) fun plan => plan.length = s.bands.length ∧
      ∀ source ∈ plan, source.Fits s.gainCount ∧ (source.Noisy ↔ s.noise = true) := by
  unfold gainCount
  refine .ite (fun h => ?_) fun h => ?_
  · rw [if_pos h]
    refine (Gives.noisyPlan hs he noise).mono fun plan hplan => ⟨hplan.1, fun source hsource => ?_⟩
    exact (hplan.2 source hsource).imp_right fun noisy => iff_of_true noisy h
  · rw [if_neg h]
    refine (Gives.plainPlan hs he count).mono fun plan hplan => ⟨hplan.1, fun source hsource => ?_⟩
    exact (hplan.2 source hsource).imp_right fun plain => iff_of_false plain h

/-! ### Gains -/

theorem Gives.blockGain (hs : s.Sound c bits) : Gives s.blockGain (Gain.Within (2 ^ 20)) := by
  refine ((Gain.within_ofDecibels s.gain).checkedMul hs.norm (by decide)).bind fun g hg => ?_
  exact (hg.checkedScale (m := 10) (by decide) (by decide)).mono fun _ h => h.mono (by decide)

theorem Gives.bandGain (hs : s.Sound c bits) {noise : NoiseBands} (hn : noise.Sound)
    {lastRecip : Gain} (hr : lastRecip.Within 128) (j : Nat) {power : Nat} (hp : power < 2 ^ 64) :
    Gives (s.bandGain noise lastRecip j power) (Gain.Within (2 ^ 20)) := by
  refine .ite (fun hj => ?_) fun _ => .pure Gain.Within.zero
  refine ((Gain.Within.ofFraction hp (by decide)).checkedMul hr (by decide)).bind fun g hg => ?_
  refine (hg.checkedSqrt (by decide)).bind fun ratio hratio => ?_
  refine .bind (.lookup (Q := fun _ => True) ?_ fun _ _ => trivial) fun decibels _ => ?_
  · rw [List.size_toArray]; exact hn.lt_gains hj
  refine (hratio.checkedMul (Gain.within_ofDecibels decibels) (by decide)).bind fun g hg => ?_
  refine (hg.checkedMul (Gain.Within.ofFraction hs.noiseDivisor_lt (by decide)) (by decide)).bind
    fun g hg => ?_
  refine (hg.checkedMul hs.norm (by decide)).bind fun g hg => ?_
  exact (hg.checkedScale (m := 10) (by decide) (by decide)).mono fun _ h => h.mono (by decide)

theorem entry_lt (envelope : Array UInt32) (place : Nat) : entry envelope place < 2 ^ 32 :=
  (envelope.getD place 0).toNat_lt

theorem bandPower_lt (s : Scaling) (envelope : Array UInt32) (envelopeSize base width : Nat) :
    s.bandPower envelope envelopeSize base width < 2 ^ 64 := by
  have square : ∀ place, entry envelope place ^ 2 ≤ (2 ^ 32 - 1) ^ 2 := fun place =>
    Nat.pow_le_pow_left (Nat.le_sub_one_of_lt (entry_lt envelope place)) 2
  have sum : ((List.range width).map fun i =>
      entry envelope (base + s.bin envelopeSize i) ^ 2).sum ≤ width * (2 ^ 32 - 1) ^ 2 := by
    have := List.sum_le_card_nsmul ((List.range width).map fun i =>
      entry envelope (base + s.bin envelopeSize i) ^ 2) ((2 ^ 32 - 1) ^ 2) (by
        intro x hx
        obtain ⟨i, -, rfl⟩ := List.mem_map.mp hx
        exact square _)
    simpa using this
  unfold bandPower
  have : width * (2 ^ 32 - 1) ^ 2 ≤ max width 1 * (2 ^ 32 - 1) ^ 2 :=
    Nat.mul_le_mul_right _ (Nat.le_max_left _ _)
  have mean : _ / max width 1 ≤ (2 ^ 32 - 1) ^ 2 :=
    Nat.div_le_of_le_mul (le_trans sum this)
  omega

theorem mem_bandPowers (s : Scaling) (envelope : Array UInt32) (envelopeSize : Nat)
    (noise : NoiseBands) : ∀ (widths : List Nat) (j base : Nat),
    ∀ power ∈ s.bandPowers envelope envelopeSize noise widths j base, power < 2 ^ 64
  | [], _, _, _, h => by simp [bandPowers] at h
  | width :: widths, j, base, power, h => by
    rcases List.mem_cons.mp h with rfl | h
    · split
      · exact bandPower_lt _ _ _ _ _
      · decide
    · exact mem_bandPowers s envelope envelopeSize noise widths _ _ power h

theorem length_bandPowers {envelope : Array UInt32} {envelopeSize : Nat} {noise : NoiseBands} :
    ∀ {widths : List Nat} {j base : Nat},
    (s.bandPowers envelope envelopeSize noise widths j base).length = widths.length
  | [], _, _ => rfl
  | _ :: _, _, _ => by simp [bandPowers, length_bandPowers]

theorem Gives.bandGains (hs : s.Sound c bits) (envelope : Array UInt32) (envelopeSize : Nat)
    {noise : NoiseBands} (hn : noise.Sound) :
    Gives (s.bandGains envelope envelopeSize noise) fun gains =>
      gains.length = s.bands.highBands.length ∧ ∀ g ∈ gains, g.Within (2 ^ 20) := by
  have powers := mem_bandPowers s envelope envelopeSize noise s.bands.highBands 0
    (s.bin envelopeSize s.bands.highStart)
  have last : (s.bandPowers envelope envelopeSize noise s.bands.highBands 0
      (s.bin envelopeSize s.bands.highStart)).getD (s.lastNoiseBand noise) 0 < 2 ^ 64 := by
    rw [List.getD_eq_getElem?_getD]
    cases h : (s.bandPowers envelope envelopeSize noise s.bands.highBands 0
      (s.bin envelopeSize s.bands.highStart))[s.lastNoiseBand noise]? with
    | none => decide
    | some power => exact powers power (List.mem_of_getElem? h)
  refine ((Gain.Within.ofFraction last (by decide)).checkedRecip (by decide)).bind
    fun lastRecip hr => ?_
  refine (Wma.Gives.mapM (Q := Gain.Within (2 ^ 20)) _ fun x hx => ?_).mono
    fun gains h => ⟨?_, h.2⟩
  · exact Gives.bandGain hs hn hr _ (powers _ (List.fst_mem_of_mem_zipIdx hx))
  · rw [h.1, List.length_zipIdx, length_bandPowers]

/-! ### The spectrum -/

/-- What the entries of a plan for `n` high bands refer to is small. -/
structure Sources.Sound (n : Nat) (x : Sources) : Prop where
  levels : ∃ m, Levels.Small m x.levels
  noise : x.noise.Sound
  blockGain : x.blockGain.Within (2 ^ 20)
  bandGains : ∀ g ∈ x.bandGains, g.Within (2 ^ 20)
  le_bandGains : n ≤ x.bandGains.size

namespace Sources

variable {x : Sources} {n : Nat}

theorem Sound.level_le (hx : x.Sound n) (i : Nat) : (x.level i).natAbs ≤ 2 ^ 13 := by
  obtain ⟨m, hm⟩ := hx.levels
  exact hm.natAbs_getD_le i

theorem Gives.scaled (x : Sources) {gain : Gain} (hg : gain.Within (2 ^ 20)) {value : Int}
    (hv : value.natAbs ≤ 2 ^ 30) (place : Nat) {fracBits : Nat} (hf : fracBits ≤ 16) :
    Gives (x.scaled gain value place fracBits) fun _ => True := by
  have product : (value * entry x.envelope place).natAbs ≤ 2 ^ 30 * (2 ^ 32 - 1) := by
    rw [Int.natAbs_mul, Int.natAbs_natCast]
    exact Nat.mul_le_mul hv (Nat.le_sub_one_of_lt (entry_lt x.envelope place))
  refine .bind (.int64 (Q := fun _ => True) ?_ trivial) fun p _ => hg.checkedApply (by omega)
  unfold FitsInt64
  omega

/-- The value of coefficient `i`, with the sample that is as far ahead. -/
def value (x : Sources) (i : Nat) : BinSource → Except Error Int32
  | .silence => .ok 0
  | .kept => .ok (x.before.getD i 0)
  | .level j place => x.scaled x.blockGain (x.level j) place 0
  | .noise place => x.scaled x.blockGain (x.noise.ahead i) place noiseBits
  | .noisyLevel j place =>
    x.scaled x.blockGain (x.level j * 2 ^ noiseBits + x.noise.ahead i) place noiseBits
  | .bandNoise band place => do
    x.scaled (← Buffer.lookup x.bandGains band) (x.noise.ahead i) place noiseBits

theorem Gives.value (hx : x.Sound n) (i : Nat) {source : BinSource} (hs : source.Fits n) :
    Gives (x.value i source) fun _ => True := by
  have small := hx.noise.natAbs_ahead_le i
  cases source with
  | silence => exact .ok trivial
  | kept => exact .ok trivial
  | level j place =>
    have := hx.level_le j
    exact Gives.scaled x hx.blockGain (by omega) place (by decide)
  | noise place =>
    exact Gives.scaled x hx.blockGain (by omega) place (by decide)
  | noisyLevel j place =>
    have := hx.level_le j
    exact Gives.scaled x hx.blockGain (by unfold noiseBits; omega) place (by decide)
  | bandNoise band place =>
    have below : band < x.bandGains.size := Nat.lt_of_lt_of_le hs hx.le_bandGains
    exact .bind (.lookup below hx.bandGains) fun g hg =>
      Gives.scaled x hg (by omega) place (by decide)

/-- Noise in front of coefficient `i`, if the coefficients before it have drawn a sample each. -/
def noiseAt (x : Sources) (noisy : Bool) (i : Nat) : Noise :=
  if noisy then x.noise.advance i else x.noise

theorem draw_eq (hn : x.noise.Sound) {noisy : Bool} {source : BinSource}
    (hs : source.Noisy ↔ noisy = true) (i : Nat) : x.draw i (x.noiseAt noisy i) source =
      (x.value i source).map (·, x.noiseAt noisy (i + 1)) := by
  cases noisy with
  | true =>
    unfold noiseAt
    simp only [if_true]
    cases source with
    | silence | kept | level => exact (hs.mpr rfl).elim
    | noise place =>
      rw [draw, value, hn.next_advance i]
      rfl
    | noisyLevel j place =>
      rw [draw, value, hn.next_advance i]
      rfl
    | bandNoise band place =>
      rw [draw, value, hn.next_advance i]
      dsimp only [bind, Except.bind]
      cases Buffer.lookup x.bandGains band with
      | error e => rfl
      | ok gain => rfl
  | false =>
    cases source with
    | silence | kept | level => rfl
    | noise | noisyLevel | bandNoise => cases hs.mp trivial

/-- The coefficients draw their samples one after the other. -/
theorem drawFrom_eq (hn : x.noise.Sound) {noisy : Bool} {plan : List BinSource}
    (hplan : ∀ source ∈ plan, source.Noisy ↔ noisy = true) (i : Nat) :
    x.drawFrom i plan (x.noiseAt noisy i) =
      ((plan.zipIdx i).mapM fun entry => x.value entry.2 entry.1).map
        (·, x.noiseAt noisy (i + plan.length)) := by
  induction plan generalizing i with
  | nil => rfl
  | cons source plan ih =>
    obtain ⟨hs, hplan⟩ := List.forall_mem_cons.mp hplan
    rw [drawFrom, draw_eq hn hs, List.zipIdx_cons, List.mapM_cons]
    cases x.value i source with
    | error e => rfl
    | ok y =>
      show (x.drawFrom (i + 1) plan (x.noiseAt noisy (i + 1)) >>= _) = _
      rw [ih hplan (i + 1), List.length_cons, Nat.add_right_comm i 1]
      cases (plan.zipIdx (i + 1)).mapM fun entry => x.value entry.2 entry.1 with
      | error e => rfl
      | ok values => rfl

end Sources

/-- What dequantization makes of a buffer: each coefficient of the block has the value of its entry
of the plan, and what lies behind the block is kept. -/
structure Dequantized (s : Scaling) (levels : Array Int32) (envelope : Array UInt32)
    (envelopeSize : Nat) (bands : NoiseBands) (noise : Noise) (buffer out : Array Int32)
    (plan : List BinSource) (x : Sources) : Prop where
  plan_eq : s.plan envelopeSize levels.size bands = .ok plan
  levels : x.levels = levels
  envelope : x.envelope = envelope
  noise : x.noise = noise
  blockGain : s.blockGain = .ok x.blockGain
  bandGains : s.noise = true → s.bandGains x.envelope envelopeSize bands = .ok x.bandGains.toList
  size : out.size = buffer.size
  value : ∀ i source, plan[i]? = some source → ∃ y, out[i]? = some y ∧ x.value i source = .ok y
  behind : ∀ i, s.bands.length ≤ i → out[i]? = buffer[i]?

/-- A block without noise takes no gains. -/
theorem Gives.usedGains (hs : s.Sound c bits) (envelope : Array UInt32) (envelopeSize : Nat)
    {bands : NoiseBands} (hb : bands.Sound) :
    Gives (if s.noise then s.bandGains envelope envelopeSize bands else .ok []) fun gains =>
      gains.length = s.gainCount ∧ (∀ g ∈ gains, g.Within (2 ^ 20)) ∧
        (s.noise = true → s.bandGains envelope envelopeSize bands = .ok gains) := by
  unfold gainCount
  refine .ite (fun h => ?_) fun h => .ok ?_
  · obtain ⟨gains, hgains, hcount, hwithin⟩ := Gives.bandGains hs envelope envelopeSize hb
    rw [if_pos h]
    exact ⟨gains, hgains, hcount, hwithin, fun _ => hgains⟩
  · rw [if_neg h]
    exact ⟨rfl, by simp, fun hnoise => absurd hnoise h⟩

/-- Dequantization succeeds, and moves the noise on by the length of the block if it uses any. -/
theorem Gives.dequantize (hs : s.Sound c bits) {levels : Array Int32} {n : Nat}
    (hl : Levels.Small n levels) (envelope : Array UInt32)
    {envelopeSize : Nat} (hsize : envelopeSize < 64) {bands : NoiseBands} (hb : bands.Sound)
    {noise : Noise} (hn : noise.Sound) {buffer : Array Int32} (hbuf : s.bands.length ≤ buffer.size) :
    Gives (s.dequantize levels envelope envelopeSize bands noise buffer) fun (out, noise') =>
      (∃ plan x, s.Dequantized levels envelope envelopeSize bands noise buffer out plan x) ∧
        noise' = if s.noise then noise.advance s.bands.length else noise := by
  refine .bind (.slice (Q := fun _ => True) (by omega) trivial) fun before _ => ?_
  obtain ⟨plan, planned, hplan, hsources⟩ := Gives.plan hs hsize levels.size bands
  rw [planned]
  refine .ite_bind (Gives.usedGains hs envelope envelopeSize hb) fun bandGains
    ⟨hcount, hgains, hband⟩ => ?_
  obtain ⟨blockGain, hblock, within⟩ := Gives.blockGain hs
  let x : Sources := ⟨before, levels, envelope, noise, blockGain, bandGains.toArray⟩
  have sound : Sources.Sound s.gainCount x :=
    ⟨⟨n, hl⟩, hn, within, by simpa [x] using hgains, by simp [x, hcount]⟩
  obtain ⟨spectrum, hspectrum, hlength, -⟩ := Wma.Gives.mapM (Q := fun _ => True) plan.zipIdx
    (f := fun entry => x.value entry.2 entry.1)
    fun entry he => Sources.Gives.value sound _ (hsources _ (List.fst_mem_of_mem_zipIdx he)).1
  rw [List.length_zipIdx] at hlength
  have drawn : x.drawFrom 0 plan noise = .ok (spectrum, x.noiseAt s.noise plan.length) := by
    have step := Sources.drawFrom_eq hn (x := x) (fun source hs => (hsources source hs).2) 0
    have start : x.noiseAt s.noise 0 = noise := by
      unfold Sources.noiseAt
      rw [Noise.advance_zero, ite_self]
    rw [start, hspectrum, Nat.zero_add] at step
    exact step
  have fits : spectrum.toArray.size ≤ buffer.size := by rw [List.size_toArray]; omega
  refine .bind (.of_eq (Q := (blockGain = ·)) hblock rfl) ?_
  rintro _ rfl
  refine .bind (.of_eq (Q := ((spectrum, x.noiseAt s.noise plan.length) = ·)) drawn rfl) ?_
  rintro _ rfl
  refine .pure ⟨⟨plan, x, ⟨planned, rfl, rfl, rfl, hblock, hband, Buffer.size_overlay fits,
    fun i source hsource => ?_, fun i hi => ?_⟩⟩, congrArg (x.noiseAt s.noise) hplan⟩
  · obtain ⟨y, hy, hvalue⟩ := getElem?_of_mapM hspectrum (i := i) (a := (source, i))
      (by rw [List.getElem?_zipIdx, hsource, Option.map_some, Nat.zero_add])
    refine ⟨y, ?_, hvalue⟩
    have inside : i < spectrum.length := (List.getElem?_eq_some_iff.mp hy).1
    rw [Buffer.getElem?_overlay fits, if_pos (by simpa using inside), List.getElem?_toArray, hy]
  · rw [Buffer.getElem?_overlay fits, if_neg (by rw [List.size_toArray]; omega)]

end Scaling

end Wma
