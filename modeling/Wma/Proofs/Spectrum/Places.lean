import Wma.Proofs.Bands.Cover
import Wma.Proofs.Spectrum.Dequantize

/-!
# Where levels go

The levels of a block are counted when they are read, and placed when the block is dequantized. Both
go by the same bins (`Scaling.codedBins`): those of the coded coefficients that no noise stands for.
There are as many of them as levels are read (`Scaling.length_codedBins`), and the plan of the block
puts the levels there one by one (`Scaling.gives_places`). So each coefficient of the spectrum comes
from its level, from its sample of the noise, or from both (`Scaling.Places.fills`).
-/

namespace Wma

/-- The level that a source uses, if it uses one. -/
def BinSource.level? : BinSource → Option Nat
  | .level j _ => some j
  | .noisyLevel j _ => some j
  | _ => none

/-- Whether bin `i` lies in a band that holds noise. The bands have the given widths; the first of
them has the index `first` and begins at `start`. -/
def NoiseBands.Covers (noise : NoiseBands) (first start : Nat) (widths : List Nat) (i : Nat) : Prop :=
  ∃ j < widths.length, noise.holds (first + j) = true ∧ start + (widths.take j).sum ≤ i ∧
    i < start + (widths.take (j + 1)).sum

instance (noise : NoiseBands) (first start : Nat) (widths : List Nat) (i : Nat) :
    Decidable (noise.Covers first start widths i) :=
  inferInstanceAs (Decidable (∃ j < widths.length, _))

namespace Scaling

/-- The bins that have a level, in their order: the coded ones that no noise stands for. -/
def codedBins (s : Scaling) (noise : NoiseBands) : List Nat :=
  (List.range' s.coefsStart (s.bands.coefsEnd - s.coefsStart)).filter fun i =>
    !(s.noise && decide (noise.Covers 0 s.bands.highStart s.bands.highBands i))

/-- The bins of a plan that use a level, each with the index of its level. The plan begins at bin
`first`. -/
def placed (first : Nat) (plan : List BinSource) : List (Nat × Nat) :=
  (plan.zipIdx first).filterMap fun (source, i) => source.level?.map fun j => (i, j)

/-- The bins of a row of segments that have a level. -/
def segmentBins : List Segment → (first : Nat) → List Nat
  | [], _ => []
  | ⟨width, band⟩ :: rest, first =>
    (if band.isSome then [] else List.range' first width) ++ segmentBins rest (first + width)

/-- The coded coefficients lie within the block, and with noise the high bands end where they do. -/
structure Tiled (s : Scaling) : Prop where
  start_le : s.coefsStart ≤ s.bands.coefsEnd
  end_le : s.bands.coefsEnd ≤ s.bands.length
  start_le_high : s.noise = true → s.coefsStart ≤ s.bands.highStart
  sum_high : s.noise = true → s.bands.highStart + s.bands.highBands.sum = s.bands.coefsEnd

variable {s : Scaling} {noise : NoiseBands} {first : Nat}

/-! ### Bins with levels -/

theorem placed_append (l m : List BinSource) :
    placed first (l ++ m) = placed first l ++ placed (first + l.length) m := by
  unfold placed
  rw [List.zipIdx_append, List.filterMap_append]

theorem placed_eq_nil {plan : List BinSource} (h : ∀ source ∈ plan, source.level? = none) :
    placed first plan = [] := by
  unfold placed
  rw [List.filterMap_eq_nil_iff]
  rintro ⟨source, i⟩ hmem
  have none := h source (List.fst_mem_of_mem_zipIdx hmem)
  simp only [none, Option.map_none]

/-- A stretch that uses one level after the other. -/
theorem placed_map_range {f : Nat → BinSource} (level : Nat)
    (h : ∀ i, (f i).level? = some (level + i)) (width : Nat) :
    placed first ((List.range width).map f) = (List.range' first width).zipIdx level := by
  induction width with
  | zero => rfl
  | succ width ih =>
    have last : placed (first + width) [f width] = [(first + width, level + width)] := by
      unfold placed
      simp [h width]
    rw [List.range_succ, List.map_append, placed_append, ih, List.length_map, List.length_range,
      List.map_singleton, last, List.range'_1_concat, List.zipIdx_append, List.length_range']
    simp

theorem placed_noisyPlanFrom (envelopeSize : Nat) : ∀ {segments : List Segment} {first level : Nat}
    (base : Nat) {room : Nat}, (segments.map Segment.width).sum ≤ room →
    placed first (s.noisyPlanFrom envelopeSize segments level base room) =
      (segmentBins segments first).zipIdx level
  | [], _, _, _, room, _ => by
    refine placed_eq_nil fun source h => ?_
    rw [List.eq_of_mem_replicate h]
    rfl
  | ⟨width, band⟩ :: segments, first, level, base, room, h => by
    rw [List.map_cons, List.sum_cons] at h
    dsimp only at h
    have fits : min width room = width := by omega
    have rest : (segments.map Segment.width).sum ≤ room - width := by omega
    cases band with
    | some j =>
      simp only [noisyPlanFrom, fits]
      rw [placed_append, placed_eq_nil, List.length_map, List.length_range,
        placed_noisyPlanFrom envelopeSize _ rest]
      · simp [segmentBins]
      · intro source hsource
        obtain ⟨i, -, rfl⟩ := List.mem_map.mp hsource
        rfl
    | none =>
      simp only [noisyPlanFrom, fits]
      rw [placed_append, placed_map_range _ fun i => rfl, List.length_map, List.length_range,
        placed_noisyPlanFrom envelopeSize _ rest]
      simp [segmentBins, List.zipIdx_append]

/-! ### Bins of high bands -/

theorem covers_cons {start width i : Nat} {widths : List Nat} :
    noise.Covers first start (width :: widths) i ↔
      (noise.holds first = true ∧ start ≤ i ∧ i < start + width) ∨
        noise.Covers (first + 1) (start + width) widths i := by
  unfold NoiseBands.Covers
  rw [List.length_cons, Nat.exists_lt_succ_left]
  simp only [Nat.add_zero, List.take_zero, List.sum_nil, List.take_succ_cons, List.sum_cons,
    Nat.add_assoc, Nat.add_comm 1]

theorem start_le_of_covers {start i : Nat} {widths : List Nat}
    (h : noise.Covers first start widths i) : start ≤ i := by
  obtain ⟨j, -, -, hlow, -⟩ := h
  omega

/-- The segments of the high bands. -/
def highSegments (noise : NoiseBands) (first : Nat) (widths : List Nat) : List Segment :=
  (widths.zipIdx first).map fun (width, j) => ⟨width, if noise.holds j then some j else none⟩

theorem segmentBins_highSegments (noise : NoiseBands) : ∀ (first start : Nat) (widths : List Nat),
    segmentBins (highSegments noise first widths) start =
      (List.range' start widths.sum).filter fun i => !decide (noise.Covers first start widths i)
  | _, _, [] => rfl
  | first, start, width :: widths => by
    have rest := segmentBins_highSegments noise (first + 1) (start + width) widths
    have later : ∀ i ∈ List.range' (start + width) widths.sum,
        (!decide (noise.Covers (first + 1) (start + width) widths i)) =
          !decide (noise.Covers first start (width :: widths) i) := fun i hi => by
      have := (List.mem_range'_1.mp hi).1
      have beyond : ¬(noise.holds first = true ∧ start ≤ i ∧ i < start + width) := by omega
      simp only [covers_cons, beyond, false_or]
    have here : ∀ i ∈ List.range' start width,
        (!decide (noise.Covers first start (width :: widths) i)) = !noise.holds first := fun i hi => by
      obtain ⟨hlow, hhigh⟩ := List.mem_range'_1.mp hi
      have before : ¬noise.Covers (first + 1) (start + width) widths i := fun h => by
        have := start_le_of_covers h
        omega
      simp only [covers_cons, before, hlow, hhigh, and_true, or_false, Bool.decide_eq_true]
    rw [List.sum_cons, ← List.range'_append_1, List.filter_append, ← List.filter_congr later, ← rest,
      List.filter_congr here]
    show (if (if noise.holds first then some first else none : Option Nat).isSome then []
      else List.range' start width) ++ _ = _
    cases noise.holds first <;> simp [highSegments]

theorem segmentBins_segments (ht : s.Tiled) (hn : s.noise = true) :
    segmentBins (s.segments noise) s.coefsStart = s.codedBins noise := by
  have low := ht.start_le_high hn
  have sum := ht.sum_high hn
  have before : ∀ i ∈ List.range' s.coefsStart (s.bands.highStart - s.coefsStart),
      (!(s.noise && decide (noise.Covers 0 s.bands.highStart s.bands.highBands i))) = true :=
    fun i hi => by
      have below := (List.mem_range'_1.mp hi).2
      have out : ¬noise.Covers 0 s.bands.highStart s.bands.highBands i := fun h => by
        have := start_le_of_covers h
        omega
      simp [out]
  have high := segmentBins_highSegments noise 0 s.bands.highStart s.bands.highBands
  have whole : s.bands.coefsEnd - s.coefsStart =
      (s.bands.highStart - s.coefsStart) + s.bands.highBands.sum := by omega
  have start : s.coefsStart + (s.bands.highStart - s.coefsStart) = s.bands.highStart := by omega
  unfold codedBins
  rw [whole, ← List.range'_append_1, List.filter_append, List.filter_eq_self.mpr before, start]
  show List.range' s.coefsStart (s.bands.highStart - s.coefsStart) ++
    segmentBins (highSegments noise 0 s.bands.highBands)
      (s.coefsStart + (s.bands.highStart - s.coefsStart)) = _
  rw [start, high]
  simp [hn]

/-- Bins of high bands have a level, or noise stands for them. -/
theorem length_segmentBins_add (noise : NoiseBands) : ∀ (first start : Nat) (widths : List Nat),
    (segmentBins (highSegments noise first widths) start).length +
      NoiseBands.substituted ⟨noise.flags.drop first, []⟩ widths = widths.sum
  | _, _, [] => rfl
  | first, start, width :: widths => by
    have rest := length_segmentBins_add noise (first + 1) (start + width) widths
    show (segmentBins (⟨width, if noise.holds first then some first else none⟩ ::
      highSegments noise (first + 1) widths) start).length + _ = _
    have flag : NoiseBands.substituted ⟨noise.flags.drop first, []⟩ (width :: widths) =
        (if noise.holds first then width else 0) +
          NoiseBands.substituted ⟨noise.flags.drop (first + 1), []⟩ widths := by
      unfold NoiseBands.substituted NoiseBands.holds
      rw [List.getD_eq_getElem?_getD]
      rcases Nat.lt_or_ge first noise.flags.length with inside | beyond
      · rw [List.drop_eq_getElem_cons inside, List.getElem?_eq_getElem inside]
        rfl
      · rw [List.drop_eq_nil_of_le beyond, List.drop_eq_nil_of_le (by omega),
          List.getElem?_eq_none beyond]
        simp
    rw [flag, segmentBins, List.length_append, List.sum_cons]
    split
    · simp
      omega
    · simp
      omega

/-- There are as many bins with a level as coded coefficients that no noise stands for. -/
theorem length_codedBins (ht : s.Tiled) : (s.codedBins noise).length =
    s.bands.coefsEnd - s.coefsStart -
      if s.noise then noise.substituted s.bands.highBands else 0 := by
  split
  · rename_i hn
    have parts := length_segmentBins_add noise 0 s.bands.highStart s.bands.highBands
    have low := ht.start_le_high hn
    have sum := ht.sum_high hn
    have flags : NoiseBands.substituted ⟨noise.flags.drop 0, []⟩ s.bands.highBands =
        noise.substituted s.bands.highBands := rfl
    have start : s.coefsStart + (s.bands.highStart - s.coefsStart) = s.bands.highStart := by omega
    have bins : (segmentBins (s.segments noise) s.coefsStart).length =
        (s.bands.highStart - s.coefsStart) +
          (segmentBins (highSegments noise 0 s.bands.highBands) s.bands.highStart).length := by
      show (List.range' s.coefsStart (s.bands.highStart - s.coefsStart) ++
        segmentBins (highSegments noise 0 s.bands.highBands)
          (s.coefsStart + (s.bands.highStart - s.coefsStart))).length = _
      rw [List.length_append, List.length_range', start]
    rw [← segmentBins_segments ht hn, bins]
    omega
  · rename_i hn
    unfold codedBins
    simp [hn]

theorem length_codedBins_le (ht : s.Tiled) (noise : NoiseBands) :
    (s.codedBins noise).length ≤ s.bands.length := by
  refine Nat.le_trans (List.length_filter_le _ _) ?_
  rw [List.length_range']
  exact Nat.le_trans (Nat.sub_le _ _) ht.end_le

/-! ### Plans -/

/-- A plan leaves no coefficient out, and uses the levels one after the other. -/
structure Places (s : Scaling) (noise : NoiseBands) (plan : List BinSource) : Prop where
  /-- Every coefficient of the block has one source. -/
  length : plan.length = s.bands.length
  written : .kept ∉ plan
  /-- The levels are used in the order of the bins that have one. -/
  placed : placed 0 plan = (s.codedBins noise).zipIdx
  noisy : ∀ source ∈ plan, source.Noisy ↔ s.noise = true

theorem sum_segments (ht : s.Tiled) (hn : s.noise = true) :
    ((s.segments noise).map Segment.width).sum = s.bands.coefsEnd - s.coefsStart := by
  have low := ht.start_le_high hn
  have sum := ht.sum_high hn
  have widths : (s.segments noise).map Segment.width =
      (s.bands.highStart - s.coefsStart) :: s.bands.highBands := by
    simp only [segments, List.map_cons, List.map_map]
    congr 1
    exact List.zipIdx_map_fst 0 _
  rw [widths, List.sum_cons]
  omega

variable {c : Config} {bits envelopeSize : Nat}

theorem noisy_of_mem_noisyPlanFrom : ∀ {segments : List Segment} {level base room : Nat},
    ∀ source ∈ s.noisyPlanFrom envelopeSize segments level base room, source.Noisy
  | [], _, _, _, source, h => by
    rw [List.eq_of_mem_replicate h]
    trivial
  | ⟨width, band⟩ :: segments, level, base, room, source, h => by
    cases band <;>
    · simp only [noisyPlanFrom, List.mem_append, List.mem_map] at h
      rcases h with ⟨i, -, rfl⟩ | h
      · trivial
      · exact noisy_of_mem_noisyPlanFrom source h

theorem gives_places_of_noise (hs : s.Sound c bits) (ht : s.Tiled) (hn : s.noise = true)
    (he : envelopeSize < 64) (noise : NoiseBands) :
    Gives (s.noisyPlan envelopeSize noise) (s.Places noise) := by
  have low := ht.start_le
  have high := ht.end_le
  have noisy : ∀ source ∈ (List.range s.coefsStart).map (fun i => .noise (s.bin envelopeSize i)) ++
      s.noisyPlanFrom envelopeSize (s.segments noise) 0 (s.bin envelopeSize s.coefsStart)
        (s.bands.length - s.coefsStart), BinSource.Noisy source := by
    intro source h
    rcases List.mem_append.mp h with h | h
    · obtain ⟨i, -, rfl⟩ := List.mem_map.mp h
      trivial
    · exact noisy_of_mem_noisyPlanFrom source h
  have widths : ((s.segments noise).map Segment.width).sum ≤ s.bands.length - s.coefsStart := by
    rw [sum_segments ht hn]
    omega
  refine .of_eq (noisyPlan_eq_ok hs he noise)
    ⟨?_, fun h => noisy _ h, ?_, fun source h => iff_of_true (noisy source h) hn⟩
  · simp only [List.length_append, List.length_map, List.length_range, length_noisyPlanFrom]
    omega
  · rw [placed_append, placed_eq_nil, List.nil_append, List.length_map, List.length_range,
      placed_noisyPlanFrom _ _ widths, Nat.zero_add, segmentBins_segments ht hn]
    intro source h
    obtain ⟨i, -, rfl⟩ := List.mem_map.mp h
    rfl

theorem gives_places_of_plain (hs : s.Sound c bits) (ht : s.Tiled) (hn : s.noise = false)
    (he : envelopeSize < 64) (noise : NoiseBands) {count : Nat}
    (hcount : (s.codedBins noise).length ≤ count) :
    Gives (s.plainPlan envelopeSize count) (s.Places noise) := by
  have low := ht.start_le
  have high := ht.end_le
  have bins : s.codedBins noise = List.range' s.coefsStart (s.bands.coefsEnd - s.coefsStart) := by
    unfold codedBins
    simp [hn]
  rw [bins, List.length_range'] at hcount
  have coded : s.bands.coefsEnd - s.coefsStart =
      min (s.bands.coefsEnd - s.coefsStart) (s.bands.length - s.coefsStart) := by omega
  have plan := plainPlan_eq_ok hs he coded count
  rw [Nat.min_eq_left hcount, Nat.sub_eq_zero_of_le hcount, List.replicate_zero, List.append_nil]
    at plan
  have plain : ∀ source ∈ List.replicate s.coefsStart BinSource.silence ++
      (List.range (s.bands.coefsEnd - s.coefsStart)).map (fun i => .level i (s.bin envelopeSize i)) ++
      List.replicate (s.bands.length - s.coefsStart - (s.bands.coefsEnd - s.coefsStart)) .silence,
      ¬source.Noisy ∧ source ≠ .kept := by
    intro source h
    simp only [List.mem_append, List.mem_replicate, List.mem_map] at h
    rcases h with (⟨-, rfl⟩ | ⟨i, -, rfl⟩) | ⟨-, rfl⟩ <;> exact ⟨id, nofun⟩
  refine .of_eq plan ⟨?_, fun h => (plain _ h).2 rfl, ?_,
    fun source h => iff_of_false (plain source h).1 (by simp [hn])⟩
  · simp only [List.length_append, List.length_map, List.length_range, List.length_replicate]
    omega
  · have silence : ∀ n, ∀ source ∈ List.replicate n BinSource.silence, source.level? = none :=
      fun n source h => by
        rw [List.eq_of_mem_replicate h]
        rfl
    rw [placed_append, placed_append, placed_eq_nil (silence _), placed_eq_nil (silence _),
      placed_map_range 0 (fun i => by simp [BinSource.level?]), bins]
    simp

/-- A plan for all levels of a block puts each of them at its bin. -/
theorem gives_places (hs : s.Sound c bits) (ht : s.Tiled) (he : envelopeSize < 64)
    (noise : NoiseBands) {count : Nat} (hcount : (s.codedBins noise).length ≤ count) :
    Gives (s.plan envelopeSize count noise) (s.Places noise) :=
  .ite (fun h => gives_places_of_noise hs ht h he noise)
    fun h => gives_places_of_plain hs ht (Bool.eq_false_of_not_eq_true h) he noise hcount

/-! ### Spectra -/

/-- What the coefficients of a block come from. -/
structure Fills (s : Scaling) (noise : NoiseBands) (x : Sources) (out : Array Int32) : Prop where
  /-- Level `j` is that of the `j`th of the bins that have one. -/
  level : ∀ j i, (s.codedBins noise)[j]? = some i → ∃ place y, out[i]? = some y ∧
    if s.noise then
      x.scaled x.blockGain (x.level j * 2 ^ noiseBits + x.noise.ahead i) place noiseBits = .ok y
    else
      x.scaled x.blockGain (x.level j) place 0 = .ok y
  /-- With noise, all others are noise. -/
  noise : s.noise = true → ∀ i < s.bands.length, i ∉ s.codedBins noise →
    ∃ gain place y, out[i]? = some y ∧ x.scaled gain (x.noise.ahead i) place noiseBits = .ok y
  /-- Without noise, all others are silent. -/
  silent : s.noise = false → ∀ i < s.bands.length, i < s.coefsStart ∨ s.bands.coefsEnd ≤ i →
    out[i]? = some 0

theorem mem_placed {plan : List BinSource} {i j : Nat} :
    (i, j) ∈ placed 0 plan ↔ ∃ source, plan[i]? = some source ∧ source.level? = some j := by
  unfold placed
  simp only [List.mem_filterMap, Prod.exists, List.mem_zipIdx_iff_getElem?, Option.map_eq_some_iff,
    Prod.mk.injEq]
  constructor
  · rintro ⟨source, _, hsource, _, hlevel, rfl, rfl⟩
    exact ⟨source, hsource, hlevel⟩
  · rintro ⟨source, hsource, hlevel⟩
    exact ⟨source, i, hsource, j, hlevel, rfl, rfl⟩

variable {plan : List BinSource} {x : Sources} {levels out buffer : Array Int32}
  {envelope : Array UInt32} {samples : Noise}

theorem Places.source (hp : s.Places noise plan) {i : Nat} (hi : i < s.bands.length) :
    ∃ source, plan[i]? = some source ∧ source ∈ plan :=
  have inside : i < plan.length := hp.length ▸ hi
  ⟨plan[i], List.getElem?_eq_getElem inside, List.getElem_mem inside⟩

/-- Where there is no level, a source has none. -/
theorem Places.level?_eq_none (hp : s.Places noise plan) {i : Nat} {source : BinSource}
    (hsource : plan[i]? = some source) (hi : i ∉ s.codedBins noise) : source.level? = none := by
  refine Option.eq_none_iff_forall_ne_some.mpr fun j hj => hi ?_
  have placed := mem_placed.mpr ⟨source, hsource, hj⟩
  rw [hp.placed] at placed
  exact List.fst_mem_of_mem_zipIdx placed

/-- The source of a bin that has a level. -/
theorem Places.source_of_level (hp : s.Places noise plan) {i j : Nat}
    (hi : (s.codedBins noise)[j]? = some i) :
    ∃ place, plan[i]? = some (if s.noise then .noisyLevel j place else .level j place) := by
  have placed : (i, j) ∈ Scaling.placed 0 plan := by
    rw [hp.placed]
    exact List.mem_zipIdx_iff_getElem?.mpr hi
  obtain ⟨source, hsource, hlevel⟩ := mem_placed.mp placed
  have noisy := hp.noisy source (List.mem_of_getElem? hsource)
  cases source with
  | level j' place =>
    cases hlevel
    exact ⟨place, by rw [hsource, if_neg fun h => noisy.mpr h]⟩
  | noisyLevel j' place =>
    cases hlevel
    exact ⟨place, by rw [hsource, if_pos (noisy.mp trivial)]⟩
  | silence | kept | noise | bandNoise => cases hlevel

/-- With noise, a bin without a level has noise at one gain or another. -/
theorem Places.source_of_noise (hp : s.Places noise plan) (hn : s.noise = true) {i : Nat}
    (hi : i < s.bands.length) (hout : i ∉ s.codedBins noise) :
    (∃ place, plan[i]? = some (.noise place)) ∨
      ∃ band place, plan[i]? = some (.bandNoise band place) := by
  obtain ⟨source, hsource, hmem⟩ := hp.source hi
  have level := hp.level?_eq_none hsource hout
  have noisy := (hp.noisy source hmem).mpr hn
  cases source with
  | noise place => exact .inl ⟨place, hsource⟩
  | bandNoise band place => exact .inr ⟨band, place, hsource⟩
  | noisyLevel => cases level
  | silence | kept | level => exact noisy.elim

/-- Without noise, a bin without a level is silent. -/
theorem Places.source_of_silence (hp : s.Places noise plan) (hn : s.noise = false) {i : Nat}
    (hi : i < s.bands.length) (hout : i ∉ s.codedBins noise) : plan[i]? = some .silence := by
  obtain ⟨source, hsource, hmem⟩ := hp.source hi
  have level := hp.level?_eq_none hsource hout
  have quiet : ¬source.Noisy := fun h => by
    have := (hp.noisy source hmem).mp h
    simp [hn] at this
  cases source with
  | silence => exact hsource
  | kept => exact absurd hmem hp.written
  | level => cases level
  | noise | noisyLevel | bandNoise => exact absurd trivial quiet

theorem Places.fills (hp : s.Places noise plan)
    (hd : s.Dequantized levels envelope envelopeSize noise samples buffer out plan x) :
    s.Fills noise x out := by
  refine ⟨fun j i hi => ?_, fun hnoise i hi hout => ?_, fun hnoise i hi hout => ?_⟩
  · obtain ⟨place, hsource⟩ := hp.source_of_level hi
    obtain ⟨y, hy, hvalue⟩ := hd.value i _ hsource
    refine ⟨place, y, hy, ?_⟩
    split
    · rename_i hnoise
      rw [if_pos hnoise] at hvalue
      exact hvalue
    · rename_i hnoise
      rw [if_neg hnoise] at hvalue
      exact hvalue
  · rcases hp.source_of_noise hnoise hi hout with ⟨place, hsource⟩ | ⟨band, place, hsource⟩
    · obtain ⟨y, hy, hvalue⟩ := hd.value i _ hsource
      exact ⟨x.blockGain, place, y, hy, hvalue⟩
    · obtain ⟨y, hy, hvalue⟩ := hd.value i _ hsource
      obtain ⟨gain, -, hscaled⟩ := ok_of_bind hvalue
      exact ⟨gain, place, y, hy, hscaled⟩
  · have outside : i ∉ s.codedBins noise := fun h => by
      have := List.mem_range'_1.mp (List.mem_filter.mp h).1
      omega
    obtain ⟨y, hy, hvalue⟩ := hd.value i _ (hp.source_of_silence hnoise hi outside)
    cases hvalue
    exact hy

end Scaling

end Wma
