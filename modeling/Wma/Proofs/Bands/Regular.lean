import Wma.Proofs.Bands.Cover

/-!
# High bands are few

A block has at most 32 envelope bands and at most 16 high bands (`BandLayout.regular_block`). High
bands are parts of envelope bands, so there is at most one more of them than there are edges of
envelope bands between the two ends (`BandLayout.length_clip_le_countP`). Noise begins at three
tenths of a block or later, and of sixteen critical edges the last is at four times the place of the
first (`BandLayout.Spread`), which is behind the end of the block wherever the first of them is
behind the start of the noise.
-/

namespace Wma

/-- The bands of the blocks that are `2 ^ k` times shorter than a frame have the numbers and widths
that decoding relies on. -/
structure BlockBands.Regular (c : Config) (coefsStart k : Nat) (b : BlockBands) : Prop where
  length_eq : b.length = c.frameLength / 2 ^ k
  le_length : 128 ≤ b.length
  sum_envelopeBands : b.envelopeBands.sum = b.length
  length_envelopeBands : b.envelopeBands.length ≤ 32
  coefsStart_lt : coefsStart < b.coefsEnd
  coefsEnd_le : b.coefsEnd ≤ b.length
  coefsStart_le_highStart : coefsStart ≤ b.highStart
  highStart_le : b.highStart ≤ b.length
  highBands_pos : ∀ width ∈ b.highBands, 0 < width
  length_highBands : b.highBands.length ≤ 16
  sum_highBands : b.highStart < b.coefsEnd → b.highBands.sum = b.coefsEnd - b.highStart
  highBands_eq_nil : b.coefsEnd ≤ b.highStart → b.highBands = []
  highStart_lt : c.noiseCoding = true → b.highStart < b.coefsEnd

namespace BandLayout

variable {first stop : Nat}

/-! ### Parts of bands -/

theorem pos_of_mem_clip : ∀ {start : Nat} {widths : List Nat},
    ∀ width ∈ clip first stop start widths, 0 < width
  | _, [], width, h => by cases h
  | start, w :: widths, width, h => by
    simp only [clip] at h
    split at h
    · rcases List.mem_cons.mp h with rfl | h
      · omega
      · exact pos_of_mem_clip width h
    · exact pos_of_mem_clip width h

theorem clip_eq_nil : ∀ {start : Nat} {widths : List Nat}, stop ≤ max start first →
    clip first stop start widths = []
  | _, [], _ => rfl
  | start, width :: widths, h => by
    simp only [clip]
    rw [if_neg (by omega)]
    exact clip_eq_nil (by omega)

theorem length_clip_le_length : ∀ (start : Nat) (widths : List Nat),
    (clip first stop start widths).length ≤ widths.length
  | _, [] => Nat.le_refl 0
  | start, width :: widths => by
    have rest := length_clip_le_length (start + width) widths
    simp only [clip]
    split
    · simp only [List.length_cons]
      omega
    · rw [List.length_cons]
      omega

/-- Bands in front of the first edge have no part. -/
theorem clip_append : ∀ {start : Nat} {front : List Nat} (widths : List Nat),
    start + front.sum ≤ first →
    clip first stop start (front ++ widths) = clip first stop (start + front.sum) widths
  | _, [], _, _ => rfl
  | start, width :: front, widths, h => by
    rw [List.sum_cons] at h
    rw [List.cons_append, clip, if_neg (by omega), clip_append widths (by omega), List.sum_cons,
      Nat.add_assoc]

/-- Empty bands have no part. -/
theorem clip_filter_pos : ∀ (start : Nat) (widths : List Nat),
    clip first stop start (widths.filter (0 < ·)) = clip first stop start widths
  | _, [] => rfl
  | start, width :: widths => by
    have rest := clip_filter_pos (start + width) widths
    by_cases hwidth : 0 < width
    · rw [List.filter_cons_of_pos (by simpa using hwidth)]
      simp only [clip, rest]
    · obtain rfl : width = 0 := by omega
      rw [List.filter_cons_of_neg (by simp), clip, if_neg (by omega)]
      exact rest

/-! ### Computed bands -/

theorem length_widthsUpTo_le {length : Nat} : ∀ {last : Nat} {edges : List Nat},
    (widthsUpTo length last edges).length ≤ edges.length
  | _, [] => Nat.le_refl 0
  | last, edge :: edges => by
    rw [widthsUpTo]
    split
    · simp
    · have rest : (widthsUpTo length (min edge length) edges).length ≤ edges.length :=
        length_widthsUpTo_le
      simp only [List.length_cons]
      omega

theorem length_coverTail_le (length : Nat) (widths : List Nat) :
    (coverTail length widths).length ≤ widths.length + 1 := by
  unfold coverTail
  split
  · simp
  · omega

/-- Each part of a band ends at an edge or is the last one. -/
theorem length_clip_le_countP {length : Nat} (hstop : stop ≤ length) {tail : List Nat}
    (htail : tail.length ≤ 1) : ∀ {last : Nat} {edges : List Nat},
    (last :: edges).Pairwise (· ≤ ·) →
    (clip first stop last (widthsUpTo length last edges ++ tail)).length ≤
      edges.countP (fun edge => first < edge ∧ edge < stop) + 1
  | last, [], _ => by
    rw [widthsUpTo, List.nil_append, List.countP_nil]
    exact Nat.le_trans (length_clip_le_length _ _) htail
  | last, edge :: edges, h => by
    have next := (List.pairwise_cons.mp h).1 edge List.mem_cons_self
    have sorted := (List.pairwise_cons.mp h).2
    have alone : ∀ widths, stop ≤ edge →
        (clip first stop last ((min edge length - last) :: widths)).length ≤ 1 := by
      intro widths hedge
      simp only [clip]
      rw [clip_eq_nil (by omega)]
      split <;> simp
    rcases Nat.lt_or_ge edge stop with hedge | hedge
    · have rest := length_clip_le_countP hstop htail sorted
      rw [widthsUpTo, if_neg (by omega), Nat.min_eq_left (by omega), List.cons_append, clip,
        Nat.add_sub_cancel' next, List.countP_cons]
      split
      · rw [if_pos (by simp only [decide_eq_true_eq]; omega), List.length_cons]
        omega
      · omega
    · rw [widthsUpTo, List.cons_append]
      exact Nat.le_trans (alone _ hedge) (by omega)

/-- Of sixteen edges the last is at four times the place of the first, at least. -/
def Spread : List Nat → Prop
  | [] => True
  | edge :: edges => (∀ later ∈ edges.drop 14, 4 * edge ≤ later) ∧ Spread edges

theorem spread_criticalEdges : Spread criticalEdges := by
  simp [Spread, criticalEdges]

/-- No more than fifteen edges lie between two places of which the second is behind four times the
first. -/
theorem countP_between_le {f : Nat → Nat} (hfar : ∀ a b, 4 * a ≤ b → first < f a → stop ≤ f b) :
    ∀ {edges : List Nat}, Spread edges →
    (edges.map f).countP (fun edge => first < edge ∧ edge < stop) ≤ 15
  | [], _ => by simp
  | edge :: edges, ⟨far, rest⟩ => by
    rw [List.map_cons, List.countP_cons]
    split
    · rename_i inside
      simp only [decide_eq_true_eq] at inside
      have beyond :
          ((edges.drop 14).map f).countP (fun edge => first < edge ∧ edge < stop) = 0 := by
        rw [List.countP_eq_zero]
        intro x hx
        obtain ⟨later, hlater, rfl⟩ := List.mem_map.mp hx
        have := hfar edge later (far later hlater) inside.1
        simp only [decide_eq_true_eq]
        omega
      have near := List.countP_le_length (p := fun edge => first < edge ∧ edge < stop)
        (l := (edges.take 14).map f)
      rw [List.length_map, List.length_take] at near
      rw [← List.take_append_drop 14 edges, List.map_append, List.countP_append, beyond]
      omega
    · exact countP_between_le hfar rest

theorem four_mul_le (n : Nat) {a b : Nat} (h : 4 * a ≤ b) : 4 * (n * a) ≤ n * b := by
  rw [Nat.mul_left_comm]
  exact Nat.mul_le_mul_left n h

/-- Rounded edges are at most half a coefficient off. -/
theorem le_roundedEdge {length sampleRate a b : Nat} (hab : 4 * a ≤ b)
    (hstart : length ≤ 4 * first + 2)
    (ha : first < (length * 2 * a + sampleRate / 2) / sampleRate) :
    length ≤ (length * 2 * b + sampleRate / 2) / sampleRate := by
  have hrate : 0 < sampleRate := Nat.pos_of_ne_zero fun h => by simp [h] at ha
  have near : (first + 1) * sampleRate ≤ length * 2 * a + sampleRate / 2 :=
    (Nat.le_div_iff_mul_le hrate).mp ha
  have far := four_mul_le (length * 2) hab
  have block : length * sampleRate ≤ (4 * first + 2) * sampleRate := Nat.mul_le_mul_right _ hstart
  rw [Nat.le_div_iff_mul_le hrate]
  rw [Nat.add_mul] at near block
  rw [Nat.mul_assoc] at block
  omega

/-- Edges rounded to a multiple of four are at most two coefficients off. -/
theorem le_quadEdge {length sampleRate a b : Nat} (hab : 4 * a ≤ b)
    (hstart : length + 5 ≤ 4 * first)
    (ha : first < (length * 2 * a + 2 * sampleRate) / (4 * sampleRate) * 4) :
    length ≤ (length * 2 * b + 2 * sampleRate) / (4 * sampleRate) * 4 := by
  have hrate : 0 < sampleRate := Nat.pos_of_ne_zero fun h => by simp [h] at ha
  have near : (first + 1) * sampleRate ≤ length * 2 * a + 2 * sampleRate :=
    calc (first + 1) * sampleRate
        ≤ (length * 2 * a + 2 * sampleRate) / (4 * sampleRate) * 4 * sampleRate :=
          Nat.mul_le_mul_right _ ha
      _ = (length * 2 * a + 2 * sampleRate) / (4 * sampleRate) * (4 * sampleRate) := by ring
      _ ≤ length * 2 * a + 2 * sampleRate := Nat.div_mul_le_self _ _
  have far := four_mul_le (length * 2) hab
  have block : (length + 5) * sampleRate ≤ 4 * first * sampleRate := Nat.mul_le_mul_right _ hstart
  have quads : (length + 3) / 4 ≤ (length * 2 * b + 2 * sampleRate) / (4 * sampleRate) := by
    rw [Nat.le_div_iff_mul_le (by omega)]
    have rounded : (length + 3) / 4 * 4 * sampleRate ≤ (length + 3) * sampleRate :=
      Nat.mul_le_mul_right _ (Nat.div_mul_le_self _ _)
    rw [Nat.mul_assoc] at rounded
    rw [Nat.add_mul] at near block rounded
    rw [Nat.mul_assoc] at block
    omega
  omega

/-- The edges that the bands of computed widths have between two places. -/
theorem length_clip_computed_le {length : Nat} {f : Nat → Nat} (hf : Monotone f)
    (hstop : stop ≤ length) (hfar : ∀ a b, 4 * a ≤ b → first < f a → stop ≤ f b) :
    (clip first stop 0
      (coverTail length (widthsUpTo length 0 (criticalEdges.map f)))).length ≤ 16 := by
  have few := countP_between_le hfar spread_criticalEdges
  have parts : ∀ tail : List Nat, tail.length ≤ 1 →
      (clip first stop 0 (widthsUpTo length 0 (criticalEdges.map f) ++ tail)).length ≤ 16 :=
    fun tail htail =>
      Nat.le_trans (length_clip_le_countP hstop htail (pairwise_edges hf)) (by omega)
  unfold coverTail
  split
  · exact parts _ (Nat.le_refl 1)
  · rw [← List.append_nil (widthsUpTo _ _ _)]
    exact parts [] (by decide)

/-- A tail is not empty. -/
theorem filter_pos_coverTail (length : Nat) (widths : List Nat) :
    coverTail length (widths.filter (0 < ·)) = (coverTail length widths).filter (0 < ·) := by
  unfold coverTail
  rw [sum_filter_pos]
  split
  · rw [List.filter_append, List.filter_cons_of_pos (by simp only [decide_eq_true_eq]; omega),
      List.filter_nil]
  · rfl

theorem length_clip_fixed_le {sampleRate blockBits : Nat} {widths : List Nat}
    (h : fixedWidths sampleRate blockBits = some widths)
    (hfirst : 2 ^ blockBits * 300 + 500 < (first + 1) * 1000) :
    (clip first stop 0 widths).length ≤ 16 := by
  have early : ∀ tables ∈ [bandWidths44100, bandWidths32000, bandWidths22050, []],
      ∀ row (hrow : row < tables.length),
        (tables[row].take (tables[row].length - 16)).sum * 1000 ≤
          2 ^ (minBlockBits + row) * 300 + 500 := by decide
  obtain ⟨tables, hmem, row, hrow, rfl, rfl⟩ := exists_of_fixedWidths h
  have front := early tables hmem row hrow
  rw [← List.take_append_drop (tables[row].length - 16) tables[row], clip_append _ (by omega)]
  refine Nat.le_trans (length_clip_le_length _ _) ?_
  rw [List.length_drop]
  omega

theorem length_fixedWidths_le {sampleRate blockBits : Nat} {widths : List Nat}
    (h : fixedWidths sampleRate blockBits = some widths) : widths.length ≤ 32 := by
  have short : ∀ tables ∈ [bandWidths44100, bandWidths32000, bandWidths22050, []],
      ∀ row (hrow : row < tables.length), tables[row].length ≤ 32 := by decide
  obtain ⟨tables, hmem, row, hrow, rfl, -⟩ := exists_of_fixedWidths h
  exact short tables hmem row hrow

theorem length_envelopeBands_le (c : Config) (blockBits : Nat) :
    (envelopeBands c blockBits).length ≤ 32 := by
  have computed : ∀ (f : Nat → Nat) (length : Nat),
      (widthsUpTo length 0 (criticalEdges.map f)).length ≤ 25 := by
    intro f length
    refine Nat.le_trans length_widthsUpTo_le ?_
    rw [List.length_map]
    decide
  have covered : ∀ (length : Nat) (widths : List Nat), widths.length ≤ 25 →
      (coverTail length widths).length ≤ 32 := by
    intro length widths h
    have := length_coverTail_le length widths
    omega
  unfold envelopeBands
  dsimp only
  split
  · exact covered _ _ (computed _ _)
  · split
    · exact length_fixedWidths_le ‹_›
    · exact covered _ _ (Nat.le_trans (List.length_filter_le _ _) (computed _ _))

section

variable {c : Config} (hc : c.Sound) {k : Nat} (hk : k < c.sizeCount)

include hc

theorem lt_highStart_add_one :
    (block c k).length * 300 + 500 < ((block c k).highStart + 1) * 1000 := by
  have share : (block c k).length * 300 ≤ (block c k).length * c.noisePermille :=
    Nat.mul_le_mul_left _ hc.noisePermille_ge
  show _ < (((block c k).length * c.noisePermille + 500) / 1000 + 1) * 1000
  omega

theorem highStart_le_length : (block c k).highStart ≤ (block c k).length := by
  show ((block c k).length * c.noisePermille + 500) / 1000 ≤ _
  have share : (block c k).length * c.noisePermille ≤ (block c k).length * 1000 :=
    Nat.mul_le_mul_left _ hc.noisePermille_le
  omega

include hk

theorem length_highBands_le : (block c k).highBands.length ≤ 16 := by
  have least := le_length_block hc hk
  have start := lt_highStart_add_one hc (k := k)
  have inside := coefsEnd_le_length c k
  rw [length_block hc hk] at least start inside
  show (clip (block c k).highStart (block c k).coefsEnd 0
    (envelopeBands c (c.frameBits - k))).length ≤ 16
  unfold envelopeBands
  dsimp only
  split
  · refine length_clip_computed_le (monotone_roundedEdge _ _) inside fun a b hab ha => ?_
    exact Nat.le_trans inside (le_roundedEdge hab (by omega) ha)
  · split
    · exact length_clip_fixed_le ‹_› start
    · rw [filter_pos_coverTail, clip_filter_pos]
      refine length_clip_computed_le (monotone_quadEdge _ _) inside fun a b hab ha => ?_
      exact Nat.le_trans inside (le_quadEdge hab (by omega) ha)

theorem regular_block : (block c k).Regular c (ofConfig c).coefsStart k where
  length_eq := rfl
  le_length := le_length_block hc hk
  sum_envelopeBands := by
    rw [length_block hc hk]
    exact BandLayout.sum_envelopeBands c (c.frameBits - k)
  length_envelopeBands := length_envelopeBands_le c _
  coefsStart_lt := firstCoef_lt_coefsEnd hc hk
  coefsEnd_le := coefsEnd_le_length c k
  coefsStart_le_highStart := BandLayout.firstCoef_le_highStart hc hk
  highStart_le := highStart_le_length hc
  highBands_pos := fun _ => pos_of_mem_clip _
  length_highBands := length_highBands_le hc hk
  sum_highBands := fun _ => sum_highBands_eq hc hk
  highBands_eq_nil := fun h => clip_eq_nil (Nat.le_trans h (Nat.le_max_right _ _))
  highStart_lt := highStart_lt_coefsEnd hc hk

end

/-- The layout of every accepted stream. There is one list of bands for each block size. Its
envelope bands fill the block; its coded coefficients and its noise lie within the block; its high
bands are the coded coefficients from the start of the noise on, split into at most sixteen parts,
and with noise there are some. The header of a packet is small enough to be read in one piece. -/
theorem regular_ofConfig {p : Params} {c : Config} (h : Config.ofParams p = .ok c) :
    (ofConfig c).blocks.size = c.sizeCount ∧
      (∀ k < c.sizeCount, ∃ b, (ofConfig c).blocks[k]? = some b ∧
        b.Regular c (ofConfig c).coefsStart k) ∧
      c.offsetBits + 3 ≤ 25 := by
  have hc := Config.sound_of_ofParams h
  refine ⟨?_, fun k hk => ?_, hc.offsetBits_le⟩
  · simp [ofConfig]
  · exact ⟨block c k, blocks_ofConfig hk, regular_block hc hk⟩

/-- The shortest blocks of a stream with five block sizes have twelve envelope bands. -/
theorem regular_ofConfig_tiny : ∃ b, (ofConfig .tiny).blocks[4]? = some b ∧
    b.Regular .tiny (ofConfig .tiny).coefsStart 4 ∧
    b.envelopeBands = [4, 4, 4, 4, 4, 8, 8, 8, 12, 16, 20, 36] := by
  obtain ⟨-, regular, -⟩ := regular_ofConfig Config.ofParams_tiny
  obtain ⟨b, hb, hregular⟩ := regular 4 (by decide)
  refine ⟨b, hb, hregular, ?_⟩
  obtain ⟨-, rfl⟩ := of_blocks_ofConfig hb
  decide +kernel

end BandLayout

end Wma
