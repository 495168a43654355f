import Wma.Proofs.Synthesis.Timeline

/-!
# Overlapping in place is adding on the timeline

`Overlapped` is what the buffer of a channel holds in the middle of a frame: the totals of the blocks
that came so far. A block keeps it (`Overlapped.step`), because whatever it writes over is zero: no
window that opened earlier lets anything through behind the slope that the block adds to. So the
frames that a channel gives are those of the timeline (`BlockRun.emit_eq`).
-/

namespace Wma

/-! ### Blocks -/

/-- What a buffer holds once blocks of a frame have come: the totals of all blocks so far, from the
time `base` at which the frame begins. The next block begins `position` samples into the frame, and
the slope around that place has `edge` samples. Behind it, everything is silent; on it, there is
nothing but the last block. -/
structure Overlapped (frameLength base position edge : Nat) (ps : List TimelineBlock)
    (buffer : Array Int32) : Prop where
  size : buffer.size = 2 * frameLength
  total : ∀ i < buffer.size, buffer.getD i 0 = total ps (base + i)
  edge_le : edge ≤ frameLength
  silent : ∀ t, base + frameLength / 2 + position + edge / 2 ≤ t → sumAt ps t = 0
  single : ∀ t, base + frameLength / 2 + position ≤ t + (edge + 1) / 2 → FitsInt32 (sumAt ps t)

theorem fitsInt32_toInt (a : Int32) : FitsInt32 a.toInt := by
  have := a.toInt_lt
  have := a.le_toInt
  unfold FitsInt32
  omega

theorem sumAt_concat (ps : List TimelineBlock) (p : TimelineBlock) (t : Nat) :
    sumAt (ps ++ [p]) t = sumAt ps t + (p.value t).toInt := by
  simp [sumAt]

/-- A sample of a block comes to the sum of all before it, if that is a single one on the left slope
and nothing behind it. -/
theorem BlockShape.blend_saturate {s : BlockShape} {i : Nat} {sum : Int}
    (hsingle : s.opens ≤ i → FitsInt32 sum) (hsilent : s.levels ≤ i → sum = 0) (x : Int32) :
    s.blend i (saturate sum) x = saturate (sum + (s.windowed i x).toInt) := by
  unfold blend
  split
  · rw [addSaturated_eq]
    by_cases opened : s.opens ≤ i
    · rw [toInt_saturate_of_fits (hsingle opened)]
    · have silent : s.windowed i x = 0 := if_pos (by omega)
      rw [silent]
      show saturate ((saturate sum).toInt + 0) = saturate (sum + 0)
      rw [Int.add_zero, Int.add_zero, saturate_toInt]
  · rw [hsilent (by omega), Int.zero_add, saturate_toInt]

theorem total_concat_of_not_covers (ps : List TimelineBlock) {p : TimelineBlock} {t : Nat}
    (h : ¬p.Covers t) : total (ps ++ [p]) t = total ps t := by
  unfold total
  rw [sumAt_concat, p.value_eq_zero h]
  exact congrArg saturate (Int.add_zero _)

/-- Where a block is written, it comes to the total that it is a part of. -/
theorem TimelineBlock.blend_total {ps : List TimelineBlock} (p : TimelineBlock) {i : Nat}
    (hsingle : p.block.shape.opens ≤ i → FitsInt32 (sumAt ps (p.start + i)))
    (hsilent : p.block.shape.levels ≤ i → sumAt ps (p.start + i) = 0) :
    p.block.shape.blend i (total ps (p.start + i)) (p.block.samples.getD i 0) =
      total (ps ++ [p]) (p.start + i) := by
  unfold total
  rw [sumAt_concat, TimelineBlock.value, if_neg (by omega), Nat.add_sub_cancel_left]
  exact BlockShape.blend_saturate hsingle hsilent _

/-- The first half of a block has its middle half a frame behind the block's place in the frame. -/
theorem OverlapBlock.exists_overlapAt (b : OverlapBlock) {frameLength position start : Nat}
    {buffer : Array Int32} (hbits : b.shape.bits ≤ maxBlockBits) (heven : frameLength % 2 = 0)
    (hsize : buffer.size = 2 * frameLength) (hfit : position + b.length ≤ frameLength)
    (hstart : start + b.length / 2 = frameLength / 2 + position) :
    ∃ buffer', b.shape.overlapAt frameLength position buffer b.samples = .ok buffer' ∧
      buffer'.size = buffer.size ∧ ∀ i, buffer'.getD i 0 =
        if start ≤ i ∧ i < start + b.shape.samples then
          b.shape.blend (i - start) (buffer.getD i 0) (b.samples.getD (i - start) 0)
        else buffer.getD i 0 := by
  have even := b.length_even
  have samples : b.shape.samples = 2 * b.length := rfl
  obtain ⟨buffer', hrun, hbuffer⟩ :=
    BlockShape.exists_overlapAdd hbits (show start + b.shape.samples ≤ buffer.size by omega) b.le_size
  refine ⟨buffer', ?_, hbuffer⟩
  have place : difference (frameLength / 2 + position) (2 ^ b.shape.bits / 2) = .ok start := by
    show difference _ (b.length / 2) = _
    unfold difference
    rw [if_pos (by omega), ← hstart, Nat.add_sub_cancel]
  unfold BlockShape.overlapAt
  rw [place, ← hrun]
  rfl

namespace Overlapped

variable {frameLength base position edge : Nat} {ps : List TimelineBlock} {buffer : Array Int32}

theorem step (h : Overlapped frameLength base position edge ps buffer)
    (heven : frameLength % 2 = 0) {b : OverlapBlock} (hb : b.shape.bits ≤ maxBlockBits)
    (hedge : edge = 2 ^ b.shape.leftBits) {edge' : Nat} (hedge' : edge' = 2 ^ b.shape.rightBits)
    (hfit : position + b.length ≤ frameLength) :
    ∃ buffer', b.shape.overlapAt frameLength position buffer b.samples = .ok buffer' ∧
      Overlapped frameLength base (position + b.length) edge'
        (ps ++ [⟨base + frameLength / 2 + position - b.length / 2, b⟩]) buffer' := by
  have size := h.size
  have even := b.length_even
  have samples : b.shape.samples = 2 * b.length := rfl
  obtain ⟨start, hstart⟩ : ∃ start, start + b.length / 2 = frameLength / 2 + position :=
    ⟨frameLength / 2 + position - b.length / 2, by omega⟩
  obtain ⟨buffer', run, hsize, hvalues⟩ := b.exists_overlapAt hb heven size hfit hstart
  obtain ⟨p, hp⟩ : ∃ p : TimelineBlock,
    ⟨base + frameLength / 2 + position - b.length / 2, b⟩ = p := ⟨_, rfl⟩
  have place : base + start = p.start := by
    rw [← hp]
    dsimp only
    omega
  obtain rfl : p.block = b := hp ▸ rfl
  have opens := p.block.opens_add
  have levels := p.block.levels_eq
  have closes := p.block.closes_eq
  have narrow := p.block.pow_leftBits_le
  have narrow' := p.block.pow_rightBits_le
  rw [← hedge] at opens levels narrow
  rw [← hedge'] at closes narrow'
  clear hedge hedge'
  have silent : ∀ t, base + frameLength / 2 + position + edge / 2 ≤ t →
      sumAt (ps ++ [p]) t = (p.value t).toInt := fun t ht => by
    rw [sumAt_concat, h.silent t ht, Int.zero_add]
  refine ⟨buffer', run, ?_⟩
  rw [hp]
  refine ⟨by omega, fun i hi => ?_, by omega, fun t ht => ?_, fun t ht => ?_⟩
  · rw [hvalues, h.total i (by omega)]
    by_cases inside : start ≤ i ∧ i < start + p.block.shape.samples
    · obtain ⟨k, rfl⟩ := Nat.exists_eq_add_of_le inside.1
      rw [if_pos inside, Nat.add_sub_cancel_left, ← Nat.add_assoc, place]
      exact p.blend_total (fun _ => h.single _ (by omega)) (fun _ => h.silent _ (by omega))
    · have away : ¬p.Covers (base + i) := by
        rintro ⟨hge, hlt⟩
        have := p.block.shape.closes_le
        omega
      rw [if_neg inside, total_concat_of_not_covers ps away]
  · have late : ¬p.Covers t := by
      rintro ⟨-, hlt⟩
      omega
    rw [silent t (by omega), p.value_eq_zero late]
    rfl
  · rw [silent t (by omega)]
    exact fitsInt32_toInt _

theorem blocks (h : Overlapped frameLength base position edge ps buffer)
    (heven : frameLength % 2 = 0) {blocks rest : List OverlapBlock}
    (hbits : ∀ b ∈ blocks, b.shape.bits ≤ maxBlockBits)
    (hmeets : (blocks ++ rest).IsChain OverlapBlock.Meets)
    (hedge : ∀ b ∈ (blocks ++ rest).head?, edge = 2 ^ b.shape.leftBits)
    (hfit : position + (blocks.map OverlapBlock.length).sum ≤ frameLength) :
    ∃ buffer' edge', overlapBlocks frameLength position buffer blocks = .ok buffer' ∧
      Overlapped frameLength base (position + (blocks.map OverlapBlock.length).sum) edge'
        (ps ++ placeBlocks (base + frameLength / 2) position blocks) buffer' ∧
      ∀ b ∈ rest.head?, edge' = 2 ^ b.shape.leftBits := by
  induction blocks generalizing position edge ps buffer with
  | nil => exact ⟨buffer, edge, rfl, by simpa [placeBlocks] using h, hedge⟩
  | cons b blocks ih =>
    rw [List.map_cons, List.sum_cons] at hfit
    obtain ⟨hhead, htail⟩ := List.isChain_cons.mp hmeets
    obtain ⟨buffer', hrun, hstep⟩ :=
      h.step heven (hbits b List.mem_cons_self) (hedge b rfl) rfl (by omega)
    obtain ⟨buffer'', edge'', hrun', hblocks, hedge''⟩ :=
      ih hstep (fun b' hb => hbits b' (List.mem_cons_of_mem _ hb)) htail
        (fun b' hb => by rw [(hhead b' hb).bits_eq]) (by omega)
    refine ⟨buffer'', edge'', ?_, ?_, hedge''⟩
    · unfold overlapBlocks
      rw [hrun]
      exact hrun'
    · rw [List.map_cons, List.sum_cons, ← Nat.add_assoc]
      rw [List.append_assoc] at hblocks
      exact hblocks

theorem shift (h : Overlapped frameLength base frameLength edge ps buffer) :
    Overlapped frameLength (base + frameLength) 0 edge ps
      (buffer.extract frameLength buffer.size ++ Array.replicate frameLength 0) := by
  have size := h.size
  have narrow := h.edge_le
  refine ⟨?_, fun i hi => ?_, narrow, fun t ht => h.silent t (by omega),
    fun t ht => h.single t (by omega)⟩
  · simp only [Array.size_append, Array.size_extract, Array.size_replicate]
    omega
  simp only [Array.getD_eq_getD_getElem?, Array.getElem?_append, Array.size_extract]
  split
  · rename_i first
    have moved := h.total (frameLength + i) (by omega)
    rw [Array.getElem?_extract, if_pos (by omega), ← Array.getD_eq_getD_getElem?, moved,
      Nat.add_assoc]
  · rw [Array.getElem?_replicate]
    unfold Wma.total
    rw [h.silent _ (by omega)]
    split <;> rfl

/-- A whole frame is the start of the timeline, if what comes later is still silent then. -/
theorem extract_eq (h : Overlapped frameLength base position edge ps buffer)
    {later : List TimelineBlock}
    (hlater : ∀ t < base + frameLength, ∀ p ∈ later, p.value t = 0) :
    buffer.extract 0 (0 + frameLength) =
      Array.ofFn fun i : Fin frameLength => Wma.total (ps ++ later) (base + i) := by
  have size := h.size
  refine Array.ext (by simp; omega) fun i hi hi' => ?_
  have inside : i < frameLength := by simpa using hi'
  have held := h.total i (by omega)
  rw [← Array.getElem_eq_getD (h := by omega)] at held
  simp only [Array.getElem_extract, Array.getElem_ofFn, Nat.zero_add]
  rw [held]
  unfold Wma.total
  rw [sumAt_append, sumAt_eq_zero (hlater _ (by omega)), Int.add_zero]

end Overlapped

/-! ### Frames -/

section frames

variable {frameLength : Nat} {frames : List (List OverlapBlock)}

theorem OverlapBlock.length_le_of_mem {blocks : List OverlapBlock}
    (hsum : (blocks.map OverlapBlock.length).sum = frameLength) {b : OverlapBlock} (hb : b ∈ blocks) :
    b.length ≤ frameLength := by
  obtain ⟨before, after, rfl⟩ := List.append_of_mem hb
  rw [List.map_append, List.sum_append, List.map_cons, List.sum_cons] at hsum
  omega

theorem length_le_of_mem_flatten
    (hsum : ∀ blocks ∈ frames, (blocks.map OverlapBlock.length).sum = frameLength) :
    ∀ b ∈ frames.flatten, b.length ≤ frameLength := by
  intro b hb
  obtain ⟨blocks, hblocks, hb⟩ := List.mem_flatten.mp hb
  exact OverlapBlock.length_le_of_mem (hsum blocks hblocks) hb

/-- Before a frame begins, its blocks are silent. -/
theorem value_eq_zero_of_mem_placeFrames (heven : frameLength % 2 = 0) {j : Nat}
    (hsum : ∀ blocks ∈ frames, (blocks.map OverlapBlock.length).sum = frameLength)
    (hmeets : frames.flatten.IsChain OverlapBlock.Meets) {t : Nat} (ht : t < j * frameLength) :
    ∀ p ∈ placeFrames frameLength j frames, p.value t = 0 := by
  intro p hp
  rw [placeFrames_eq j hsum] at hp
  have lengths := length_le_of_mem_flatten hsum
  have opens := le_opens_of_mem
    (fun b hb => by have := lengths b hb; omega) hmeets
    (fun b hb => Nat.le_trans b.pow_leftBits_le (lengths b (List.mem_of_mem_head? hb))) p hp
  refine p.value_eq_zero fun hcovers => ?_
  have inside := hcovers.opens_le
  omega

theorem emit_eq_of_overlapped (heven : frameLength % 2 = 0)
    (hsum : ∀ blocks ∈ frames, (blocks.map OverlapBlock.length).sum = frameLength)
    (hbits : ∀ b ∈ frames.flatten, b.shape.bits ≤ maxBlockBits)
    (hmeets : frames.flatten.IsChain OverlapBlock.Meets) {j edge : Nat} {ps : List TimelineBlock}
    {c : Channel} (h : Overlapped frameLength (j * frameLength) 0 edge ps c.overlap)
    (hedge : ∀ b ∈ frames.flatten.head?, edge = 2 ^ b.shape.leftBits) :
    c.emit frameLength frames = .ok ((List.range frames.length).map fun k =>
      Array.ofFn fun i : Fin frameLength =>
        total (ps ++ placeFrames frameLength j frames) ((j + k) * frameLength + i)) := by
  induction frames generalizing j edge ps c with
  | nil => rfl
  | cons blocks frames ih =>
    have full := hsum blocks List.mem_cons_self
    have hsum' : ∀ blocks' ∈ frames, (blocks'.map OverlapBlock.length).sum = frameLength :=
      fun blocks' hb => hsum blocks' (List.mem_cons_of_mem _ hb)
    have hmeets' : frames.flatten.IsChain OverlapBlock.Meets := (List.isChain_append.mp hmeets).2.1
    obtain ⟨overlap, edge', hrun, hoverlap, hedge'⟩ := h.blocks heven
      (fun b hb => hbits b (List.mem_append_left _ hb)) hmeets hedge (by omega)
    rw [Nat.zero_add, full] at hoverlap
    have size := hoverlap.size
    have slice : Buffer.slice overlap 0 frameLength =
        .ok (overlap.extract 0 (0 + frameLength)) := if_pos (by omega)
    have next : (j + 1) * frameLength = j * frameLength + frameLength := by
      rw [Nat.add_mul, Nat.one_mul]
    have shifted := hoverlap.shift
    rw [← next] at shifted
    have rest := ih hsum' (fun b hb => hbits b (List.mem_append_right _ hb)) hmeets'
      (c := { c with overlap }.shift frameLength) shifted hedge'
    have frame := hoverlap.extract_eq fun t ht =>
      value_eq_zero_of_mem_placeFrames (j := j + 1) heven hsum' hmeets' (next ▸ ht)
    rw [List.append_assoc] at frame
    unfold Channel.emit
    rw [hrun]
    show (do
      let frame ← Buffer.slice overlap 0 frameLength
      let rest ← ({ c with overlap }.shift frameLength).emit frameLength frames
      return frame :: rest) = _
    rw [slice, rest, frame, List.length_cons, List.range_succ_eq_map, List.map_cons, List.map_map]
    simp only [placeFrames, List.append_assoc, Function.comp_def, Nat.succ_eq_add_one,
      Nat.add_comm 1, Nat.add_assoc]
    rfl

end frames

/-- Whatever the blocks of frames in a row, a channel that began with an empty buffer gives the values
of the timeline: none of the values that are written over, of the zeros that are filled in and of the
moves of the buffer takes away or repeats a part of the sum. At no time is there more in the sum than
two blocks, one of which follows the other. -/
theorem BlockRun.emit_eq {frameBits : Nat} (r : BlockRun frameBits) (hmin : minBlockBits ≤ frameBits)
    (hmax : frameBits ≤ maxBlockBits) :
    (Channel.initial (2 ^ frameBits)).emit (2 ^ frameBits) r.frames =
        .ok ((List.range r.frames.length).map fun j => Array.ofFn fun i : Fin (2 ^ frameBits) =>
          total (timeline (2 ^ frameBits) r.frames) (j * 2 ^ frameBits + i)) ∧
      (∀ (p : TimelineBlock) t, ¬p.Covers t → p.value t = 0) ∧
      ∀ t i k p q, (timeline (2 ^ frameBits) r.frames)[i]? = some p →
        (timeline (2 ^ frameBits) r.frames)[k]? = some q → p.Covers t → q.Covers t → k ≤ i + 1 := by
  have heven : 2 ^ frameBits % 2 = 0 := by
    rw [show frameBits = frameBits - 1 + 1 by unfold minBlockBits at hmin; omega, Nat.pow_succ,
      Nat.mul_mod_left]
  have lengths := length_le_of_mem_flatten r.sum_length
  have hbits : ∀ b ∈ r.frames.flatten, b.shape.bits ≤ maxBlockBits := fun b hb =>
    Nat.le_trans ((Nat.pow_le_pow_iff_right (by decide)).mp (lengths b hb)) hmax
  refine ⟨?_, fun p t => p.value_eq_zero, fun t i k p q hp hq hpt hqt => ?_⟩
  · obtain ⟨edge, hnarrow, hedge⟩ : ∃ edge, edge ≤ 2 ^ frameBits ∧
        ∀ b ∈ r.frames.flatten.head?, edge = 2 ^ b.shape.leftBits := by
      cases hhead : r.frames.flatten.head? with
      | none => exact ⟨0, Nat.zero_le _, fun b hb => by cases hb⟩
      | some b =>
        refine ⟨2 ^ b.shape.leftBits, ?_, fun b' hb => by cases hb; rfl⟩
        exact Nat.le_trans b.pow_leftBits_le (lengths b (List.mem_of_mem_head? hhead))
    have start : Overlapped (2 ^ frameBits) (0 * 2 ^ frameBits) 0 edge []
        (Channel.initial (2 ^ frameBits)).overlap := by
      refine ⟨by simp [Channel.initial], fun i hi => ?_, hnarrow, fun _ _ => rfl,
        fun _ _ => fitsInt32_toInt 0⟩
      simp only [Channel.initial, Array.size_replicate] at hi
      simp only [Channel.initial, Array.getD_eq_getD_getElem?, Array.getElem?_replicate, if_pos hi]
      rfl
    have frames := emit_eq_of_overlapped heven r.sum_length hbits r.meets start hedge
    simpa only [timeline, List.nil_append, Nat.zero_add] using frames
  · unfold timeline at hp hq
    rw [placeFrames_eq 0 r.sum_length] at hp hq
    exact adjacent_of_covers (fun b hb => by have := lengths b hb; omega) r.meets hp hq hpt hqt

/-- A block whose samples are all the same. -/
def OverlapBlock.constant (s : BlockShape) (h : minBlockBits ≤ s.bits) (x : Int32) : OverlapBlock :=
  ⟨s, Array.replicate s.samples x, h, by simp⟩

/-- A frame of three blocks and one of a single block. -/
def mixedRun : BlockRun 9 where
  frames := [[.constant ⟨9, 8, 7⟩ (by decide) 7, .constant ⟨8, 7, 7⟩ (by decide) (-5),
    .constant ⟨7, 7, 9⟩ (by decide) 3], [.constant ⟨7, 9, 8⟩ (by decide) 2147483647]]
  sum_length := by simp [OverlapBlock.constant, OverlapBlock.length]
  meets := by
    simp only [List.flatten_cons, List.flatten_nil, List.cons_append, List.nil_append]
    repeat' constructor

theorem BlockRun.emit_eq_mixed : minBlockBits ≤ 9 ∧ 9 ≤ maxBlockBits ∧
    (Channel.initial (2 ^ 9)).emit (2 ^ 9) mixedRun.frames =
      .ok ((List.range 2).map fun j => Array.ofFn fun i : Fin (2 ^ 9) =>
        total (timeline (2 ^ 9) mixedRun.frames) (j * 2 ^ 9 + i)) :=
  ⟨by decide, by decide, (mixedRun.emit_eq (by decide) (by decide)).1⟩

end Wma
