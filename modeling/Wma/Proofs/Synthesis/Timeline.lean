import Mathlib.Data.List.Chain
import Wma.Frame.Synthesis
import Wma.Proofs.Gives
import Wma.Proofs.Synthesis.Window

/-!
# Blocks on a timeline

On a timeline without end, each block has its place (`timeline`), and the value at a time is the sum
of what all blocks have there under their windows (`total`). The windows of two blocks meet only if
one follows the other (`adjacent_of_covers`).

A channel has a buffer of two frames instead (`Channel.emit`): a block is added to what is there or
written over it, and the buffer moves on after each frame.
-/

namespace Wma

/-- The shape of a block, and the samples that its transform gave. -/
structure OverlapBlock where
  shape : BlockShape
  samples : Array Int32
  minBlockBits_le : minBlockBits ≤ shape.bits
  le_size : shape.samples ≤ samples.size

namespace OverlapBlock

/-- Number of samples by which a block moves the timeline on. -/
def length (b : OverlapBlock) : Nat :=
  2 ^ b.shape.bits

/-- Two blocks that follow each other know of each other. -/
structure Meets (b b' : OverlapBlock) : Prop where
  next : b.shape.nextBits = b'.shape.bits
  prev : b'.shape.prevBits = b.shape.bits

theorem Meets.bits_eq {b b' : OverlapBlock} (h : b.Meets b') :
    b.shape.rightBits = b'.shape.leftBits := by
  unfold BlockShape.rightBits BlockShape.leftBits
  rw [h.next, h.prev, Nat.min_comm]

theorem Meets.leftBits_le {b b' : OverlapBlock} (h : b.Meets b') :
    2 ^ b'.shape.leftBits ≤ b.length := by
  rw [← h.bits_eq]
  exact b.shape.pow_rightBits_le

theorem Meets.rightBits_le {b b' : OverlapBlock} (h : b.Meets b') :
    2 ^ b.shape.rightBits ≤ b'.length := by
  rw [h.bits_eq]
  exact b'.shape.pow_leftBits_le

theorem length_even (b : OverlapBlock) : b.length % 2 = 0 := by
  have := b.minBlockBits_le
  unfold length
  rw [show b.shape.bits = b.shape.bits - 1 + 1 by unfold minBlockBits at *; omega, Nat.pow_succ,
    Nat.mul_mod_left]

variable (b : OverlapBlock)

theorem pow_leftBits_le : 2 ^ b.shape.leftBits ≤ b.length :=
  b.shape.pow_leftBits_le

theorem pow_rightBits_le : 2 ^ b.shape.rightBits ≤ b.length :=
  b.shape.pow_rightBits_le

theorem opens_add : b.shape.opens + (2 ^ b.shape.leftBits + 1) / 2 = b.length / 2 := by
  have := b.length_even
  have := b.pow_leftBits_le
  have : b.shape.opens = (b.length - 2 ^ b.shape.leftBits) / 2 := rfl
  omega

theorem levels_eq : b.shape.levels = b.length / 2 + 2 ^ b.shape.leftBits / 2 := by
  have := b.opens_add
  have : b.shape.levels = b.shape.opens + 2 ^ b.shape.leftBits := rfl
  omega

theorem closes_eq : b.shape.closes = b.length + b.length / 2 + 2 ^ b.shape.rightBits / 2 := by
  have := b.length_even
  have := b.pow_rightBits_le
  have : b.shape.closes = b.length + (b.length - 2 ^ b.shape.rightBits) / 2 +
    2 ^ b.shape.rightBits := rfl
  omega

end OverlapBlock

/-- A block whose first sample is at `start`. -/
structure TimelineBlock where
  start : Nat
  block : OverlapBlock

namespace TimelineBlock

/-- What a block has at time `t`. -/
def value (p : TimelineBlock) (t : Nat) : Int32 :=
  if t < p.start then 0
  else p.block.shape.windowed (t - p.start) (p.block.samples.getD (t - p.start) 0)

/-- Whether the window of a block lets anything through at time `t`. -/
structure Covers (p : TimelineBlock) (t : Nat) : Prop where
  opens_le : p.start + p.block.shape.opens ≤ t
  lt_closes : t < p.start + p.block.shape.closes

theorem value_eq_zero {p : TimelineBlock} {t : Nat} (h : ¬p.Covers t) : p.value t = 0 := by
  unfold value BlockShape.windowed
  split
  · rfl
  split
  · rfl
  rename_i began opened
  have closed : ¬t - p.start < p.block.shape.closes := fun hlt => h ⟨by omega, by omega⟩
  have flat : p.block.shape.falls ≤ p.block.shape.closes := Nat.le_add_right ..
  have middle := p.block.shape.levels_le
  have second : 2 ^ p.block.shape.bits ≤ p.block.shape.falls := Nat.le_add_right ..
  rw [if_neg (by omega), if_neg (by omega), if_neg closed]

end TimelineBlock

/-- The blocks of a frame whose first block is `position` samples into the frame. The windows of
two blocks that follow each other meet around the place where one ends and the other begins; for the
beginning of the frame, that is `origin`. -/
def placeBlocks (origin : Nat) : (position : Nat) → List OverlapBlock → List TimelineBlock
  | _, [] => []
  | position, b :: blocks =>
    ⟨origin + position - b.length / 2, b⟩ :: placeBlocks origin (position + b.length) blocks

/-- The blocks of frames, the first of which is frame number `j`. -/
def placeFrames (frameLength : Nat) : (j : Nat) → List (List OverlapBlock) → List TimelineBlock
  | _, [] => []
  | j, blocks :: frames =>
    placeBlocks (j * frameLength + frameLength / 2) 0 blocks ++ placeFrames frameLength (j + 1) frames

/-- The blocks of frames from the start of a stream on. -/
def timeline (frameLength : Nat) (frames : List (List OverlapBlock)) : List TimelineBlock :=
  placeFrames frameLength 0 frames

/-- The exact sum of what blocks have at time `t`. -/
def sumAt (ps : List TimelineBlock) (t : Nat) : Int :=
  (ps.map fun p => (p.value t).toInt).sum

/-- The value at time `t`: the sum over all blocks, brought into the word. -/
def total (ps : List TimelineBlock) (t : Nat) : Int32 :=
  saturate (sumAt ps t)

/-! ### The buffer of a channel -/

/-- Overlaps a block that is `position` samples into its frame with a buffer. -/
def BlockShape.overlapAt (frameLength position : Nat) (s : BlockShape) (buffer input : Array Int32) :
    Except Error (Array Int32) := do
  let start ← difference (frameLength / 2 + position) (2 ^ s.bits / 2)
  s.overlapAdd buffer start input

/-- That is what synthesis does with the samples of a block. -/
theorem Lane.synthesize_eq {frameLength : Nat} {block : BlockState} {place : ChannelPlace} {l : Lane}
    (h : block.length = 2 ^ block.bits) :
    l.synthesize frameLength block place = (do
      let work ← l.transform block place
      let overlap ← block.shape.overlapAt frameLength block.position l.channel.overlap work.samples
      return { l with channel := { l.channel with overlap }, work }) := by
  unfold Lane.synthesize BlockShape.overlapAt
  rw [h]
  simp only [bind_assoc]
  rfl

/-- Overlaps the blocks of a frame with a buffer. -/
def overlapBlocks (frameLength : Nat) :
    (position : Nat) → Array Int32 → List OverlapBlock → Except Error (Array Int32)
  | _, buffer, [] => return buffer
  | position, buffer, b :: blocks => do
    let buffer ← b.shape.overlapAt frameLength position buffer b.samples
    overlapBlocks frameLength (position + b.length) buffer blocks

/-- The frames that a channel gives when it takes the blocks of one frame after the other. -/
def Channel.emit (frameLength : Nat) (c : Channel) :
    List (List OverlapBlock) → Except Error (List (Array Int32))
  | [] => return []
  | blocks :: frames => do
    let overlap ← overlapBlocks frameLength 0 c.overlap blocks
    let frame ← Buffer.slice overlap 0 frameLength
    let rest ← emit frameLength ({ c with overlap }.shift frameLength) frames
    return frame :: rest

/-- Frames that follow each other: the blocks of each add up to its length, and each block knows of
the lengths of its neighbours, in other frames too. -/
structure BlockRun (frameBits : Nat) where
  frames : List (List OverlapBlock)
  sum_length : ∀ blocks ∈ frames, (blocks.map OverlapBlock.length).sum = 2 ^ frameBits
  meets : frames.flatten.IsChain OverlapBlock.Meets

/-! ### Sums over blocks -/

section sums

variable {ps qs : List TimelineBlock} {t : Nat}

theorem sumAt_append : sumAt (ps ++ qs) t = sumAt ps t + sumAt qs t := by
  simp [sumAt]

theorem sumAt_eq_zero (h : ∀ p ∈ ps, p.value t = 0) : sumAt ps t = 0 := by
  induction ps with
  | nil => rfl
  | cons p ps ih =>
    have rest := ih fun q hq => h q (List.mem_cons_of_mem _ hq)
    unfold sumAt at *
    rw [List.map_cons, List.sum_cons, rest, h p List.mem_cons_self]
    rfl

end sums

/-! ### Where blocks are -/

section places

variable {origin position : Nat} {blocks : List OverlapBlock}

theorem placeBlocks_append (first second : List OverlapBlock) :
    placeBlocks origin position (first ++ second) = placeBlocks origin position first ++
      placeBlocks origin (position + (first.map OverlapBlock.length).sum) second := by
  induction first generalizing position with
  | nil => rfl
  | cons b first ih =>
    simp only [List.cons_append, placeBlocks, ih, List.map_cons, List.sum_cons, Nat.add_assoc]

theorem placeBlocks_add (shift : Nat) :
    placeBlocks (origin + shift) position blocks = placeBlocks origin (position + shift) blocks := by
  induction blocks generalizing position with
  | nil => rfl
  | cons b blocks ih =>
    simp only [placeBlocks, ih, Nat.add_assoc, Nat.add_comm shift]

/-- On the timeline, the blocks of all frames are in a row. -/
theorem placeFrames_eq {frameLength : Nat} : ∀ {frames : List (List OverlapBlock)} (j : Nat),
    (∀ blocks ∈ frames, (blocks.map OverlapBlock.length).sum = frameLength) →
    placeFrames frameLength j frames =
      placeBlocks (j * frameLength + frameLength / 2) 0 frames.flatten
  | [], _, _ => rfl
  | blocks :: frames, j, h => by
    have rest := placeFrames_eq (j + 1) fun b hb => h b (List.mem_cons_of_mem _ hb)
    have next : (j + 1) * frameLength + frameLength / 2 =
        j * frameLength + frameLength / 2 + frameLength := by
      rw [Nat.add_mul]
      omega
    rw [placeFrames, rest, List.flatten_cons, placeBlocks_append, h blocks List.mem_cons_self, next,
      placeBlocks_add frameLength]

/-- No window opens before the place where the block before ends, but for half of the slope there. -/
theorem le_opens_of_mem (hlen : ∀ b ∈ blocks, b.length ≤ 2 * origin)
    (hmeets : blocks.IsChain OverlapBlock.Meets) {edge : Nat}
    (hedge : ∀ b ∈ blocks.head?, 2 ^ b.shape.leftBits ≤ edge) :
    ∀ p ∈ placeBlocks origin position blocks,
      origin + position ≤ p.start + p.block.shape.opens + (edge + 1) / 2 := by
  induction blocks generalizing position edge with
  | nil =>
    intro p hp
    cases hp
  | cons b blocks ih =>
    intro p hp
    rcases List.mem_cons.mp hp with rfl | hp
    · have short := hlen b List.mem_cons_self
      have slope := hedge b rfl
      have opens := b.opens_add
      dsimp only
      omega
    · obtain ⟨hhead, htail⟩ := List.isChain_cons.mp hmeets
      have rest := ih (fun b' hb => hlen b' (List.mem_cons_of_mem _ hb)) htail
        (fun b' hb => (hhead b' hb).leftBits_le) p hp
      omega

/-- A block overlaps with its neighbours alone. -/
theorem adjacent_of_covers (hlen : ∀ b ∈ blocks, b.length ≤ 2 * origin)
    (hmeets : blocks.IsChain OverlapBlock.Meets) {i k t : Nat} {p q : TimelineBlock}
    (hp : (placeBlocks origin position blocks)[i]? = some p)
    (hq : (placeBlocks origin position blocks)[k]? = some q) (hpt : p.Covers t) (hqt : q.Covers t) :
    k ≤ i + 1 := by
  induction blocks generalizing position i k with
  | nil => cases hp
  | cons b blocks ih =>
    obtain ⟨hhead, htail⟩ := List.isChain_cons.mp hmeets
    have rest : ∀ b' ∈ blocks, b'.length ≤ 2 * origin := fun b' hb =>
      hlen b' (List.mem_cons_of_mem _ hb)
    cases k with
    | zero => omega
    | succ k =>
    cases i with
    | succ i =>
      have := ih rest htail hp hq
      omega
    | zero =>
    cases k with
    | zero => exact Nat.le_refl _
    | succ k =>
    cases blocks with
    | nil => cases hq
    | cons b' blocks =>
      -- the block in between is as long as both slopes together, so the two windows do not meet
      exfalso
      cases hp
      obtain ⟨hhead', htail'⟩ := List.isChain_cons.mp htail
      have opens : origin + (position + b.length + b'.length) ≤
          q.start + q.block.shape.opens + (b'.length + 1) / 2 := le_opens_of_mem
        (fun b'' hb => rest b'' (List.mem_cons_of_mem _ hb)) htail'
        (fun b'' hb => (hhead' b'' hb).leftBits_le) q (List.mem_of_getElem? hq)
      have short := hlen b List.mem_cons_self
      have even' := b'.length_even
      have slope := (hhead b' rfl).rightBits_le
      have closes := b.closes_eq
      have inside := hqt.opens_le
      have outside := hpt.lt_closes
      dsimp only at outside
      omega

end places

end Wma
