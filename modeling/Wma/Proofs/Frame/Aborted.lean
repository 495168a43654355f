import Wma.Proofs.Frame.Blocks
import Wma.Proofs.Frame.Silence
import Wma.Proofs.Synthesis.Timeline

/-!
# What a damaged frame leaves in the overlap buffers

The samples of a block go into the overlap buffers as soon as its spectra are known, before the next
block of the frame is read. Nothing that is read touches them (`Channel.kept_overlap`), so damage in
a block leaves them as the blocks before it have made them: a frame that ends with damage has added
its complete blocks, and nothing takes them back (`Frame.overlap_of_decode_eq_corrupt`). A frame that
is not split has none.
-/

namespace Wma

open Parse

variable {s : Stream}

/-! ### Reading -/

theorem Channel.kept_overlap (o : Array Int32) : Channel.Kept s fun c => c.overlap = o where
  coded _ _ h := h
  noiseBands _ _ h := h
  envelope _ _ _ _ h := h
  levels _ _ h := h
  spectrum _ _ h := h

/-- The overlap buffers are those of `x`, and the block is as in `B`. -/
abbrev FrameState.Overlaps (x : FrameState) (B : BlockState → Prop) : FrameState → Prop :=
  FrameState.Each (fun place c => c.overlap = (x.channels.get place).overlap) B

/-! ### Adding a block -/

/-- The operation does not find the stream damaged. -/
def Intact {α : Type} (x : Except Error α) : Prop :=
  ∀ cause, x ≠ .error (.corrupt cause)

namespace Intact

variable {α β : Type}

theorem ok (a : α) : Intact (.ok a) := nofun

theorem bind {x : Except Error β} {f : β → Except Error α} (hx : Intact x)
    (hf : ∀ b, Intact (f b)) : Intact (x >>= f) := by
  intro cause h
  cases x with
  | ok b => exact hf b cause h
  | error e =>
    cases h
    exact hx cause rfl

theorem ite {c : Prop} [Decidable c] {x y : Except Error α} (hx : Intact x) (hy : Intact y) :
    Intact (if c then x else y) := by
  split
  · exact hx
  · exact hy

theorem slice (a : Array α) (start count : Nat) : Intact (Buffer.slice a start count) :=
  ite (ok _) nofun

theorem splice (a : Array α) (start : Nat) (b : Array α) : Intact (Buffer.splice a start b) :=
  ite (ok _) nofun

theorem rest (a : Array α) (start : Nat) : Intact (Buffer.rest a start) :=
  ite (ok _) nofun

theorem replaceRest (a : Array α) (start : Nat) (b : Array α) :
    Intact (Buffer.replaceRest a start b) :=
  ite (ok _) nofun

theorem checkedMargin (bits neighbourBits : Nat) :
    Intact (BlockShape.checkedMargin bits neighbourBits) :=
  bind (ite (ok _) nofun) fun _ => bind (ite (ok _) nofun) fun _ => ok _

theorem fadeAt (f : Int32 → Int32 → Int32 → Int32) (start count : Nat)
    (out input slope : Array Int32) : Intact (BlockShape.fadeAt f start count out input slope) :=
  bind (slice _ _ _) fun _ => bind (slice _ _ _) fun _ => splice _ _ _

theorem addLeft (shape : BlockShape) (out input : Array Int32) : Intact (shape.addLeft out input) :=
  ite (ok _) <| bind (checkedMargin _ _) fun _ => bind (fadeAt _ _ _ _ _ _) fun _ =>
    bind (rest _ _) fun _ => replaceRest _ _ _

theorem writeRight (shape : BlockShape) (out input : Array Int32) :
    Intact (shape.writeRight out input) :=
  ite (ok _) <| bind (checkedMargin _ _) fun _ => bind (slice _ _ _) fun _ =>
    bind (splice _ _ _) fun _ => bind (fadeAt _ _ _ _ _ _) fun _ => bind (rest _ _) fun _ =>
      replaceRest _ _ _

theorem overlapAdd (shape : BlockShape) (buffer : Array Int32) (start : Nat) (input : Array Int32) :
    Intact (shape.overlapAdd buffer start input) :=
  bind (ite (ok _) nofun) fun _ => bind (ite (ok _) nofun) fun _ => bind (slice _ _ _) fun _ =>
    bind (slice _ _ _) fun _ => bind (addLeft _ _ _) fun _ => bind (writeRight _ _ _) fun _ =>
      splice _ _ _

theorem head (a : Array α) (n : Nat) : Intact (Buffer.head a n) := by
  unfold Buffer.head
  split
  · exact ok _
  · exact nofun

theorem transform (block : BlockState) (place : ChannelPlace) (l : Lane) :
    Intact (l.transform block place) := by
  refine bind (ite (ok _) nofun) fun _ => ite ?_ (ite (ok _) (ok _))
  refine bind ?_ fun x => ok _
  exact bind (head _ _) fun _ => bind (head _ _) fun _ => ok _

theorem synthesize (frameLength : Nat) (block : BlockState) (place : ChannelPlace) (l : Lane) :
    Intact (l.synthesize frameLength block place) := by
  refine bind (transform _ _ _) fun work => bind (ite (ok _) nofun) fun start => ?_
  exact bind (overlapAdd _ _ _ _) fun overlap => ok _

theorem values (c : Config) (x : FrameState) : Intact (x.values c) :=
  bind (slice _ _ _) fun _ => bind (slice _ _ _) fun _ => ok _

end Intact

/-- The buffer `o'` is `o` with one more block, which is `position` samples into its frame. -/
def OneMore (frameLength position : Nat) (shape : BlockShape) (o o' : Array Int32) : Prop :=
  ∃ b : OverlapBlock, b.shape = shape ∧
    b.shape.overlapAt frameLength position o b.samples = .ok o'

namespace Lane

variable {frameLength : Nat} {block : BlockState} {place : ChannelPlace} {l m : Lane}

theorem oneMore_of_synthesize (hb : minBlockBits ≤ block.bits) (hm : block.Measured)
    (h : l.synthesize frameLength block place = .ok m) :
    OneMore frameLength block.position block.shape l.channel.overlap m.channel.overlap := by
  rw [synthesize_eq hm] at h
  obtain ⟨work, -, h⟩ := ok_of_bind h
  obtain ⟨overlap, hoverlap, h⟩ := ok_of_bind h
  cases h
  obtain ⟨start, -, hadd⟩ := ok_of_bind hoverlap
  have enough := BlockShape.samples_le_of_overlapAdd hadd
  exact ⟨⟨block.shape, work.samples, hb, enough⟩, rfl, hoverlap⟩

end Lane

namespace FrameState

theorem wp_synthesizeLane (frameLength : Nat) (block : BlockState) (place : ChannelPlace)
    (sc : Scan FrameState) :
    (Parse.focus (lane place) (setLane place)
      (Parse.updateM (·.synthesize frameLength block place))).wp
        (fun _ t => ∃ m, (sc.state.lane place).synthesize frameLength block place = .ok m ∧
          t.state = sc.state.setLane place m)
        (fun e _ => ∀ cause, e ≠ .corrupt cause) sc := by
  rw [wp_focus, wp_updateM]
  dsimp only
  cases h : (sc.state.lane place).synthesize frameLength block place with
  | ok m => exact ⟨m, rfl, rfl⟩
  | error e =>
    rintro cause rfl
    exact Intact.synthesize _ _ _ _ cause h

/-- Synthesis adds a block to the overlap buffer of each channel. If it fails, that is no damage of
the stream. -/
theorem wp_synthesize_of_measured (c : Config) {sc : Scan FrameState}
    (hm : sc.state.block.Measured) :
    (synthesize c).wp (fun _ t => t.state.block = sc.state.block ∧ ∀ place,
        OneMore c.frameLength sc.state.block.position sc.state.block.shape
          (sc.state.channels.get place).overlap (t.state.channels.get place).overlap)
      (fun e _ => ∀ cause, e ≠ .corrupt cause) sc := by
  obtain ⟨reader, block, channels, noise, work⟩ := sc
  simp only [synthesize, eachChannel, wp_bind, wp_state]
  by_cases hb : minBlockBits ≤ block.bits ∧ block.bits ≤ maxBlockBits
  · have check : checkBlock block.bits = .ok () := if_pos hb
    have added : ∀ {place : ChannelPlace} {l m : Lane},
        l.synthesize c.frameLength block place = .ok m →
        OneMore c.frameLength block.position block.shape l.channel.overlap m.channel.overlap :=
      fun h => Lane.oneMore_of_synthesize hb.1 hm h
    rw [check, wp_ofExcept_ok]
    cases channels with
    | mono only =>
      refine wp_forM_cons.2 (wp_mono (wp_synthesizeLane _ _ _ _) (fun _ t ht => ?_) fun _ _ he => he)
      obtain ⟨m, hl, ht⟩ := ht
      rw [wp_forM_nil, ht]
      exact ⟨rfl, fun _ => added hl⟩
    | stereo left right =>
      refine wp_forM_cons.2 (wp_mono (wp_synthesizeLane _ _ _ _) (fun _ t ht => ?_) fun _ _ he => he)
      obtain ⟨m, hl, ht⟩ := ht
      refine wp_forM_cons.2 (wp_mono (wp_synthesizeLane _ _ _ _) (fun _ u hu => ?_) fun _ _ he => he)
      obtain ⟨n, hr, hu⟩ := hu
      rw [ht] at hr hu
      rw [wp_forM_nil, hu]
      refine ⟨rfl, fun place => ?_⟩
      cases place with
      | first => exact added hl
      | second => exact added hr
  · have check : checkBlock block.bits = .error (.setup (.blockSize block.bits)) := if_neg hb
    rw [check, wp_ofExcept_error]
    nofun

end FrameState

/-! ### Reading a block -/

namespace BlockState

variable {c : Config}

/-- A block that has been read stands where it stood, and is as long as its shape says; if frames
are not split, it is as long as a frame. -/
structure Next (c : Config) (p : Nat) (b : BlockState) : Prop where
  position : b.position = p
  measured : b.Measured
  whole : c.variableBlocks = false → b.bits = c.frameBits

theorem wp_read_next (sc : Scan BlockState) :
    (read c).wp (fun _ t => t.state.Next c sc.state.position) (fun _ _ => True) sc := by
  have lengths := wp_and (maintains_readLengths (lengthened_position sc.state.position) sc rfl)
    (wp_readLengths_announced (c := c) sc)
  refine wp_mono (wp_read_placed (C := fun _ => True)
    (P := fun b => b.position = sc.state.position ∧ Announced c sc.state b)
    (wp_mono lengths (fun _ _ ht => ht) fun _ _ _ => trivial) fun _ _ _ => ⟨trivial, trivial⟩)
    (fun _ t ht => ?_) fun _ _ _ => trivial
  obtain ⟨b, ⟨position, announced⟩, hb, -⟩ := ht
  rw [hb]
  exact ⟨position, rfl, announced.whole⟩

end BlockState

namespace Frame

/-- What one more block does to the state. -/
structure Adds (c : Config) (x y : FrameState) : Prop where
  position : y.block.position = x.block.position + 2 ^ y.block.bits
  whole : c.variableBlocks = false → y.block.bits = c.frameBits
  overlap : ∀ place, OneMore c.frameLength x.block.position y.block.shape
    (x.channels.get place).overlap (y.channels.get place).overlap

/-- A block whose channels are ready is added to the overlap buffers that it found. -/
theorem wp_synthesize_adds {c : Config} {x : FrameState} {sc : Scan FrameState}
    (h : FrameState.Overlaps x (·.Next c x.block.position) sc.state) :
    (do
      FrameState.synthesize c
      FrameState.onBlock <| Parse.update fun b => { b with position := b.position + b.length }
      : Parse FrameState Unit).wp (fun _ t => Adds c x t.state)
        (fun e _ => ∀ cause, e ≠ .corrupt cause) sc := by
  have next := h.block
  have position : sc.state.block.position = x.block.position := next.position
  rw [wp_bind]
  refine wp_mono (FrameState.wp_synthesize_of_measured c next.measured) (fun _ t ht => ?_)
    fun _ _ he => he
  obtain ⟨hblock, hadded⟩ := ht
  unfold FrameState.onBlock
  rw [wp_focus, wp_update, hblock]
  refine ⟨?_, next.whole, fun place => ?_⟩
  · show sc.state.block.position + sc.state.block.length = _
    rw [position, next.measured]
  · have added := hadded place
    rw [h.channel, position] at added
    exact added

/-- A block that is read is added to the overlap buffers. If it is damaged, they stay as they are. -/
theorem wp_readBlock (s : Stream) (sc : Scan FrameState) :
    (readBlock s).wp (fun _ t => Adds s.config sc.state t.state)
      (fun e t => (∃ cause, e = .corrupt cause) → ∀ place,
        (t.state.channels.get place).overlap = (sc.state.channels.get place).overlap) sc := by
  unfold readBlock FrameState.onBlock
  simp only [wp_bind, wp_focus]
  refine wp_mono (BlockState.wp_read_next _) (fun _ t ht => ?_) fun _ _ _ _ _ => trivial
  have start : FrameState.Overlaps sc.state (·.Next s.config sc.state.block.position)
      { sc.state with block := t.state } := ⟨fun _ => rfl, ht⟩
  refine wp_mono (maintains_readCoded s.config
    (fun _ _ _ h => h) (fun b _ hb => ⟨hb.position, hb.measured, hb.whole⟩) ⟨t.reader, _⟩ start) ?_
    fun _ _ he _ => he.channel
  intro _ u hu
  rw [wp_state]
  have unharmed : ∀ {e : Error} {P : Prop}, (∀ cause, e ≠ .corrupt cause) →
      (∃ cause, e = .corrupt cause) → P :=
    fun he hc => hc.elim fun cause hcause => absurd hcause (he cause)
  split
  · rw [wp_bind]
    refine wp_mono (FrameState.maintains_readSpectra (fun _ => Channel.kept_overlap _) u hu)
      (fun _ v hv => ?_) fun _ _ he _ => he.channel
    exact wp_mono (wp_synthesize_adds hv) (fun _ _ h => h) fun _ _ he hc => unharmed he hc
  · exact wp_mono (wp_synthesize_adds hu) (fun _ _ h => h) fun _ _ he hc => unharmed he hc

/-! ### Frames -/

/-- Reads `n` blocks. -/
def readMany (s : Stream) : (n : Nat) → Parse FrameState Unit
  | 0 => pure ()
  | n + 1 => do
    readBlock s
    readMany s n

/-- Damage to a frame is damage to the block behind those that have been read. -/
theorem exists_of_readBlocks_eq_corrupt {cause : StreamCause} {t : Scan FrameState} :
    ∀ {limit : Nat} {sc : Scan FrameState}, sc.state.block.position < s.config.frameLength →
      readBlocks s limit sc = .error (.corrupt cause) t →
      ∃ n u, readMany s n sc = .ok () u ∧ u.state.block.position < s.config.frameLength ∧
        readBlock s u = .error (.corrupt cause) t
  | 0, _, _, h => by cases h
  | limit + 1, sc, hp, h => by
    unfold readBlocks at h
    rcases error_bind h with h | ⟨_, u, hu, h⟩
    · exact ⟨0, sc, rfl, hp, h⟩
    · rcases error_bind h with h | ⟨_, _, hstate, h⟩
      · cases h
      obtain ⟨rfl, rfl⟩ := ok_state hstate
      split at h
      · rename_i lacking
        obtain ⟨n, v, hrun, hv, hfail⟩ := exists_of_readBlocks_eq_corrupt lacking h
        exact ⟨n + 1, v, (bind_of_ok hu _).trans hrun, hv, hfail⟩
      · cases h

theorem exists_of_decode_eq_corrupt {sc t : Scan FrameState} {cause : StreamCause}
    (h : decode s sc = .error (.corrupt cause) t) :
    ∃ n u, readMany s n ⟨sc.reader,
        { sc.state with block := { sc.state.block with position := 0 } }⟩ = .ok () u ∧
      u.state.block.position < s.config.frameLength ∧
      readBlock s u = .error (.corrupt cause) t := by
  rcases error_bind h with h | ⟨_, v, hv, h⟩
  · cases h
  cases hv
  rcases error_bind h with h | ⟨_, w, -, h⟩
  · exact exists_of_readBlocks_eq_corrupt (Nat.two_pow_pos _) h
  -- Behind the last block, only the buffers could be too short.
  rcases error_bind h with h | ⟨_, _, hstate, h⟩
  · cases h
  obtain ⟨rfl, rfl⟩ := ok_state hstate
  rcases error_bind h with h | ⟨values, _, -, h⟩
  · cases hvalues : w.state.values s.config with
    | ok values =>
      rw [hvalues] at h
      cases h
    | error e =>
      rw [hvalues] at h
      cases h
      exact absurd hvalues (Intact.values _ _ cause)
  · cases h

/-- What a row of blocks does to the state. -/
structure AddsMany (c : Config) (n : Nat) (x y : FrameState) : Prop where
  whole : c.variableBlocks = false → y.block.position = x.block.position + n * c.frameLength
  overlap : ∀ place, ∃ blocks : List OverlapBlock, blocks.length = n ∧
    x.block.position + (blocks.map OverlapBlock.length).sum = y.block.position ∧
    overlapBlocks c.frameLength x.block.position (x.channels.get place).overlap blocks =
      .ok (y.channels.get place).overlap

theorem addsMany_of_readMany : ∀ {n : Nat} {sc t : Scan FrameState},
    readMany s n sc = .ok () t → AddsMany s.config n sc.state t.state
  | 0, sc, _, h => by
    cases h
    exact ⟨fun _ => by simp, fun place => ⟨[], rfl, rfl, rfl⟩⟩
  | n + 1, sc, t, h => by
    obtain ⟨_, u, hu, h⟩ := ok_bind h
    have first := wp_ok (wp_readBlock s sc) hu
    have rest := addsMany_of_readMany h
    refine ⟨fun hwhole => ?_, fun place => ?_⟩
    · rw [rest.whole hwhole, first.position, first.whole hwhole, Nat.add_mul, Nat.one_mul,
        Nat.add_comm (n * _), Nat.add_assoc]
      rfl
    · obtain ⟨b, hb, hadd⟩ := first.overlap place
      obtain ⟨blocks, hlength, hsum, hrun⟩ := rest.overlap place
      have length : b.length = 2 ^ u.state.block.bits := by
        unfold OverlapBlock.length
        rw [hb]
        rfl
      rw [first.position] at hsum hrun
      refine ⟨b :: blocks, by rw [List.length_cons, hlength], ?_, ?_⟩
      · rw [List.map_cons, List.sum_cons, length, ← Nat.add_assoc]
        exact hsum
      · unfold overlapBlocks
        rw [hadd, length]
        exact hrun

/-- A frame that ends with damage has read some blocks in full, and none of them is taken back: its
overlap buffers are left as these blocks have made them, which are shorter than the frame together.
So they are as before if damage is found in the first block, which is where it is found if frames
are not split. -/
theorem overlap_of_decode_eq_corrupt {s : Stream} {sc t : Scan FrameState} {cause : StreamCause}
    (h : decode s sc = .error (.corrupt cause) t) :
    ∃ n u, readMany s n ⟨sc.reader,
        { sc.state with block := { sc.state.block with position := 0 } }⟩ = .ok () u ∧
      readBlock s u = .error (.corrupt cause) t ∧
      (∀ place, (t.state.channels.get place).overlap = (u.state.channels.get place).overlap ∧
        ∃ blocks : List OverlapBlock, blocks.length = n ∧
          (blocks.map OverlapBlock.length).sum < s.config.frameLength ∧
          overlapBlocks s.config.frameLength 0 (sc.state.channels.get place).overlap blocks =
            .ok (t.state.channels.get place).overlap) ∧
      (s.config.variableBlocks = false → n = 0) ∧
      (n = 0 → ∀ place,
        (t.state.channels.get place).overlap = (sc.state.channels.get place).overlap) := by
  have positive : 0 < s.config.frameLength := Nat.two_pow_pos _
  obtain ⟨n, u, hrun, hlacks, hfail⟩ := exists_of_decode_eq_corrupt h
  have added := addsMany_of_readMany hrun
  have kept : ∀ place,
      (t.state.channels.get place).overlap = (u.state.channels.get place).overlap :=
    wp_error (wp_readBlock s u) hfail ⟨cause, rfl⟩
  refine ⟨n, u, hrun, hfail, fun place => ⟨kept place, ?_⟩, fun hwhole => ?_, fun hn place => ?_⟩
  · obtain ⟨blocks, hlength, hsum, hover⟩ := added.overlap place
    rw [kept place]
    exact ⟨blocks, hlength, by dsimp only at hsum; omega, hover⟩
  · have position := added.whole hwhole
    dsimp only at position
    by_contra hn
    have whole : s.config.frameLength ≤ n * s.config.frameLength :=
      Nat.le_mul_of_pos_left _ (Nat.pos_of_ne_zero hn)
    omega
  · subst hn
    cases hrun
    exact kept place

/-- Two frames of silence off one reader. The first announces a block of half a frame; the second has
one such block and announces a block that does not fit. -/
theorem overlap_of_decode_eq_corrupt_tiny : ∃ s : Stream, s.config = .tiny ∧ ∃ values u,
    decode s ⟨.ofList 0 ([false, false, false, false, false, false, false, false, true] ++
      List.replicate 12 false), .initial .tiny⟩ = .ok values u ∧
    ∃ t, decode s u = .error (.corrupt (.blockOverrun 2048 1024)) t ∧
      ∃ n v, readMany s n ⟨u.reader,
          { u.state with block := { u.state.block with position := 0 } }⟩ = .ok () v ∧
        ∀ place, (t.state.channels.get place).overlap = (v.state.channels.get place).overlap := by
  obtain ⟨s, hs, hc⟩ := Stream.exists_tiny
  have width : s.config.selectorBits = 3 := by rw [hc]; exact Config.selectorBits_tiny
  have stereo : s.config.channels = .stereo := by rw [hc]; rfl
  have split : s.config.variableBlocks = true := by rw [hc]; rfl
  have sizes : s.config.sizeCount = 5 := by rw [hc]; rfl
  have size : s.config.frameBits = 11 := by rw [hc]; rfl
  obtain ⟨bits, hbits⟩ : ∃ bits, [false, false, false, false, false, false, false, false, true] ++
    List.replicate 12 false = bits := ⟨_, rfl⟩
  have selector : ∀ (r : BitReader) k, s.config.selector r k =
      Bits.value ((r.remaining.drop (k * 3)).take 3) := fun r k => by rw [Config.selector, width]
  have flags : (BitReader.ofList 0 bits).remaining.drop (3 * s.config.selectorBits) =
      false :: false :: false :: List.replicate 9 false := by
    rw [width, BitReader.remaining_ofList, ← hbits]
    decide
  have start : (Scan.mk (BitReader.ofList 0 bits) (FrameState.initial s.config)).state.Sound
    s.config := FrameState.sound_initial hs.config
  have first := wp_decode_silent (E := fun _ _ => False) hs stereo split (by omega) start rfl
    (fun k hk => by
      rw [selector, BitReader.remaining_ofList, sizes, ← hbits]
      revert k
      decide)
    (by
      rw [selector, BitReader.remaining_ofList, ← hbits]
      decide) flags
  obtain ⟨values, u, hu, hm, hsound, hreset, -, hnext⟩ := exists_of_wp first
  have behind : u.reader.remaining = List.replicate 9 false := by
    rw [hm.remaining, width, BitReader.remaining_ofList, ← hbits]
    decide
  rw [selector, BitReader.remaining_ofList, size, ← hbits] at hnext
  have next : u.state.block.nextBits = 10 := hnext
  have flags' : u.reader.remaining.drop s.config.selectorBits =
      false :: false :: false :: List.replicate 3 false := by
    rw [width, behind]
    decide
  have fits : s.config.selector (.ofList 0 (List.replicate 3 false)) 0 < s.config.sizeCount := by
    rw [selector, BitReader.remaining_ofList, sizes]
    decide
  obtain ⟨e, t, ht, he⟩ := exists_error_of_wp <| wp_decode_of_stale (Q := fun _ _ => False) hs stereo
    split (by omega) hsound hreset (by omega)
    (by
      rw [selector, behind]
      decide) flags' fits (by rw [width]; decide)
  have length : s.config.frameLength = 2048 := by unfold Config.frameLength; rw [size]
  rw [next, length] at he
  subst he
  obtain ⟨n, v, hrun, -, hkept, -⟩ := overlap_of_decode_eq_corrupt ht
  refine ⟨s, hc, values, u, ?_, t, ht, n, v, hrun, fun place => (hkept place).1⟩
  rw [hbits, ← hc]
  exact hu

end Frame

end Wma
