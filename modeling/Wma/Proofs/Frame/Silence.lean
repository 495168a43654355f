import Wma.Proofs.Bits.List
import Wma.Proofs.Frame.Complete

/-!
# Blocks of silence

A block of which no channel is coded takes the sizes that it states and a few flags. From any sound
state, two channels of silence are decoded (`Frame.wp_readBlock_silent`), and so is a frame of one
such block if it states its size (`Frame.wp_decode_silent`). A frame that takes the size of its first
block from the frame before may be refused, however silent it is (`Frame.wp_decode_of_stale`).
-/

namespace Wma

open Parse

/-! ### Sizes -/

/-- The index of a block size that the selector `k` places ahead stands for. -/
def Config.selector (c : Config) (r : BitReader) (k : Nat) : Nat :=
  Bits.value ((r.remaining.drop (k * c.selectorBits)).take c.selectorBits)

theorem Config.selector_congr (c : Config) {r q : BitReader} (h : r.remaining = q.remaining) :
    c.selector r = c.selector q := by
  unfold selector
  rw [h]

theorem Config.selector_moved (c : Config) {r q : BitReader} (h : r.Moved c.selectorBits q)
    (k : Nat) : c.selector q k = c.selector r (k + 1) := by
  unfold selector
  rw [h.remaining, List.drop_drop, Nat.add_mul, Nat.one_mul, Nat.add_comm]

theorem Config.selector_zeros (c : Config) {n k : Nat} :
    c.selector (.ofList 0 (List.replicate n false)) k = 0 := by
  unfold selector
  rw [BitReader.remaining_ofList, List.drop_replicate, List.take_replicate]
  exact (Bits.value_append_zeros [] _).trans (Nat.zero_mul _)

/-- What stands behind sizes that are zeros. -/
theorem BitReader.drop_remaining_zeros {m k n : Nat} (h : m + (k + 3) = n) :
    (BitReader.ofList 0 (List.replicate n false)).remaining.drop m =
      false :: false :: false :: List.replicate k false := by
  rw [BitReader.remaining_ofList, List.drop_replicate, ← h, Nat.add_sub_cancel_left]
  rfl

namespace BlockState

variable {c : Config} {E : Error → Scan BlockState → Prop} {s : Scan BlockState}

theorem wp_readBits {Q : Nat → Scan BlockState → Prop} (hc : c.Sound) (hw : c.selectorBits ≤ 32)
    (hleft : c.selectorBits ≤ s.reader.left) (hsel : c.selector s.reader 0 < c.sizeCount)
    (hQ : ∀ q, s.reader.Moved c.selectorBits q →
      Q (c.frameBits - c.selector s.reader 0) ⟨q, s.state⟩) :
    (readBits c).wp Q E s := by
  have sizes := hc.sizeCount_le
  have value : Bits.value (s.reader.remaining.take c.selectorBits) = c.selector s.reader 0 := by
    unfold Config.selector
    rw [Nat.zero_mul, List.drop_zero]
  unfold readBits
  simp only [wp_bind, wp_require]
  refine wp_read_of_le hw hleft fun q hm => ?_
  rw [value, if_pos hsel]
  have difference : difference c.frameBits (c.selector s.reader 0) =
      .ok (c.frameBits - c.selector s.reader 0) := if_pos (by unfold minBlockBits at sizes; omega)
  rw [difference, wp_ofExcept_ok]
  exact hQ q hm

/-- The last step of reading sizes: a block that goes beyond its frame is refused. -/
theorem wp_read_of_readLengths {Q : Unit → Scan BlockState → Prop}
    (h : (readLengths c).wp (fun _ t => t.state.bits < 64 ∧
      let b := { t.state with length := 2 ^ t.state.bits }
      if b.position + b.length ≤ c.frameLength then Q () ⟨t.reader, b⟩
      else E (.corrupt (.blockOverrun b.length b.position)) ⟨t.reader, b⟩) E s) :
    (read c).wp Q E s := by
  simp only [read, wp_bind]
  refine wp_mono h (fun _ t ht => ?_) fun _ _ he => he
  have shift : checkShift t.state.bits = .ok () := if_pos ht.1
  simp only [wp_state, shift, wp_ofExcept_ok, wp_update, wp_require]
  exact ht.2

/-- A block that states all three sizes. -/
theorem wp_read_of_reset {Q : Unit → Scan BlockState → Prop} (hc : c.Sound)
    (hvar : c.variableBlocks = true) (hw : c.selectorBits ≤ 32) (hreset : s.state.reset = true)
    (hleft : 3 * c.selectorBits ≤ s.reader.left)
    (hsel : ∀ k < 3, c.selector s.reader k < c.sizeCount)
    (hfit : s.state.position + 2 ^ (c.frameBits - c.selector s.reader 1) ≤ c.frameLength)
    (hQ : ∀ q, s.reader.Moved (3 * c.selectorBits) q → Q () ⟨q, { s.state with
      prevBits := c.frameBits - c.selector s.reader 0
      bits := c.frameBits - c.selector s.reader 1
      nextBits := c.frameBits - c.selector s.reader 2
      reset := false
      length := 2 ^ (c.frameBits - c.selector s.reader 1) }⟩) :
    (read c).wp Q E s := by
  have short := hc.frameBits_le
  unfold maxBlockBits at short
  refine wp_read_of_readLengths ?_
  unfold readLengths
  rw [if_pos hvar]
  simp only [readReset, wp_bind, wp_state, hreset, ↓reduceIte, wp_update]
  refine wp_readBits hc hw (by dsimp only; omega) (hsel 0 (by decide)) fun q hm => ?_
  have left := hm.left
  refine wp_readBits hc hw (by dsimp only at left ⊢; omega)
    (by rw [c.selector_moved hm]; exact hsel 1 (by decide)) fun q' hm' => ?_
  have left' := hm'.left
  refine wp_readBits hc hw (by dsimp only at left left' ⊢; omega)
    (by rw [c.selector_moved hm', c.selector_moved hm]; exact hsel 2 (by decide)) fun q'' hm'' => ?_
  have moved := (hm.trans hm').trans hm''
  rw [show c.selectorBits + c.selectorBits + c.selectorBits = 3 * c.selectorBits by omega] at moved
  simp only [c.selector_moved hm', c.selector_moved hm, hfit, ↓reduceIte]
  exact ⟨by omega, hQ q'' moved⟩

/-- A block whose own size was stated by the block before. -/
theorem wp_read_of_advance {Q : Unit → Scan BlockState → Prop} (hc : c.Sound)
    (hvar : c.variableBlocks = true) (hw : c.selectorBits ≤ 32) (hreset : s.state.reset = false)
    (hnext : s.state.nextBits ≤ c.frameBits) (hleft : c.selectorBits ≤ s.reader.left)
    (hsel : c.selector s.reader 0 < c.sizeCount)
    (hQ : ∀ q, s.reader.Moved c.selectorBits q →
      let b := { s.state with
        prevBits := s.state.bits
        bits := s.state.nextBits
        nextBits := c.frameBits - c.selector s.reader 0
        reset := false
        length := 2 ^ s.state.nextBits }
      if b.position + b.length ≤ c.frameLength then Q () ⟨q, b⟩
      else E (.corrupt (.blockOverrun b.length b.position)) ⟨q, b⟩) :
    (read c).wp Q E s := by
  have short := hc.frameBits_le
  unfold maxBlockBits at short
  refine wp_read_of_readLengths ?_
  unfold readLengths
  rw [if_pos hvar]
  simp only [wp_bind, wp_state, hreset, Bool.false_eq_true, ↓reduceIte, wp_update, advance]
  exact wp_readBits hc hw hleft hsel fun q hm => ⟨by dsimp only; omega, hQ q hm⟩

end BlockState

/-! ### Blocks -/

namespace Frame

open FrameState

variable {E : Error → Scan FrameState → Prop} {B : BlockState → Prop}

/-- Three zeros: the channels are left and right, and neither is coded. -/
theorem wp_readCoded_silent {c : Config} (hstereo : c.channels = .stereo) {sc : Scan FrameState}
    (h : sc.state.SoundAt c B) (hB : ∀ b midSide, B b → B { b with midSide }) {bits : List Bool}
    (hbits : sc.reader.remaining = false :: false :: false :: bits) :
    (readCoded c).wp (fun _ t => sc.reader.Moved 3 t.reader ∧ t.state.SoundAt c B ∧
      t.state.block = { sc.state.block with midSide := false } ∧
      t.state.channels.toList.any (·.coded) = false) E sc := by
  obtain ⟨reader, state⟩ := sc
  obtain ⟨block, channels, noise, work⟩ := state
  have layout := h.layout
  rw [hstereo] at layout
  cases channels with
  | mono _ => cases layout
  | stereo first second =>
    unfold readCoded
    rw [if_pos hstereo, wp_bind]
    refine wp_readBit_of_cons hbits fun q hq hbits' => ?_
    simp only [onBlock, eachChannel, Lane.onChannel, wp_bind, wp_focus, wp_update, wp_state,
      PerChannel.places, wp_forM_cons, wp_forM_nil]
    refine wp_readBit_of_cons hbits' fun q' hq' hbits'' => ?_
    refine wp_readBit_of_cons hbits'' fun q'' hq'' _ => ?_
    refine ⟨(hq.trans hq').trans hq'', ?_, rfl, rfl⟩
    have hfirst := h.channels .first
    have hsecond := h.channels .second
    refine ⟨hB _ false h.block, h.layout, fun place => ?_, h.noise, h.work⟩
    cases place with
    | first => exact { hfirst with }
    | second => exact { hsecond with }

/-- A block of silence that is known once its sizes are read. -/
theorem wp_readBlock_silent {s : Stream} (hs : s.Sound) (hstereo : s.config.channels = .stereo)
    {Q : Unit → Scan FrameState → Prop} {sc : Scan FrameState} (h : sc.state.Sound s.config)
    (hread : (BlockState.read s.config).wp (fun _ t => t.state.Ready s.config ∧
      (∃ bits, t.reader.remaining = false :: false :: false :: bits) ∧
      ∀ u, t.reader.Moved 3 u.reader → u.state.Sound s.config →
        u.state.block =
          { t.state with midSide := false, position := t.state.position + t.state.length } →
        Q () u) (fun e t => E e ⟨t.reader, { sc.state with block := t.state }⟩)
      ⟨sc.reader, sc.state.block⟩) :
    (readBlock s).wp Q E sc := by
  simp only [readBlock_eq, onBlock, wp_bind, wp_focus]
  refine wp_mono hread (fun _ t ht => ?_) fun _ _ he => he
  obtain ⟨ready, ⟨bits, hbits⟩, hQ⟩ := ht
  have ready' : SoundAt s.config (·.Ready s.config) { sc.state with block := t.state } :=
    h.setBlock ready
  refine wp_mono (wp_readCoded_silent hstereo ready'
    (fun b _ hb => { hb with }) hbits) ?_
    fun _ _ he => he
  rintro _ u ⟨hm, hu, hblock, hsilent⟩
  refine wp_finishBlock_silent hs.config hu hsilent fun v hreader hv hblock' => ?_
  exact hQ v (hreader ▸ hm) hv (by rw [hblock', hblock])

/-- A frame of one block of silence that states its own size. -/
theorem wp_decode_silent {s : Stream} (hs : s.Sound) (hstereo : s.config.channels = .stereo)
    (hvar : s.config.variableBlocks = true) (hw : s.config.selectorBits ≤ 32)
    {sc : Scan FrameState} (h : sc.state.Sound s.config) (hreset : sc.state.block.reset = true)
    (hsel : ∀ k < 3, s.config.selector sc.reader k < s.config.sizeCount)
    (hfull : s.config.selector sc.reader 1 = 0) {bits : List Bool}
    (hbits : sc.reader.remaining.drop (3 * s.config.selectorBits) =
      false :: false :: false :: bits) :
    (decode s).wp (fun _ t => sc.reader.Moved (3 * s.config.selectorBits + 3) t.reader ∧
      t.state.Sound s.config ∧ t.state.block.reset = false ∧
      t.state.block.bits = s.config.frameBits ∧
      t.state.block.nextBits = s.config.frameBits - s.config.selector sc.reader 2) E sc := by
  have full : (0 : Nat) + 2 ^ (s.config.frameBits - s.config.selector sc.reader 1) ≤
      s.config.frameLength := by
    rw [hfull, Nat.zero_add]
    exact Nat.le_refl _
  have sound := h.begin
  obtain ⟨limit, hlimit⟩ : ∃ k, s.config.frameLength = k + 1 :=
    ⟨_, (Nat.succ_pred_eq_of_pos (Nat.two_pow_pos _)).symm⟩
  refine wp_decode_of_readBlocks ?_
  rw [hlimit]
  unfold readBlocks
  rw [wp_bind]
  refine wp_readBlock_silent hs hstereo sound ?_
  refine BlockState.wp_read_of_reset hs.config hvar hw hreset (BitReader.le_left_of_drop hbits) hsel
    full fun q hm => ⟨?_, ⟨bits, by rw [hm.remaining, hbits]⟩, fun u hu husound hblock => ?_⟩
  · have stated : ∀ k < 3, s.config.IsBlockBits
        (s.config.frameBits - s.config.selector sc.reader k) := fun k hk => ⟨_, hsel k hk, rfl⟩
    exact ⟨⟨stated 0 (by decide), stated 1 (by decide), stated 2 (by decide)⟩, rfl, full⟩
  · have complete : ¬u.state.block.position < s.config.frameLength := by
      rw [hblock, hfull]
      show ¬0 + 2 ^ s.config.frameBits < 2 ^ s.config.frameBits
      omega
    rw [wp_bind, wp_state, if_neg complete]
    refine ⟨husound, fun values v hreader hblock' hv => ⟨?_, hv, ?_⟩⟩
    · rw [hreader]
      exact hm.trans hu
    · rw [hblock', hblock, hfull]
      exact ⟨rfl, rfl, rfl⟩

/-- A frame of zeros. -/
theorem wp_decode_zeros {s : Stream} (hs : s.Sound) (hstereo : s.config.channels = .stereo)
    (hvar : s.config.variableBlocks = true) (hw : s.config.selectorBits ≤ 32) {x : FrameState}
    (h : x.Sound s.config) (hreset : x.block.reset = true) {n : Nat}
    (hn : 3 * s.config.selectorBits + 3 ≤ n) :
    (decode s).wp (fun _ t => t.state.Sound s.config) E ⟨.ofList 0 (List.replicate n false), x⟩ := by
  obtain ⟨k, hk⟩ : ∃ k, 3 * s.config.selectorBits + (k + 3) = n :=
    ⟨n - 3 - 3 * s.config.selectorBits, by omega⟩
  have sizes := hs.config.sizeCount_pos
  refine wp_mono (wp_decode_silent hs hstereo hvar hw h hreset
    (fun k _ => by rw [Config.selector_zeros]; exact sizes) (Config.selector_zeros _)
    (BitReader.drop_remaining_zeros hk)) (fun _ _ ht => ht.2.1) fun _ _ he => he

/-- A block of silence whose size was stated by the block before. -/
theorem wp_readBlock_of_advance {s : Stream} (hs : s.Sound) (hstereo : s.config.channels = .stereo)
    (hvar : s.config.variableBlocks = true) (hw : s.config.selectorBits ≤ 32)
    {sc : Scan FrameState} (h : sc.state.Sound s.config) (hreset : sc.state.block.reset = false)
    (hfit : sc.state.block.position + 2 ^ sc.state.block.nextBits ≤ s.config.frameLength)
    (hsel : s.config.selector sc.reader 0 < s.config.sizeCount) (bits : List Bool)
    (hbits : sc.reader.remaining.drop s.config.selectorBits = false :: false :: false :: bits)
    {Q : Unit → Scan FrameState → Prop}
    (hQ : ∀ u, u.reader.remaining = bits → u.state.Sound s.config → u.state.block.reset = false →
      u.state.block.nextBits = s.config.frameBits - s.config.selector sc.reader 0 →
      u.state.block.position = sc.state.block.position + 2 ^ sc.state.block.nextBits → Q () u) :
    (readBlock s).wp Q E sc := by
  refine wp_readBlock_silent hs hstereo h ?_
  refine BlockState.wp_read_of_advance hs.config hvar hw hreset h.block.nextBits.le_frameBits
    (BitReader.le_left_of_drop hbits) hsel fun q hm => ?_
  dsimp only
  rw [if_pos hfit]
  refine ⟨⟨⟨h.block.bits, h.block.nextBits, _, hsel, rfl⟩, rfl, hfit⟩,
    ⟨bits, by rw [hm.remaining, hbits]⟩, fun u hu husound hblock => ?_⟩
  have rest : u.reader.remaining = bits := by
    rw [hu.remaining, hm.remaining, hbits]
    rfl
  exact hQ u rest husound (by rw [hblock]) (by rw [hblock]) (by rw [hblock])

/-- A block whose size was stated by the block before, and which does not fit. -/
theorem wp_readBlock_of_beyond {s : Stream} (hs : s.Sound) (hvar : s.config.variableBlocks = true)
    (hw : s.config.selectorBits ≤ 32) {sc : Scan FrameState} (h : sc.state.Sound s.config)
    (hreset : sc.state.block.reset = false)
    (hbeyond : s.config.frameLength < sc.state.block.position + 2 ^ sc.state.block.nextBits)
    (hsel : s.config.selector sc.reader 0 < s.config.sizeCount)
    (hleft : s.config.selectorBits ≤ sc.reader.left) {Q : Unit → Scan FrameState → Prop} :
    (readBlock s).wp Q (fun e _ => e =
      .corrupt (.blockOverrun (2 ^ sc.state.block.nextBits) sc.state.block.position)) sc := by
  simp only [readBlock, onBlock, wp_bind, wp_focus]
  refine BlockState.wp_read_of_advance hs.config hvar hw hreset h.block.nextBits.le_frameBits hleft
    hsel fun q _ => ?_
  dsimp only
  rw [if_neg (Nat.not_le.mpr hbeyond)]

/-- A frame whose first block takes its size from the block before: it is silent, shorter than the
frame, and states that a block of full size follows, which does not fit. -/
theorem wp_decode_of_stale {s : Stream} (hs : s.Sound) (hstereo : s.config.channels = .stereo)
    (hvar : s.config.variableBlocks = true) (hw : s.config.selectorBits ≤ 32)
    {sc : Scan FrameState} (h : sc.state.Sound s.config) (hreset : sc.state.block.reset = false)
    (hnext : sc.state.block.nextBits < s.config.frameBits) (hfull : s.config.selector sc.reader 0 = 0)
    {bits : List Bool}
    (hbits : sc.reader.remaining.drop s.config.selectorBits = false :: false :: false :: bits)
    (hsel : s.config.selector (.ofList 0 bits) 0 < s.config.sizeCount)
    (hlength : s.config.selectorBits ≤ bits.length) {Q : Array Int16 → Scan FrameState → Prop} :
    (decode s).wp Q (fun e _ => e =
      .corrupt (.blockOverrun s.config.frameLength (2 ^ sc.state.block.nextBits))) sc := by
  obtain ⟨limit, hlimit⟩ : ∃ k, s.config.frameLength = k + 2 :=
    ⟨s.config.frameLength - 2, by have := hs.config.frameLength_eq_or; omega⟩
  have shorter : 2 ^ sc.state.block.nextBits < s.config.frameLength :=
    Nat.pow_lt_pow_right (by decide) hnext
  have positive := Nat.two_pow_pos sc.state.block.nextBits
  refine wp_decode_of_readBlocks ?_
  rw [show readBlocks s s.config.frameLength = readBlocks s (limit + 2) by rw [hlimit]]
  unfold readBlocks
  rw [wp_bind]
  refine wp_readBlock_of_advance hs hstereo hvar hw ?begin ?reset ?fit ?first bits ?flags
    ?second
  case flags => exact hbits
  case begin => exact h.begin
  case reset => exact hreset
  case fit => exact Nat.le_trans (Nat.le_of_eq (Nat.zero_add _)) (Nat.le_of_lt shorter)
  case first =>
    rw [hfull]
    exact hs.config.sizeCount_pos
  case second =>
    intro u hrest hsound hreset' hnext' hposition
    rw [hfull, Nat.sub_zero] at hnext'
    have position : u.state.block.position = 2 ^ sc.state.block.nextBits :=
      hposition.trans (Nat.zero_add _)
    have same : s.config.selector u.reader = s.config.selector (.ofList 0 bits) :=
      s.config.selector_congr (hrest.trans (BitReader.remaining_ofList 0 bits).symm)
    rw [wp_bind, wp_state, position, if_pos shorter]
    unfold readBlocks
    rw [wp_bind]
    have beyond : s.config.frameLength < u.state.block.position + 2 ^ u.state.block.nextBits := by
      rw [position, hnext']
      unfold Config.frameLength
      omega
    refine wp_mono (wp_readBlock_of_beyond hs hvar hw hsound hreset' beyond (by rw [same]; exact hsel)
      (by rw [← BitReader.length_remaining, hrest]; exact hlength)) (fun _ _ h => h) fun e _ he => ?_
    rw [he, position, hnext']
    rfl

end Frame

/-- There is a stream of tiny packets. -/
theorem Stream.exists_tiny : ∃ s : Stream, s.Sound ∧ s.config = .tiny := by
  obtain ⟨books, hbooks⟩ := Books.exists_builtIn
  have config := Config.sound_of_ofParams Config.ofParams_tiny
  exact ⟨⟨.tiny, .ofConfig .tiny, books⟩, ⟨config, rfl, Books.sound_of_builtIn hbooks⟩, rfl⟩

end Wma
