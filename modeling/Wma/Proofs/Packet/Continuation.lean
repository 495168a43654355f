import Wma.Proofs.Packet.Outcome

/-!
# A frame in several packets

How packets go on with a frame, told from what goes into them. A packet in which no frame ends adds
its bytes to the reservoir (`Session.wp_decodeSuperframe_of_idle`). A packet in which the frame that
waits ends decodes it from the bits that wait and its own, as if they stood in a row
(`Session.wp_decodeSuperframe_of_carried`). The frame is decoded from the state at hand: the lengths
of its blocks are not reset before it, but they are behind it, even if no other frame ends there
(`Session.wp_decodeSuperframe_of_last`).
-/

namespace Wma

open Parse

/-! ### The header -/

namespace SuperframeHeader

variable {σ : Type} {offsetBits : Nat} {carried : Bool} {packet : Array UInt8}

/-- A packet of `size` bytes has room for what its header speaks of. -/
structure Fits (h : SuperframeHeader) (carried : Bool) (size : Nat) : Prop where
  some : h.framesEnding ≠ 0 ∨ carried = true
  payload : h.framesEnding = idleCount carried → 2 < size
  inside : h.width + h.bitOffset ≤ 8 * size

theorem framesEnding_ofBits (bits : List Bool) :
    (ofBits offsetBits carried bits).framesEnding = Bits.value ((bits.drop 4).take 4) := by
  unfold ofBits
  dsimp only
  split <;> rfl

theorem le_width_ofBits (offsetBits : Nat) (carried : Bool) (bits : List Bool) :
    8 ≤ (ofBits offsetBits carried bits).width := by
  unfold ofBits
  dsimp only
  split
  · exact Nat.le_refl 8
  · exact Nat.le_add_right ..

theorem ofBits_of_idle {bits : List Bool}
    (h : (ofBits offsetBits carried bits).framesEnding = idleCount carried) :
    ofBits offsetBits carried bits = ⟨idleCount carried, 0, 8⟩ := by
  rw [framesEnding_ofBits] at h
  unfold ofBits
  dsimp only
  rw [if_pos h, h]

/-- A header that fits is read. -/
theorem wp_read_of_fits {Q : SuperframeHeader → Scan σ → Prop} {E : Error → Scan σ → Prop} {x : σ}
    (hw : offsetBits + 3 ≤ 32)
    (h : (ofBits offsetBits carried (Bits.ofBytes packet)).Fits carried packet.size)
    (hQ : ∀ q, (BitReader.ofBytes packet).Moved
        (ofBits offsetBits carried (Bits.ofBytes packet)).width q →
      Q (ofBits offsetBits carried (Bits.ofBytes packet)) ⟨q, x⟩) :
    (read offsetBits carried).wp Q E ⟨.ofBytes packet, x⟩ := by
  obtain ⟨hsome, hpayload, hinside⟩ := h
  have short := le_width_ofBits offsetBits carried (Bits.ofBytes packet)
  have left : (BitReader.ofBytes packet).left = 8 * packet.size := rfl
  rw [framesEnding_ofBits] at hsome hpayload
  simp only [read, wp_bind, wp_require, wp_ite]
  refine wp_skip_of_le (by dsimp only; omega) fun q hq => ?_
  refine wp_read_of_le (by decide) (by have := hq.left; dsimp only at *; omega) fun q' hq' => ?_
  have moved : (BitReader.ofBytes packet).Moved 8 q' := hq.trans hq'
  have behind := moved.left
  rw [hq.remaining]
  simp only [BitReader.remaining_ofBytes]
  rw [if_pos hsome]
  unfold ofBits at hinside hQ
  dsimp only at hinside hQ
  split
  · rename_i hidle
    have size := hpayload hidle
    rw [if_pos hidle] at hQ
    simp only [readIdle, wp_bind, wp_reader, wp_require]
    rw [if_pos (by omega), moved.position]
    exact hQ q' moved
  · rename_i hidle
    rw [if_neg hidle] at hinside hQ
    dsimp only at hinside
    simp only [readFull, wp_bind, wp_reader, wp_require]
    refine wp_read_of_le hw (by dsimp only; omega) fun q'' hq'' => ?_
    have moved' := moved.trans hq''
    have rest := hq''.left
    rw [moved.remaining]
    simp only [BitReader.remaining_ofBytes]
    rw [if_pos (by dsimp only at rest; omega), moved'.position]
    have position : (BitReader.ofBytes packet).position = 0 := rfl
    rw [position, Nat.zero_add]
    exact hQ q'' moved'

end SuperframeHeader

/-! ### The reservoir -/

namespace Reservoir

theorem wp_appendBytes_of_le : ∀ {count : Nat} {s : Scan Reservoir}, 8 * count ≤ s.reader.left →
    (appendBytes count).wp (fun _ t => s.reader.Moved (8 * count) t.reader) (fun _ _ => False) s
  | 0, _, _ => ⟨rfl, rfl, rfl⟩
  | count + 1, s, h => by
    simp only [appendBytes, push, wp_bind, wp_update]
    refine wp_read_of_le (by decide) (by omega) fun q hq => ?_
    have left := hq.left
    refine wp_mono (wp_appendBytes_of_le (by dsimp only; omega)) (fun _ t ht => ?_) fun _ _ he => he
    rw [show 8 * (count + 1) = 8 + 8 * count by omega]
    exact hq.trans ht

/-- Bits are appended if there are as many, and if there is room for them. -/
theorem exists_appendBits {count : Nat} {s : Scan Reservoir} (h : count ≤ s.reader.left)
    (hroom : s.state.size + (count + 7) / 8 ≤ maxPacketBytes) :
    ∃ t, appendBits count s = .ok () t := by
  suffices happend : (appendBits count).wp (fun _ _ => True) (fun _ _ => False) s by
    obtain ⟨_, t, ht, -⟩ := exists_of_wp happend
    exact ⟨t, ht⟩
  simp only [appendBits, push, wp_bind, wp_state, wp_require]
  rw [if_pos hroom]
  refine wp_mono (wp_appendBytes_of_le (by omega)) (fun _ t ht => ?_) fun _ _ he => he
  have left := ht.left
  rw [wp_ite]
  split
  · simp only [wp_bind, wp_update]
    exact wp_read_of_le (by omega) (by omega) fun _ _ => trivial
  · trivial

/-- A reader of all the bits of a frame, the last of which have been appended, is one of these bits
in a row if the frame begins with a byte. -/
theorem Grown.reader {r r' : Reservoir} {bits : List Bool} (h : r.Grown bits r')
    (hbegin : r.bitOffset = 0) :
    BitReader.ofBits r'.bytes (8 * r.size + bits.length) = .ofList 0 (r.pending ++ bits) := by
  obtain ⟨m, hm, hbytes⟩ := h.bytes
  have pending : r.pending = Bits.ofBytes r.bytes := by
    unfold Reservoir.pending
    rw [hbegin, List.drop_zero]
  rw [← pending] at hbytes
  rw [← BitReader.ofBits_eq_ofList hm hbytes, List.length_append, pending, Bits.length_ofBytes]
  rfl

theorem isEmpty_eq_false_iff {r : Reservoir} : r.isEmpty = false ↔ 0 < r.size := by
  unfold isEmpty size
  rw [← Bool.not_eq_true, Array.isEmpty_iff_size_eq_zero]
  omega

/-- What waits once the bits of a packet up to `stop` are taken. -/
def behind (packet : Array UInt8) (stop : Nat) : Reservoir :=
  ⟨packet.extract (stop / 8) packet.size, stop % 8⟩

end Reservoir

theorem Buffer.splice_zero {α : Type} {a b : Array α} (h : b.size ≤ a.size) :
    splice a 0 b = .ok (overlay a b) := by
  unfold splice
  rw [if_pos (by omega), Array.extract_zero, Array.empty_append, Nat.zero_add]
  rfl

/-! ### Packets -/

namespace Session

variable {s : Stream} {packet : Array UInt8}

/-- Where no frame ends, the bytes behind the header wait as well. -/
theorem wp_decodeSuperframe_of_idle (hs : s.Sound) {x : Session} {carried : Bool}
    (hcarried : carried = !x.reservoir.isEmpty)
    (hidle : (SuperframeHeader.ofBits s.config.offsetBits carried
      (Bits.ofBytes packet)).framesEnding = SuperframeHeader.idleCount carried)
    (hsize : 2 < packet.size) (hroom : x.reservoir.size + (packet.size - 1) ≤ maxPacketBytes)
    {Q : Nat → Scan Session → Prop} {E : Error → Scan Session → Prop}
    (hQ : ∀ q, Q 0 ⟨q, { x with reservoir := { x.reservoir with
      bytes := x.reservoir.bytes ++ packet.extract 1 packet.size } }⟩) :
    (decodeSuperframe s packet).wp Q E ⟨.ofBytes packet, x⟩ := by
  have width := hs.config.offsetBits_le
  have header := SuperframeHeader.ofBits_of_idle hidle
  simp only [decodeSuperframe, wp_bind, wp_state, ← hcarried]
  refine SuperframeHeader.wp_read_of_fits (by omega)
    ⟨by rw [hidle]; cases carried <;> decide, fun _ => hsize, by rw [header]; dsimp only; omega⟩
    fun q _ => ?_
  have none : SuperframeHeader.frameCount ⟨SuperframeHeader.idleCount carried, 0, 8⟩ carried = 0 :=
    Nat.sub_self _
  have payload : Buffer.rest packet (8 / 8) = .ok (packet.extract 1 packet.size) :=
    if_pos (by omega)
  have room : x.reservoir.size + (packet.extract 1 packet.size).size ≤ maxPacketBytes := by
    rw [Array.size_extract]
    omega
  rw [header]
  unfold decodeBody
  dsimp only
  rw [if_pos none, payload, none]
  simp only [onReservoir, Reservoir.extend, wp_bind, wp_ofExcept_ok, wp_focus, wp_state, wp_require,
    wp_update, wp_pure, if_pos room]
  exact hQ q

/-- A frame is written behind those before it. -/
theorem wp_decodeFrame {Q : Unit → Scan Session → Prop} {E : Error → Scan Session → Prop}
    {index : Nat} {sc : Scan Session}
    (hpcm : (index + 1) * s.config.frameSamples ≤ sc.state.pcm.size)
    (h : (Frame.decode s).wp
      (fun values t => ∀ pcm, values.size = s.config.frameSamples →
        Buffer.splice sc.state.pcm (index * s.config.frameSamples) values = .ok pcm →
        Q () ⟨t.reader, ⟨t.state, sc.state.reservoir, pcm⟩⟩)
      (fun e t => E e ⟨t.reader, { sc.state with frames := t.state }⟩)
      ⟨sc.reader, sc.state.frames⟩) :
    (decodeFrame s index).wp Q E sc := by
  unfold decodeFrame
  rw [wp_bind, wp_focus]
  refine wp_of_result (fun values t ht => ?_) fun e t ht => ?failed
  case failed =>
    have failed := wp_error h ht
    exact failed
  have size := Frame.size_of_decode ht
  have inside : index * s.config.frameSamples + values.size ≤ sc.state.pcm.size := by
    rwa [size, ← Nat.succ_mul]
  obtain ⟨pcm, hwrite⟩ : ∃ pcm,
      Buffer.splice sc.state.pcm (index * s.config.frameSamples) values = .ok pcm :=
    ⟨_, if_pos inside⟩
  rw [wp_updateM]
  dsimp only
  rw [hwrite]
  exact wp_ok h ht pcm size hwrite

/-- The first frame of a packet. -/
theorem wp_decodeFrame_zero {Q : Unit → Scan Session → Prop} {E : Error → Scan Session → Prop}
    {sc : Scan Session} (hpcm : s.config.frameSamples ≤ sc.state.pcm.size)
    (h : (Frame.decode s).wp
      (fun values t => Q () ⟨t.reader,
        ⟨t.state, sc.state.reservoir, Buffer.overlay sc.state.pcm values⟩⟩)
      (fun e t => E e ⟨t.reader, { sc.state with frames := t.state }⟩)
      ⟨sc.reader, sc.state.frames⟩) :
    (decodeFrame s 0).wp Q E sc := by
  refine wp_decodeFrame (by rwa [Nat.zero_add, Nat.one_mul]) ?_
  refine wp_mono h (fun values t hQ pcm hsize hwrite => ?_) fun _ _ he => he
  rw [Nat.zero_mul, Buffer.splice_zero (by omega)] at hwrite
  cases hwrite
  exact hQ

/-- A packet may be a single frame. -/
theorem wp_decodeSingle {Q : Nat → Scan Session → Prop} {E : Error → Scan Session → Prop}
    {sc : Scan Session} (hpcm : s.config.frameSamples ≤ sc.state.pcm.size)
    (h : (Frame.decode s).wp
      (fun values t => Q 1 ⟨t.reader,
        ⟨t.state, sc.state.reservoir, Buffer.overlay sc.state.pcm values⟩⟩)
      (fun e t => E e ⟨t.reader, { sc.state with frames := t.state }⟩)
      ⟨sc.reader, sc.state.frames⟩) :
    (decodeSingle s).wp Q E sc := by
  simp only [decodeSingle, requireRoom, wp_bind, wp_state, wp_ite, Nat.one_mul,
    if_neg (Nat.not_lt.mpr hpcm), wp_pure]
  exact wp_decodeFrame_zero hpcm h

theorem wp_decodeSingle_of_room_lt {Q : Nat → Scan Session → Prop} {E : Error → Scan Session → Prop}
    {sc : Scan Session} (hpcm : sc.state.pcm.size < s.config.frameSamples)
    (h : E (.outputTooSmall sc.state.pcm.size s.config.frameSamples) sc) :
    (decodeSingle s).wp Q E sc := by
  simp only [decodeSingle, requireRoom, wp_bind, wp_state, wp_ite, Nat.one_mul, if_pos hpcm, wp_throw]
  exact h

/-- The frame that waits is decoded from its bits in a row. -/
theorem wp_decodeCarried {Q : Unit → Scan Session → Prop} {E : Error → Scan Session → Prop}
    {bitOffset : Nat} {sc : Scan Session} (hbegin : sc.state.reservoir.bitOffset = 0)
    (hleft : bitOffset ≤ sc.reader.left)
    (hroom : sc.state.reservoir.size + (bitOffset + 7) / 8 ≤ maxPacketBytes)
    (hpcm : s.config.frameSamples ≤ sc.state.pcm.size)
    (h : (Frame.decode s).wp
      (fun values t => ∀ q r, Q () ⟨q, ⟨t.state, r, Buffer.overlay sc.state.pcm values⟩⟩)
      (fun e t => ∀ q r, E e ⟨q, ⟨t.state, r, sc.state.pcm⟩⟩)
      ⟨.ofList 0 (sc.state.reservoir.pending ++ sc.reader.remaining.take bitOffset),
        sc.state.frames⟩) :
    (decodeCarried s bitOffset).wp Q E sc := by
  have width : (sc.reader.remaining.take bitOffset).length = bitOffset := by
    rw [List.length_take, BitReader.length_remaining]
    omega
  obtain ⟨t, ht⟩ := Reservoir.exists_appendBits (s := ⟨sc.reader, sc.state.reservoir⟩) hleft hroom
  obtain ⟨-, -, hgrown⟩ := Reservoir.of_appendBits ht
  have reader := hgrown.reader hbegin
  rw [width] at reader
  unfold decodeCarried onReservoir
  simp only [wp_bind, wp_state, wp_focus]
  refine wp_of_ok ht ?_
  rw [wp_elsewhere, wp_bind, reader, hgrown.bitOffset, hbegin]
  refine wp_skip_of_le (Nat.zero_le _) fun q hq => ?_
  obtain rfl := hq.eq_of_zero
  exact wp_decodeFrame_zero hpcm (wp_mono h (fun _ _ hQ => hQ _ _) fun _ _ hE => hE _ _)

/-- The frames behind bit `start` of a packet are decoded from lengths that are reset. What comes
behind them waits. -/
theorem wp_decodeWhole {Q : Unit → Scan Session → Prop} {E : Error → Scan Session → Prop}
    (hp : packet.size ≤ maxPacketBytes) {start count index : Nat} (hstart : start ≤ 8 * packet.size)
    {sc : Scan Session}
    (h : ∀ q : BitReader, q.remaining = (Bits.ofBytes packet).drop start →
      q.position + 8 * (start / 8) = start →
      (decodeFrames s count index).wp
        (fun _ t => ∃ stop ≤ 8 * packet.size, t.reader.position + 8 * (start / 8) = stop ∧
          Q () ⟨sc.reader, { t.state with reservoir := .behind packet stop }⟩)
        (fun e t => E e ⟨sc.reader, t.state⟩)
        ⟨q, { sc.state with frames := sc.state.frames.resetLengths }⟩) :
    (decodeWhole s packet start count index).wp Q E sc := by
  have rest : ∀ stop ≤ 8 * packet.size, Buffer.rest packet (stop / 8) =
      .ok (packet.extract (stop / 8) packet.size) := fun stop hstop => if_pos (by omega)
  have size : ∀ k, (packet.extract k packet.size).size = packet.size - k := fun k => by
    rw [Array.size_extract, Nat.min_self]
  have left : (BitReader.ofBytes (packet.extract (start / 8) packet.size)).left =
      8 * (packet.size - start / 8) := by
    rw [← size]
    rfl
  unfold decodeWhole
  simp only [rest start hstart, wp_bind, wp_ofExcept_ok, wp_elsewhere, decodeFresh, wp_update]
  refine wp_skip_of_le (by dsimp only; omega) fun q hq => ?_
  have position : q.position = 0 + start % 8 := hq.position
  have remaining : q.remaining = (Bits.ofBytes packet).drop start := by
    rw [hq.remaining]
    show List.drop _ (BitReader.ofBytes _).remaining = _
    rw [BitReader.remaining_ofBytes, Bits.ofBytes_rest, List.drop_drop, Nat.div_add_mod]
  refine wp_mono (h q remaining (by omega)) (fun _ t ht => ?_) fun _ _ he => he
  obtain ⟨stop, hstop, hplace, hQ⟩ := ht
  simp only [keepTail, onReservoir, Reservoir.store, wp_bind, wp_reader, hplace, rest stop hstop,
    wp_ofExcept_ok, wp_focus, wp_require, wp_setState, size]
  rw [if_pos (by omega)]
  exact hQ

/-- A packet in which the frame that waits ends, and maybe others behind it. -/
theorem wp_decodeSuperframe_of_carried (hs : s.Sound) {x : Session}
    (hwaits : x.reservoir.isEmpty = false) (hbegin : x.reservoir.bitOffset = 0)
    {h : SuperframeHeader} (hh : .ofBits s.config.offsetBits true (Bits.ofBytes packet) = h)
    {count : Nat} (hcount : h.framesEnding = count + 1)
    (hinside : h.width + h.bitOffset ≤ 8 * packet.size)
    (hroom : x.reservoir.size + (h.bitOffset + 7) / 8 ≤ maxPacketBytes)
    (hpcm : (count + 1) * s.config.frameSamples ≤ x.pcm.size) {Q : Nat → Scan Session → Prop}
    {E : Error → Scan Session → Prop}
    (hframe : (Frame.decode s).wp
      (fun values t => ∀ q r, (decodeWhole s packet (h.width + h.bitOffset) count 1).wp
        (fun _ u => Q (count + 1) u) E ⟨q, ⟨t.state, r, Buffer.overlay x.pcm values⟩⟩)
      (fun e t => ∀ q r, E e ⟨q, ⟨t.state, r, x.pcm⟩⟩)
      ⟨.ofList 0 (x.reservoir.pending ++ ((Bits.ofBytes packet).drop h.width).take h.bitOffset),
        x.frames⟩) :
    (decodeSuperframe s packet).wp Q E ⟨.ofBytes packet, x⟩ := by
  have width := hs.config.offsetBits_le
  have field : h.framesEnding ≠ SuperframeHeader.idleCount true := by
    rw [hcount]
    exact Nat.succ_ne_zero count
  have frames : h.frameCount true = count + 1 := hcount
  have first : s.config.frameSamples ≤ x.pcm.size :=
    Nat.le_trans (Nat.le_mul_of_pos_left _ (Nat.succ_pos count)) hpcm
  simp only [decodeSuperframe, wp_bind, wp_state, hwaits, Bool.not_false]
  refine SuperframeHeader.wp_read_of_fits (by omega)
    ⟨.inr rfl, fun hidle => absurd (hh ▸ hidle) field, by rw [hh]; exact hinside⟩ fun q hq => ?_
  rw [hh] at hq ⊢
  have left := hq.left
  have whole : (BitReader.ofBytes packet).left = 8 * packet.size := rfl
  have remaining := hq.remaining
  rw [BitReader.remaining_ofBytes] at remaining
  unfold decodeBody
  simp only [frames, Nat.succ_ne_zero, ↓reduceIte, wp_bind, requireRoom, wp_state, wp_ite,
    if_neg (Nat.not_lt.mpr hpcm), wp_pure, Nat.add_sub_cancel]
  refine wp_decodeCarried hbegin (by dsimp only; omega) hroom first ?_
  dsimp only
  rw [remaining]
  exact hframe

/-- A packet in which no frame but the one that waits ends. -/
theorem wp_decodeSuperframe_of_last (hs : s.Sound) (hp : packet.size ≤ maxPacketBytes) {x : Session}
    (hwaits : x.reservoir.isEmpty = false) (hbegin : x.reservoir.bitOffset = 0)
    {h : SuperframeHeader} (hh : .ofBits s.config.offsetBits true (Bits.ofBytes packet) = h)
    (hone : h.framesEnding = 1) (hinside : h.width + h.bitOffset ≤ 8 * packet.size)
    (hroom : x.reservoir.size + (h.bitOffset + 7) / 8 ≤ maxPacketBytes)
    (hpcm : s.config.frameSamples ≤ x.pcm.size) {Q : Nat → Scan Session → Prop}
    {E : Error → Scan Session → Prop}
    (hframe : (Frame.decode s).wp
      (fun values t => ∀ q, Q 1 ⟨q, ⟨t.state.resetLengths, .behind packet (h.width + h.bitOffset),
        Buffer.overlay x.pcm values⟩⟩)
      (fun e t => ∀ q r, E e ⟨q, ⟨t.state, r, x.pcm⟩⟩)
      ⟨.ofList 0 (x.reservoir.pending ++ ((Bits.ofBytes packet).drop h.width).take h.bitOffset),
        x.frames⟩) :
    (decodeSuperframe s packet).wp Q E ⟨.ofBytes packet, x⟩ := by
  refine wp_decodeSuperframe_of_carried hs hwaits hbegin hh hone hinside hroom
    (by rwa [Nat.zero_add, Nat.one_mul]) ?_
  refine wp_mono hframe (fun values t hQ q r => ?_) fun _ _ hE => hE
  exact wp_decodeWhole hp hinside fun _ _ hplace => ⟨_, hinside, hplace, hQ q⟩

end Session

end Wma
