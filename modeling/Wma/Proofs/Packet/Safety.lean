import Wma.Packet.Superframe
import Wma.Proofs.Frame.Decode

/-!
# Packets keep the invariant

The reservoir never holds more than the largest packet (`Reservoir.Sound`), the parts of a packet
begin within it, and the buffer has room for all frames once `Session.requireRoom` has passed. So a
packet ends with a count of frames, or fails for damage, or for want of room before anything has
changed (`Session.settles_decodeSuperframe`, `Session.settles_decodeSingle`).
-/

namespace Wma

open Parse

namespace Reservoir

/-- The reservoir holds no more than the largest packet, and skips less than a byte, which it has. -/
structure Sound (r : Reservoir) : Prop where
  size : r.bytes.size ≤ maxPacketBytes
  bitOffset_lt : r.bitOffset < 8
  bitOffset_le : r.bitOffset ≤ 8 * r.bytes.size

theorem sound_empty : empty.Sound :=
  ⟨by simp [empty], by decide, by simp [empty]⟩

theorem triple_push {n : Nat} (byte : Nat) :
    Triple Sound (fun r => r.Sound ∧ r.bytes.size + (n + 1) ≤ maxPacketBytes) (push byte)
      fun _ r => r.Sound ∧ r.bytes.size + n ≤ maxPacketBytes := by
  refine .update fun r h => ?_
  have skipped := h.1.bitOffset_le
  refine ⟨⟨?_, h.1.bitOffset_lt, ?_⟩, ?_⟩
  · rw [Array.size_push]; omega
  · rw [Array.size_push]; dsimp only; omega
  · rw [Array.size_push]; omega

theorem triple_appendBytes {n : Nat} : ∀ count : Nat,
    Triple Sound (fun r => r.Sound ∧ r.bytes.size + (count + n) ≤ maxPacketBytes)
      (appendBytes count) fun _ r => r.Sound ∧ r.bytes.size + n ≤ maxPacketBytes
  | 0 => .pure fun r h => ⟨h.1, by omega⟩
  | count + 1 => by
    refine .bind (R := fun _ r => r.Sound ∧ r.bytes.size + (count + 1 + n) ≤ maxPacketBytes)
      (.read (fun _ h => h.1) fun _ _ _ h => h) fun byte => ?_
    refine .bind ((triple_push (n := count + n) byte).pre fun r h => ⟨h.1, by omega⟩) fun _ => ?_
    exact triple_appendBytes count

theorem triple_appendBits (count : Nat) : Triple Sound Sound (appendBits count) fun _ => Sound := by
  refine .bind (R := fun r r' => r' = r ∧ r'.Sound) (.state fun _ h => ⟨rfl, h⟩) fun r => ?_
  refine .bind (R := fun _ r => r.Sound ∧ r.bytes.size + (count / 8 + (count % 8 + 7) / 8) ≤
    maxPacketBytes) (.require trivial (fun _ h => h.2) fun hroom r' h => ?_) fun _ => ?_
  · obtain ⟨rfl, h⟩ := h
    refine ⟨h, ?_⟩
    unfold size at hroom
    omega
  refine .bind (triple_appendBytes _) fun _ => .ite (fun hrest => ?_) fun _ => .pure fun _ h => h.1
  refine .bind (R := fun _ r => r.Sound ∧ r.bytes.size + (0 + 1) ≤ maxPacketBytes)
    (.read (fun _ h => h.1) fun _ r _ h => ⟨h.1, by omega⟩) fun value => ?_
  exact (triple_push (n := 0) _).post fun _ _ h => h.1

theorem triple_extend (bytes : Array UInt8) :
    Triple Sound Sound (extend bytes) fun _ => Sound := by
  refine .bind (R := fun r r' => r' = r ∧ r'.Sound) (.state fun _ h => ⟨rfl, h⟩) fun r => ?_
  refine .bind (R := fun _ r => r.Sound ∧ r.bytes.size + bytes.size ≤ maxPacketBytes)
    (.require trivial (fun _ h => h.2) fun hroom r' h => ?_) fun _ => .update fun r h => ?_
  · obtain ⟨rfl, h⟩ := h
    exact ⟨h, hroom⟩
  · have skipped := h.1.bitOffset_le
    refine ⟨?_, h.1.bitOffset_lt, ?_⟩
    · rw [Array.size_append]; exact h.2
    · rw [Array.size_append]; dsimp only; omega

theorem triple_store {tail : Array UInt8} {bitOffset : Nat} (h : bitOffset < 8)
    (hle : bitOffset ≤ 8 * tail.size) : Triple Sound Sound (store tail bitOffset) fun _ => Sound := by
  refine .bind (R := fun _ r => tail.size ≤ maxPacketBytes ∧ r.Sound)
    (.require trivial (fun _ h => h) fun hs _ h => ⟨hs, h⟩) fun _ => .setState fun _ hr => ?_
  exact ⟨hr.1, h, hle⟩

end Reservoir

namespace SuperframeHeader

variable {σ : Type} {s : Scan σ}

/-- The bits that the header speaks of lie within the packet. -/
structure Inside (h : SuperframeHeader) (r : BitReader) : Prop where
  end_le : h.width + h.bitOffset ≤ r.bitLength

theorem wp_read (offsetBits : Nat) (carried : Bool) :
    (read offsetBits carried).wp
      (fun h t => h.Inside s.reader ∧ h.framesEnding < 16 ∧
        t.reader.bitLength = s.reader.bitLength ∧ t.state = s.state)
      (fun e t => e.IsDamage ∧ t.state = s.state) s := by
  simp only [read, wp_bind]
  refine wp_skip (fun r hr => ?_) fun e he => ⟨he, rfl⟩
  refine Parse.wp_read (fun count r' hcount hr' => ?_) fun e he => ⟨he, rfl⟩
  have length : r'.bitLength = s.reader.bitLength := hr'.bitLength.trans hr.bitLength
  rw [wp_require]
  split
  case isFalse => exact ⟨trivial, rfl⟩
  rw [wp_ite]
  split
  · simp only [readIdle, wp_bind, wp_reader, wp_require]
    have position := r'.position_le
    split
    · exact ⟨⟨by rw [← length]; exact position⟩, hcount, length, rfl⟩
    · exact ⟨trivial, trivial⟩
  · simp only [readFull, wp_bind]
    refine Parse.wp_read (fun bitOffset r'' _ hr'' => ?_) fun e he => ⟨he, rfl⟩
    have length' : r''.bitLength = s.reader.bitLength := hr''.bitLength.trans length
    have left := r''.left_eq
    simp only [wp_reader, wp_require]
    split
    · exact ⟨⟨by rw [← length']; dsimp only at *; omega⟩, hcount, length', rfl⟩
    · exact ⟨trivial, trivial⟩

end SuperframeHeader

namespace Session

/-- What a packet changes is sound, and the buffer has `n` values. -/
structure Sound (s : Stream) (n : Nat) (x : Session) : Prop where
  frames : x.frames.Sound s.config
  reservoir : x.reservoir.Sound
  pcm : x.pcm.size = n

variable {s : Stream} {n : Nat}

theorem triple_onReservoir {p : Parse Reservoir Unit}
    (h : Triple Reservoir.Sound Reservoir.Sound p fun _ => Reservoir.Sound) :
    Triple (Sound s n) (Sound s n) (onReservoir p) fun _ => Sound s n :=
  h.focus (fun _ hx => hx.reservoir) (fun _ _ _ hx hr => { hx with reservoir := hr })
    fun _ _ hx hr => { hx with reservoir := hr }

theorem triple_decodeFrame (hs : s.Sound) {index : Nat}
    (hroom : (index + 1) * s.config.frameSamples ≤ n) :
    Triple (Sound s n) (Sound s n) (decodeFrame s index) fun _ => Sound s n := by
  rw [Nat.add_mul] at hroom
  refine .bind (R := fun values x => values.size = s.config.frameSamples ∧ x.Sound s n) ?_
    fun values => .of_fact (fun _ h => h.1) fun hv => .updateM fun x hx => ?_
  · exact (Frame.triple_decode hs).focus (fun _ hx => hx.frames)
      (fun _ _ _ hx h => ⟨h.1, { hx with frames := h.2 }⟩) fun _ _ hx h => { hx with frames := h }
  · have size := hx.2.pcm
    refine .bind (.splice (by omega) fun pcm hpcm => hpcm) fun pcm hpcm => .pure ?_
    exact { hx.2 with pcm := hpcm.trans size }

theorem triple_decodeFrames (hs : s.Sound) : ∀ count index : Nat,
    (index + count) * s.config.frameSamples ≤ n →
    Triple (Sound s n) (Sound s n) (decodeFrames s count index) fun _ => Sound s n
  | 0, _, _ => .pure fun _ h => h
  | count + 1, index, hroom => by
    have first : (index + 1) * s.config.frameSamples ≤ n :=
      Nat.le_trans (Nat.mul_le_mul_right _ (by omega)) hroom
    refine .bind (triple_decodeFrame hs first) fun _ => ?_
    exact triple_decodeFrames hs count (index + 1) (by rwa [Nat.add_right_comm, Nat.add_assoc])

theorem triple_decodeCarried (hs : s.Sound) (hroom : s.config.frameSamples ≤ n) (bitOffset : Nat) :
    Triple (Sound s n) (Sound s n) (decodeCarried s bitOffset) fun _ => Sound s n := by
  refine .bind (R := fun _ => Sound s n) (.state fun _ h => h) fun x => ?_
  refine .bind (triple_onReservoir (Reservoir.triple_appendBits bitOffset)) fun _ => ?_
  refine .bind (R := fun x x' => x.reservoir.Sound ∧ x'.Sound s n)
    (.state fun _ h => ⟨h.reservoir, h⟩) fun x' => .of_fact (fun _ h => h.1) fun hr => ?_
  refine .elsewhere (BitReader.short_ofBits hr.size) ?_
  refine .bind (R := fun _ => Sound s n) (.skip (fun _ h => h.2) fun _ h => h.2) fun _ => ?_
  exact triple_decodeFrame hs (by omega)

theorem Sound.resetLengths {x : Session} (hx : x.Sound s n) :
    Sound s n { x with frames := x.frames.resetLengths } :=
  { hx with frames := hx.frames.resetLengths }

theorem triple_decodeFresh (hs : s.Sound) {count index : Nat}
    (hroom : (index + count) * s.config.frameSamples ≤ n) (places : Nat) :
    Triple (Sound s n) (Sound s n) (decodeFresh s places count index) fun _ => Sound s n := by
  refine .bind (R := fun _ => Sound s n) (.skip (fun _ h => h) fun _ h => h) fun _ => ?_
  exact .bind (.update fun _ hx => hx.resetLengths) fun _ => triple_decodeFrames hs count index hroom

theorem triple_decodeWhole (hs : s.Sound) {packet : Array UInt8} (hp : packet.size ≤ maxPacketBytes)
    {start count index : Nat} (hstart : start ≤ 8 * packet.size)
    (hroom : (index + count) * s.config.frameSamples ≤ n) :
    Triple (Sound s n) (Sound s n) (decodeWhole s packet start count index) fun _ => Sound s n := by
  refine .bind (R := fun body x => body.size = packet.size - start / 8 ∧ x.Sound s n)
    (.ofExcept fun _ h => .rest (by omega) ⟨by rw [Array.size_extract]; omega, h⟩) fun body => ?_
  refine .of_fact (fun _ h => h.1) fun hbody => ?_
  refine (Triple.elsewhere_reader (BitReader.short_ofBytes (by omega))
    (triple_decodeFresh hs hroom _) fun r hr => ?_).pre fun _ h => h.2
  -- The frames end within the part of the packet that they are read from.
  have inside := r.position_le
  have length : (BitReader.ofBytes body).bitLength = 8 * body.size := rfl
  refine .bind (R := fun tail x =>
      tail.size = packet.size - (r.position + 8 * (start / 8)) / 8 ∧ x.Sound s n)
    (.ofExcept fun _ h => .rest (by omega) ⟨by rw [Array.size_extract]; omega, h⟩) fun tail => ?_
  refine .of_fact (fun _ h => h.1) fun htail => ?_
  refine (triple_onReservoir (Reservoir.triple_store (Nat.mod_lt _ (by decide)) ?_)).pre
    fun _ h => h.2
  omega

/-! ### Packets -/

/-- How a packet of at most `limit` frames fails: for damage, or because the buffer has too little
room for its frames, and then nothing has changed. -/
def Refused (s : Stream) (limit : Nat) (x : Session) (e : Error) (y : Session) : Prop :=
  e.IsDamage ∨ y = x ∧ ∃ count, count ≤ limit ∧ x.pcm.size < count * s.config.frameSamples ∧
    e = .outputTooSmall x.pcm.size (count * s.config.frameSamples)

theorem wp_requireRoom {count : Nat} {sc : Scan Session} (hx : sc.state.Sound s n) :
    (requireRoom s count).wp (fun _ t => t = sc ∧ count * s.config.frameSamples ≤ n)
      (fun e t => t = sc ∧ sc.state.pcm.size < count * s.config.frameSamples ∧
        e = .outputTooSmall sc.state.pcm.size (count * s.config.frameSamples)) sc := by
  have size := hx.pcm
  simp only [requireRoom, wp_bind, wp_state, wp_ite]
  split
  · exact ⟨rfl, ‹_›, rfl⟩
  · exact ⟨rfl, by omega⟩

/-- How a packet of at most `limit` frames ends: with a sound session in any case. -/
def Settles (s : Stream) (n limit : Nat) (p : Parse Session Nat) (sc : Scan Session) : Prop :=
  p.wp (fun _ t => t.state.Sound s n)
    (fun e t => Refused s limit sc.state e t.state ∧ t.state.Sound s n) sc

theorem settles_of_triple {limit : Nat} {p : Parse Session Nat}
    (h : Triple (Sound s n) (Sound s n) p fun _ => Sound s n) {sc : Scan Session}
    (hr : sc.reader.Short) (hx : sc.state.Sound s n) : Settles s n limit p sc :=
  wp_mono (h sc hx) (fun _ _ h => h.2) fun _ _ h => ⟨.inl (h.1 hr), h.2.2⟩

/-- What goes on once there is room ends as the whole does. -/
theorem settles_requireRoom {count limit : Nat} (hcount : count ≤ limit) {f : Parse Session Nat}
    {sc : Scan Session} (hr : sc.reader.Short) (hx : sc.state.Sound s n)
    (hf : count * s.config.frameSamples ≤ n →
      Triple (Sound s n) (Sound s n) f fun _ => Sound s n) :
    Settles s n limit (do requireRoom s count; f) sc := by
  refine wp_bind.2 (wp_mono (wp_requireRoom hx) ?_ ?_)
  · rintro _ _ ⟨rfl, hroom⟩
    exact settles_of_triple (hf hroom) hr hx
  · rintro _ _ ⟨rfl, hsmall, he⟩
    exact ⟨.inr ⟨rfl, count, hcount, hsmall, he⟩, hx⟩

theorem settles_decodeBody (hs : s.Sound) {packet : Array UInt8}
    (hp : packet.size ≤ maxPacketBytes) (carried : Bool) {h : SuperframeHeader}
    (hh : h.width + h.bitOffset ≤ 8 * packet.size) (hfew : h.framesEnding < 16)
    {sc : Scan Session} (hr : sc.reader.Short) (hx : sc.state.Sound s n) :
    Settles s n maxFrames (decodeBody s packet carried h) sc := by
  unfold decodeBody
  dsimp only
  split
  · refine settles_of_triple ?_ hr hx
    refine .bind (R := fun _ => Sound s n) (.ofExcept fun _ h => .rest (by omega) h) fun _ => ?_
    exact .bind (triple_onReservoir (Reservoir.triple_extend _)) fun _ => .pure fun _ h => h
  rename_i hcount
  have few : h.frameCount carried ≤ maxFrames := by
    unfold SuperframeHeader.frameCount maxFrames
    omega
  refine settles_requireRoom few hr hx fun hroom => ?_
  have one : s.config.frameSamples ≤ h.frameCount carried * s.config.frameSamples :=
    Nat.le_mul_of_pos_left _ (by omega)
  refine .ite (fun _ => ?_) fun _ => ?_
  · refine .bind (triple_decodeCarried hs (by omega) _) fun _ => ?_
    refine .bind (triple_decodeWhole hs hp hh ?_) fun _ => .pure fun _ h => h
    rwa [Nat.add_sub_cancel' (by omega)]
  · refine .bind (triple_decodeWhole hs hp hh ?_) fun _ => .pure fun _ h => h
    rwa [Nat.zero_add]

theorem settles_decodeSuperframe (hs : s.Sound) {packet : Array UInt8}
    (hp : packet.size ≤ maxPacketBytes) {x : Session} (hx : x.Sound s n) :
    Settles s n maxFrames (decodeSuperframe s packet) ⟨.ofBytes packet, x⟩ := by
  have short : (BitReader.ofBytes packet).Short := BitReader.short_ofBytes hp
  unfold decodeSuperframe Settles
  simp only [wp_bind, wp_state]
  refine wp_mono (SuperframeHeader.wp_read _ _) ?_ ?_
  · rintro h ⟨r, x'⟩ ⟨hh, hfew, hlength, hx'⟩
    cases hx'
    refine settles_decodeBody hs hp _ hh.end_le hfew ?_ hx
    exact Nat.le_trans (Nat.le_of_eq hlength) short
  · rintro e ⟨r, x'⟩ ⟨he, hx'⟩
    cases hx'
    exact ⟨.inl he, hx⟩

theorem settles_decodeSingle (hs : s.Sound) {packet : Array UInt8}
    (hp : packet.size ≤ maxPacketBytes) {x : Session} (hx : x.Sound s n) :
    Settles s n 1 (decodeSingle s) ⟨.ofBytes packet, x⟩ := by
  refine settles_requireRoom (Nat.le_refl 1) (BitReader.short_ofBytes hp) hx fun hroom => ?_
  exact .bind (triple_decodeFrame hs (by omega)) fun _ => .pure fun _ h => h

end Session

end Wma
