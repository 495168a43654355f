import Wma.Proofs.Decoder.Continuation
import Wma.Proofs.Decoder.Refinement
import Wma.Proofs.Parse.Invariant

/-!
# The reservoir between calls

`Decoder.ReservoirInv` says what the reservoir of a decoder looks like between two calls, and
`Decoder.reservoirInv_afterAll` proves it for any calls, whether packets are accepted or not. How many
bytes wait and how many bits are skipped is part of `Reservoir.Sound`, which every step on the
reservoir keeps. A stream whose frames end with their packets never comes to one of these steps
(`Decoder.reservoir_afterAll`).

Two things follow for frames that go over several packets. The bits in front of a frame that waits
can always be skipped, and the first bit of a packet that begins a frame is the first one behind its
header.
-/

namespace Wma

open Parse

/-! ### Bits in front of a frame -/

namespace Reservoir

theorem bitOffset_eq_zero_of_isEmpty {r : Reservoir} (hr : r.Sound) (h : r.isEmpty = true) :
    r.bitOffset = 0 := by
  have skipped := hr.bitOffset_le
  have size : r.bytes.size = 0 := Array.isEmpty_iff_size_eq_zero.mp h
  omega

/-- Once bits have been appended, the bits that do not belong to the frame can be skipped. What comes
behind them waited before or has been appended. -/
theorem exists_skip_of_appendBits {r : Reservoir} (hr : r.Sound) {reader : BitReader} {count : Nat}
    {t : Scan Reservoir} (h : appendBits count ⟨reader, r⟩ = .ok () t) :
    ∃ q, (BitReader.ofBits t.state.bytes (8 * r.size + count)).skip t.state.bitOffset = .ok q ∧
      q.remaining = r.pending ++ reader.remaining.take count := by
  obtain ⟨hleft, -, hgrown⟩ := of_appendBits h
  dsimp only at hleft hgrown
  have width : (reader.remaining.take count).length = count := by
    rw [List.length_take, BitReader.length_remaining]
    omega
  obtain ⟨m, -, hbytes⟩ := hgrown.bytes
  have total := congrArg List.length hbytes
  simp only [Bits.length_ofBytes, List.length_append, List.length_replicate, width] at total
  have skipped := hr.bitOffset_le
  have inside : t.state.bitOffset ≤ (BitReader.ofBits t.state.bytes (8 * r.size + count)).left := by
    show t.state.bitOffset ≤ min (8 * r.bytes.size + count) (8 * t.state.bytes.size) - 0
    rw [hgrown.bitOffset]
    omega
  obtain ⟨q, hq, hmoved⟩ := BitReader.exists_skip inside
  exact ⟨q, hq, hgrown.remaining hr (by rwa [width])⟩

end Reservoir

namespace Session

variable {s : Stream}

/-- Once bits have been appended, nothing but the frame that waits can fail. -/
theorem decodeCarried_of_append {count : Nat} {reader q : BitReader} {x : Session}
    {t : Scan Reservoir} (happend : Reservoir.appendBits count ⟨reader, x.reservoir⟩ = .ok () t)
    (hskip : (BitReader.ofBits t.state.bytes (8 * x.reservoir.size + count)).skip t.state.bitOffset =
      .ok q) :
    decodeCarried s count ⟨reader, x⟩ =
      elsewhere q (decodeFrame s 0) ⟨t.reader, { x with reservoir := t.state }⟩ := by
  have appended : onReservoir (Reservoir.appendBits count) ⟨reader, x⟩ =
      .ok () ⟨t.reader, { x with reservoir := t.state }⟩ := by
    unfold onReservoir focus
    dsimp only
    rw [happend]
  have skipped : Parse.skip t.state.bitOffset
      ⟨.ofBits t.state.bytes (8 * x.reservoir.size + count), { x with reservoir := t.state }⟩ =
        .ok () ⟨q, { x with reservoir := t.state }⟩ := by
    unfold Parse.skip ofReader
    dsimp only
    rw [hskip]
    rfl
  unfold decodeCarried
  rw [bind_of_ok (p := state) rfl, bind_of_ok appended, bind_of_ok (p := state) rfl]
  unfold elsewhere
  dsimp only
  rw [bind_of_ok skipped]

/-! ### Packets that are one frame -/

theorem maintains_requireRoom (I : Session → Prop) (s : Stream) (count : Nat) :
    Maintains I (requireRoom s count) :=
  .bind .state fun _ => .ite (fun _ h => h) (.pure ())

/-- A frame is decoded apart from the reservoir. -/
theorem maintains_decodeFrame (s : Stream) (index : Nat) (r : Reservoir) :
    Maintains (fun x : Session => x.reservoir = r) (decodeFrame s index) := by
  refine .bind (.focus_apart fun _ _ h => h) fun values => .updateM fun x y h hy => ?_
  obtain ⟨pcm, -, hy⟩ := ok_of_bind hy
  cases hy
  exact h

theorem maintains_decodeSingle (s : Stream) (r : Reservoir) :
    Maintains (fun x : Session => x.reservoir = r) (decodeSingle s) :=
  .bind (maintains_requireRoom _ s 1) fun _ =>
    .bind (maintains_decodeFrame s 0 r) fun _ => .pure 1

end Session

namespace Decoder

variable {d : Decoder}

theorem reservoirAfter_empty (e : Error) : reservoirAfter e .empty = .empty := by
  cases e <;> rfl

theorem reservoir_after (hr : d.config.bitReservoir = false) (hempty : d.reservoir = .empty)
    (call : Call) : (d.after call).reservoir = .empty := by
  cases call with
  | flush => rfl
  | decode packet pcm =>
    have single : decodePacket d.stream (packet.extract 0 d.config.blockAlign) =
        Session.decodeSingle d.stream := if_neg (by rw [← config, hr]; decide)
    have kept := Session.maintains_decodeSingle d.stream .empty
      ⟨.ofBytes (packet.extract 0 d.config.blockAlign), ⟨d.frames, d.reservoir, pcm⟩⟩ hempty
    have ending := d.ending_decode packet pcm
    show (d.decode packet pcm).decoder.reservoir = .empty
    generalize d.decode packet pcm = o at ending ⊢
    cases ending with
    | finished => rfl
    | short => exact hempty
    | decoded _ hrun =>
      rw [single] at hrun
      exact wp_ok kept hrun
    | @failed e _ x _ hrun =>
      rw [single] at hrun
      have empty : x.reservoir = .empty := wp_error kept hrun
      dsimp only
      rw [empty, reservoirAfter_empty]

/-- Nothing ever waits if frames end with their packets. -/
theorem reservoir_afterAll (hr : d.config.bitReservoir = false) (hempty : d.reservoir = .empty)
    (calls : List Call) : (d.afterAll calls).reservoir = .empty := by
  unfold afterAll
  induction calls generalizing d with
  | nil => exact hempty
  | cons call calls ih =>
    have config : (d.after call).config = d.config := congrArg Stream.config (d.stream_after call)
    exact ih (by rw [config, hr]) (reservoir_after hr hempty call)

/-! ### Packets that begin a frame -/

theorem ne_empty_of_frameField {packet : Array UInt8} (h : d.frameField packet = 1) :
    packet ≠ #[] := by
  rintro rfl
  rw [frameField, SuperframeHeader.framesEnding_ofBits, Array.extract_empty] at h
  exact absurd h (by decide)

/-- Where nothing waits, a packet that is accepted and in which no frame ends leaves its bits behind
the header, and nothing in front of them. -/
theorem begins_of_decode (hd : d.Sound) (hr : d.config.bitReservoir = true)
    (hempty : d.reservoir.isEmpty = true) {packet : Array UInt8} {pcm : Array Int16}
    (hfield : d.frameField packet = 1) {r : DecodeReport}
    (h : (d.decode packet pcm).report = .ok r) :
    r.frames = 0 ∧ (d.decode packet pcm).decoder.reservoir.bitOffset = 0 ∧
      (d.decode packet pcm).decoder.reservoir.pending = d.payload packet := by
  obtain ⟨st, hstep, hnext, rfl, -⟩ := step_of_decode hd hr (ne_empty_of_frameField hfield) h
  have none : d.queue.pending.isEmpty = true :=
    (Reservoir.isEmpty_pending hd.reservoir).trans hempty
  have field := (d.framesEnding_eq_frameField false packet).trans hfield
  rw [BitQueue.step_of_idle (by rw [none]; exact congrArg (· - 1) field),
    List.isEmpty_iff.mp none] at hstep
  cases hstep
  have phase : d.reservoir.bitOffset = (d.decode packet pcm).decoder.reservoir.bitOffset :=
    congrArg BitQueue.phase hnext
  have pending : d.payload packet = (d.decode packet pcm).decoder.reservoir.pending :=
    congrArg BitQueue.pending hnext
  rw [Reservoir.bitOffset_eq_zero_of_isEmpty hd.reservoir hempty] at phase
  exact ⟨rfl, phase.symm, pending.symm⟩

/-! ### The invariant -/

/-- What the reservoir of a decoder looks like between two calls. -/
structure ReservoirInv (d : Decoder) : Prop where
  size_le : d.reservoir.size ≤ maxPacketBytes
  bitOffset_lt : d.reservoir.bitOffset < 8
  bitOffset_eq_zero : d.reservoir.isEmpty = true → d.reservoir.bitOffset = 0
  /-- Nothing waits if frames end with their packets. -/
  empty : d.config.bitReservoir = false → d.reservoir = .empty
  /-- However many bits a packet appends to the frame that waits, those in front of it can be skipped.
  The frame is decoded from what waited and what has been appended. -/
  skips : ∀ (reader : BitReader) (pcm : Array Int16) (count : Nat) (t : Scan Reservoir),
    Reservoir.appendBits count ⟨reader, d.reservoir⟩ = .ok () t →
    ∃ q, (BitReader.ofBits t.state.bytes (8 * d.reservoir.size + count)).skip t.state.bitOffset =
        .ok q ∧
      q.remaining = d.reservoir.pending ++ reader.remaining.take count ∧
      Session.decodeCarried d.stream count ⟨reader, ⟨d.frames, d.reservoir, pcm⟩⟩ =
        elsewhere q (Session.decodeFrame d.stream 0) ⟨t.reader, ⟨d.frames, t.state, pcm⟩⟩
  /-- Where nothing waits, a packet in which no frame ends is accepted if it has more than one byte
  behind its header, and the frame that it begins has nothing in front of it. -/
  begins : d.config.bitReservoir = true → d.reservoir.isEmpty = true →
    ∀ (packet : Array UInt8) (pcm : Array Int16), d.frameField packet = 1 →
      (2 < d.config.blockAlign → d.config.blockAlign ≤ packet.size →
        ∃ r, (d.decode packet pcm).report = .ok r) ∧
      ∀ r, (d.decode packet pcm).report = .ok r →
        r.frames = 0 ∧ (d.decode packet pcm).decoder.reservoir.bitOffset = 0 ∧
          (d.decode packet pcm).decoder.reservoir.pending = d.payload packet

theorem Sound.reservoirInv (hd : d.Sound)
    (hempty : d.config.bitReservoir = false → d.reservoir = .empty) : d.ReservoirInv where
  size_le := hd.reservoir.size
  bitOffset_lt := hd.reservoir.bitOffset_lt
  bitOffset_eq_zero := Reservoir.bitOffset_eq_zero_of_isEmpty hd.reservoir
  empty := hempty
  skips reader pcm count t happend := by
    obtain ⟨q, hskip, hremaining⟩ := Reservoir.exists_skip_of_appendBits hd.reservoir happend
    exact ⟨q, hskip, hremaining,
      Session.decodeCarried_of_append (x := ⟨d.frames, d.reservoir, pcm⟩) happend hskip⟩
  begins hr hnone packet pcm hfield := by
    refine ⟨fun hpayload hwhole => ?_, fun r => begins_of_decode hd hr hnone hfield⟩
    have size : d.reservoir.size = 0 := Array.isEmpty_iff_size_eq_zero.mp hnone
    have room : d.config.blockAlign ≤ maxPacketBytes := hd.stream.config.blockAlign_le
    have idle : d.frameField packet = SuperframeHeader.idleCount (!d.reservoir.isEmpty) := by
      rw [hfield, hnone]
      rfl
    obtain ⟨⟨r, hreport, -⟩, -⟩ :=
      continued_of_idle hd hr hwhole hpayload idle (by omega) pcm
    exact ⟨r, hreport⟩

/-- Between any calls, of which some may have failed, the reservoir is within its bounds, and it has a
frame in it only if frames may go from packet to packet. -/
theorem reservoirInv_afterAll {p : Params} {d₀ : Decoder} (h : ofParams p = .ok d₀)
    (calls : List Call) : (d₀.afterAll calls).ReservoirInv := by
  have config : (d₀.afterAll calls).config = d₀.config :=
    congrArg Stream.config (d₀.stream_afterAll calls)
  have new : d₀.reservoir = .empty := by
    obtain ⟨c, books, -, -, rfl⟩ := of_ofParams h
    rfl
  exact (sound_afterAll (sound_ofParams h) calls).reservoirInv fun hr =>
    reservoir_afterAll (by rwa [← config]) new calls

/-- A packet begins a frame behind one that was silent and one that was damaged. -/
theorem reservoirInv_afterAll_tiny : ∃ d₀, ofParams .tiny = .ok d₀ ∧
    let d := d₀.afterAll [.decode (silentPacket 1) (.replicate 4096 0), .decode #[0, 0, 0, 0] #[]]
    (∃ r, (d.decode #[1, 0xa5, 0, 0xff] #[]).report = .ok r ∧ r.frames = 0) ∧
      (d.decode #[1, 0xa5, 0, 0xff] #[]).decoder.reservoir.bitOffset = 0 ∧
      (d.decode #[1, 0xa5, 0, 0xff] #[]).decoder.reservoir.pending =
        Bits.ofBytes #[0xa5, 0, 0xff] := by
  obtain ⟨d₀, hd₀, sound, hc, hempty⟩ := exists_tiny
  have room : 4096 ≤ (Array.replicate 4096 (0 : Int16)).size := Nat.le_of_eq Array.size_replicate.symm
  obtain ⟨-, hfirst, -⟩ := decode_silentPacket sound hc hempty (by decide : 1 < 5) room
  have config₁ : (d₀.after (.decode (silentPacket 1) (.replicate 4096 0))).config = .tiny :=
    (congrArg Stream.config (d₀.stream_after _)).trans hc
  have damaged := reservoir_of_corrupt (decode_noFrames config₁ hfirst #[])
  have inv := reservoirInv_afterAll hd₀
    [.decode (silentPacket 1) (.replicate 4096 0), .decode #[0, 0, 0, 0] #[]]
  have config : (d₀.afterAll [.decode (silentPacket 1) (.replicate 4096 0),
      .decode #[0, 0, 0, 0] #[]]).config = .tiny :=
    (congrArg Stream.config (d₀.stream_afterAll _)).trans hc
  have empty : (d₀.afterAll [.decode (silentPacket 1) (.replicate 4096 0),
      .decode #[0, 0, 0, 0] #[]]).reservoir = .empty := damaged
  refine ⟨d₀, hd₀, ?_⟩
  intro d
  obtain ⟨haccept, hbegins⟩ := inv.begins (by rw [config]; rfl) (by rw [empty]; rfl)
    #[1, 0xa5, 0, 0xff] #[] (by unfold frameField; rw [config]; decide)
  obtain ⟨r, hr⟩ := haccept (by rw [config]; decide) (by rw [config]; decide)
  obtain ⟨hframes, hoffset, hpending⟩ := hbegins r hr
  refine ⟨⟨r, hr, hframes⟩, hoffset, hpending.trans ?_⟩
  unfold payload
  rw [config]
  decide

end Decoder

end Wma
