import Wma.Decoder
import Wma.Proofs.Code.BuiltIn
import Wma.Proofs.Packet.Safety

/-!
# The invariant of decoders

`Decoder.Sound` holds of a decoder for any accepted parameters, and every call keeps it, whether it
succeeds or fails (`Decoder.sound_afterAll`). The parameters alone decide whether there is a decoder:
all tables fit together (`Decoder.exists_ofParams`).
-/

namespace Wma

/-- What a caller may do with a decoder. -/
inductive Call
  | decode (packet : Array UInt8) (pcm : Array Int16)
  | flush

namespace Decoder

/-- The decoder after a call. -/
def after (d : Decoder) : Call → Decoder
  | .decode packet pcm => (d.decode packet pcm).decoder
  | .flush => d.flush

/-- The decoder after calls in a row. -/
def afterAll (d : Decoder) (calls : List Call) : Decoder :=
  calls.foldl after d

/-- The state of a decoder fits its stream. -/
structure Sound (d : Decoder) : Prop where
  stream : d.stream.Sound
  frames : d.frames.Sound d.config
  reservoir : d.reservoir.Sound

/-! ### Setup -/

theorem of_ofParams {p : Params} {d : Decoder} (h : ofParams p = .ok d) :
    ∃ c books, Config.ofParams p = .ok c ∧ Books.builtIn = .ok books ∧
      d = ofStream ⟨c, .ofConfig c, books⟩ := by
  obtain ⟨c, hc, h⟩ := ok_of_bind h
  obtain ⟨s, hs, h⟩ := ok_of_bind h
  cases h
  obtain ⟨books, hbooks, rfl⟩ := Stream.of_ofConfig hs
  exact ⟨c, books, hc, hbooks, rfl⟩

theorem sound_ofParams {p : Params} {d : Decoder} (h : ofParams p = .ok d) : d.Sound := by
  obtain ⟨c, books, hc, hbooks, rfl⟩ := of_ofParams h
  have config := Config.sound_of_ofParams hc
  exact ⟨⟨config, rfl, Books.sound_of_builtIn hbooks⟩, FrameState.sound_initial config,
    Reservoir.sound_empty⟩

/-- There is a decoder for all parameters that make up a configuration. -/
theorem exists_ofParams {p : Params} {c : Config} (h : Config.ofParams p = .ok c) :
    ∃ d, ofParams p = .ok d := by
  obtain ⟨s, stream⟩ := Stream.exists_ofConfig (Config.sound_of_ofParams h)
  have decoder : Gives (ofParams p) fun _ => True := by
    refine .bind (.of_eq (Q := fun c' => c' = c) h rfl) fun c' hc' => ?_
    subst hc'
    exact .bind (.of_eq (Q := fun _ => True) stream trivial) fun _ _ => .pure trivial
  exact decoder.imp fun _ h => h.1

/-! ### Calls -/

/-- The ways in which a call ends. -/
inductive Ending (d : Decoder) (packet : Array UInt8) (pcm : Array Int16) : DecodeOutcome → Prop
  | finished (h : packet.size = 0) :
    Ending d packet pcm ⟨.ok ⟨0, 0, 0, 0⟩, { d with reservoir := .empty }, pcm⟩
  | short (h : 0 < packet.size) (hshort : packet.size < d.config.blockAlign) :
    Ending d packet pcm ⟨.error (.insufficientInput packet.size d.config.blockAlign), d, pcm⟩
  | decoded {count : Nat} {r : BitReader} {x : Session} (h : d.config.blockAlign ≤ packet.size)
    (hrun : decodePacket d.stream (packet.extract 0 d.config.blockAlign)
      ⟨.ofBytes (packet.extract 0 d.config.blockAlign), ⟨d.frames, d.reservoir, pcm⟩⟩ =
        .ok count ⟨r, x⟩) :
    Ending d packet pcm ⟨.ok ⟨count * d.config.frameSamples, count, d.config.blockAlign,
      x.reservoir.size⟩, { d with frames := x.frames, reservoir := x.reservoir }, x.pcm⟩
  | failed {e : Error} {r : BitReader} {x : Session} (h : d.config.blockAlign ≤ packet.size)
    (hrun : decodePacket d.stream (packet.extract 0 d.config.blockAlign)
      ⟨.ofBytes (packet.extract 0 d.config.blockAlign), ⟨d.frames, d.reservoir, pcm⟩⟩ =
        .error e ⟨r, x⟩) :
    Ending d packet pcm
      ⟨.error e, { d with frames := x.frames, reservoir := reservoirAfter e x.reservoir }, x.pcm⟩

theorem ending_decode (d : Decoder) (packet : Array UInt8) (pcm : Array Int16) :
    d.Ending packet pcm (d.decode packet pcm) := by
  unfold decode
  dsimp only
  split
  · rename_i hempty
    exact .finished (Array.isEmpty_iff_size_eq_zero.mp hempty)
  rename_i hsome
  have some : 0 < packet.size := by
    rw [Array.isEmpty_iff_size_eq_zero] at hsome
    omega
  split
  · exact .short some ‹_›
  rename_i hwhole
  split
  · exact .decoded (by omega) ‹_›
  · exact .failed (by omega) ‹_›

/-- What is known of a packet that is long enough is known of the call. -/
theorem decode_of_wp {d : Decoder} {packet : Array UInt8} {pcm : Array Int16}
    {P : DecodeOutcome → Prop} (hsome : 0 < packet.size)
    (hwhole : d.config.blockAlign ≤ packet.size)
    (h : (decodePacket d.stream (packet.extract 0 d.config.blockAlign)).wp
      (fun count t => P ⟨.ok ⟨count * d.config.frameSamples, count, d.config.blockAlign,
          t.state.reservoir.size⟩,
        { d with frames := t.state.frames, reservoir := t.state.reservoir }, t.state.pcm⟩)
      (fun e t => P ⟨.error e, { d with
        frames := t.state.frames
        reservoir := reservoirAfter e t.state.reservoir }, t.state.pcm⟩)
      ⟨.ofBytes (packet.extract 0 d.config.blockAlign), ⟨d.frames, d.reservoir, pcm⟩⟩) :
    P (d.decode packet pcm) := by
  unfold decode
  dsimp only
  rw [if_neg (by rw [Array.isEmpty_iff_size_eq_zero]; omega), if_neg (by omega)]
  unfold Parse.wp at h
  split <;> rename_i hrun <;> rw [hrun] at h <;> exact h

/-- An empty packet is the end of the stream: what waits is dropped. -/
theorem decode_of_size_eq_zero {d : Decoder} {packet : Array UInt8} {pcm : Array Int16}
    (h : packet.size = 0) :
    d.decode packet pcm = ⟨.ok ⟨0, 0, 0, 0⟩, { d with reservoir := .empty }, pcm⟩ :=
  if_pos (Array.isEmpty_iff_size_eq_zero.mpr h)

theorem decodePacket_of_bitReservoir {d : Decoder} (hr : d.config.bitReservoir = true)
    (packet : Array UInt8) :
    decodePacket d.stream packet = Session.decodeSuperframe d.stream packet :=
  if_pos hr

theorem stream_after (d : Decoder) (call : Call) : (d.after call).stream = d.stream := by
  cases call with
  | flush => rfl
  | decode packet pcm =>
    show (d.decode packet pcm).decoder.stream = _
    have ending := d.ending_decode packet pcm
    generalize d.decode packet pcm = o at ending ⊢
    cases ending <;> rfl

theorem stream_afterAll (d : Decoder) (calls : List Call) :
    (d.afterAll calls).stream = d.stream := by
  unfold afterAll
  induction calls generalizing d with
  | nil => rfl
  | cons call calls ih => exact (ih _).trans (d.stream_after call)

/-- The most frames that end in a packet. -/
def frameLimit (s : Stream) : Nat :=
  if s.config.bitReservoir then Session.maxFrames else 1

namespace Sound

variable {d : Decoder}

theorem size_extract_le (hd : d.Sound) (packet : Array UInt8) :
    (packet.extract 0 d.config.blockAlign).size ≤ maxPacketBytes := by
  have := hd.stream.config.blockAlign_le
  rw [Array.size_extract]
  show min d.stream.config.blockAlign _ - 0 ≤ _
  omega

theorem session (hd : d.Sound) (pcm : Array Int16) :
    Session.Sound d.stream pcm.size ⟨d.frames, d.reservoir, pcm⟩ :=
  ⟨hd.frames, hd.reservoir, rfl⟩

theorem settles_decodePacket (hd : d.Sound) (packet : Array UInt8) (pcm : Array Int16) :
    Session.Settles d.stream pcm.size (frameLimit d.stream)
      (decodePacket d.stream (packet.extract 0 d.config.blockAlign))
      ⟨.ofBytes (packet.extract 0 d.config.blockAlign), ⟨d.frames, d.reservoir, pcm⟩⟩ := by
  unfold decodePacket frameLimit
  split
  · exact Session.settles_decodeSuperframe hd.stream (hd.size_extract_le packet) (hd.session pcm)
  · exact Session.settles_decodeSingle hd.stream (hd.size_extract_le packet) (hd.session pcm)

theorem reservoirAfter (e : Error) {r : Reservoir} (hr : r.Sound) :
    (Decoder.reservoirAfter e r).Sound := by
  unfold Decoder.reservoirAfter
  split
  · exact Reservoir.sound_empty
  · exact hr

theorem decode (hd : d.Sound) (packet : Array UInt8) (pcm : Array Int16) :
    (d.decode packet pcm).decoder.Sound := by
  have settles := hd.settles_decodePacket packet pcm
  have ending := d.ending_decode packet pcm
  generalize d.decode packet pcm = o at ending ⊢
  cases ending with
  | finished => exact { hd with reservoir := Reservoir.sound_empty }
  | short => exact hd
  | decoded _ hrun =>
    have sound := Parse.wp_ok settles hrun
    exact ⟨hd.stream, sound.frames, sound.reservoir⟩
  | failed _ hrun =>
    have sound := (Parse.wp_error settles hrun).2
    exact ⟨hd.stream, sound.frames, reservoirAfter _ sound.reservoir⟩

theorem flush (hd : d.Sound) : d.flush.Sound :=
  ⟨hd.stream, hd.frames.restart hd.stream.config, Reservoir.sound_empty⟩

theorem after (hd : d.Sound) (call : Call) : (d.after call).Sound := by
  cases call with
  | decode packet pcm => exact hd.decode packet pcm
  | flush => exact hd.flush

end Sound

theorem sound_afterAll {d : Decoder} (hd : d.Sound) (calls : List Call) :
    (d.afterAll calls).Sound := by
  unfold afterAll
  induction calls generalizing d with
  | nil => exact hd
  | cons call calls ih => exact ih (hd.after call)

end Decoder

end Wma
