import Wma.Proofs.Decoder.Invariant
import Wma.Proofs.Frame.Mono
import Wma.Proofs.Packet.Continuation
import Wma.Proofs.Transform.Checked

/-!
# No input breaks a decoder

A broken promise inside the decoder is an error of its own (`Error.fault`): an index outside its
buffer, a difference below zero, a number outside its word, a shift by too many places, a loop that
does not come to an end. No call comes to one, whatever calls came before it
(`Decoder.isExpected_of_decode`).
-/

namespace Wma

/-- The errors that a caller may come to see once there is a decoder. -/
def Error.IsExpected : Error → Prop
  | .setup _ | .fault _ | .corrupt (.noBandLayout _) => False
  | .corrupt _ | .insufficientInput .. | .outputTooSmall .. => True

theorem Error.IsDamage.isExpected {e : Error} (h : e.IsDamage) : e.IsExpected := by
  unfold Error.IsDamage at h
  split at h
  · exact h.elim
  · rename_i hne
    unfold Error.IsExpected
    split <;> simp_all
  · exact h.elim

namespace Decoder

/-- A call fails because the packet is damaged. Otherwise nothing has changed, and the packet is too
short or its frames take more room than there is. -/
theorem Sound.of_report_eq_error {d : Decoder} (hd : d.Sound) {packet : Array UInt8}
    {pcm : Array Int16} {e : Error}
    (h : (d.decode packet pcm).report = .error e) :
    e.IsDamage ∨ ((d.decode packet pcm).decoder = d ∧ (d.decode packet pcm).pcm = pcm) ∧
      (0 < packet.size ∧ packet.size < d.config.blockAlign ∧
          e = .insufficientInput packet.size d.config.blockAlign ∨
        ∃ needed ≤ d.maxSamples, pcm.size < needed ∧ e = .outputTooSmall pcm.size needed) := by
  have settles := hd.settles_decodePacket packet pcm
  have ending := d.ending_decode packet pcm
  generalize d.decode packet pcm = o at ending h ⊢
  cases ending with
  | finished => cases h
  | short hsome hshort =>
    cases h
    exact .inr ⟨⟨rfl, rfl⟩, .inl ⟨hsome, hshort, rfl⟩⟩
  | decoded => cases h
  | failed _ hrun =>
    cases h
    rcases (Parse.wp_error settles hrun).1 with hdamage | ⟨hsame, count, hcount, hsmall, he⟩
    · exact .inl hdamage
    · dsimp only at hsame hsmall he
      subst hsame he
      have few := Nat.mul_le_mul_right d.stream.config.frameSamples hcount
      exact .inr ⟨⟨rfl, rfl⟩, .inr ⟨_, few, hsmall, rfl⟩⟩

theorem Sound.expected_of_error {d : Decoder} (hd : d.Sound) {packet : Array UInt8}
    {pcm : Array Int16} {e : Error} (h : (d.decode packet pcm).report = .error e) :
    e.IsExpected := by
  rcases hd.of_report_eq_error h with damage | ⟨-, ⟨-, -, rfl⟩ | ⟨_, -, -, rfl⟩⟩
  · exact damage.isExpected
  · trivial
  · trivial

/-! ### Packets of one frame -/

section single

variable {d : Decoder} {packet : Array UInt8} {pcm : Array Int16}
  (hr : d.stream.config.bitReservoir ≠ true) (hsome : 0 < packet.size)
  (hwhole : d.config.blockAlign ≤ packet.size)

include hr hsome hwhole

theorem decode_of_frame (hpcm : d.config.frameSamples ≤ pcm.size) {values : Array Int16}
    {t : Scan FrameState}
    (h : Frame.decode d.stream ⟨.ofBytes (packet.extract 0 d.config.blockAlign), d.frames⟩ =
      .ok values t) :
    d.decode packet pcm = ⟨.ok ⟨d.config.frameSamples, 1, d.config.blockAlign, d.reservoir.size⟩,
      { d with frames := t.state }, Buffer.overlay pcm values⟩ := by
  refine decode_of_wp (P := fun o => o = _) hsome hwhole ?_
  rw [decodePacket, if_neg hr]
  refine Session.wp_decodeSingle hpcm (Parse.wp_of_ok h ?_)
  rw [Nat.one_mul]

theorem report_of_room_lt (hpcm : pcm.size < d.config.frameSamples) :
    (d.decode packet pcm).report = .error (.outputTooSmall pcm.size d.config.frameSamples) := by
  refine decode_of_wp (P := fun o => o.report = _) hsome hwhole ?_
  rw [decodePacket, if_neg hr]
  exact Session.wp_decodeSingle_of_room_lt hpcm rfl

end single

/-- No sequence of calls breaks a promise inside a decoder: whatever packet and buffer come next, the
call gives a report, or fails because the packet is damaged, is too short, or has too little room for
its values. Nor does a sum of products in a transform leave its word, whatever the spectrum. -/
theorem isExpected_of_decode {p : Params} {d : Decoder} (h : ofParams p = .ok d)
    (calls : List Call) (packet : Array UInt8) (pcm : Array Int16) :
    (∀ e, ((d.afterAll calls).decode packet pcm).report = .error e → e.IsExpected) ∧
      ∀ (bits : Nat) (input : Vector Int32 (2 ^ (bits + 1)))
        (scratch : Vector (Phasor Int32) (2 ^ bits)),
        Imdct.full checkedPoint bits (input.map .ok) (scratch.map (Phasor.map .ok)) =
          (Imdct.full fixedPoint bits input scratch).map .ok :=
  ⟨fun _ => (sound_afterAll (sound_ofParams h) calls).expected_of_error,
    Imdct.checked_full⟩

/-- A packet with a frame of one channel that has a spectrum. -/
def hissingPacket : Array UInt8 :=
  Bits.pack (true :: (Frame.hissingData ++ List.replicate (511 - Frame.hissingData.length) false))

theorem size_hissingPacket : hissingPacket.size = 64 := by
  have short := Frame.length_hissingData_lt
  unfold hissingPacket
  rw [Bits.size_pack, List.length_cons, List.length_append, List.length_replicate]
  omega

theorem exists_ofBytes_hissingPacket :
    ∃ rest, Bits.ofBytes hissingPacket = true :: (Frame.hissingData ++ rest) :=
  ⟨_, (Bits.ofBytes_pack _).trans (by rw [List.cons_append, List.append_assoc])⟩

/-- The packet is decoded, spectrum and samples, whatever the buffer holds. The decoder that it leaves
refuses the same packet where there is no room for its values. -/
theorem isExpected_of_decode_hissing : ∃ d, ofParams .hissing = .ok d ∧ ∀ pcm, pcm.size = 1024 →
    (d.decode hissingPacket pcm).report = .ok ⟨1024, 1, 64, 0⟩ ∧
    ∃ e, ((d.afterAll [.decode hissingPacket pcm]).decode hissingPacket #[]).report = .error e ∧
      e.IsExpected := by
  obtain ⟨d, hd⟩ := exists_ofParams Config.ofParams_hissing
  have expected := fun pcm =>
    (isExpected_of_decode hd [.decode hissingPacket pcm] hissingPacket #[]).1
  have frames := (sound_ofParams hd).frames
  obtain ⟨c, books, hc, hbooks, rfl⟩ := of_ofParams hd
  obtain rfl : Config.hissing = c := Except.ok.inj (Config.ofParams_hissing.symm.trans hc)
  obtain ⟨rest, hbits⟩ := exists_ofBytes_hissingPacket
  obtain ⟨values, t, ht, -⟩ : ∃ values t, Frame.decode (.hissing books)
      ⟨.ofBytes hissingPacket, .initial .hissing⟩ = .ok values t ∧ _ :=
    Frame.exists_decode_hissing hbooks frames ((BitReader.remaining_ofBytes _).trans hbits)
  have hsome : 0 < hissingPacket.size := by
    rw [size_hissingPacket]
    decide
  have hwhole : hissingPacket.extract 0 64 = hissingPacket := by
    rw [← size_hissingPacket, Array.extract_size]
  have single : Config.hissing.bitReservoir ≠ true := by decide
  refine ⟨_, hd, fun pcm hpcm => ⟨?_, ?_⟩⟩
  · exact congrArg DecodeOutcome.report
      (decode_of_frame (d := ofStream (.hissing books)) single hsome size_hissingPacket.ge hpcm.ge
        (hwhole.symm ▸ ht))
  · have kept :
        ((ofStream (.hissing books)).afterAll [.decode hissingPacket pcm]).config = .hissing :=
      congrArg Stream.config (stream_afterAll _ _)
    have full := report_of_room_lt (kept ▸ single) hsome (by rw [kept]; exact size_hissingPacket.ge)
      (show (#[] : Array Int16).size < _ by rw [kept]; decide)
    exact ⟨_, full, expected pcm _ full⟩

/-- Parameters of a stream of two channels whose frames are split and go on from packet to packet. -/
def stereoParams : Params :=
  ⟨44100, 2, 128000, 4096, 0x161, #[0, 0, 0x1f, 0]⟩

theorem exists_stereo : ∃ d, ofParams stereoParams = .ok d := by
  have accepted : (Config.ofParams stereoParams).toBool = true := by decide +kernel
  obtain ⟨c, hc⟩ := exists_of_toBool accepted
  exact exists_ofParams hc

end Decoder

end Wma
