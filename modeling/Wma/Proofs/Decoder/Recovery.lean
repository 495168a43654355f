import Wma.Proofs.Decoder.Contract
import Wma.Proofs.Packet.Silence
import Wma.Proofs.Packet.Tracks

/-!
# Recovery from damage

A damaged packet leaves whatever its frames have changed until the damage was found, but no bytes in
the reservoir. From then on, a packet in which a new frame begins and ends is as good as the first of
a stream: the decoder takes it, and the packets behind it, if a new decoder does
(`Decoder.acceptAll_of_corrupt`). The reverse does not hold, as the decoder may have an envelope that
a new one lacks.
-/

namespace Wma

open Parse

/-- A state that has decoded frames tracks one that has not. -/
theorem FrameState.tracks_initial {c : Config} (hc : c.Sound) {x : FrameState} (hx : x.Sound c) :
    FrameState.Tracks .follow c (·.Sound c) BlockState.Any False False (initial c) x where
  first := sound_initial hc
  second := hx
  block := trivial
  channels := by
    refine .of_get ((sound_initial hc).layout.trans hx.layout.symm) fun place => ?_
    simp only [initial, PerChannel.get_replicate]
    refine ⟨?_, False.elim, False.elim⟩
    show View.follow.Implies false _
    cases (x.channels.get place).hasEnvelope
    · exact .inl rfl
    · exact .inr ⟨trivial, rfl⟩

namespace Decoder

/-- The count of frames that the header of a packet states. -/
def frameField (d : Decoder) (packet : Array UInt8) : Nat :=
  (SuperframeHeader.ofBits d.config.offsetBits false
    (Bits.ofBytes (packet.extract 0 d.config.blockAlign))).framesEnding

/-- The reports of packets that are all accepted, and the bytes that are kept behind each of them. -/
def acceptAll (d : Decoder) : List (Array UInt8 × Array Int16) →
    Except Error (List (DecodeReport × Reservoir))
  | [] => return []
  | (packet, pcm) :: inputs => do
    let o := d.decode packet pcm
    let report ← o.report
    return (report, o.decoder.reservoir) :: (← acceptAll o.decoder inputs)

/-- The same packet, and a buffer of the same size. -/
def SameSize (i i' : Array UInt8 × Array Int16) : Prop :=
  i.1 = i'.1 ∧ i.2.size = i'.2.size

/-- The second decoder takes what the first one takes. -/
structure Tracks (B : BlockState → BlockState → Prop) (d e : Decoder) : Prop where
  stream : d.stream = e.stream
  frames : d.frames.Tracks .follow d.stream.config (·.Sound d.stream.config) B False False e.frames
  reservoir : d.reservoir = e.reservoir

variable {B : BlockState → BlockState → Prop} {d e : Decoder} {packet : Array UInt8}
  {pcm pcm' : Array Int16} {r : DecodeReport}

theorem bitReservoir_after (hr : d.config.bitReservoir = true) (call : Call) :
    (d.after call).config.bitReservoir = true := by
  unfold config at *
  rwa [d.stream_after call]

theorem reservoir_of_corrupt {cause : StreamCause}
    (h : (d.decode packet pcm).report = .error (.corrupt cause)) :
    (d.decode packet pcm).decoder.reservoir = .empty := by
  have ending := d.ending_decode packet pcm
  generalize d.decode packet pcm = o at ending h ⊢
  cases ending with
  | finished => cases h
  | short => cases h
  | decoded => cases h
  | failed => cases h; rfl

theorem Tracks.session (h : d.Tracks B e) (hsize : pcm.size = pcm'.size) :
    Session.Tracks d.stream B ⟨d.frames, d.reservoir, pcm⟩ ⟨e.frames, e.reservoir, pcm'⟩ :=
  ⟨h.frames, h.reservoir, hsize⟩

/-- What is to be shown of a packet is that the frames of the second decoder follow. -/
theorem Tracks.decode_of_run (h : d.Tracks B e) (hsome : 0 < packet.size)
    (hrun : ∀ count t, decodePacket d.stream (packet.extract 0 d.config.blockAlign)
        ⟨.ofBytes (packet.extract 0 d.config.blockAlign), ⟨d.frames, d.reservoir, pcm⟩⟩ =
          .ok count t →
      ∃ y, decodePacket d.stream (packet.extract 0 d.config.blockAlign)
        ⟨.ofBytes (packet.extract 0 d.config.blockAlign), ⟨e.frames, e.reservoir, pcm'⟩⟩ =
          .ok count ⟨t.reader, y⟩ ∧ Session.Tracks d.stream BlockState.Resumes t.state y)
    (hok : (d.decode packet pcm).report = .ok r) :
    (e.decode packet pcm').report = .ok r ∧
      (d.decode packet pcm).decoder.Tracks BlockState.Resumes (e.decode packet pcm').decoder := by
  obtain ⟨s, f, q⟩ := d
  obtain ⟨_, f', _⟩ := e
  obtain ⟨rfl, -, rfl⟩ := h
  have ending := ending_decode ⟨s, f, q⟩ packet pcm
  generalize Decoder.decode ⟨s, f, q⟩ packet pcm = o at ending hok ⊢
  cases ending with
  | finished hnone => omega
  | short => cases hok
  | failed => cases hok
  | decoded hwhole hfirst =>
    rename_i x
    cases hok
    obtain ⟨y, hsecond, htracks⟩ := hrun _ _ hfirst
    refine decode_of_wp (d := ⟨s, f', q⟩) (P := fun o => o.report = .ok _ ∧
      Tracks BlockState.Resumes ⟨s, x.frames, x.reservoir⟩ o.decoder) hsome hwhole
      (wp_of_ok hsecond ⟨?_, rfl, htracks.frames, htracks.reservoir⟩)
    dsimp only
    rw [htracks.reservoir]
    rfl

theorem Tracks.decode (h : d.Tracks BlockState.Resumes e) (hd : d.Sound)
    (hr : d.config.bitReservoir = true) (hsize : pcm.size = pcm'.size)
    (hok : (d.decode packet pcm).report = .ok r) :
    (e.decode packet pcm').report = .ok r ∧
      (d.decode packet pcm).decoder.Tracks BlockState.Resumes (e.decode packet pcm').decoder := by
  by_cases hsome : 0 < packet.size
  · refine h.decode_of_run hsome (fun count t hrun => ?_) hok
    rw [decodePacket_of_bitReservoir hr] at hrun ⊢
    obtain ⟨_, y, hy, rfl, htracks⟩ := (Session.follows_decodeSuperframe hd.stream _).exists_run
      ⟨h.session hsize, hd.reservoir⟩ hrun
    exact ⟨y, hy, htracks⟩
  · have none : packet.size = 0 := by omega
    rw [decode_of_size_eq_zero none] at hok ⊢
    rw [decode_of_size_eq_zero none]
    exact ⟨hok, h.stream, h.frames, rfl⟩

/-- The first packet after damage. -/
theorem Tracks.decode_of_fresh (h : d.Tracks B e) (hd : d.Sound) (hr : d.config.bitReservoir = true)
    (hempty : d.reservoir = .empty) (hfresh : 2 ≤ d.frameField packet)
    (hsize : pcm.size = pcm'.size) (hok : (d.decode packet pcm).report = .ok r) :
    (e.decode packet pcm').report = .ok r ∧
      (d.decode packet pcm).decoder.Tracks BlockState.Resumes (e.decode packet pcm').decoder := by
  have some : 0 < packet.size := by
    by_contra hnone
    obtain rfl : packet = #[] := Array.eq_empty_of_size_eq_zero (by omega)
    have none : d.frameField #[] = 0 := by
      unfold frameField
      rw [Array.extract_empty]
      rfl
    omega
  refine h.decode_of_run some (fun count t hrun => ?_) hok
  rw [decodePacket_of_bitReservoir hr] at hrun ⊢
  exact Session.follows_decodeSuperframe_of_fresh hd.stream (h.session hsize) hempty hfresh hrun

theorem acceptAll_cons {inputs : List (Array UInt8 × Array Int16)}
    {results : List (DecodeReport × Reservoir)} :
    d.acceptAll ((packet, pcm) :: inputs) = .ok results ↔
      ∃ report rest, (d.decode packet pcm).report = .ok report ∧
        (d.decode packet pcm).decoder.acceptAll inputs = .ok rest ∧
        results = (report, (d.decode packet pcm).decoder.reservoir) :: rest := by
  constructor
  · intro h
    obtain ⟨report, hreport, h⟩ := ok_of_bind h
    obtain ⟨rest, hrest, h⟩ := ok_of_bind h
    cases h
    exact ⟨report, rest, hreport, hrest, rfl⟩
  · rintro ⟨report, rest, hreport, hrest, rfl⟩
    unfold acceptAll
    dsimp only
    rw [hreport, hrest]
    rfl

/-- The second decoder goes on taking what the first one takes. -/
theorem Tracks.acceptAll (h : d.Tracks BlockState.Resumes e) (hd : d.Sound)
    (hr : d.config.bitReservoir = true) {inputs inputs' : List (Array UInt8 × Array Int16)}
    (hsize : List.Forall₂ SameSize inputs inputs') {results : List (DecodeReport × Reservoir)}
    (hok : d.acceptAll inputs = .ok results) : e.acceptAll inputs' = .ok results := by
  induction hsize generalizing d e results with
  | nil => exact hok
  | @cons i i' inputs inputs' hi hsize ih =>
    obtain ⟨packet, pcm⟩ := i
    obtain ⟨_, pcm'⟩ := i'
    obtain ⟨rfl, hpcm⟩ := hi
    obtain ⟨report, rest, hreport, hrest, rfl⟩ := acceptAll_cons.mp hok
    obtain ⟨hreport', htracks⟩ := h.decode hd hr hpcm hreport
    have rest' := ih htracks (hd.decode packet pcm) (bitReservoir_after hr (.decode packet pcm)) hrest
    exact acceptAll_cons.mpr ⟨report, rest, hreport', rest', by rw [htracks.reservoir]⟩

/-- A damaged packet leaves nothing in the reservoir. If the next packet brings a frame of its own, the
decoder then takes whatever packets a new decoder takes, to buffers of the same sizes, and comes to
the same reports and the same reservoir with each of them. -/
theorem acceptAll_of_corrupt {p : Params} {d₀ : Decoder} (h : ofParams p = .ok d₀)
    (hr : d₀.config.bitReservoir = true) (calls : List Call) {packet : Array UInt8}
    {pcm : Array Int16} {cause : StreamCause}
    (hcorrupt : ((d₀.afterAll calls).decode packet pcm).report = .error (.corrupt cause)) :
    ((d₀.afterAll calls).decode packet pcm).decoder.reservoir = .empty ∧
      ∀ first first' inputs inputs' results, 2 ≤ d₀.frameField first.1 →
        List.Forall₂ SameSize (first :: inputs) (first' :: inputs') →
        d₀.acceptAll (first :: inputs) = .ok results →
        ((d₀.afterAll calls).decode packet pcm).decoder.acceptAll (first' :: inputs') =
          .ok results := by
  have sound₀ := sound_ofParams h
  have sound := (sound_afterAll sound₀ calls).decode packet pcm
  have same : ((d₀.afterAll calls).decode packet pcm).decoder.stream = d₀.stream :=
    ((d₀.afterAll calls).stream_after (.decode packet pcm)).trans (d₀.stream_afterAll calls)
  have empty : ((d₀.afterAll calls).decode packet pcm).decoder.reservoir = .empty :=
    reservoir_of_corrupt hcorrupt
  refine ⟨empty, ?_⟩
  generalize ((d₀.afterAll calls).decode packet pcm).decoder = e at sound same empty
  rintro ⟨packet, pcm⟩ ⟨_, pcm'⟩ inputs inputs' results hfresh hsize hok
  obtain ⟨⟨hpacket, hpcm⟩, hsizes⟩ := List.forall₂_cons.mp hsize
  dsimp only at hpacket hpcm hfresh
  subst hpacket
  have tracks : d₀.Tracks BlockState.Any e := by
    obtain ⟨c, books, -, -, rfl⟩ := of_ofParams h
    obtain ⟨s, f, q⟩ := e
    dsimp only at same empty
    subst same empty
    exact ⟨rfl, FrameState.tracks_initial sound₀.stream.config sound.frames, rfl⟩
  have empty₀ : d₀.reservoir = .empty := tracks.reservoir.trans empty
  obtain ⟨report, rest, hreport, hrest, rfl⟩ := acceptAll_cons.mp hok
  obtain ⟨hreport', tracks'⟩ := tracks.decode_of_fresh sound₀ hr empty₀ hfresh hpcm hreport
  have rest' := tracks'.acceptAll (sound₀.decode packet pcm)
    (bitReservoir_after hr (.decode packet pcm)) hsizes hrest
  exact acceptAll_cons.mpr ⟨report, rest, hreport', rest', by rw [tracks'.reservoir]⟩

/-! ### Packets of silence -/

theorem exists_tiny : ∃ d, ofParams .tiny = .ok d ∧ d.Sound ∧ d.config = .tiny ∧
    d.reservoir = .empty := by
  obtain ⟨d, hd⟩ := exists_ofParams Config.ofParams_tiny
  have sound := sound_ofParams hd
  obtain ⟨c, books, hc, -, rfl⟩ := of_ofParams hd
  cases hc.symm.trans Config.ofParams_tiny
  exact ⟨_, hd, sound, rfl, rfl⟩

theorem decode_silentPacket (hd : d.Sound) (hc : d.config = .tiny) (hempty : d.reservoir = .empty)
    {k : Nat} (hk : k < 5) (hpcm : 4096 ≤ pcm.size) :
    (d.decode (silentPacket k) pcm).report = .ok ⟨4096, 1, 4, 0⟩ ∧
      (d.decode (silentPacket k) pcm).decoder.reservoir = .empty ∧
      (d.decode (silentPacket k) pcm).decoder.frames.block.reset = false ∧
      (d.decode (silentPacket k) pcm).decoder.frames.block.nextBits = 11 - k := by
  have whole : (silentPacket k).extract 0 d.config.blockAlign = silentPacket k := by rw [hc]; rfl
  have samples : d.config.frameSamples = 4096 := by rw [hc]; rfl
  have align : d.config.blockAlign = 4 := by rw [hc]; rfl
  refine decode_of_wp (P := fun o => o.report = .ok ⟨4096, 1, 4, 0⟩ ∧ o.decoder.reservoir = .empty ∧
    o.decoder.frames.block.reset = false ∧ o.decoder.frames.block.nextBits = 11 - k)
    (Nat.succ_pos 3) (by rw [align]; exact Nat.le_refl 4) ?_
  rw [whole, decodePacket_of_bitReservoir (by rw [hc]; rfl)]
  refine Session.wp_decodeSuperframe_silentPacket hd.stream hc hk (hd.session pcm) hempty hpcm
    fun q f pcm _ hreset hnext => ⟨?_, rfl, hreset, hnext⟩
  rw [samples, align]
  rfl

theorem decode_noFrames (hc : d.config = .tiny) (hempty : d.reservoir = .empty) (pcm : Array Int16) :
    (d.decode #[0, 0, 0, 0] pcm).report = .error (.corrupt .noFrames) := by
  have align : d.config.blockAlign = 4 := by rw [hc]; rfl
  refine decode_of_wp (P := fun o => o.report = .error (.corrupt .noFrames)) (by decide)
    (by rw [align]; decide) ?_
  rw [align, decodePacket_of_bitReservoir (by rw [hc]; rfl)]
  exact Session.wp_decodeSuperframe_of_none (by decide) hempty (by decide) fun _ => rfl

theorem acceptAll_silentPacket (hd : d.Sound) (hc : d.config = .tiny) (hempty : d.reservoir = .empty)
    (hpcm : 4096 ≤ pcm.size) :
    d.acceptAll [(silentPacket 0, pcm)] = .ok [(⟨4096, 1, 4, 0⟩, .empty)] := by
  obtain ⟨hreport, hreservoir, -⟩ := decode_silentPacket hd hc hempty (by decide : 0 < 5) hpcm
  exact acceptAll_cons.mpr ⟨_, [], hreport, rfl, by rw [hreservoir]⟩

/-- The decoder is damaged while it waits for a block of half a frame. -/
theorem acceptAll_of_corrupt_tiny : ∃ d, ofParams .tiny = .ok d ∧
    ((d.afterAll [.decode (silentPacket 1) (.replicate 4096 0)]).decode #[0, 0, 0, 0]
      #[]).decoder.acceptAll [(silentPacket 0, .replicate 4096 7)] =
        .ok [(⟨4096, 1, 4, 0⟩, .empty)] := by
  obtain ⟨d, hd, sound, hc, hempty⟩ := exists_tiny
  have size : ∀ a : Int16, (Array.replicate 4096 a).size = 4096 := fun _ => Array.size_replicate
  have room := Nat.le_of_eq (size 0).symm
  have reservoir : d.config.bitReservoir = true := by rw [hc]; rfl
  have fresh : 2 ≤ d.frameField (silentPacket 0) := by
    unfold frameField
    rw [hc]
    decide
  have config : (d.after (.decode (silentPacket 1) (.replicate 4096 0))).config = .tiny :=
    (congrArg Stream.config (d.stream_after _)).trans hc
  have corrupt := decode_noFrames config
    (decode_silentPacket sound hc hempty (by decide : 1 < 5) room).2.1 #[]
  exact ⟨d, hd, (acceptAll_of_corrupt hd reservoir [.decode (silentPacket 1) (.replicate 4096 0)]
    corrupt).2 (silentPacket 0, .replicate 4096 0) (silentPacket 0, .replicate 4096 7) [] [] _ fresh
    (.cons ⟨rfl, (size 0).trans (size 7).symm⟩ .nil) (acceptAll_silentPacket sound hc hempty room)⟩

end Decoder

end Wma
