import Wma.Proofs.Decoder.Recovery
import Wma.Proofs.Packet.Continuation

/-!
# A frame that begins a packet and ends in a later one

Where nothing waits, a packet may bring the beginning of a frame and no more. The packet with the end
of the frame then gives what the frame gives if its bits stand in a row
(`Decoder.decode_last_of_cut`), decoded from the state in which the frames before have left the
decoder. So the frame states the lengths of its first blocks only if that state asks for them, as it
does at the start of a stream and behind a frame that was completed in the same way. Behind other
frames the bits may stand for other lengths than they would if the frame ended in its first packet
(`Decoder.completion_of_stale`).
-/

namespace Wma

open Parse

namespace Decoder

/-- The header of a packet that goes on with a frame. -/
def lastHeader (d : Decoder) (packet : Array UInt8) : SuperframeHeader :=
  .ofBits d.config.offsetBits true (Bits.ofBytes (packet.extract 0 d.config.blockAlign))

/-- The bits of a packet in which no frame ends. -/
def payload (d : Decoder) (packet : Array UInt8) : List Bool :=
  (Bits.ofBytes (packet.extract 0 d.config.blockAlign)).drop 8

/-- The bits that a packet adds to the frame that ends in it. -/
def lastBits (d : Decoder) (packet : Array UInt8) : List Bool :=
  ((Bits.ofBytes (packet.extract 0 d.config.blockAlign)).drop (d.lastHeader packet).width).take
    (d.lastHeader packet).bitOffset

/-- What a packet that completes a frame gives, if the frame is decoded from the state of `d`. -/
def completion (d : Decoder) (frame : List Bool) (last : Array UInt8) (pcm : Array Int16) :
    DecodeOutcome :=
  match Frame.decode d.stream ⟨.ofList 0 frame, d.frames⟩ with
  | .ok values t =>
    let h := d.lastHeader last
    let tail := Reservoir.behind (last.extract 0 d.config.blockAlign) (h.width + h.bitOffset)
    ⟨.ok ⟨d.config.frameSamples, 1, d.config.blockAlign, tail.size⟩,
      { d with frames := t.state.resetLengths, reservoir := tail }, Buffer.overlay pcm values⟩
  | .error e t => ⟨.error e, { d with frames := t.state, reservoir := .empty }, pcm⟩

/-- Packets over which a frame is spread: one that brings its beginning, others that go on with it,
and one in which it ends. -/
structure Cut (d : Decoder) (frame : List Bool) (first : Array UInt8) (others : List (Array UInt8))
    (last : Array UInt8) : Prop where
  sizes : ∀ packet ∈ first :: last :: others, d.config.blockAlign ≤ packet.size
  /-- A packet in which no frame ends has more than one byte behind its header. -/
  blockAlign : 2 < d.config.blockAlign
  begins : d.frameField first = 1
  continues : ∀ packet ∈ others, d.frameField packet = 0
  ends : d.frameField last = 1
  inside : (d.lastHeader last).width + (d.lastHeader last).bitOffset ≤ 8 * d.config.blockAlign
  /-- The reservoir has room for the frame. -/
  room : (others.length + 1) * (d.config.blockAlign - 1) + ((d.lastHeader last).bitOffset + 7) / 8 ≤
    maxPacketBytes
  frame : frame = ((first :: others).map d.payload).flatten ++ d.lastBits last

/-- Packets in which no frame ends have turned the first decoder into the second. -/
structure Continued (d : Decoder) (packets : List (Array UInt8)) (e : Decoder) : Prop where
  stream : e.stream = d.stream
  frames : e.frames = d.frames
  bitOffset : e.reservoir.bitOffset = d.reservoir.bitOffset
  size : e.reservoir.size = d.reservoir.size + packets.length * (d.config.blockAlign - 1)
  pending : e.reservoir.pending = d.reservoir.pending ++ (packets.map d.payload).flatten

namespace Continued

variable {d e f : Decoder} {packet : Array UInt8} {packets : List (Array UInt8)}

theorem config (h : d.Continued packets e) : e.config = d.config :=
  congrArg Stream.config h.stream

theorem refl (d : Decoder) : d.Continued [] d :=
  ⟨rfl, rfl, rfl, by simp, by simp⟩

theorem cons (h : d.Continued [packet] e) (h' : e.Continued packets f) :
    d.Continued (packet :: packets) f := by
  have payload : e.payload = d.payload := by
    unfold Decoder.payload
    rw [h.config]
  refine ⟨h'.stream.trans h.stream, h'.frames.trans h.frames, h'.bitOffset.trans h.bitOffset, ?_, ?_⟩
  · rw [h'.size, h.size, h.config, List.length_cons, List.length_cons, List.length_nil, Nat.add_assoc,
      ← Nat.add_mul, Nat.zero_add, Nat.add_comm 1]
  · rw [h'.pending, h.pending, payload]
    simp

end Continued

variable {d e : Decoder} {packet : Array UInt8} {pcm : Array Int16}

theorem frameField_congr (h : e.config = d.config) : e.frameField = d.frameField := by
  unfold frameField
  rw [h]

/-- How many frames a header counts does not depend on what waits. -/
theorem framesEnding_eq_frameField (d : Decoder) (carried : Bool) (packet : Array UInt8) :
    (SuperframeHeader.ofBits d.config.offsetBits carried
      (Bits.ofBytes (packet.extract 0 d.config.blockAlign))).framesEnding = d.frameField packet := by
  unfold frameField
  rw [SuperframeHeader.framesEnding_ofBits, SuperframeHeader.framesEnding_ofBits]

theorem size_extract_blockAlign (h : d.config.blockAlign ≤ packet.size) :
    (packet.extract 0 d.config.blockAlign).size = d.config.blockAlign := by
  rw [Array.size_extract]
  omega

/-- A packet in which no frame ends. -/
theorem continued_of_idle (hd : d.Sound) (hr : d.config.bitReservoir = true)
    (hsize : d.config.blockAlign ≤ packet.size) (hpayload : 2 < d.config.blockAlign)
    (hidle : d.frameField packet = SuperframeHeader.idleCount (!d.reservoir.isEmpty))
    (hroom : d.reservoir.size + (d.config.blockAlign - 1) ≤ maxPacketBytes) (pcm : Array Int16) :
    (∃ r, (d.decode packet pcm).report = .ok r ∧ r.frames = 0) ∧
      d.Continued [packet] (d.decode packet pcm).decoder := by
  have size := size_extract_blockAlign hsize
  have idle := (d.framesEnding_eq_frameField (!d.reservoir.isEmpty) packet).trans hidle
  refine decode_of_wp (P := fun o => (∃ r, o.report = .ok r ∧ r.frames = 0) ∧
    d.Continued [packet] o.decoder) (by omega) hsize ?_
  rw [decodePacket_of_bitReservoir hr]
  refine Session.wp_decodeSuperframe_of_idle (x := ⟨d.frames, d.reservoir, pcm⟩) hd.stream rfl idle
    (by omega) (by rw [size]; exact hroom) fun q => ⟨⟨_, rfl, rfl⟩, rfl, rfl, rfl, ?_, ?_⟩
  · unfold Reservoir.size
    rw [Array.size_append, Array.size_extract, size, Nat.min_self, List.length_singleton, Nat.one_mul]
  · rw [Reservoir.pending_append hd.reservoir, Bits.ofBytes_rest]
    simp [payload]

/-- Packets in which no frame ends are all accepted. -/
def Idles (d : Decoder) (inputs : List (Array UInt8 × Array Int16)) : Prop :=
  (∃ results, d.acceptAll inputs = .ok results ∧ ∀ r ∈ results, r.1.frames = 0) ∧
    d.Continued (inputs.map Prod.fst) (d.afterAll (inputs.map fun i => .decode i.1 i.2))

/-- A packet in which no frame ends goes before others if a frame waits afterwards. -/
theorem Idles.cons {inputs : List (Array UInt8 × Array Int16)} (hd : d.Sound)
    (hr : d.config.bitReservoir = true) (hpayload : 2 < d.config.blockAlign)
    (hsize : d.config.blockAlign ≤ packet.size)
    (hidle : d.frameField packet = SuperframeHeader.idleCount (!d.reservoir.isEmpty))
    (hroom : d.reservoir.size + (d.config.blockAlign - 1) ≤ maxPacketBytes)
    (h : ∀ e : Decoder, e.Sound → e.config = d.config →
      e.reservoir.size = d.reservoir.size + (d.config.blockAlign - 1) → e.Idles inputs) :
    d.Idles ((packet, pcm) :: inputs) := by
  obtain ⟨⟨r, hreport, hnone⟩, hfirst⟩ := continued_of_idle hd hr hsize hpayload hidle hroom pcm
  have size := hfirst.size
  rw [List.length_singleton, Nat.one_mul] at size
  obtain ⟨⟨results, haccept, hothers⟩, hrest⟩ := h _ (hd.decode packet pcm) hfirst.config size
  refine ⟨⟨_, acceptAll_cons.mpr ⟨r, results, hreport, haccept, rfl⟩, fun x hx => ?_⟩,
    hfirst.cons hrest⟩
  rcases List.mem_cons.mp hx with rfl | hx
  · exact hnone
  · exact hothers x hx

/-- While a frame waits, packets in which no frame ends go on with it. -/
theorem idles_of_waiting (hpayload : 2 < d.config.blockAlign)
    {inputs : List (Array UInt8 × Array Int16)} (hd : d.Sound) (hr : d.config.bitReservoir = true)
    (hwaits : 0 < d.reservoir.size) (hsize : ∀ i ∈ inputs, d.config.blockAlign ≤ i.1.size)
    (hidle : ∀ i ∈ inputs, d.frameField i.1 = 0)
    (hroom : d.reservoir.size + inputs.length * (d.config.blockAlign - 1) ≤ maxPacketBytes) :
    d.Idles inputs := by
  induction inputs generalizing d with
  | nil => exact ⟨⟨[], rfl, by simp⟩, .refl d⟩
  | cons i inputs ih =>
    obtain ⟨packet, pcm⟩ := i
    obtain ⟨hwhole, hsize⟩ := List.forall_mem_cons.mp hsize
    obtain ⟨hfield, hidle⟩ := List.forall_mem_cons.mp hidle
    dsimp only at hwhole hfield
    rw [List.length_cons, Nat.add_mul, Nat.one_mul] at hroom
    have idle : d.frameField packet = SuperframeHeader.idleCount (!d.reservoir.isEmpty) := by
      rw [Reservoir.isEmpty_eq_false_iff.mpr hwaits, hfield]
      rfl
    refine .cons hd hr hpayload hwhole idle (by omega) fun e he config size => ?_
    refine ih (by rwa [config]) he (by rwa [config]) (by omega) (by rwa [config]) ?_ ?_
    · rwa [frameField_congr config]
    · rw [config, size]
      omega

theorem Cut.idles {first : Array UInt8 × Array Int16} {others : List (Array UInt8 × Array Int16)}
    {frame : List Bool} {last : Array UInt8}
    (h : d.Cut frame first.1 (others.map Prod.fst) last) (hd : d.Sound)
    (hr : d.config.bitReservoir = true) (hempty : d.reservoir = .empty) :
    d.Idles (first :: others) := by
  obtain ⟨packet, pcm⟩ := first
  have room := h.room
  have field : d.frameField packet = 1 := h.begins
  have whole : d.config.blockAlign ≤ packet.size := h.sizes packet List.mem_cons_self
  have none : d.reservoir.size = 0 := by rw [hempty]; rfl
  have payload := h.blockAlign
  rw [List.length_map, Nat.add_mul, Nat.one_mul] at room
  refine .cons hd hr payload whole (by rw [field, hempty]; rfl) (by omega) fun e he config size => ?_
  refine idles_of_waiting (by rwa [config]) he (by rwa [config]) (by omega) ?_ ?_ ?_
  · rw [config]
    exact fun i hi => h.sizes i.1 (by simp [List.mem_map_of_mem hi])
  · rw [frameField_congr config]
    exact fun i hi => h.continues i.1 (List.mem_map_of_mem hi)
  · rw [config, size]
    omega

theorem reservoirAfter_of_isDamage {error : Error} (h : error.IsDamage) (r : Reservoir) :
    reservoirAfter error r = .empty := by
  cases error with
  | corrupt => rfl
  | insufficientInput | outputTooSmall | setup | fault => exact h.elim

/-- The packet in which the frame ends that waits. -/
theorem decode_last_of_waiting {last : Array UInt8} (hd : d.Sound)
    (hr : d.config.bitReservoir = true) (hwaits : 0 < d.reservoir.size)
    (hbegin : d.reservoir.bitOffset = 0) (hwhole : d.config.blockAlign ≤ last.size)
    (hends : d.frameField last = 1)
    (hinside : (d.lastHeader last).width + (d.lastHeader last).bitOffset ≤ 8 * d.config.blockAlign)
    (hroom : d.reservoir.size + ((d.lastHeader last).bitOffset + 7) / 8 ≤ maxPacketBytes)
    (hpcm : d.config.frameSamples ≤ pcm.size) :
    d.decode last pcm = d.completion (d.reservoir.pending ++ d.lastBits last) last pcm := by
  have positive := hd.stream.config.blockAlign_pos
  have some : 0 < last.size := Nat.lt_of_lt_of_le positive hwhole
  have size := size_extract_blockAlign hwhole
  have field := (d.framesEnding_eq_frameField true last).trans hends
  refine decode_of_wp (P := fun o => o = d.completion (d.reservoir.pending ++ d.lastBits last) last pcm)
    some hwhole ?_
  rw [decodePacket_of_bitReservoir hr]
  refine Session.wp_decodeSuperframe_of_last (x := ⟨d.frames, d.reservoir, pcm⟩) hd.stream
    (hd.size_extract_le last) (Reservoir.isEmpty_eq_false_iff.mpr hwaits) hbegin rfl field
    (by rw [size]; exact hinside) hroom hpcm (wp_of_result (fun values t ht q => ?_) fun e t ht q r => ?_)
  · have decoded : Frame.decode d.stream
        ⟨.ofList 0 (d.reservoir.pending ++ d.lastBits last), d.frames⟩ = .ok values t := ht
    unfold completion
    rw [decoded]
    dsimp only
    rw [Nat.one_mul]
    rfl
  · have failed : Frame.decode d.stream
        ⟨.ofList 0 (d.reservoir.pending ++ d.lastBits last), d.frames⟩ = .error e t := ht
    have short : (BitReader.ofList 0 (d.reservoir.pending ++ d.lastBits last)).Short := by
      have pending : d.reservoir.pending.length ≤ 8 * d.reservoir.size := by
        unfold Reservoir.pending Reservoir.size
        rw [List.length_drop, Bits.length_ofBytes]
        omega
      have own : (d.lastBits last).length ≤ (d.lastHeader last).bitOffset := List.length_take_le _ _
      show 0 + (d.reservoir.pending ++ d.lastBits last).length ≤ 8 * maxPacketBytes
      rw [List.length_append]
      omega
    have sound : d.frames.Sound d.stream.config := hd.frames
    have damage := (wp_error (Frame.triple_decode hd.stream
      ⟨.ofList 0 (d.reservoir.pending ++ d.lastBits last), d.frames⟩ sound) failed).1 short
    unfold completion
    rw [failed, reservoirAfter_of_isDamage damage]

/-- The packet in which a frame ends that others have brought. -/
theorem Cut.decode_last {frame : List Bool} {first last : Array UInt8} {others : List (Array UInt8)}
    (h : d.Cut frame first others last) (he : e.Sound)
    (hr : d.config.bitReservoir = true) (hempty : d.reservoir = .empty)
    (hcontinued : d.Continued (first :: others) e) (hpcm : d.config.frameSamples ≤ pcm.size) :
    e.decode last pcm = d.completion frame last pcm := by
  have config := hcontinued.config
  have header : e.lastHeader last = d.lastHeader last := by
    unfold lastHeader
    rw [config]
  have payload := h.blockAlign
  have size := hcontinued.size
  have pending := hcontinued.pending
  have room := h.room
  have none : d.reservoir.size = 0 := by rw [hempty]; rfl
  rw [none, List.length_cons, Nat.zero_add] at size
  rw [hempty] at pending
  have bits : e.reservoir.pending ++ e.lastBits last = frame := by
    rw [pending, h.frame, lastBits, header, config]
    rfl
  have state : e.completion frame last pcm = d.completion frame last pcm := by
    unfold completion
    rw [header, config, hcontinued.stream, hcontinued.frames]
  rw [decode_last_of_waiting he (by rwa [config]) ?_ ?_ ?_ ?_ ?_ ?_ (by rwa [config]), bits, state]
  · rw [size]
    exact Nat.mul_pos (Nat.succ_pos _) (by omega)
  · rw [hcontinued.bitOffset, hempty]
    rfl
  · rw [config]
    exact h.sizes last (by simp)
  · rw [frameField_congr config]
    exact h.ends
  · rw [header, config]
    exact h.inside
  · rw [header, size]
    exact h.room

/-- Where nothing waits, a frame may begin with one packet and end in a later one. The packets before
the last are accepted and change nothing but the reservoir, and the last gives what the frame gives if
its bits stand in a row. It is decoded from the state in which the calls before have left the decoder;
if that state asks for all lengths, this is the same as if they were reset before the frame. -/
theorem decode_last_of_cut {p : Params} {d₀ : Decoder} (h : ofParams p = .ok d₀)
    (hr : d₀.config.bitReservoir = true) (calls : List Call)
    (hempty : (d₀.afterAll calls).reservoir = .empty) {frame : List Bool}
    (first : Array UInt8 × Array Int16) (others : List (Array UInt8 × Array Int16))
    {last : Array UInt8} (hcut : (d₀.afterAll calls).Cut frame first.1 (others.map Prod.fst) last)
    {pcm : Array Int16} (hpcm : d₀.config.frameSamples ≤ pcm.size) :
    let d := d₀.afterAll calls
    let e := d.afterAll ((first :: others).map fun i => .decode i.1 i.2)
    (∃ results, d.acceptAll (first :: others) = .ok results ∧ ∀ r ∈ results, r.1.frames = 0) ∧
      e.decode last pcm = d.completion frame last pcm ∧
      (d.frames.block.reset = true → e.decode last pcm =
        ({ d with frames := d.frames.resetLengths } : Decoder).completion frame last pcm) := by
  intro d e
  have kept : d.config = d₀.config := congrArg Stream.config (d₀.stream_afterAll calls)
  have sound : d.Sound := sound_afterAll (sound_ofParams h) calls
  have reservoir : d.config.bitReservoir = true := by rwa [kept]
  obtain ⟨haccept, hcontinued⟩ := hcut.idles sound reservoir hempty
  have last := hcut.decode_last (sound_afterAll sound _) reservoir hempty hcontinued (by rwa [kept])
  refine ⟨haccept, last, fun hreset => ?_⟩
  have same : d.frames.resetLengths = d.frames := by
    rw [FrameState.resetLengths, ← hreset]
  rw [same]
  exact last

/-! ### Lengths that are not reset -/

/-- A frame of zeros is silent, and is decoded if the lengths are reset before it. If they are not,
and the frames before have announced a block that is shorter than a frame, it is refused. -/
theorem completion_of_stale (hd : d.Sound) (hstereo : d.config.channels = .stereo)
    (hvar : d.config.variableBlocks = true) (hreset : d.frames.block.reset = false)
    (hnext : d.frames.block.nextBits < d.config.frameBits) {n : Nat}
    (hn : 3 * d.config.selectorBits + 3 ≤ n) (last : Array UInt8) (pcm : Array Int16) :
    (d.completion (List.replicate n false) last pcm).report =
        .error (.corrupt (.blockOverrun d.config.frameLength (2 ^ d.frames.block.nextBits))) ∧
      ∃ r, (({ d with frames := d.frames.resetLengths } : Decoder).completion
        (List.replicate n false) last pcm).report = .ok r := by
  have width := hd.stream.config.selectorBits_le
  have sizes := hd.stream.config.sizeCount_pos
  have sound : d.frames.Sound d.stream.config := hd.frames
  unfold config at hstereo hvar hnext hn
  constructor
  · obtain ⟨e, t, hframe, rfl⟩ : ∃ e t, Frame.decode d.stream
        ⟨.ofList 0 (List.replicate n false), d.frames⟩ = .error e t ∧ e = .corrupt (.blockOverrun
          d.stream.config.frameLength (2 ^ d.frames.block.nextBits)) :=
      exists_error_of_wp <| Frame.wp_decode_of_stale hd.stream hstereo hvar (by omega) sound hreset hnext
        (Config.selector_zeros _)
        (BitReader.drop_remaining_zeros (k := n - 3 - d.stream.config.selectorBits) (by omega))
        (by rw [Config.selector_zeros]; exact sizes) (by rw [List.length_replicate]; omega)
    unfold completion
    rw [hframe]
    rfl
  · obtain ⟨values, t, hframe, -⟩ : ∃ values t, Frame.decode d.stream
        ⟨.ofList 0 (List.replicate n false), d.frames.resetLengths⟩ = .ok values t ∧ _ :=
      exists_of_wp <| Frame.wp_decode_zeros hd.stream hstereo hvar (by omega) sound.resetLengths rfl hn
    unfold completion
    rw [hframe]
    exact ⟨_, rfl⟩

theorem cut_tiny (hc : d.config = .tiny) :
    d.Cut (List.replicate 28 false) #[1, 0, 0, 0] [] #[1, 0, 0x40, 0] := by
  constructor
  case sizes => rw [hc]; decide
  case blockAlign => rw [hc]; decide
  case begins => unfold frameField; rw [hc]; decide
  case continues => simp
  case ends => unfold frameField; rw [hc]; decide
  case inside => unfold lastHeader; rw [hc]; decide
  case room => unfold lastHeader; rw [hc]; decide
  case frame => unfold payload lastBits lastHeader; rw [hc]; decide

/-- A frame of silence is cut behind one that has announced a block of half a frame. It is refused,
although it is decoded if the lengths are reset before it. -/
theorem decode_last_of_cut_tiny : ∃ d₀, ofParams .tiny = .ok d₀ ∧
    let d := d₀.afterAll [.decode (silentPacket 1) (.replicate 4096 0)]
    ((d.afterAll [.decode #[1, 0, 0, 0] #[]]).decode #[1, 0, 0x40, 0] (.replicate 4096 0)).report =
        .error (.corrupt (.blockOverrun 2048 1024)) ∧
      ∃ r, (({ d with frames := d.frames.resetLengths } : Decoder).completion
        (List.replicate 28 false) #[1, 0, 0x40, 0] (.replicate 4096 0)).report = .ok r := by
  obtain ⟨d₀, hd₀, sound, hc, hempty⟩ := exists_tiny
  have room : 4096 ≤ (Array.replicate 4096 (0 : Int16)).size := Nat.le_of_eq Array.size_replicate.symm
  obtain ⟨-, hreservoir, hreset, hnext⟩ :=
    decode_silentPacket sound hc hempty (by decide : 1 < 5) room
  have samples : d₀.config.frameSamples ≤ (Array.replicate 4096 (0 : Int16)).size := by
    rw [hc]
    exact room
  have config : (d₀.afterAll [.decode (silentPacket 1) (.replicate 4096 0)]).config = .tiny :=
    (congrArg Stream.config (d₀.stream_afterAll _)).trans hc
  obtain ⟨-, hlast, -⟩ := decode_last_of_cut hd₀ (by rw [hc]; rfl)
    [.decode (silentPacket 1) (.replicate 4096 0)] hreservoir (#[1, 0, 0, 0], #[]) []
    (cut_tiny config) samples
  have next : (d₀.afterAll [.decode (silentPacket 1) (.replicate 4096 0)]).frames.block.nextBits = 10 :=
    hnext
  obtain ⟨hrefused, haccepted⟩ := completion_of_stale (sound_afterAll sound
    [.decode (silentPacket 1) (.replicate 4096 0)]) (by rw [config]; rfl) (by rw [config]; rfl) hreset
    (by rw [next, config]; decide) (n := 28) (by rw [config, Config.selectorBits_tiny]; decide)
    #[1, 0, 0x40, 0] (.replicate 4096 0)
  refine ⟨d₀, hd₀, ?_, haccepted⟩
  rw [← hlast, next, config] at hrefused
  exact hrefused

end Decoder

end Wma
