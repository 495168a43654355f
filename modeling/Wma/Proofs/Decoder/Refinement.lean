import Wma.Proofs.Decoder.Invariant
import Wma.Proofs.Packet.Refinement
import Wma.Proofs.Packet.Silence

/-!
# A decoder is a queue of bits

A decoder whose frames go on from packet to packet does to the bytes of its reservoir what a
`BitQueue` does to bits, from any state that calls can lead to and over any number of packets
(`Decoder.run_of_decodeAll`). The values, the reports and what waits in the end are those of the
queue, and every bit leaves it in its turn.
-/

namespace Wma

/-- The report of a packet. -/
def BitQueue.Step.report (s : Stream) (st : BitQueue.Step) : DecodeReport where
  samples := st.values.length * s.config.frameSamples
  frames := st.values.length
  bytesConsumed := s.config.blockAlign
  reservoirSize := (st.next.phase + st.next.pending.length) / 8

namespace Decoder

/-- The queue that a decoder stands for. -/
def queue (d : Decoder) : BitQueue :=
  ⟨d.frames, d.reservoir.pending, d.reservoir.bitOffset⟩

/-- Decodes packets, each of them to a buffer of its own, for as long as they are accepted. -/
def decodeAll (d : Decoder) : List (Array UInt8 × Array Int16) →
    Except Error (Decoder × List (DecodeReport × Array Int16))
  | [] => return (d, [])
  | (packet, pcm) :: inputs => do
    let o := d.decode packet pcm
    let report ← o.report
    let (last, results) ← decodeAll o.decoder inputs
    return (last, (report, o.pcm) :: results)

/-! ### Packets as steps of the queue -/

variable {d : Decoder}

theorem Sound.reservoirSize_eq (hd : d.Sound) :
    (d.queue.phase + d.queue.pending.length) / 8 = d.reservoir.size := by
  have skipped := hd.reservoir.bitOffset_le
  simp only [queue, Reservoir.pending, List.length_drop, Bits.length_ofBytes]
  unfold Reservoir.size
  omega

theorem step_of_decode (hd : d.Sound) (hr : d.config.bitReservoir = true) {packet : Array UInt8}
    {pcm : Array Int16} {r : DecodeReport} (hne : packet ≠ #[])
    (h : (d.decode packet pcm).report = .ok r) :
    ∃ st, d.queue.step d.stream (Bits.ofBytes (packet.extract 0 d.config.blockAlign)) = some st ∧
      st.next = (d.decode packet pcm).decoder.queue ∧ r = st.report d.stream ∧
      (d.decode packet pcm).pcm = Buffer.overlay pcm (BitQueue.join st.values) := by
  have sound := hd.decode packet pcm
  have ending := d.ending_decode packet pcm
  generalize d.decode packet pcm = o at ending h sound ⊢
  cases ending with
  | finished hnone => exact absurd (Array.eq_empty_of_size_eq_zero hnone) hne
  | short => cases h
  | failed => cases h
  | decoded _ hrun =>
    cases h
    rw [decodePacket_of_bitReservoir hr] at hrun
    obtain ⟨st, hst, hnext, hcount, hpcm⟩ := Session.step_of_decodeSuperframe hd.stream
      (hd.session pcm) hrun
    have size := sound.reservoirSize_eq
    refine ⟨st, hst, hnext, ?_, hpcm⟩
    unfold BitQueue.Step.report
    rw [hcount, hnext]
    exact congrArg _ size.symm

theorem run_of_decodeAll_of_sound {inputs : List (Array UInt8 × Array Int16)}
    (hne : ∀ x ∈ inputs, x.1 ≠ #[]) {d' : Decoder} {results : List (DecodeReport × Array Int16)}
    (hd : d.Sound) (hr : d.config.bitReservoir = true)
    (h : d.decodeAll inputs = .ok (d', results)) :
    ∃ steps, d.queue.run d.stream (inputs.map fun x =>
        Bits.ofBytes (x.1.extract 0 d.config.blockAlign)) = some (d'.queue, steps) ∧
      results = List.zipWith (fun x st =>
        (st.report d.stream, Buffer.overlay x.2 (BitQueue.join st.values))) inputs steps := by
  induction inputs generalizing d results with
  | nil =>
    cases h
    exact ⟨[], rfl, rfl⟩
  | cons x inputs ih =>
    obtain ⟨packet, pcm⟩ := x
    obtain ⟨r, hreport, h⟩ := ok_of_bind h
    obtain ⟨⟨last, rest⟩, hrest, h⟩ := ok_of_bind h
    cases h
    obtain ⟨st, hst, hnext, rfl, hpcm⟩ := step_of_decode hd hr (hne _ List.mem_cons_self) hreport
    have same : (d.decode packet pcm).decoder.stream = d.stream :=
      d.stream_after (.decode packet pcm)
    have kept : (d.decode packet pcm).decoder.config = d.config := congrArg Stream.config same
    obtain ⟨steps, hsteps, rfl⟩ :=
      ih (fun y hy => hne y (List.mem_cons_of_mem _ hy)) (hd.decode packet pcm)
      (by rw [kept]; exact hr) hrest
    rw [same, kept, ← hnext] at hsteps
    refine ⟨st :: steps, ?_, ?_⟩
    · simp only [List.map_cons, BitQueue.run, hst, Option.bind_eq_bind, Option.bind_some, hsteps]
      rfl
    · rw [same, hpcm]
      rfl

/-- From any state that calls can lead to, packets that are accepted do to a decoder what their bits
do to its queue. No bit is lost, comes twice or changes its place: those that waited and those that
came behind the headers are, in order, those that left the queue and those that wait. -/
theorem run_of_decodeAll {p : Params} {d₀ : Decoder} (h : ofParams p = .ok d₀)
    (hr : d₀.config.bitReservoir = true) (calls : List Call)
    {inputs : List (Array UInt8 × Array Int16)} (hne : ∀ x ∈ inputs, x.1 ≠ #[]) {d' : Decoder}
    {results : List (DecodeReport × Array Int16)}
    (hall : (d₀.afterAll calls).decodeAll inputs = .ok (d', results)) :
    ∃ steps, (d₀.afterAll calls).queue.run d₀.stream (inputs.map fun x =>
        Bits.ofBytes (x.1.extract 0 d₀.config.blockAlign)) = some (d'.queue, steps) ∧
      results = List.zipWith (fun x st =>
        (st.report d₀.stream, Buffer.overlay x.2 (BitQueue.join st.values))) inputs steps ∧
      (d₀.afterAll calls).queue.pending ++ (steps.map BitQueue.Step.payload).flatten =
        (steps.map fun st => st.taken.flatten).flatten ++ d'.queue.pending := by
  have same := d₀.stream_afterAll calls
  have kept : (d₀.afterAll calls).config = d₀.config := congrArg Stream.config same
  obtain ⟨steps, hrun, hresults⟩ := run_of_decodeAll_of_sound hne
    (sound_afterAll (sound_ofParams h) calls) (by rw [kept]; exact hr) hall
  rw [same, kept] at hrun
  rw [same] at hresults
  exact ⟨steps, hrun, hresults, BitQueue.append_of_run hrun⟩

/-! ### A frame that waits and one behind it -/

/-- Parameters of a stream of two channels whose packets have eight bytes. -/
def wideParams : Params :=
  { Params.tiny with blockAlign := 8 }

theorem ofParams_wideParams :
    Config.ofParams wideParams = .ok { Config.tiny with blockAlign := 8 } :=
  rfl

/-- A packet in which no frame ends, at the start of a stream. -/
def firstPacket : Array UInt8 :=
  #[1, 0, 0, 0, 0, 0, 0, 0]

/-- A packet in which the frame that waits ends five bits behind the header. A frame comes behind it,
and the beginning of another one. -/
def secondPacket : Array UInt8 :=
  #[2, 0, 0x50, 0, 0, 0, 0, 0]

variable (pcm : Array Int16)

theorem decode_firstPacket (hd : d.Sound) (hc : d.config = { Config.tiny with blockAlign := 8 })
    (hempty : d.reservoir = .empty) :
    (d.decode firstPacket pcm).report = .ok ⟨0, 0, 8, 7⟩ ∧
      (d.decode firstPacket pcm).decoder = { d with reservoir := ⟨Array.replicate 7 0, 0⟩ } := by
  have align : d.config.blockAlign = 8 := by rw [hc]
  have whole : firstPacket.extract 0 d.config.blockAlign = firstPacket := by rw [align]; rfl
  refine decode_of_wp (P := fun o => o.report = .ok ⟨0, 0, 8, 7⟩ ∧
    o.decoder = { d with reservoir := ⟨Array.replicate 7 0, 0⟩ }) (by decide)
    (by rw [align]; decide) ?_
  rw [whole, decodePacket_of_bitReservoir (by rw [hc]; rfl)]
  refine Session.wp_decodeSuperframe_of_idle hd.stream (show false = _ by rw [hempty]; rfl) ?_
    (by decide) (by rw [hempty]; show 7 ≤ _; decide) fun q => ?_
  · rw [SuperframeHeader.framesEnding_ofBits]
    decide
  · rw [hempty, align]
    exact ⟨congrArg Except.ok (by rw [Nat.zero_mul]; rfl), rfl⟩

theorem decode_secondPacket (hd : d.Sound) (hc : d.config = { Config.tiny with blockAlign := 8 })
    (hreset : d.frames.block.reset = true) (hwaits : d.reservoir = ⟨Array.replicate 7 0, 0⟩)
    (hpcm : 8192 ≤ pcm.size) :
    (d.decode secondPacket pcm).report = .ok ⟨8192, 2, 8, 4⟩ ∧
      (d.decode secondPacket pcm).decoder.reservoir = ⟨Array.replicate 4 0, 5⟩ := by
  have align : d.config.blockAlign = 8 := by rw [hc]
  have samples : d.config.frameSamples = 4096 := by rw [hc]; rfl
  have stereo : d.stream.config.channels = .stereo := by show d.config.channels = _; rw [hc]; rfl
  have split : d.stream.config.variableBlocks = true := by
    show d.config.variableBlocks = _
    rw [hc]
    rfl
  have width : d.stream.config.selectorBits = 3 := by
    show d.config.selectorBits = _
    rw [hc]
    exact Config.selectorBits_tiny
  have sizes := hd.stream.config.sizeCount_pos
  have whole : secondPacket.extract 0 d.config.blockAlign = secondPacket := by rw [align]; rfl
  refine decode_of_wp (P := fun o => o.report = .ok ⟨8192, 2, 8, 4⟩ ∧
    o.decoder.reservoir = ⟨Array.replicate 4 0, 5⟩) (by decide) (by rw [align]; decide) ?_
  rw [whole, decodePacket_of_bitReservoir (by rw [hc]; rfl)]
  have header : SuperframeHeader.ofBits d.stream.config.offsetBits true (Bits.ofBytes secondPacket) =
      ⟨2, 5, 20⟩ := by
    show SuperframeHeader.ofBits d.config.offsetBits _ _ = _
    rw [hc]
    decide
  have waiting : (Reservoir.mk (Array.replicate 7 0) 0).pending ++
      ((Bits.ofBytes secondPacket).drop 20).take 5 = List.replicate 61 false := by decide
  have room : 2 * d.config.frameSamples ≤ pcm.size := by omega
  have behind : (Bits.ofBytes secondPacket).drop 25 = List.replicate 39 false := by decide
  refine Session.wp_decodeSuperframe_of_carried hd.stream (by rw [hwaits]; rfl)
    (by rw [hwaits]) header (show 2 = 1 + 1 from rfl) (by decide)
    (by rw [hwaits]; show 7 + (5 + 7) / 8 ≤ _; decide)
    (by exact room) ?_
  dsimp only
  rw [hwaits, waiting]
  refine Parse.wp_mono (E := fun _ _ => False) (Frame.wp_decode_zeros hd.stream stereo split (by omega)
    hd.frames hreset (by omega)) (fun values t ht q r => ?_) fun _ _ he => he.elim
  refine Session.wp_decodeWhole_silent (r := .ofList 0 (List.replicate 39 false)) hd.stream stereo
    split (by omega) (by decide) (by decide) ht ?_ ?_ (fun k _ => ?_) (Config.selector_zeros _)
    (BitReader.drop_remaining_zeros (k := 27) (by omega)) fun f values _ _ _ => ?_
  · exact Nat.le_trans room (Buffer.le_size_overlay ..)
  · rw [BitReader.remaining_ofList]
    exact behind.symm
  · rw [Config.selector_zeros]
    exact sizes
  · rw [width, samples, align]
    exact ⟨rfl, rfl⟩

/-- A frame of silence begins in one packet and ends in the next, where another one follows it. The
bits behind both of them wait. -/
theorem run_of_decodeAll_wide : ∃ d d' results, ofParams wideParams = .ok d ∧
    d.decodeAll [(firstPacket, #[]), (secondPacket, .replicate 8192 0)] = .ok (d', results) ∧
    results.map (·.1.frames) = [0, 2] ∧ d'.queue.pending = List.replicate 27 false ∧
    ∃ steps, d.queue.run d.stream [Bits.ofBytes firstPacket, Bits.ofBytes secondPacket] =
        some (d'.queue, steps) ∧
      (steps.map BitQueue.Step.payload).flatten =
        (steps.map fun st => st.taken.flatten).flatten ++ d'.queue.pending := by
  obtain ⟨d, hd⟩ := exists_ofParams ofParams_wideParams
  have sound := sound_ofParams hd
  obtain ⟨hc, hempty, hreset⟩ : d.config = { Config.tiny with blockAlign := 8 } ∧
      d.reservoir = .empty ∧ d.frames.block.reset = true := by
    obtain ⟨c, books, hc, -, rfl⟩ := of_ofParams hd
    cases hc.symm.trans ofParams_wideParams
    exact ⟨rfl, rfl, rfl⟩
  have align : d.config.blockAlign = 8 := by rw [hc]
  obtain ⟨report₁, next⟩ := decode_firstPacket #[] sound hc hempty
  have sound₁ := sound.decode firstPacket #[]
  rw [next] at sound₁
  obtain ⟨report₂, waits⟩ := decode_secondPacket (.replicate 8192 0) sound₁ hc hreset rfl
    Array.size_replicate.ge
  obtain ⟨d', results, hall, frames, hwaits⟩ : ∃ d' results,
      d.decodeAll [(firstPacket, #[]), (secondPacket, .replicate 8192 0)] = .ok (d', results) ∧
      results.map (·.1.frames) = [0, 2] ∧ d'.reservoir = ⟨Array.replicate 4 0, 5⟩ := by
    simp only [decodeAll, report₁, next, report₂]
    exact ⟨_, _, rfl, rfl, waits⟩
  obtain ⟨steps, hsteps, -, bits⟩ := run_of_decodeAll hd (by rw [hc]; rfl) []
    (by decide : ∀ x ∈ [(firstPacket, (#[] : Array Int16)), (secondPacket, .replicate 8192 0)],
      x.1 ≠ #[]) hall
  have pending : d.queue.pending = [] := by
    show d.reservoir.pending = _
    rw [hempty]
    rfl
  rw [align] at hsteps
  rw [show (d.afterAll []).queue.pending = [] from pending, List.nil_append] at bits
  refine ⟨d, d', results, hd, hall, frames, ?_, steps, hsteps, bits⟩
  show d'.reservoir.pending = _
  rw [hwaits]
  decide

end Decoder

end Wma
