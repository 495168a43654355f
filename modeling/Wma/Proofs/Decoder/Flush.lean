import Wma.Proofs.Decoder.Safety
import Wma.Proofs.Frame.Scratch
import Wma.Proofs.Packet.Runs

/-!
# A flush makes a decoder as good as new

After a flush, a decoder differs from a new one in what its work buffers hold (`Decoder.twin_flush`).
Calls keep it that way and show nothing of it (`Decoder.Twin.observe`), so that a caller sees the same
of both, whatever came before the flush and whatever comes after (`Decoder.observeAll_flush`).
-/

namespace Wma

open Parse

/-- What a caller sees of a call. -/
structure Observation where
  /-- What `decode` gives back: the report or an error, and the buffer. -/
  result : Option (Except Error DecodeReport × Array Int16)
  /-- Bytes that are kept from then on. -/
  reservoirSize : Nat

namespace Decoder

/-- What a caller sees of the next call. -/
def observe (d : Decoder) : Call → Observation
  | .decode packet pcm =>
    let o := d.decode packet pcm
    ⟨some (o.report, o.pcm), o.decoder.reservoir.size⟩
  | .flush => ⟨none, d.flush.reservoir.size⟩

/-- What a caller sees of calls in a row. -/
def observeAll (d : Decoder) : List Call → List Observation
  | [] => []
  | call :: calls => d.observe call :: observeAll (d.after call) calls

/-- Both decoders are the same but for their work buffers, which have the same sizes. -/
structure Twin (d e : Decoder) : Prop where
  stream : d.stream = e.stream
  layout : d.stream.layout = .ofConfig d.config
  frames : FrameState.LikeAny (WorkBuffers.Sized d.config) d.frames e.frames
  reservoir : d.reservoir = e.reservoir

theorem keeps_decodePacket {s : Stream} {W : WorkBuffers → WorkBuffers → Prop}
    (hs : s.Hides .exact W) (packet : Array UInt8) :
    Keeps .exact (Session.Like W) (Session.Like W) (decodePacket s packet) :=
  .ite (fun _ => Session.keeps_decodeSuperframe hs packet) fun _ => Session.keeps_decodeSingle hs

namespace Twin

variable {d e : Decoder}

theorem decode (h : d.Twin e) (packet : Array UInt8) (pcm : Array Int16) :
    (d.decode packet pcm).report = (e.decode packet pcm).report ∧
      (d.decode packet pcm).pcm = (e.decode packet pcm).pcm ∧
      (d.decode packet pcm).decoder.Twin (e.decode packet pcm).decoder := by
  obtain ⟨s, f, r⟩ := d
  obtain ⟨_, f', _⟩ := e
  obtain ⟨rfl, hlayout, hframes, rfl⟩ := h
  unfold Decoder.decode
  dsimp only at hlayout hframes ⊢
  have runs := keeps_decodePacket (Stream.hides_sized hlayout)
    (packet.extract 0 s.config.blockAlign)
    ⟨.ofBytes (packet.extract 0 s.config.blockAlign), ⟨f, r, pcm⟩⟩
    ⟨.ofBytes (packet.extract 0 s.config.blockAlign), ⟨f', r, pcm⟩⟩ rfl ⟨hframes, rfl, rfl⟩
  unfold config
  dsimp only
  split
  · exact ⟨rfl, rfl, rfl, hlayout, hframes, rfl⟩
  split
  · exact ⟨rfl, rfl, rfl, hlayout, hframes, rfl⟩
  unfold EndAlike at runs
  split at runs
  · rename_i count t count' t' hrun hrun'
    obtain ⟨reader, x⟩ := t
    obtain ⟨reader', x'⟩ := t'
    obtain ⟨-, rfl, hlike⟩ := runs
    rw [hrun, hrun']
    dsimp only
    rw [hlike.reservoir, hlike.pcm]
    exact ⟨rfl, rfl, rfl, hlayout, hlike.frames, rfl⟩
  · rename_i error t error' t' hrun hrun'
    obtain ⟨reader, x⟩ := t
    obtain ⟨reader', x'⟩ := t'
    obtain ⟨(rfl : error = error'), -, hlike⟩ := runs.resolve_left id
    rw [hrun, hrun']
    dsimp only
    rw [hlike.reservoir, hlike.pcm]
    exact ⟨rfl, rfl, rfl, hlayout, hlike.frames, rfl⟩
  · exact False.elim runs
  · exact runs.elim

theorem flush (h : d.Twin e) : d.flush.Twin e.flush := by
  obtain ⟨s, f, r⟩ := d
  obtain ⟨_, f', _⟩ := e
  obtain ⟨rfl, hlayout, hframes, rfl⟩ := h
  refine ⟨rfl, hlayout, ⟨rfl, trivial, ?_, ?_, hframes.work⟩, rfl⟩
  · exact congrArg (PerChannel.map fun _ => Channel.initial s.config.frameLength) hframes.channels
  · exact congrArg Noise.rewind hframes.noise

theorem observe (h : d.Twin e) (call : Call) : d.observe call = e.observe call := by
  cases call with
  | decode packet pcm =>
    obtain ⟨hreport, hpcm, htwin⟩ := h.decode packet pcm
    simp only [Decoder.observe, hreport, hpcm, htwin.reservoir]
  | flush => rfl

theorem after (h : d.Twin e) (call : Call) : (d.after call).Twin (e.after call) := by
  cases call with
  | decode packet pcm => exact (h.decode packet pcm).2.2
  | flush => exact h.flush

theorem observeAll (h : d.Twin e) (calls : List Call) : d.observeAll calls = e.observeAll calls := by
  induction calls generalizing d e with
  | nil => rfl
  | cons call calls ih =>
    show d.observe call :: _ = e.observe call :: _
    rw [h.observe call, ih (h.after call)]

end Twin

/-- Whatever came before, a flush leaves nothing of it but in the work buffers. -/
theorem twin_flush {p : Params} {d : Decoder} (h : ofParams p = .ok d) (calls : List Call) :
    (d.afterAll calls).flush.Twin d := by
  have sound := sound_afterAll (sound_ofParams h) calls
  have start := (sound_ofParams h).frames.work
  have same := d.stream_afterAll calls
  have layout := (sound_ofParams h).stream.layout
  obtain ⟨c, books, -, -, rfl⟩ := of_ofParams h
  obtain ⟨⟨s, f, r⟩, hd⟩ : ∃ d, (ofStream ⟨c, .ofConfig c, books⟩).afterAll calls = d := ⟨_, rfl⟩
  rw [hd] at sound same ⊢
  dsimp only at same
  subst same
  refine ⟨rfl, layout, ⟨rfl, trivial, ?_, ?_, sound.frames.work, start⟩, rfl⟩
  · exact PerChannel.map_const_eq sound.frames.layout _
  · exact congrArg (Noise.mk · 0) sound.frames.noise

/-- After a flush, a caller sees of any calls what is seen of them with a new decoder: the same
reports and errors, the same values and the same sizes of the reservoir. The work buffers are not
even touched by the flush. -/
theorem observeAll_flush {p : Params} {d : Decoder} (h : ofParams p = .ok d)
    (before after : List Call) :
    (d.afterAll before).flush.observeAll after = d.observeAll after ∧
      (d.afterAll before).flush.frames.work = (d.afterAll before).frames.work :=
  ⟨(twin_flush h before).observeAll after, rfl⟩

theorem observeAll_flush_stereo : ∃ d, ofParams stereoParams = .ok d ∧
    ((d.afterAll [.decode (Array.replicate 4096 0xa7) (Array.replicate 65536 1), .flush,
      .decode #[0x10] #[]]).flush.observeAll [.decode (Array.replicate 4096 0x01) #[], .flush] =
      d.observeAll [.decode (Array.replicate 4096 0x01) #[], .flush]) := by
  obtain ⟨d, hd⟩ := exists_stereo
  exact ⟨d, hd, (observeAll_flush hd _ _).1⟩

end Decoder

end Wma
