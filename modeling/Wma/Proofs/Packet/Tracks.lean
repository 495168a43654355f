import Wma.Proofs.Frame.Follows
import Wma.Proofs.Packet.Outcome

/-!
# A packet in the tracks of another

A session whose frames follow those of another one, and whose reservoir is the same, takes every
packet that the other one takes: it comes to as many frames and to the same reservoir
(`Session.follows_decodeSuperframe`). A packet that brings whole frames resets the lengths of their
blocks, so that afterwards these are the same even if they were not before
(`Session.follows_decodeWhole`).
-/

namespace Wma

open Parse

namespace SuperframeHeader

theorem follows_read {σ : Type} {R : σ → σ → Prop} (offsetBits : Nat) (carried : Bool) :
    Follows R (read offsetBits carried) (read offsetBits carried) fun h h' x y => h = h' ∧ R x y := by
  have hJ : ∀ x y, R x y → True := fun _ _ _ => trivial
  refine .andThen (Keeps.skip hJ 4) fun _ => .andThen (Keeps.read hJ 4) fun framesEnding => ?_
  refine .andThen (Keeps.require hJ) fun _ => .ite Iff.rfl (fun _ => Follows.reader fun r => ?_)
    fun _ => .andThen (Keeps.read hJ _) fun bitOffset => Follows.reader fun r => ?_
  · exact .andThen (Keeps.require hJ) fun _ => .pure fun _ _ h => ⟨rfl, h⟩
  · exact .andThen (Keeps.require hJ) fun _ => .pure fun _ _ h => ⟨rfl, h⟩

end SuperframeHeader

/-- Nothing is known of the blocks of two states. -/
abbrev BlockState.Any (_ _ : BlockState) : Prop :=
  True

namespace Session

/-- The frames follow one another, blocks being related by `B`. The reservoirs are the same, and the
buffers have the same sizes. -/
structure Tracks (s : Stream) (B : BlockState → BlockState → Prop) (x y : Session) : Prop where
  frames : x.frames.Tracks .follow s.config (·.Sound s.config) B False False y.frames
  reservoir : x.reservoir = y.reservoir
  pcm : x.pcm.size = y.pcm.size

variable {s : Stream} {B : BlockState → BlockState → Prop}

theorem follows_onReservoir {α : Type} {I J : Reservoir → Prop} {Q : α → Reservoir → Prop}
    {p : Parse Reservoir α} (h : Triple J I p Q) :
    Follows (fun x y => Tracks s B x y ∧ I x.reservoir) (onReservoir p) (onReservoir p)
      fun a b x y => a = b ∧ Tracks s B x y ∧ Q a x.reservoir := by
  refine (Follows.same h).focus (fun _ _ h => ⟨h.1.reservoir, h.2⟩) ?_ fun _ _ _ _ _ _ => trivial
  exact fun _ _ x y _ _ h hr => ⟨hr.1, { h.1 with reservoir := hr.2.1 }, hr.2.2⟩

theorem follows_requireRoom {R : Session → Session → Prop} (hR : ∀ x y, R x y → x.pcm.size = y.pcm.size)
    (count : Nat) : Follows R (requireRoom s count) (requireRoom s count) fun _ _ => R := by
  refine .bind (R := fun x y x' y' => x.pcm.size = y.pcm.size ∧ R x' y')
    (.state fun _ _ h => ⟨hR _ _ h, h⟩) fun x y => .of_fact (fun _ _ h => h.1) fun hsize => ?_
  dsimp only
  rw [hsize]
  exact .ite Iff.rfl (fun _ => Follows.throw _) fun _ => .pure fun _ _ h => h.2

theorem follows_decodeFrame (hs : s.Sound) (index : Nat) :
    Follows (Tracks s BlockState.Resumes) (decodeFrame s index) (decodeFrame s index)
      fun _ _ => Tracks s BlockState.Resumes := by
  refine .bind (R := fun values values' x y => values.size = values'.size ∧
    Tracks s BlockState.Resumes x y) ?_ fun values values' => ?_
  · exact (Frame.follows_decode hs).focus (fun _ _ h => h.frames)
      (fun _ _ _ _ _ _ h hf => ⟨hf.1, { h with frames := hf.2 }⟩) fun _ _ _ _ _ _ => trivial
  refine .of_fact (fun _ _ h => h.1) fun hsize => Follows.updateM fun x y x' h hx => ?_
  obtain ⟨pcm, hpcm, hx⟩ := ok_of_bind hx
  cases hx
  have room := h.2.pcm
  have kept := (Buffer.kept_of_splice hpcm).size
  unfold Buffer.splice at hpcm
  split at hpcm
  case isFalse => cases hpcm
  refine .bind (.splice (Q := fun out => out.size = y.pcm.size) (by omega) fun _ h => h)
    fun out hout => .pure { h.2 with pcm := ?_ }
  exact kept.trans (room.trans hout.symm)

theorem follows_decodeFrames (hs : s.Sound) : ∀ count index : Nat,
    Follows (Tracks s BlockState.Resumes) (decodeFrames s count index) (decodeFrames s count index)
      fun _ _ => Tracks s BlockState.Resumes
  | 0, _ => .pure fun _ _ h => h
  | count + 1, index =>
    .bind (follows_decodeFrame hs index) fun _ _ => follows_decodeFrames hs count (index + 1)

theorem follows_decodeCarried (hs : s.Sound) (bitOffset : Nat) :
    Follows (fun x y => Tracks s BlockState.Resumes x y ∧ x.reservoir.Sound)
      (decodeCarried s bitOffset) (decodeCarried s bitOffset)
      fun _ _ => Tracks s BlockState.Resumes := by
  refine .bind (R := fun x y x' y' => x.reservoir = y.reservoir ∧
    Tracks s BlockState.Resumes x' y' ∧ x'.reservoir.Sound)
    (.state fun _ _ h => ⟨h.1.reservoir, h⟩) fun x y => .of_fact (fun _ _ h => h.1) fun hheld => ?_
  rw [hheld]
  refine .pre (.bind (follows_onReservoir (Reservoir.triple_appendBits bitOffset)) fun _ _ => ?_)
    fun _ _ h => h.2
  refine .bind (R := fun x y x' y' => x.reservoir = y.reservoir ∧ Tracks s BlockState.Resumes x' y')
    (.state fun _ _ h => ⟨h.2.1.reservoir, h.2.1⟩) fun x y => .of_fact (fun _ _ h => h.1)
      fun hsame => ?_
  rw [hsame]
  refine .pre (.elsewhere rfl ?_) fun _ _ h => h.2
  exact .andThen (Keeps.skip (fun _ _ _ => trivial) _) fun _ => follows_decodeFrame hs 0

/-- The lengths of the blocks are reset, whatever they were. -/
theorem follows_decodeFresh (hs : s.Sound) (places count index : Nat) :
    Follows (Tracks s B) (decodeFresh s places count index) (decodeFresh s places count index)
      fun _ _ => Tracks s BlockState.Resumes := by
  refine .andThen (Keeps.skip (fun _ _ _ => trivial) places) fun _ =>
    .bind (R := fun _ _ => Tracks s BlockState.Resumes) (.update fun x y h => ?_) fun _ _ =>
      follows_decodeFrames hs count index
  refine { h with frames := ⟨?_, ?_, ⟨rfl, nofun, nofun⟩, h.frames.channels⟩ }
  · exact h.frames.first.resetLengths
  · exact h.frames.second.resetLengths

theorem follows_keepTail (packet : Array UInt8) (base : Nat) :
    Follows (Tracks s B) (keepTail packet base) (keepTail packet base) fun _ _ => Tracks s B := by
  have store : ∀ (tail : Array UInt8) (bitOffset : Nat),
      Triple (fun _ => True) (fun _ => True) (Reservoir.store tail bitOffset) fun _ _ => True :=
    fun tail bitOffset => .bind (R := fun _ _ => True)
      (.require trivial (fun _ _ => trivial) fun _ _ _ => trivial) fun _ => .setState fun _ _ => trivial
  refine Follows.reader fun r => .andThen (Keeps.ofExcept (fun _ _ _ => trivial) _) fun tail => ?_
  exact (follows_onReservoir (store _ _)).mono (fun _ _ h => ⟨h, trivial⟩) (fun _ _ _ _ h => h.2.1)
    fun _ _ h => h

theorem follows_decodeWhole (hs : s.Sound) (packet : Array UInt8) (start count index : Nat) :
    Follows (Tracks s B) (decodeWhole s packet start count index)
      (decodeWhole s packet start count index) fun _ _ => Tracks s BlockState.Resumes := by
  refine .andThen (Keeps.ofExcept (fun _ _ _ => trivial) _) fun body => .elsewhere rfl ?_
  exact .bind (follows_decodeFresh hs _ count index) fun _ _ => follows_keepTail packet _

theorem follows_decodeBody (hs : s.Sound) (packet : Array UInt8) (carried : Bool)
    (h : SuperframeHeader) :
    Follows (fun x y => Tracks s BlockState.Resumes x y ∧ x.reservoir.Sound)
      (decodeBody s packet carried h) (decodeBody s packet carried h)
      fun count count' x y => count = count' ∧ Tracks s BlockState.Resumes x y := by
  refine .ite Iff.rfl (fun _ => ?_) fun _ => ?_
  · refine .andThen (Keeps.ofExcept (fun _ _ _ => trivial) _) fun payload => ?_
    refine .bind (follows_onReservoir (Reservoir.triple_extend payload)) fun _ _ => ?_
    exact .pure fun _ _ h => ⟨rfl, h.2.1⟩
  have done : ∀ count index, Follows (Tracks s BlockState.Resumes) (do
      decodeWhole s packet (h.width + h.bitOffset) count index
      return h.frameCount carried) (do
      decodeWhole s packet (h.width + h.bitOffset) count index
      return h.frameCount carried)
      fun count count' x y => count = count' ∧ Tracks s BlockState.Resumes x y :=
    fun count index => .bind (follows_decodeWhole hs packet _ count index) fun _ _ =>
      .pure fun _ _ h => ⟨rfl, h⟩
  refine .bind (follows_requireRoom (fun _ _ h => h.1.pcm) _) fun _ _ => ?_
  refine .ite Iff.rfl (fun _ => ?_) fun _ => (done _ _).pre fun _ _ h => h.1
  exact .bind (follows_decodeCarried hs _) fun _ _ => done _ _

theorem follows_decodeSuperframe (hs : s.Sound) (packet : Array UInt8) :
    Follows (fun x y => Tracks s BlockState.Resumes x y ∧ x.reservoir.Sound)
      (decodeSuperframe s packet) (decodeSuperframe s packet)
      fun count count' x y => count = count' ∧ Tracks s BlockState.Resumes x y := by
  refine .bind (R := fun x y x' y' => x.reservoir = y.reservoir ∧
    Tracks s BlockState.Resumes x' y' ∧ x'.reservoir.Sound)
    (.state fun _ _ h => ⟨h.1.reservoir, h⟩) fun x y => .of_fact (fun _ _ h => h.1) fun hsame => ?_
  rw [hsame]
  refine .pre (.andThen (SuperframeHeader.follows_read _ _) fun h => ?_) fun _ _ h => h.2
  exact follows_decodeBody hs packet _ h

/-- Where there is no end of an earlier frame, the lengths need not have been the same. -/
theorem follows_decodeBody_of_fresh (hs : s.Sound) (packet : Array UInt8) {h : SuperframeHeader}
    (hcount : h.frameCount false ≠ 0) :
    Follows (Tracks s B) (decodeBody s packet false h) (decodeBody s packet false h)
      fun count count' x y => count = count' ∧ Tracks s BlockState.Resumes x y := by
  unfold decodeBody
  rw [if_neg hcount]
  refine .bind (follows_requireRoom (fun _ _ h => h.pcm) _) fun _ _ => ?_
  exact .bind (follows_decodeWhole hs packet _ _ _) fun _ _ => .pure fun _ _ h => ⟨rfl, h⟩

/-- A packet in which frames begin and end, with no end of an earlier one, makes up for what was not
the same. -/
theorem follows_decodeSuperframe_of_fresh (hs : s.Sound) {packet : Array UInt8} {x y : Session}
    {t : Scan Session} {count : Nat} (hxy : Tracks s B x y) (hempty : x.reservoir = .empty)
    (hfresh : 2 ≤ (SuperframeHeader.ofBits s.config.offsetBits false (Bits.ofBytes packet)).framesEnding)
    (h : decodeSuperframe s packet ⟨.ofBytes packet, x⟩ = .ok count t) :
    ∃ y', decodeSuperframe s packet ⟨.ofBytes packet, y⟩ = .ok count ⟨t.reader, y'⟩ ∧
      Tracks s BlockState.Resumes t.state y' := by
  have idle : x.reservoir.isEmpty = true := by rw [hempty]; rfl
  have idle' : y.reservoir.isEmpty = true := by rw [← hxy.reservoir, idle]
  obtain ⟨_, _, hstate, h⟩ := ok_bind h
  cases hstate
  obtain ⟨header, u, hread, hbody⟩ := ok_bind h
  rw [idle, Bool.not_true] at hread hbody
  obtain ⟨hheader, -⟩ := SuperframeHeader.of_read rfl hread
  rw [BitReader.remaining_ofBytes] at hheader
  obtain ⟨_, y', hread', rfl, hxy'⟩ := (SuperframeHeader.follows_read _ _).exists_run hxy hread
  have counted : header.frameCount false ≠ 0 := by
    rw [← hheader] at hfresh
    unfold SuperframeHeader.frameCount SuperframeHeader.idleCount
    rw [if_neg (by decide)]
    omega
  obtain ⟨_, z, hbody', rfl, hz⟩ :=
    (follows_decodeBody_of_fresh hs packet counted).exists_run hxy' hbody
  have start : Parse.state ⟨.ofBytes packet, y⟩ = .ok y ⟨.ofBytes packet, y⟩ := rfl
  refine ⟨z, (bind_of_ok start _).trans ?_, hz⟩
  rw [idle', Bool.not_true]
  exact (bind_of_ok hread' _).trans hbody'

end Session

end Wma
