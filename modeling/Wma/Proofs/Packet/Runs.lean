import Wma.Packet.Superframe
import Wma.Proofs.Frame.Runs

/-!
# Two runs of a packet

Two sessions that differ in the work buffers of their frames alone (`Session.Like`) take a packet in
the same way, where the work buffers do not show: both runs come to the same count of frames or fail
with the same error, and are such sessions again (`Session.keeps_decodeSuperframe`,
`Session.keeps_decodeSingle`).
-/

namespace Wma

open Parse

namespace Parse

variable {σ α : Type} {J R : σ → σ → Prop}

/-- From one reader and one state, there is only one run. -/
theorem Keeps.exact (p : Parse σ α) : Keeps .exact Eq Eq p := by
  rintro ⟨r, s⟩ ⟨r', t⟩ (rfl : r = r') (rfl : s = t)
  cases p ⟨r, s⟩ with
  | ok a u => exact ⟨rfl, rfl, rfl⟩
  | error e u => exact .inr ⟨rfl, rfl, rfl⟩

theorem Keeps.reader {f : BitReader → Parse σ α} (hf : ∀ r, Keeps .exact J R (f r)) :
    Keeps .exact J R (Parse.reader >>= f) := by
  rintro ⟨r, s⟩ ⟨r', t⟩ (rfl : r = r') hst
  exact hf r ⟨r, s⟩ ⟨r, t⟩ rfl hst

theorem Keeps.elsewhere {r : BitReader} {p : Parse σ α} (h : Keeps .exact J R p) :
    Keeps .exact J R (Parse.elsewhere r p) :=
  Related.elsewhere (V := .exact) rfl h

end Parse

namespace SuperframeHeader

theorem keeps_read {σ : Type} {R : σ → σ → Prop} (offsetBits : Nat) (carried : Bool) :
    Keeps .exact R R (read offsetBits carried) := by
  have hJ : ∀ s t, R s t → R s t := fun _ _ h => h
  refine .bind (.skip hJ _) fun _ => .bind (.read hJ _) fun count => .bind (.require hJ) fun _ => ?_
  refine .ite (fun _ => ?_) fun _ => ?_
  · exact .reader fun r => .bind (.require hJ) fun _ => .pure _
  · refine .bind (.read hJ _) fun bitOffset => .reader fun r => ?_
    exact .bind (.require hJ) fun _ => .pure _

end SuperframeHeader

namespace Session

variable {s : Stream} {W : WorkBuffers → WorkBuffers → Prop}

/-- Both sessions are the same but for the work buffers of their frames, which are related by `W`. -/
structure Like (W : WorkBuffers → WorkBuffers → Prop) (x y : Session) : Prop where
  frames : FrameState.LikeAny W x.frames y.frames
  reservoir : x.reservoir = y.reservoir
  pcm : x.pcm = y.pcm

theorem keeps_onReservoir {α : Type} (p : Parse Reservoir α) :
    Keeps .exact (Like W) (Like W) (onReservoir p) :=
  (Keeps.exact p).focus (fun _ _ h => h.reservoir) (fun _ _ _ _ h hr => { h with reservoir := hr })
    fun _ _ _ _ h hr => { h with reservoir := hr }

theorem keeps_requireRoom (count : Nat) : Keeps .exact (Like W) (Like W) (requireRoom s count) :=
  .state (fun _ _ h => by simp only [h.pcm]) fun _ =>
    .ite (fun _ => .throw (fun _ _ h => h) _) fun _ => .pure ()

theorem keeps_decodeFrame (hs : s.Hides .exact W) (index : Nat) :
    Keeps .exact (Like W) (Like W) (decodeFrame s index) := by
  refine .bind ((Frame.keeps_decode hs).focus (fun _ _ h => h.frames)
    (fun _ _ _ _ h hf => { h with frames := hf }) fun _ _ _ _ h hf => { h with frames := hf })
    fun values => Related.updateM (fun _ _ h => h) fun x y h => ?_
  rw [h.pcm]
  refine .bind (R := Eq) (.of_eq View.exact.error_refl (fun _ => rfl) rfl) ?_
  rintro pcm _ rfl
  exact ⟨rfl, { h with pcm := rfl }⟩

theorem keeps_decodeFrames (hs : s.Hides .exact W) : ∀ count index : Nat,
    Keeps .exact (Like W) (Like W) (decodeFrames s count index)
  | 0, _ => .pure ()
  | count + 1, index =>
    .bind (keeps_decodeFrame hs index) fun _ => keeps_decodeFrames hs count (index + 1)

theorem keeps_decodeCarried (hs : s.Hides .exact W) (bitOffset : Nat) :
    Keeps .exact (Like W) (Like W) (decodeCarried s bitOffset) := by
  refine .state (fun _ _ h => by simp only [h.reservoir]) fun x => ?_
  refine .bind (keeps_onReservoir _) fun _ => ?_
  refine .state (fun _ _ h => by simp only [h.reservoir]) fun y => .elsewhere ?_
  exact .bind (.skip (fun _ _ h => h) _) fun _ => keeps_decodeFrame hs 0

theorem keeps_decodeFresh (hs : s.Hides .exact W) (places count index : Nat) :
    Keeps .exact (Like W) (Like W) (decodeFresh s places count index) := by
  refine .bind (.skip (fun _ _ h => h) _) fun _ => .bind (.update fun x y h => ?_) fun _ =>
    keeps_decodeFrames hs count index
  refine { h with frames := { h.frames with block := ?_ } }
  simp only [FrameState.resetLengths, h.frames.block]

theorem keeps_keepTail (packet : Array UInt8) (base : Nat) :
    Keeps .exact (Like W) (Like W) (keepTail packet base) :=
  .reader fun _ => .bind (.ofExcept (fun _ _ h => h) _) fun _ => keeps_onReservoir _

theorem keeps_decodeWhole (hs : s.Hides .exact W) (packet : Array UInt8) (start count index : Nat) :
    Keeps .exact (Like W) (Like W) (decodeWhole s packet start count index) :=
  .bind (.ofExcept (fun _ _ h => h) _) fun _ => .elsewhere <|
    .bind (keeps_decodeFresh hs _ count index) fun _ => keeps_keepTail packet _

theorem keeps_decodeBody (hs : s.Hides .exact W) (packet : Array UInt8) (carried : Bool)
    (h : SuperframeHeader) : Keeps .exact (Like W) (Like W) (decodeBody s packet carried h) := by
  refine .ite (fun _ => ?_) fun _ => ?_
  · refine .bind (.ofExcept (fun _ _ h => h) _) fun payload => ?_
    exact .bind (keeps_onReservoir _) fun _ => .pure _
  refine .bind (keeps_requireRoom _) fun _ => .ite (fun _ => ?_) fun _ => ?_
  · refine .bind (keeps_decodeCarried hs _) fun _ => ?_
    exact .bind (keeps_decodeWhole hs packet _ _ 1) fun _ => .pure _
  · exact .bind (keeps_decodeWhole hs packet _ _ 0) fun _ => .pure _

theorem keeps_decodeSuperframe (hs : s.Hides .exact W) (packet : Array UInt8) :
    Keeps .exact (Like W) (Like W) (decodeSuperframe s packet) := by
  refine .state (fun _ _ h => by simp only [h.reservoir]) fun x => ?_
  exact .bind (SuperframeHeader.keeps_read _ _) fun h => keeps_decodeBody hs packet _ h

theorem keeps_decodeSingle (hs : s.Hides .exact W) :
    Keeps .exact (Like W) (Like W) (decodeSingle s) :=
  .bind (keeps_requireRoom 1) fun _ => .bind (keeps_decodeFrame hs 0) fun _ => .pure 1

end Session

end Wma
