import Wma.Proofs.Envelope.Stepped
import Wma.Proofs.Frame.Rows

/-!
# The envelopes that a channel was given

An envelope is written over the beginning of the one before, which may have been longer. So what a
channel holds comes from several envelopes (`Channel.Given`), and the last of them is what the block
size of the envelope says (`Channel.Given.exists_last`): it is as long as the blocks of that size,
and nothing else has been written there since. Every channel has come about in this way, in each
state that frame decoding comes to and after each of its blocks (`FrameState.Envelopes`).
-/

namespace Wma

open Parse

variable {s : Stream}

theorem Lane.size_of_readRatios {bands : BlockBands} {ratios : Array UInt32} {sc t : Scan Lane}
    (h : readRatios s bands sc = .ok ratios t) : ratios.size = bands.length := by
  unfold readRatios at h
  split at h
  · exact SteppedEnvelope.size_of_read h
  · obtain ⟨pairs, u, -, h⟩ := ok_bind h
    obtain ⟨l, v, -, h⟩ := ok_bind h
    obtain ⟨⟨out, curve⟩, w, hout, h⟩ := ok_bind h
    obtain ⟨_, _, -, h⟩ := ok_bind h
    cases h
    exact LinePairs.size_of_ratios (ok_ofExcept hout).1

/-- An envelope that bits hold is as long as the blocks that it is for. -/
theorem Stream.Ratios.size_eq (hlayout : s.layout = .ofConfig s.config) {sizeIndex : Nat}
    {ratios : Array UInt32} (h : s.Ratios sizeIndex ratios) : sizeIndex < s.config.sizeCount ∧
      ratios.size = s.config.frameLength / 2 ^ sizeIndex := by
  obtain ⟨bands, hbands, sc, t, ht⟩ := h
  rw [hlayout] at hbands
  obtain ⟨hk, rfl⟩ := BandLayout.of_blocks_ofConfig hbands
  exact ⟨hk, Lane.size_of_readRatios ht⟩

namespace Channel

/-- A channel that has been given some envelopes since the stream began, the last one first, each
with the index of its block size. All that is done to a channel besides leaves its envelope as it
is. -/
inductive Given (s : Stream) : List (Nat × Array UInt32) → Channel → Prop
  | new : Given s [] (.initial s.config.frameLength)
  | read {envelopes : List (Nat × Array UInt32)} {c : Channel} {sizeIndex : Nat}
    {ratios : Array UInt32} : Given s envelopes c → s.Ratios sizeIndex ratios →
    Given s ((sizeIndex, ratios) :: envelopes) (c.withEnvelope sizeIndex ratios)
  | kept {envelopes : List (Nat × Array UInt32)} {c c' : Channel} : Given s envelopes c →
    c'.envelope = c.envelope → c'.envelopeSize = c.envelopeSize →
    c'.hasEnvelope = c.hasEnvelope → Given s envelopes c'

variable {envelopes : List (Nat × Array UInt32)} {c : Channel}

/-- The last envelope that a channel was given fills the blocks that it was read for, and is at the
beginning of the buffer. -/
theorem Given.exists_last (hlayout : s.layout = .ofConfig s.config) (h : Given s envelopes c)
    (hc : c.hasEnvelope = true) : c.envelopeSize < s.config.sizeCount ∧ ∃ ratios earlier,
      envelopes = (c.envelopeSize, ratios) :: earlier ∧
        ratios.size = s.config.frameLength / 2 ^ c.envelopeSize ∧
        c.envelope.extract 0 (s.config.frameLength / 2 ^ c.envelopeSize) = ratios := by
  induction h with
  | new => cases hc
  | @read envelopes c sizeIndex ratios _ hratios _ =>
    obtain ⟨hk, size⟩ := hratios.size_eq hlayout
    exact ⟨hk, ratios, envelopes, rfl, size, Buffer.extract_overlay size⟩
  | kept _ henvelope hsize hhas ih =>
    rw [henvelope, hsize]
    exact ih (hhas ▸ hc)

theorem kept_given : Kept s fun c => ∃ envelopes, Given s envelopes c where
  coded _ _ := fun ⟨envelopes, h⟩ => ⟨envelopes, h.kept rfl rfl rfl⟩
  noiseBands _ _ := fun ⟨envelopes, h⟩ => ⟨envelopes, h.kept rfl rfl rfl⟩
  envelope _ _ _ hratios := fun ⟨_, h⟩ => ⟨_, h.read hratios⟩
  levels _ _ := fun ⟨envelopes, h⟩ => ⟨envelopes, h.kept rfl rfl rfl⟩
  spectrum _ _ := fun ⟨envelopes, h⟩ => ⟨envelopes, h.kept rfl rfl rfl⟩

theorem overlapped_given :
    Overlapped s.config.frameLength fun c => ∃ envelopes, Given s envelopes c where
  overlap _ _ _ := fun ⟨envelopes, h⟩ => ⟨envelopes, h.kept rfl rfl rfl⟩
  shift _ := fun ⟨envelopes, h⟩ => ⟨envelopes, h.kept rfl rfl rfl⟩

end Channel

namespace FrameState

/-- The channels have been given some envelopes. -/
abbrev Envelopes (s : Stream) : FrameState → Prop :=
  Each (fun _ c => ∃ envelopes, c.Given s envelopes) fun _ => True

theorem Reachable.envelopes {x : FrameState} (hx : Reachable s x) : x.Envelopes s :=
  hx.each (fun _ => Channel.kept_given) (fun _ => Channel.overlapped_given) (Frame.Paces.any _)
    (fun _ => ⟨[], .new⟩) trivial fun _ _ => trivial

end FrameState

theorem Frame.Row.envelopes {sc u : Scan FrameState} {bs : List BlockState} (h : Row s sc bs u)
    (hx : sc.state.Envelopes s) : u.state.Envelopes s :=
  h.each (fun _ => Channel.kept_given) (fun _ => Channel.overlapped_given) (Paces.any _) hx

end Wma
