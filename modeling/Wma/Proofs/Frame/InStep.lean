import Wma.Proofs.Frame.Follows
import Wma.Proofs.Frame.Reachable
import Wma.Proofs.Frame.Silence

/-!
# What is decoded does not show in how frames are read

A frame is read by the lengths of its blocks and by whether there is an envelope; two states in which
these are the same are in step (`FrameState.InStep`). Samples, spectra, levels, noise, the envelopes
themselves and what the last block has left of its flags may all be others. The next frame, off the
same reader, is complete for both or fails for both with the same error; it takes the same bits and
leaves them in step (`Frame.stayInStep_of_reachable`). So what a stream does to the reader cannot tell
anything of the values that it holds.
-/

namespace Wma

open Parse

/-- The lengths of the blocks are the same, and the same channels have an envelope. -/
structure FrameState.InStep (x y : FrameState) : Prop where
  lengths : x.block.SameLengths y.block
  hasEnvelope : ∀ place,
    (x.channels.get place).hasEnvelope = (y.channels.get place).hasEnvelope

/-- Off the reader, both states come to a frame of the same size or to the same error, behind the same
bits, and are in step again. -/
def Frame.StayInStep (s : Stream) (r : BitReader) (x y : FrameState) : Prop :=
  match decode s ⟨r, x⟩, decode s ⟨r, y⟩ with
  | .ok values t, .ok values' u =>
    values.size = values'.size ∧ t.reader = u.reader ∧ t.state.InStep u.state
  | .error e t, .error f u => e = f ∧ t.reader = u.reader ∧ t.state.InStep u.state
  | _, _ => False

variable {s : Stream} {x y : FrameState}

namespace FrameState

theorem InStep.tracks (h : x.InStep y) {c : Config} (hx : x.Sound c) (hy : y.Sound c) :
    Tracks .exact c (·.Sound c) (fun b b' => b.Resumes b' ∧ b.Supplies .exact b') False False x y where
  first := hx
  second := hy
  block := ⟨⟨h.lengths.reset, fun _ => h.lengths.bits, fun _ => h.lengths.nextBits⟩, .inr h.lengths⟩
  channels := .of_get (hx.layout.trans hy.layout.symm) fun place =>
    ⟨.inl (h.hasEnvelope place), False.elim, False.elim⟩

theorem Supplies.inStep (h : x.Supplies .exact y) : x.InStep y where
  lengths := h.block.resolve_left id
  hasEnvelope place := (h.channels.get place).resolve_right And.left

end FrameState

namespace Frame

open FrameState

theorem stayInStep (hs : s.Sound) (hx : x.Sound s.config) (hy : y.Sound s.config) (h : x.InStep y)
    (r : BitReader) : StayInStep s r x y := by
  have runs := tracks_decode hs ⟨r, x⟩ ⟨r, y⟩ rfl (h.tracks hx hy)
  unfold StayInStep
  cases hp : decode s ⟨r, x⟩ <;> cases hq : decode s ⟨r, y⟩ <;> rw [hp, hq] at runs
  · obtain ⟨reader, size, tracks⟩ := runs
    exact ⟨size, reader, (tracks.supplies fun _ _ h => h.2).inStep⟩
  · exact runs
  · exact runs
  · obtain ⟨error, reader, supplies⟩ := runs.resolve_left id
    exact ⟨error, reader, supplies.inStep⟩

/-- Two states that decoding a stream comes to, and that are in step. Off any reader, they stay in
step. -/
theorem stayInStep_of_reachable {p : Params} {c : Config} (hconfig : Config.ofParams p = .ok c)
    (hstream : Stream.ofConfig c = .ok s) (hx : FrameState.Reachable s x)
    (hy : FrameState.Reachable s y) (h : x.InStep y) (r : BitReader) : StayInStep s r x y :=
  have sound := (Stream.sound_of_ofConfig (Config.sound_of_ofParams hconfig) hstream).1
  stayInStep sound (hx.sound sound) (hy.sound sound) h r

/-- A frame that breaks off between the flags of its two channels leaves lengths and flags behind. -/
theorem wp_decode_of_cut (hs : s.Sound) (hstereo : s.config.channels = .stereo)
    (hvar : s.config.variableBlocks = true) (hw : s.config.selectorBits ≤ 32)
    (hreset : x.block.reset = true) {first second : Channel}
    (hchannels : x.channels = .stereo first second) {r : BitReader}
    (hsel : ∀ k < 3, s.config.selector r k = 0) {midSide coded : Bool}
    (hbits : r.remaining.drop (3 * s.config.selectorBits) = [midSide, coded]) :
    (decode s).wp (fun _ _ => False) (fun _ t => t.state = { x with
      block := ⟨s.config.frameBits, s.config.frameBits, s.config.frameBits, false, 0,
        s.config.frameLength, midSide⟩
      channels := .stereo { first with coded } second }) ⟨r, x⟩ := by
  obtain ⟨limit, hlimit⟩ : ∃ k, s.config.frameLength = k + 1 :=
    ⟨_, (Nat.succ_pred_eq_of_pos (Nat.two_pow_pos _)).symm⟩
  obtain ⟨block, channels, noise, work⟩ := x
  subst hchannels
  simp only [decode, onBlock, wp_bind, wp_focus, wp_update]
  rw [show readBlocks s s.config.frameLength = readBlocks s (limit + 1) by rw [hlimit]]
  unfold readBlocks readBlock
  simp only [onBlock, wp_bind, wp_focus]
  refine BlockState.wp_read_of_reset hs.config hvar hw hreset (BitReader.le_left_of_drop hbits)
    (fun k hk => ?_) ?_ fun q hq => ?_
  · rw [hsel k hk]
    exact hs.config.sizeCount_pos
  · rw [hsel 1 (by decide)]
    exact Nat.le_of_eq (Nat.zero_add _)
  · rw [hsel 0 (by decide), hsel 1 (by decide), hsel 2 (by decide)]
    unfold readCoded
    rw [if_pos hstereo, wp_bind]
    refine wp_readBit_of_cons (hq.remaining.trans hbits) fun q' _ hbits' => ?_
    simp only [onBlock, eachChannel, Lane.onChannel, wp_bind, wp_focus, wp_update, wp_state,
      PerChannel.places, wp_forM_cons]
    refine wp_readBit_of_cons hbits' fun q'' _ hbits'' => ?_
    exact wp_readBit_of_nil hbits'' fun _ => rfl

/-- A new stream, and one that has lost a frame and then its lengths: other flags, the same bits. -/
theorem stayInStep_of_reachable_tiny : ∃ s, Stream.ofConfig .tiny = .ok s ∧ ∃ y,
    FrameState.Reachable s y ∧ y.block.midSide = true ∧ (y.channels.get .first).coded = true ∧
    ∀ r, StayInStep s r (.initial .tiny) y := by
  have config := Config.sound_of_ofParams Config.ofParams_tiny
  obtain ⟨s, hstream⟩ := Stream.exists_ofConfig config
  obtain ⟨sound, hc⟩ := Stream.sound_of_ofConfig config hstream
  have width : s.config.selectorBits = 3 := by rw [hc]; exact Config.selectorBits_tiny
  have bits : (BitReader.ofList 0 (List.replicate 9 false ++ [true, true])).remaining =
      List.replicate 9 false ++ [true, true] := BitReader.remaining_ofList _ _
  have selector : ∀ k < 3, s.config.selector
      (.ofList 0 (List.replicate 9 false ++ [true, true])) k = 0 := by
    intro k hk
    rw [Config.selector, width, bits]
    revert k
    decide
  have behind : (BitReader.ofList 0 (List.replicate 9 false ++ [true, true])).remaining.drop
      (3 * s.config.selectorBits) = [true, true] := by
    rw [width, bits]
    decide
  have channels : (FrameState.initial s.config).channels =
      .stereo (.initial s.config.frameLength) (.initial s.config.frameLength) := by rw [hc]; rfl
  obtain ⟨e, t, ht, hstate⟩ := exists_error_of_wp (wp_decode_of_cut sound (by rw [hc]; rfl)
    (by rw [hc]; rfl) (by omega) rfl channels selector behind)
  have again := stayInStep_of_reachable Config.ofParams_tiny hstream .initial
    (.resetLengths (.failed .initial ht))
  rw [hstate] at again
  refine ⟨s, hstream, _, .resetLengths (.failed .initial ht), by rw [hstate]; rfl,
    by rw [hstate]; rfl, ?_⟩
  rw [hstate, ← hc]
  refine again ⟨⟨rfl, rfl, rfl, rfl⟩, fun place => ?_⟩
  rw [hc]
  cases place <;> rfl

end Frame

end Wma
