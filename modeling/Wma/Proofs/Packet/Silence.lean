import Wma.Proofs.Frame.Silence
import Wma.Proofs.Packet.Continuation

/-!
# Packets of silence

A packet that holds one frame of silence is decoded, whatever state the frames before have left
(`Session.wp_decodeSuperframe_silent`), and so is one that stands behind others
(`Session.wp_decodeWhole_silent`). A packet that speaks of no frame is refused where nothing waits.
-/

namespace Wma

open Parse

/-- A packet of one frame of silence. The next block has the length of a frame divided by `2 ^ k`. -/
def silentPacket (k : Nat) : Array UInt8 :=
  #[2, 0, 0, UInt8.ofNat (8 * k)]

namespace Session

variable {s : Stream} {packet : Array UInt8} {x : Session}

theorem wp_decodeSuperframe_of_none (hsome : 0 < packet.size) (hempty : x.reservoir = .empty)
    (hnone : Bits.value (((Bits.ofBytes packet).drop 4).take 4) = 0)
    {Q : Nat → Scan Session → Prop} {E : Error → Scan Session → Prop}
    (hE : ∀ q, E (.corrupt .noFrames) ⟨q, x⟩) :
    (decodeSuperframe s packet).wp Q E ⟨.ofBytes packet, x⟩ := by
  have left : (BitReader.ofBytes packet).left = 8 * packet.size := rfl
  simp only [decodeSuperframe, SuperframeHeader.read, wp_bind, wp_state, wp_require]
  refine wp_skip_of_le (by dsimp only; omega) fun q hq => ?_
  refine wp_read_of_le (by decide) (by have := hq.left; dsimp only at *; omega) fun q' _ => ?_
  have waits : (!x.reservoir.isEmpty) = false := by rw [hempty]; rfl
  rw [hq.remaining]
  simp only [BitReader.remaining_ofBytes]
  rw [if_neg (by rw [hnone, waits]; simp)]
  exact hE q'

/-- One frame of silence. -/
theorem wp_decodeWhole_silent (hs : s.Sound) (hstereo : s.config.channels = .stereo)
    (hvar : s.config.variableBlocks = true) (hw : s.config.selectorBits ≤ 32)
    (hp : packet.size ≤ maxPacketBytes) {start index : Nat} (hstart : start ≤ 8 * packet.size)
    {sc : Scan Session} (hf : sc.state.frames.Sound s.config)
    (hpcm : (index + 1) * s.config.frameSamples ≤ sc.state.pcm.size) {r : BitReader}
    (hr : r.remaining = (Bits.ofBytes packet).drop start)
    (hsel : ∀ k < 3, s.config.selector r k < s.config.sizeCount) (hfull : s.config.selector r 1 = 0)
    {bits : List Bool}
    (hbits : r.remaining.drop (3 * s.config.selectorBits) = false :: false :: false :: bits)
    {Q : Unit → Scan Session → Prop} {E : Error → Scan Session → Prop}
    (hQ : ∀ (f : FrameState) pcm, f.Sound s.config → f.block.reset = false →
      f.block.nextBits = s.config.frameBits - s.config.selector r 2 →
      Q () ⟨sc.reader, ⟨f, .behind packet (start + (3 * s.config.selectorBits + 3)), pcm⟩⟩) :
    (decodeWhole s packet start 1 index).wp Q E sc := by
  refine wp_decodeWhole hp hstart fun q' hq' hplace => ?_
  simp only [decodeFrames, wp_bind, wp_pure]
  refine wp_decodeFrame hpcm ?_
  have same : s.config.selector q' = s.config.selector r := s.config.selector_congr (hq'.trans hr.symm)
  refine wp_mono (E := fun _ _ => False) (Frame.wp_decode_silent hs hstereo hvar hw
    hf.resetLengths rfl (by rw [same]; exact hsel) (by rw [same]; exact hfull)
    (hq'.trans hr.symm ▸ hbits)) (fun values t ht pcm _ _ => ?_) fun _ _ he => he.elim
  obtain ⟨hm, hsound, hreset, -, hnext⟩ := ht
  have stop := hm.position
  have inside : start + (3 * s.config.selectorBits + 3) ≤ 8 * packet.size := by
    have length := congrArg List.length hbits
    rw [hr, List.drop_drop, List.length_drop, Bits.length_ofBytes] at length
    simp only [List.length_cons] at length
    omega
  refine ⟨_, inside, by dsimp only at stop ⊢; omega, hQ _ pcm hsound hreset ?_⟩
  rw [hnext, ← same]

/-- A packet in which one frame of silence begins and ends. -/
theorem wp_decodeSuperframe_silent (hs : s.Sound) (hstereo : s.config.channels = .stereo)
    (hvar : s.config.variableBlocks = true) (hw : s.config.selectorBits ≤ 32)
    (hp : packet.size ≤ maxPacketBytes) (hx : x.Sound s x.pcm.size) (hempty : x.reservoir = .empty)
    (hpcm : s.config.frameSamples ≤ x.pcm.size) {h : SuperframeHeader}
    (hh : .ofBits s.config.offsetBits false (Bits.ofBytes packet) = h) (htwo : h.framesEnding = 2)
    (hinside : h.width + h.bitOffset ≤ 8 * packet.size) {r : BitReader}
    (hr : r.remaining = (Bits.ofBytes packet).drop (h.width + h.bitOffset))
    (hsel : ∀ k < 3, s.config.selector r k < s.config.sizeCount) (hfull : s.config.selector r 1 = 0)
    {bits : List Bool}
    (hbits : r.remaining.drop (3 * s.config.selectorBits) = false :: false :: false :: bits)
    {Q : Nat → Scan Session → Prop} {E : Error → Scan Session → Prop}
    (hQ : ∀ q (f : FrameState) pcm, f.Sound s.config → f.block.reset = false →
      f.block.nextBits = s.config.frameBits - s.config.selector r 2 →
      Q 1 ⟨q, ⟨f, .behind packet (h.width + h.bitOffset + (3 * s.config.selectorBits + 3)), pcm⟩⟩) :
    (decodeSuperframe s packet).wp Q E ⟨.ofBytes packet, x⟩ := by
  have width := hs.config.offsetBits_le
  have one : h.frameCount false = 1 := by
    unfold SuperframeHeader.frameCount
    rw [htwo]
    rfl
  have field : h.framesEnding ≠ SuperframeHeader.idleCount false := by
    rw [htwo]
    decide
  have waits : (!x.reservoir.isEmpty) = false := by rw [hempty]; rfl
  simp only [decodeSuperframe, wp_bind, wp_state, waits]
  refine SuperframeHeader.wp_read_of_fits (by omega)
    ⟨by rw [hh, htwo]; decide, fun hidle => absurd (hh ▸ hidle) field, by rw [hh]; exact hinside⟩
    fun q _ => ?_
  rw [hh]
  unfold decodeBody
  simp only [one, Nat.one_ne_zero, ↓reduceIte, wp_bind, requireRoom, wp_state, wp_ite, Nat.one_mul,
    if_neg (Nat.not_lt.mpr hpcm), wp_pure, Bool.false_eq_true]
  exact wp_decodeWhole_silent hs hstereo hvar hw hp hinside hx.frames
    (by rwa [Nat.zero_add, Nat.one_mul]) hr hsel hfull hbits (hQ q)

theorem wp_decodeSuperframe_silentPacket (hs : s.Sound) (hc : s.config = .tiny) {k : Nat} (hk : k < 5)
    (hx : x.Sound s x.pcm.size) (hempty : x.reservoir = .empty) (hpcm : 4096 ≤ x.pcm.size)
    {Q : Nat → Scan Session → Prop} {E : Error → Scan Session → Prop}
    (hQ : ∀ q (f : FrameState) pcm, f.Sound s.config → f.block.reset = false →
      f.block.nextBits = 11 - k → Q 1 ⟨q, ⟨f, .empty, pcm⟩⟩) :
    (decodeSuperframe s (silentPacket k)).wp Q E ⟨.ofBytes (silentPacket k), x⟩ := by
  have width : s.config.selectorBits = 3 := by rw [hc, Config.selectorBits_tiny]
  have header : ∀ k < 5, SuperframeHeader.ofBits 9 false (Bits.ofBytes (silentPacket k)) =
      ⟨2, 0, 20⟩ := by decide
  have fields : ∀ k < 5, ∀ i < 3,
      Bits.value ((((Bits.ofBytes (silentPacket k)).drop 20).drop (i * 3)).take 3) =
        if i = 2 then k else 0 := by decide
  have flags : ∀ k < 5, ((Bits.ofBytes (silentPacket k)).drop 20).drop (3 * 3) =
      [false, false, false] := by decide
  have tail : ∀ k < 5, Reservoir.behind (silentPacket k) 32 = .empty := by decide
  have selector : ∀ i < 3, s.config.selector (.ofList 0 ((Bits.ofBytes (silentPacket k)).drop 20)) i =
      if i = 2 then k else 0 := by
    intro i hi
    unfold Config.selector
    rw [BitReader.remaining_ofList, width]
    exact fields k hk i hi
  have sizes : s.config.sizeCount = 5 := by rw [hc]; rfl
  have packet : SuperframeHeader.ofBits s.config.offsetBits false (Bits.ofBytes (silentPacket k)) =
      ⟨2, 0, 20⟩ := by
    rw [hc]
    exact header k hk
  have room : s.config.frameSamples ≤ x.pcm.size := by
    rw [hc]
    exact hpcm
  have size : (silentPacket k).size = 4 := rfl
  refine wp_decodeSuperframe_silent (h := ⟨2, 0, 20⟩)
    (r := .ofList 0 ((Bits.ofBytes (silentPacket k)).drop 20)) hs (by rw [hc]; rfl) (by rw [hc]; rfl)
    (by omega) (by rw [size]; decide) hx hempty room packet rfl (by rw [size]; decide)
    (BitReader.remaining_ofList 0 _) (fun i hi => ?_) (selector 1 (by decide))
    (by rw [BitReader.remaining_ofList, width]; exact flags k hk) fun q f pcm hf hreset hnext => ?_
  · rw [selector i hi, sizes]
    split <;> omega
  · rw [width]
    rw [selector 2 (by decide), hc] at hnext
    have done := hQ q f pcm hf hreset hnext
    rw [← tail k hk] at done
    exact done

end Session

end Wma
