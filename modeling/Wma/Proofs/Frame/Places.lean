import Wma.Proofs.Code.BuiltIn
import Wma.Proofs.Frame.Spectra
import Wma.Proofs.Spectrum.Places

/-!
# Levels of a block and where they go

For every block size of a stream the bands cover the coded coefficients, so as many levels are read
(`Lane.levelCount_eq_ok`) as the dequantization of the block places, and they go where they were
meant to (`FrameState.dequantize_scaling`).
-/

namespace Wma

open FrameState

variable {s : Stream} {k blockBits : Nat} {bands : BlockBands} {gain : Int} {noise : NoiseBands}

/-- The bands of a stream cover its blocks. -/
theorem FrameState.tiled_scaling (hc : s.config.Sound) (hlayout : s.layout = .ofConfig s.config)
    (hbands : s.layout.blocks[k]? = some bands) (blockBits : Nat) (gain : Int) :
    (scaling s blockBits k bands gain).Tiled := by
  have start : s.layout.coefsStart = BandLayout.firstCoef s.config.version :=
    congrArg BandLayout.coefsStart hlayout
  rw [hlayout] at hbands
  obtain ⟨hk, rfl⟩ := BandLayout.of_blocks_ofConfig hbands
  exact {
    start_le := start.trans_le (BandLayout.firstCoef_lt_coefsEnd hc hk).le
    end_le := BandLayout.coefsEnd_le_length s.config k
    start_le_high := fun _ => start.trans_le (BandLayout.firstCoef_le_highStart hc hk)
    sum_high := BandLayout.sum_highBands hc hk }

/-- A block of any size that a stream has is dequantized by a sound scaling. -/
theorem FrameState.sound_scaling_of_blocks (hc : s.config.Sound) (hlayout : s.layout = .ofConfig s.config)
    (hbands : s.layout.blocks[k]? = some bands) (gain : Int) :
    (scaling s (s.config.frameBits - k) k bands gain).Sound s.config (s.config.frameBits - k) := by
  rw [hlayout] at hbands
  obtain ⟨hk, rfl⟩ := BandLayout.of_blocks_ofConfig hbands
  have sizes := hc.sizeCount_le_five
  exact sound_scaling hlayout (BandLayout.sound_block hc hk) (by omega)
    (Nat.le_trans (Nat.sub_le _ _) hc.frameBits_le) gain

/-- There are as many levels as bins that have one. -/
theorem Lane.levelCount_eq_ok (ht : (scaling s blockBits k bands gain).Tiled) :
    levelCount s bands noise = .ok ((scaling s blockBits k bands gain).codedBins noise).length := by
  have low : s.layout.coefsStart ≤ bands.coefsEnd := ht.start_le
  have coded : difference bands.coefsEnd s.layout.coefsStart =
      .ok (bands.coefsEnd - s.layout.coefsStart) := if_pos low
  rw [Scaling.length_codedBins ht]
  unfold levelCount
  rw [coded]
  show (if s.config.noiseCoding then _ else _) = Except.ok (_ - if s.config.noiseCoding then _ else _)
  split
  · rename_i hn
    have start : s.layout.coefsStart ≤ bands.highStart := ht.start_le_high hn
    have sum : bands.highStart + bands.highBands.sum = bands.coefsEnd := ht.sum_high hn
    have substituted := noise.substituted_le bands.highBands
    exact if_pos (by omega)
  · rfl

/-- The parameters of a stream of one channel with noise. -/
def Params.hissing : Params :=
  ⟨8000, 1, 4000, 64, 0x161, #[0, 0, 0, 0, 1, 0]⟩

/-- The constants of a stream of one channel with noise in the upper half of its spectrum. -/
def Config.hissing : Config where
  version := .v2
  channels := .mono
  sampleRate := 8000
  bitRate := 4000
  blockAlign := 64
  flags := ⟨1⟩
  variableBlocks := false
  frameBits := 9
  sizeCount := 1
  offsetBits := 7
  rateClass := 2
  noiseStart := some 500

theorem Config.ofParams_hissing : ofParams .hissing = .ok hissing := by
  cbv

def Stream.hissing (books : Books) : Stream :=
  ⟨.hissing, .ofConfig .hissing, books⟩

namespace FrameState

/-- Levels go where the count of levels says. Whatever the envelope is and the block size that it is
of, and whichever high bands hold noise, a block of any size that a stream has becomes a spectrum.

As many levels are counted for the block as there are coded coefficients that no noise stands for,
and these get one level each, in order. Every coefficient of the block has one source. With noise,
each uses the sample that is as far ahead as the coefficient is from the first one, and the noise
moves on by the length of the block. Without noise it stays, and all that is not coded is silent. -/
theorem dequantize_scaling {p : Params} (hconfig : Config.ofParams p = .ok s.config)
    (hlayout : s.layout = .ofConfig s.config) (hbands : s.layout.blocks[k]? = some bands)
    {scaled : Scaling} (hscaled : scaled = scaling s (s.config.frameBits - k) k bands gain)
    {levels : Array Int32} (hlevels : ∀ x ∈ levels, -2 ^ 13 < x.toInt ∧ x.toInt < 2 ^ 13)
    (hroom : bands.length ≤ levels.size) (envelope : Array UInt32) {envelopeSize : Nat}
    (hsize : envelopeSize < 64) (hnoise : noise.Sound) {samples : Noise}
    (hsamples : samples.IsOf s.config.noiseDivisor) {buffer : Array Int32}
    (hbuffer : bands.length ≤ buffer.size) :
    Lane.levelCount s bands noise = .ok (scaled.codedBins noise).length ∧
      ∃ out plan x,
        scaled.dequantize levels envelope envelopeSize noise samples buffer =
          .ok (out, if s.config.noiseCoding then
            { samples with index := .ofNat 8192 (samples.index + bands.length) } else samples) ∧
        scaled.Dequantized levels envelope envelopeSize noise samples buffer out plan x ∧
        scaled.Places noise plan ∧ scaled.Fills noise x out := by
  subst hscaled
  have hc := Config.sound_of_ofParams hconfig
  have tiled := tiled_scaling hc hlayout hbands (s.config.frameBits - k) gain
  have hbits : s.config.frameBits - k ≤ maxBlockBits :=
    Nat.le_trans (Nat.sub_le _ _) hc.frameBits_le
  rw [hlayout] at hbands
  obtain ⟨hk, rfl⟩ := BandLayout.of_blocks_ofConfig hbands
  have index : k < 32 := by
    have sizes := hc.sizeCount_le
    have frame := hc.frameBits_le
    unfold maxBlockBits at frame
    omega
  have sound := sound_scaling hlayout (BandLayout.sound_block hc hk) index hbits gain
  obtain ⟨⟨out, samples'⟩, hout, ⟨plan, x, hd⟩, rfl⟩ := Scaling.Gives.dequantize sound
    ⟨rfl, hlevels⟩ envelope hsize hnoise hsamples.sound hbuffer
  have enough := Nat.le_trans (Scaling.length_codedBins_le tiled noise) hroom
  obtain ⟨plan', hplan', places⟩ := Scaling.gives_places sound tiled hsize noise enough
  obtain rfl : plan' = plan := Except.ok.inj (hplan'.symm.trans hd.plan_eq)
  exact ⟨Lane.levelCount_eq_ok tiled, out, plan', x, hout, hd, places, places.fills hd⟩

/-- Two of four high bands hold noise, which leaves 366 of 466 coded coefficients with a level. -/
theorem dequantize_scaling_hissing : ∃ books, Books.builtIn = .ok books ∧
    Lane.levelCount (.hissing books) (BandLayout.block .hissing 0)
      ⟨[true, false, true, false], [0, 0, 0, 0]⟩ = .ok 366 ∧
    ∃ out x,
      (scaling (.hissing books) 9 0 (BandLayout.block .hissing 0) 40).dequantize
          (Array.replicate 512 0) (Array.replicate 512 1) 0 ⟨[true, false, true, false], [0, 0, 0, 0]⟩
          (.ofDivisor Config.hissing.noiseDivisor) (Array.replicate 512 0) =
        .ok (out, { Noise.ofDivisor Config.hissing.noiseDivisor with index := 512 }) ∧
      (scaling (.hissing books) 9 0 (BandLayout.block .hissing 0) 40).Fills
        ⟨[true, false, true, false], [0, 0, 0, 0]⟩ x out := by
  obtain ⟨books, hbooks⟩ := Books.exists_builtIn
  have config : Config.ofParams .hissing = .ok (Stream.hissing books).config := Config.ofParams_hissing
  have bands : (Stream.hissing books).layout.blocks[0]? = some (BandLayout.block .hissing 0) :=
    BandLayout.blocks_ofConfig (by decide)
  have scaled : scaling (.hissing books) 9 0 (BandLayout.block .hissing 0) 40 =
      scaling (.hissing books) (Config.hissing.frameBits - 0) 0 (BandLayout.block .hissing 0) 40 := rfl
  have small : ∀ x ∈ Array.replicate 512 (0 : Int32), -2 ^ 13 < x.toInt ∧ x.toInt < 2 ^ 13 :=
    (Levels.Small.replicate 512).bounded
  have length : (BandLayout.block .hissing 0).length = 512 := by decide +kernel
  have room : (BandLayout.block .hissing 0).length ≤ (Array.replicate 512 (0 : Int32)).size := by
    rw [length, Array.size_replicate]
  have size : 0 < 64 := by decide
  have noise : NoiseBands.Sound ⟨[true, false, true, false], [0, 0, 0, 0]⟩ := ⟨by decide, by decide⟩
  have samples : (Noise.ofDivisor Config.hissing.noiseDivisor).IsOf Config.hissing.noiseDivisor := rfl
  obtain ⟨-, out, plan, x, hout, -, -, fills⟩ := dequantize_scaling config rfl bands scaled small room
    (Array.replicate 512 1) size noise samples room
  refine ⟨books, hbooks, ?_, out, x, ?_, fills⟩
  · have coded : (BandLayout.block .hissing 0).coefsEnd = 466 := by decide +kernel
    have high : (BandLayout.block .hissing 0).highBands = [40, 48, 60, 62] := by decide +kernel
    unfold Lane.levelCount
    rw [coded, high]
    rfl
  · rw [length] at hout
    exact hout

end FrameState

end Wma
