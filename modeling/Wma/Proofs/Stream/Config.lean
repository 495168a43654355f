import Wma.Proofs.Gives
import Wma.Stream.Config

/-!
# What the check of stream parameters promises

`Config.Sound` gathers the ranges of the constants of a stream that any accepted parameters lead to.
-/

namespace Wma

namespace Config

/-- The ranges of the constants of a stream. -/
structure Sound (c : Config) : Prop where
  le_frameBits : 9 ≤ c.frameBits
  frameBits_le : c.frameBits ≤ maxBlockBits
  sizeCount_pos : 0 < c.sizeCount
  /-- The shortest block has `2 ^ minBlockBits` coefficients at least. -/
  sizeCount_le : c.sizeCount + minBlockBits ≤ c.frameBits + 1
  rateClass_lt : c.rateClass < 3
  blockAlign_pos : 0 < c.blockAlign
  blockAlign_le : c.blockAlign ≤ maxPacketBytes
  offsetBits_le : c.offsetBits + 3 ≤ 25
  noiseStart_range : ∀ m, c.noiseStart = some m → 300 ≤ m ∧ m ≤ 750

end Config

theorem frameBitsOf_range (sampleRate : Nat) (version : Version) :
    9 ≤ frameBitsOf sampleRate version ∧ frameBitsOf sampleRate version ≤ maxBlockBits := by
  unfold frameBitsOf maxBlockBits
  split
  · omega
  · split <;> omega

theorem blockSizes_range (flags : StreamFlags) (channelRate : Nat) {frameBits : Nat}
    (h : minBlockBits ≤ frameBits) :
    0 < blockSizes flags channelRate frameBits ∧
      blockSizes flags channelRate frameBits + minBlockBits ≤ frameBits + 1 := by
  unfold blockSizes
  dsimp only
  omega

theorem rateClassOf_lt (sampleRate : Nat) (scaled : BitDensity) :
    rateClassOf sampleRate scaled < 3 := by
  unfold rateClassOf
  split
  · split
    · decide
    · split <;> decide
  · decide

theorem noiseBand_range {version : Version} {sampleRate : Nat} {density scaled : BitDensity} {m : Nat}
    (h : noiseBand version sampleRate density scaled = some m) : 300 ≤ m ∧ m ≤ 750 := by
  unfold noiseBand at h
  split at h
  all_goals
    repeat' split at h
  all_goals
    simp only [Option.some.injEq, reduceCtorEq] at h
  all_goals omega

namespace Config

theorem sound_of_ofParams {p : Params} {c : Config} (h : ofParams p = .ok c) : c.Sound := by
  obtain ⟨version, -, h⟩ := ok_of_bind h
  obtain ⟨channels, -, h⟩ := ok_of_bind h
  obtain ⟨_, hcheck, h⟩ := ok_of_bind h
  obtain ⟨flags, -, h⟩ := ok_of_bind h
  have align : 0 < p.blockAlign.toNat ∧ p.blockAlign.toNat ≤ maxPacketBytes := by
    unfold Params.check at hcheck
    dsimp only at hcheck
    split at hcheck
    · cases hcheck
    split at hcheck
    · cases hcheck
    split at hcheck
    · cases hcheck
    omega
  dsimp only at h
  split at h
  · cases h
  rename_i hoffset
  cases h
  have frame := frameBitsOf_range p.sampleRate.toNat version
  have least : minBlockBits ≤ frameBitsOf p.sampleRate.toNat version := by
    unfold minBlockBits; omega
  have sizes := blockSizes_range flags (p.bitRate.toNat / channels.count) least
  refine ⟨frame.1, frame.2, ?_, ?_, rateClassOf_lt _ _, align.1, align.2, by dsimp only; omega,
    fun m hm => noiseBand_range hm⟩
  · dsimp only
    split
    · exact sizes.1
    · decide
  · dsimp only
    split
    · exact sizes.2
    · unfold minBlockBits; omega

namespace Sound

variable {c : Config}

theorem noisePermille_range (hc : c.Sound) (h : c.noiseCoding = true) :
    300 ≤ c.noisePermille ∧ c.noisePermille ≤ 750 := by
  obtain ⟨m, hm⟩ := Option.isSome_iff_exists.mp h
  unfold noisePermille
  rw [hm]
  exact hc.noiseStart_range m hm

/-- The high bands of a stream without noise begin at the end of its blocks. -/
theorem noisePermille_eq (h : c.noiseCoding = false) : c.noisePermille = 1000 := by
  have none : c.noiseStart = none := Option.isNone_iff_eq_none.mp (Option.isSome_eq_false_iff.mp h)
  unfold noisePermille
  rw [none, Option.getD_none]

theorem noisePermille_ge (hc : c.Sound) : 300 ≤ c.noisePermille := by
  cases h : c.noiseCoding with
  | true => exact (hc.noisePermille_range h).1
  | false =>
    rw [noisePermille_eq h]
    decide

theorem noisePermille_le (hc : c.Sound) : c.noisePermille ≤ 1000 := by
  cases h : c.noiseCoding with
  | true => exact Nat.le_trans (hc.noisePermille_range h).2 (by decide)
  | false => exact Nat.le_of_eq (noisePermille_eq h)

theorem sizeCount_le_five (hc : c.Sound) : c.sizeCount ≤ 5 := by
  have few := hc.sizeCount_le
  have short := hc.frameBits_le
  unfold minBlockBits maxBlockBits at *
  omega

theorem selectorBits_le (hc : c.Sound) : c.selectorBits ≤ 3 := by
  have few := hc.sizeCount_le_five
  have width : ∀ n < 6, (if n ≤ 1 then 0 else log2Floor (n - 1) + 1) ≤ 3 := by decide +kernel
  exact width c.sizeCount (by omega)

theorem frameLength_lt (hc : c.Sound) : c.frameLength < 2 ^ (12 : Nat) :=
  Nat.pow_lt_pow_right (by decide) (Nat.lt_succ_of_le hc.frameBits_le)

theorem frameLength_eq_or (hc : c.Sound) :
    c.frameLength = 512 ∨ c.frameLength = 1024 ∨ c.frameLength = 2048 := by
  have := hc.le_frameBits; have := hc.frameBits_le
  unfold frameLength
  obtain h | h | h : c.frameBits = 9 ∨ c.frameBits = 10 ∨ c.frameBits = 11 := by
    unfold maxBlockBits at *; omega
  all_goals simp [h]

end Sound

end Config

/-- The parameters of a stream of two channels whose packets have four bytes. -/
def Params.tiny : Params :=
  ⟨44100, 2, 64000, 4, 0x161, #[0, 0, 0x1f, 0]⟩

namespace Config

/-- The constants of a stream whose packets have four bytes: the header of a packet takes 20 bits of
them, and a frame of silence the other 12. -/
def tiny : Config where
  version := .v2
  channels := .stereo
  sampleRate := 44100
  bitRate := 64000
  blockAlign := 4
  flags := ⟨0x1f⟩
  variableBlocks := true
  frameBits := 11
  sizeCount := 5
  offsetBits := 9
  rateClass := 2
  noiseStart := none

theorem ofParams_tiny : ofParams .tiny = .ok tiny := rfl

theorem selectorBits_tiny : tiny.selectorBits = 3 := by
  decide +kernel

end Config

end Wma
