import Wma.Bands.Layout
import Wma.Proofs.Envelope.LinePairs
import Wma.Proofs.Stream.Config

/-!
# Bands fit their blocks

For each block size of a sound stream the coded coefficients lie behind the first coded one, and the
high bands do not hold more of them than there are (`BlockBands.Sound`), so the counts of levels that
are differences of these never go below zero.
-/

namespace Wma

/-- The bands of blocks of `2 ^ bits` coefficients fit them. -/
structure BlockBands.Sound (c : Config) (bits : Nat) (b : BlockBands) : Prop where
  length_eq : b.length = 2 ^ bits
  start_le_length : BandLayout.firstCoef c.version ≤ b.length
  start_le_end : BandLayout.firstCoef c.version ≤ b.coefsEnd
  /-- With noise, the high bands hold coded coefficients only. -/
  high_le : c.noiseCoding = true →
    b.highBands.sum ≤ b.coefsEnd - BandLayout.firstCoef c.version
  high_count : b.highBands.length ≤ c.frameLength

namespace BandLayout

/-- The parts of bands between two edges are all that the bands cover between them. -/
theorem sum_clip (first last : Nat) : ∀ (start : Nat) (widths : List Nat),
    (clip first last start widths).sum = min last (start + widths.sum) - max start first
  | start, [] => by
    simp only [clip, List.sum_nil, Nat.add_zero]
    omega
  | start, width :: widths => by
    have rest := sum_clip first last (start + width) widths
    simp only [clip, List.sum_cons]
    split
    · rw [List.sum_cons, rest]
      omega
    · rw [rest]
      omega

theorem length_clip_le (first last : Nat) : ∀ (start : Nat) (widths : List Nat),
    (clip first last start widths).length ≤ (clip first last start widths).sum
  | _, [] => by simp [clip]
  | start, width :: widths => by
    have rest := length_clip_le first last (start + width) widths
    simp only [clip]
    split
    · rw [List.sum_cons, List.length_cons]; omega
    · exact rest

theorem firstCoef_le (v : Version) : firstCoef v ≤ 3 := by
  cases v <;> decide

section

variable {c : Config} (hc : c.Sound) {k : Nat} (hk : k < c.sizeCount)

include hc hk

theorem length_block : (block c k).length = 2 ^ (c.frameBits - k) := by
  have := hc.sizeCount_le
  show 2 ^ c.frameBits / 2 ^ k = _
  unfold minBlockBits at this
  exact Nat.pow_div (by omega) (by decide)

theorem le_length_block : 128 ≤ (block c k).length := by
  have := hc.sizeCount_le
  unfold minBlockBits at this
  rw [length_block hc hk]
  calc 128 = 2 ^ 7 := rfl
    _ ≤ 2 ^ (c.frameBits - k) := Nat.pow_le_pow_right (by decide) (by omega)

theorem firstCoef_lt_coefsEnd : firstCoef c.version < (block c k).coefsEnd := by
  have least := le_length_block hc hk
  have first := firstCoef_le c.version
  show _ < (c.frameLength - c.frameLength * 9 / 100) / 2 ^ k
  have whole : 128 * 2 ^ k ≤ c.frameLength := by
    exact (Nat.le_div_iff_mul_le (Nat.two_pow_pos k)).mp least
  have : 4 ≤ (c.frameLength - c.frameLength * 9 / 100) / 2 ^ k :=
    (Nat.le_div_iff_mul_le (Nat.two_pow_pos k)).mpr (by omega)
  omega

theorem firstCoef_le_highStart : firstCoef c.version ≤ (block c k).highStart := by
  have least := le_length_block hc hk
  have first := firstCoef_le c.version
  show _ ≤ ((block c k).length * c.noisePermille + 500) / 1000
  have : 128 * 300 ≤ (block c k).length * c.noisePermille :=
    Nat.mul_le_mul least hc.noisePermille_ge
  omega

theorem sound_block : (block c k).Sound c (c.frameBits - k) where
  length_eq := length_block hc hk
  start_le_length := by
    have := le_length_block hc hk; have := firstCoef_le c.version
    omega
  start_le_end := (firstCoef_lt_coefsEnd hc hk).le
  high_le _ := by
    have := firstCoef_le_highStart hc hk
    have := sum_clip (block c k).highStart (block c k).coefsEnd 0
      (envelopeBands c (c.frameBits - k))
    show (clip (block c k).highStart (block c k).coefsEnd 0 _).sum ≤ _
    omega
  high_count := by
    have count := length_clip_le (block c k).highStart (block c k).coefsEnd 0
      (envelopeBands c (c.frameBits - k))
    have sum := sum_clip (block c k).highStart (block c k).coefsEnd 0
      (envelopeBands c (c.frameBits - k))
    have coded : (block c k).coefsEnd ≤ c.frameLength := Nat.le_trans (Nat.div_le_self _ _) (by omega)
    show (clip (block c k).highStart (block c k).coefsEnd 0 _).length ≤ _
    omega

end

theorem blocks_ofConfig {c : Config} {k : Nat} (hk : k < c.sizeCount) :
    (ofConfig c).blocks[k]? = some (block c k) := by
  simp [ofConfig, hk]

theorem of_blocks_ofConfig {c : Config} {k : Nat} {bands : BlockBands}
    (h : (ofConfig c).blocks[k]? = some bands) : k < c.sizeCount ∧ bands = block c k := by
  simp only [ofConfig, List.getElem?_toArray, List.getElem?_map, Option.map_eq_some_iff] at h
  obtain ⟨i, hi, rfl⟩ := h
  obtain ⟨inside, rfl⟩ := List.getElem?_eq_some_iff.mp hi
  rw [List.length_range] at inside
  rw [List.getElem_range]
  exact ⟨inside, rfl⟩

/-- Where envelopes are not stepped, there is a frequency for each coefficient of a frame. -/
theorem size_lineCosines {c : Config} (h : c.steppedEnvelope = false) :
    (ofConfig c).lineCosines.size = c.frameLength := by
  simp [ofConfig, h, cosines]

theorem unit_cosines (frameLength : Nat) : ∀ w ∈ cosines frameLength, LinePairs.Unit28 w := by
  intro w hw
  rw [cosines, Array.mem_ofFn] at hw
  obtain ⟨i, rfl⟩ := hw
  have low := (cosine (turn / 2 * i / frameLength)).le_toInt
  have high := (cosine (turn / 2 * i / frameLength)).toInt_lt
  unfold LinePairs.Unit28
  rw [abs_le]
  constructor <;> omega

theorem unit_lineCosines {c : Config} :
    ∀ w ∈ (ofConfig c).lineCosines, LinePairs.Unit28 w := by
  intro w hw
  simp only [ofConfig] at hw
  split at hw
  · simp at hw
  · exact unit_cosines _ w hw

end BandLayout

end Wma
