import Mathlib.Order.Monotone.Defs
import Mathlib.Tactic.Ring
import Wma.Proofs.Bands.Layout

/-!
# Bands cover their blocks

Whatever the version and the sample rate are, the envelope bands of a block add up to its length
(`BandLayout.sum_envelopeBands`): computed edges ascend, and a last band takes what they leave; the
fixed widths are tables. The high bands are the parts of these between two edges, so together they
are all that lies between them (`BandLayout.sum_clip`), and with noise that is everything from the
start of the noise to the last coded coefficient (`BandLayout.sum_highBands`).
-/

namespace Wma

namespace BandLayout

theorem sum_widthsUpTo_le {length : Nat} : ∀ {last : Nat} {edges : List Nat},
    (last :: edges).Pairwise (· ≤ ·) → last ≤ length →
    (widthsUpTo length last edges).sum ≤ length - last
  | _, [], _, _ => by simp [widthsUpTo]
  | last, edge :: edges, h, hlast => by
    have next := (List.pairwise_cons.mp h).1 edge List.mem_cons_self
    rw [widthsUpTo]
    split
    · rw [List.sum_cons, List.sum_nil]
      omega
    · rename_i inside
      have edge_eq : min edge length = edge := by omega
      have rest := sum_widthsUpTo_le (List.pairwise_cons.mp h).2 (by omega : edge ≤ length)
      rw [edge_eq, List.sum_cons]
      omega

theorem sum_coverTail {length : Nat} {widths : List Nat} (h : widths.sum ≤ length) :
    (coverTail length widths).sum = length := by
  unfold coverTail
  split
  · rw [List.sum_append, List.sum_singleton]
    omega
  · omega

theorem sum_filter_pos (widths : List Nat) : (widths.filter (0 < ·)).sum = widths.sum := by
  induction widths with
  | nil => rfl
  | cons width widths ih =>
    rw [List.filter_cons]
    split
    · rw [List.sum_cons, List.sum_cons, ih]
    · rw [ih, List.sum_cons]
      simp_all

theorem pairwise_criticalEdges : criticalEdges.Pairwise (· ≤ ·) := by decide

/-- Edges that come from the critical ones by a monotone rule ascend. -/
theorem pairwise_edges {f : Nat → Nat} (h : Monotone f) :
    (0 :: criticalEdges.map f).Pairwise (· ≤ ·) :=
  List.pairwise_cons.mpr ⟨fun _ _ => Nat.zero_le _,
    List.pairwise_map.mpr (pairwise_criticalEdges.imp fun hab => h hab)⟩

theorem monotone_roundedEdge (length sampleRate : Nat) :
    Monotone fun f => (length * 2 * f + sampleRate / 2) / sampleRate := fun _ _ h =>
  Nat.div_le_div_right (Nat.add_le_add_right (Nat.mul_le_mul_left _ h) _)

theorem monotone_quadEdge (length sampleRate : Nat) :
    Monotone fun f => (length * 2 * f + 2 * sampleRate) / (4 * sampleRate) * 4 := fun _ _ h =>
  Nat.mul_le_mul_right _ (Nat.div_le_div_right (Nat.add_le_add_right (Nat.mul_le_mul_left _ h) _))

/-- Fixed widths are a row of one of the tables. -/
theorem exists_of_fixedWidths {sampleRate blockBits : Nat} {widths : List Nat}
    (h : fixedWidths sampleRate blockBits = some widths) :
    ∃ tables ∈ [bandWidths44100, bandWidths32000, bandWidths22050, []],
      ∃ row, ∃ hrow : row < tables.length, tables[row] = widths ∧
        blockBits = minBlockBits + row := by
  have found : ∀ tables : List (List Nat), minBlockBits ≤ blockBits →
      tables[blockBits - minBlockBits]? = some widths →
      ∃ row, ∃ hrow : row < tables.length, tables[row] = widths ∧
        blockBits = minBlockBits + row := by
    intro tables hbits hrow
    obtain ⟨inside, rfl⟩ := List.getElem?_eq_some_iff.mp hrow
    exact ⟨blockBits - minBlockBits, inside, rfl, (Nat.add_sub_cancel' hbits).symm⟩
  unfold fixedWidths at h
  dsimp only at h
  split at h
  · split at h
    · exact ⟨bandWidths44100, by simp, found _ ‹_› h⟩
    split at h
    · exact ⟨bandWidths32000, by simp, found _ ‹_› h⟩
    split at h
    · exact ⟨bandWidths22050, by simp, found _ ‹_› h⟩
    · exact ⟨[], by simp, found _ ‹_› h⟩
  · cases h

theorem sum_fixedWidths {sampleRate blockBits : Nat} {widths : List Nat}
    (h : fixedWidths sampleRate blockBits = some widths) : widths.sum = 2 ^ blockBits := by
  have fits : ∀ tables ∈ [bandWidths44100, bandWidths32000, bandWidths22050, []],
      ∀ row (hrow : row < tables.length), tables[row].sum = 2 ^ (minBlockBits + row) := by decide
  obtain ⟨tables, hmem, row, hrow, rfl, rfl⟩ := exists_of_fixedWidths h
  exact fits tables hmem row hrow

/-- The envelope bands of a block add up to its length. -/
theorem sum_envelopeBands (c : Config) (blockBits : Nat) :
    (envelopeBands c blockBits).sum = 2 ^ blockBits := by
  unfold envelopeBands
  dsimp only
  split
  · exact sum_coverTail (sum_widthsUpTo_le (pairwise_edges (monotone_roundedEdge _ _)) (Nat.zero_le _))
  · split
    · exact sum_fixedWidths ‹_›
    · refine sum_coverTail ?_
      rw [sum_filter_pos]
      exact sum_widthsUpTo_le (pairwise_edges (monotone_quadEdge _ _)) (Nat.zero_le _)

theorem coefsEnd_le_length (c : Config) (k : Nat) : (block c k).coefsEnd ≤ (block c k).length :=
  Nat.div_le_div_right (Nat.sub_le _ _)

section

variable {c : Config} (hc : c.Sound) {k : Nat} (hk : k < c.sizeCount)

include hc hk

/-- The blocks of one size fill a frame. -/
theorem length_block_mul : (block c k).length * 2 ^ k = c.frameLength := by
  have sizes := hc.sizeCount_le
  unfold minBlockBits at sizes
  rw [length_block hc hk, ← Nat.pow_add, Nat.sub_add_cancel (by omega)]
  rfl

/-- Noise begins before the last coded coefficient. -/
theorem highStart_lt_coefsEnd (hn : c.noiseCoding = true) :
    (block c k).highStart < (block c k).coefsEnd := by
  have least := le_length_block hc hk
  have whole := length_block_mul hc hk
  have start : (block c k).highStart * 1000 ≤ (block c k).length * 750 + 500 := by
    have share : (block c k).length * c.noisePermille ≤ (block c k).length * 750 :=
      Nat.mul_le_mul_left _ (hc.noisePermille_range hn).2
    have rounded : (block c k).highStart * 1000 ≤ (block c k).length * c.noisePermille + 500 :=
      Nat.div_mul_le_self _ _
    omega
  show (block c k).highStart + 1 ≤ (c.frameLength - c.frameLength * 9 / 100) / 2 ^ k
  rw [Nat.le_div_iff_mul_le (Nat.two_pow_pos k), ← whole, Nat.add_mul, Nat.one_mul]
  -- The start is at three quarters of a block of at least 128 coefficients, the end at nine tenths.
  have scaled : (block c k).highStart * 2 ^ k * 1000 ≤
      (block c k).length * 2 ^ k * 750 + 500 * 2 ^ k :=
    calc (block c k).highStart * 2 ^ k * 1000 = (block c k).highStart * 1000 * 2 ^ k := by ring
      _ ≤ ((block c k).length * 750 + 500) * 2 ^ k := Nat.mul_le_mul_right _ start
      _ = (block c k).length * 2 ^ k * 750 + 500 * 2 ^ k := by ring
  have room : 128 * 2 ^ k ≤ (block c k).length * 2 ^ k := Nat.mul_le_mul_right _ least
  omega

/-- The high bands are all coded coefficients from the start of the noise on. -/
theorem sum_highBands_eq :
    (block c k).highBands.sum = (block c k).coefsEnd - (block c k).highStart := by
  have inside := coefsEnd_le_length c k
  have whole := sum_envelopeBands c (c.frameBits - k)
  rw [← length_block hc hk] at whole
  have bands : (block c k).highBands =
      clip (block c k).highStart (block c k).coefsEnd 0 (envelopeBands c (c.frameBits - k)) := rfl
  rw [bands, sum_clip, whole]
  omega

/-- With noise, there are such coefficients. -/
theorem sum_highBands (hn : c.noiseCoding = true) :
    (block c k).highStart + (block c k).highBands.sum = (block c k).coefsEnd := by
  have start := highStart_lt_coefsEnd hc hk hn
  rw [sum_highBands_eq hc hk]
  omega

end

end BandLayout

end Wma
