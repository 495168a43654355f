import Wma.Fixed.Gain
import Wma.Proofs.Fixed.Reciprocal
import Wma.Proofs.Fixed.SquareRoot

/-!
# Gains stay within their words

`Gain.Within n` says that a gain has the form of a gain and that its exponent is no further than `n`
from zero. Every operation moves the exponent by a small constant at most (`Gain.Within.mul` and the
like), and its checked form does not fail where the exponents fit (`Gain.checkedMul_eq_ok` and the
like). So both give the same as long as `n` is far below `2 ^ 31`. `Gain.WellFormed` lets the exponent
go as far as its word does, and fixes the exponent of zero.
-/

namespace Wma

namespace Gain

/-- The form of every gain: zero, or a mantissa between one and two, with an exponent that fits its
word. -/
structure WellFormed (g : Gain) : Prop where
  normal : g = zero ∨ 2 ^ 30 ≤ g.mantissa ∧ g.mantissa < 2 ^ 31
  fits : FitsInt32 g.exponent

/-- A gain whose exponent is no further than `n` from zero. -/
structure Within (n : Nat) (g : Gain) : Prop where
  mantissa_lt : g.mantissa < 2 ^ 31
  /-- The mantissa of every gain but zero lies between one and two. -/
  le_mantissa : g.mantissa ≠ 0 → 2 ^ 30 ≤ g.mantissa
  le_exponent : -(n : Int) ≤ g.exponent
  exponent_le : g.exponent ≤ n

theorem WellFormed.within {g : Gain} (hg : g.WellFormed) : g.Within (2 ^ 31) := by
  have fits := hg.fits
  unfold FitsInt32 at fits
  refine ⟨?_, fun hz => ?_, by omega, by omega⟩
  · rcases hg.normal with rfl | range
    · decide
    · exact range.2
  · rcases hg.normal with rfl | range
    · exact absurd rfl hz
    · exact range.1

theorem isZero_iff {g : Gain} : g.isZero = true ↔ g.mantissa = 0 := beq_iff_eq

theorem isZero_eq_false_iff {g : Gain} : g.isZero = false ↔ g.mantissa ≠ 0 := by
  rw [← Bool.not_eq_true, isZero_iff]

theorem scale_eq {g : Gain} {s : Int} (hz : g.mantissa ≠ 0) :
    g.scale s = ⟨g.mantissa, g.exponent + s⟩ := by
  rw [scale, isZero_eq_false_iff.mpr hz]
  rfl

theorem wrap32_eq {x : Int} (h : FitsInt32 x) : wrap32 x = x := by
  unfold FitsInt32 at h
  exact Int.bmod_eq_of_le (by omega) (by omega)

theorem signed32_eq {n : Nat} (h : n < 2 ^ 31) : signed32 n = n :=
  wrap32_eq ⟨by omega, by omega⟩

/-! ### Rounding down to a mantissa -/

theorem exponent_ofFraction {raw f : Nat} (hraw : raw ≠ 0) (hf : FitsInt32 (raw.log2 - f)) :
    (ofFraction raw f).exponent = raw.log2 - f := by
  rw [ofFraction, if_neg hraw]
  exact wrap32_eq hf

theorem mantissa_ofFraction_range {raw : Nat} (f : Nat) (hraw : raw ≠ 0) :
    2 ^ 30 ≤ (ofFraction raw f).mantissa ∧ (ofFraction raw f).mantissa < 2 ^ 31 := by
  have low : 2 ^ raw.log2 ≤ raw := Nat.log2_self_le hraw
  have high : raw < 2 ^ (raw.log2 + 1) := Nat.lt_log2_self
  rw [ofFraction, if_neg hraw]
  dsimp only
  split
  · have split : raw.log2 = 30 + (raw.log2 - 30) := by omega
    rw [split, Nat.pow_add] at low
    rw [split, Nat.add_right_comm, Nat.pow_add] at high
    exact ⟨(Nat.le_div_iff_mul_le (Nat.two_pow_pos _)).mpr low,
      (Nat.div_lt_iff_lt_mul (Nat.two_pow_pos _)).mpr high⟩
  · have join : 30 = raw.log2 + (30 - raw.log2) := by omega
    have join' : 31 = raw.log2 + 1 + (30 - raw.log2) := by omega
    refine ⟨?_, ?_⟩
    · calc 2 ^ 30 = 2 ^ raw.log2 * 2 ^ (30 - raw.log2) := by rw [join, Nat.pow_add, ← join]
        _ ≤ raw * 2 ^ (30 - raw.log2) := Nat.mul_le_mul_right _ low
    · calc raw * 2 ^ (30 - raw.log2) < 2 ^ (raw.log2 + 1) * 2 ^ (30 - raw.log2) :=
          Nat.mul_lt_mul_of_pos_right high (Nat.two_pow_pos _)
        _ = 2 ^ 31 := by rw [← Nat.pow_add, ← join']

/-- A number of 31 digits is its own mantissa. -/
theorem ofFraction_of_range {raw : Nat} (low : 2 ^ 30 ≤ raw) (high : raw < 2 ^ 31) :
    ofFraction raw 30 = ⟨raw, 0⟩ := by
  have top : raw.log2 = 30 := by
    have above := (Nat.le_log2 (by omega : raw ≠ 0)).mpr low
    have below := (Nat.log2_lt (by omega : raw ≠ 0)).mpr high
    omega
  rw [ofFraction, if_neg (by omega), top]
  simp [wrap32]

variable {n m : Nat} {g h : Gain}

namespace Within

theorem mono (hg : g.Within n) (h : n ≤ m) : g.Within m :=
  ⟨hg.mantissa_lt, hg.le_mantissa, by have := hg.le_exponent; omega,
    by have := hg.exponent_le; omega⟩

theorem fits (hg : g.Within n) (h : n < 2 ^ 31) : FitsInt32 g.exponent := by
  have := hg.le_exponent; have := hg.exponent_le
  unfold FitsInt32
  omega

theorem fits_places {f : Nat} (hg : g.Within n) (h : n + f + 30 < 2 ^ 31) :
    FitsInt32 (30 + f - g.exponent) := by
  have := hg.le_exponent; have := hg.exponent_le
  unfold FitsInt32
  omega

/-- The mantissa of a gain that is not zero. -/
theorem mantissa_range (hg : g.Within n) (hz : g.mantissa ≠ 0) :
    2 ^ 30 ≤ g.mantissa ∧ g.mantissa < 2 ^ 31 :=
  ⟨hg.le_mantissa hz, hg.mantissa_lt⟩

theorem product_lt (hg : g.Within n) (hh : h.Within m) : g.mantissa * h.mantissa < 2 ^ 64 :=
  Nat.lt_of_lt_of_le (Nat.mul_lt_mul'' hg.mantissa_lt hh.mantissa_lt) (by decide)

theorem zero : Gain.zero.Within n :=
  ⟨by decide, fun h => absurd rfl h, by show -(n : Int) ≤ 0; omega, by show (0 : Int) ≤ n; omega⟩

theorem ofFraction {raw fracBits : Nat} (hraw : raw < 2 ^ 64) (hf : fracBits ≤ 64) :
    (Gain.ofFraction raw fracBits).Within 64 := by
  by_cases hz : raw = 0
  · rw [Gain.ofFraction, if_pos hz]
    exact zero
  have top : raw.log2 < 64 := (Nat.log2_lt hz).mpr hraw
  obtain ⟨low, high⟩ := mantissa_ofFraction_range fracBits hz
  have exponent := exponent_ofFraction (f := fracBits) hz ⟨by omega, by omega⟩
  exact ⟨high, fun _ => low, by omega, by omega⟩

theorem max (hg : g.Within n) (hh : h.Within n) : (Gain.max g h).Within n := by
  unfold Gain.max; split
  · exact hg
  · exact hh

theorem scale (hg : g.Within n) {shift : Int} (hm : shift.natAbs ≤ m) :
    (g.scale shift).Within (n + m) := by
  have := hg.le_exponent; have := hg.exponent_le
  unfold Gain.scale
  split
  · exact hg.mono (by omega)
  · exact ⟨hg.mantissa_lt, hg.le_mantissa, by dsimp only; omega, by dsimp only; omega⟩

theorem mul (hg : g.Within n) (hh : h.Within m) : (g.mul h).Within (n + m + 64) := by
  have := hg.le_exponent; have := hg.exponent_le
  have := hh.le_exponent; have := hh.exponent_le
  unfold Gain.mul
  split
  · exact zero
  · exact ((ofFraction (hg.product_lt hh) (by decide)).scale (m := n + m) (by omega)).mono (by omega)

theorem recip (hg : g.Within n) : g.recip.Within (n + 64) := by
  have := hg.le_exponent; have := hg.exponent_le
  unfold Gain.recip
  split
  · exact ⟨by decide, fun _ => by decide, by show -((n + 64 : Nat) : Int) ≤ 62; omega,
      by show (62 : Int) ≤ (n + 64 : Nat); omega⟩
  · have short : inverse g.mantissa < 2 ^ 64 := (inverse_le _).trans_lt (by decide)
    exact ((ofFraction short (by decide)).scale (m := n) (by omega)).mono (by omega)

theorem root {raw : Nat} {shift : Int} (hraw : raw < 2 ^ 64) (hm : shift.natAbs ≤ m) :
    ((Gain.ofFraction (isqrt64 raw) 30).scale shift).Within (64 + m) := by
  have short : isqrt64 raw < 2 ^ 64 := by
    rw [isqrt64_eq_sqrt hraw]
    exact (Nat.sqrt_le_self _).trans_lt hraw
  exact (ofFraction short (by decide)).scale hm

theorem sqrt (hg : g.Within n) : g.sqrt.Within (n + 64) := by
  have := hg.le_exponent; have := hg.exponent_le; have := hg.mantissa_lt
  unfold Gain.sqrt
  split
  · exact hg.mono (by omega)
  split
  · exact (root (m := n) (by omega) (by omega)).mono (by omega)
  · exact (root (m := n) (by omega) (by omega)).mono (by omega)

end Within

/-! ### Operations whose exponents fit do not fail -/

theorem checkedScale_eq_ok {shift : Int} (hfits : FitsInt32 (g.scale shift).exponent) :
    g.checkedScale shift = .ok (g.scale shift) := by
  unfold checkedScale
  unfold scale at hfits ⊢
  split
  · rfl
  · rw [if_neg ‹_›] at hfits
    exact bind_eq_ok (int32_eq_ok hfits) rfl

theorem checkedMul_eq_ok (hg : g.Within n) (hh : h.Within m)
    (hsum : FitsInt32 (g.exponent + h.exponent)) (hfits : FitsInt32 (g.mul h).exponent) :
    g.checkedMul h = .ok (g.mul h) := by
  unfold checkedMul
  unfold mul at hfits ⊢
  split
  · rfl
  · rw [if_neg ‹_›] at hfits
    exact bind_eq_ok (word64_eq_ok (hg.product_lt hh))
      (bind_eq_ok (int32_eq_ok hsum) (checkedScale_eq_ok hfits))

theorem checkedRecip_eq_ok (hg : g.Within n) (hneg : FitsInt32 (-g.exponent))
    (hfits : FitsInt32 g.recip.exponent) : g.checkedRecip = .ok g.recip := by
  unfold checkedRecip
  unfold recip at hfits ⊢
  split
  · rfl
  · rename_i hz
    obtain ⟨low, high⟩ := hg.mantissa_range (mt isZero_iff.mpr hz)
    rw [if_neg hz] at hfits
    exact bind_eq_ok (checkedInverse_eq_ok low high)
      (bind_eq_ok (int32_eq_ok hneg) (checkedScale_eq_ok hfits))

theorem checkedRoot_eq_ok {raw : Nat} {shift : Int} (hraw : raw < 2 ^ 64)
    (hshift : shift.natAbs ≤ 2 ^ 30) :
    (do (ofFraction (← checkedIsqrt64 raw) 30).checkedScale shift) =
      .ok ((ofFraction (isqrt64 raw) 30).scale shift) :=
  bind_eq_ok (checkedIsqrt64_eq_ok raw)
    (checkedScale_eq_ok ((Within.root hraw hshift).fits (by decide)))

/-- A root has half the exponent, so that it fits whenever the exponent does. -/
theorem checkedSqrt_eq_ok (hg : g.Within n) (hn : n ≤ 2 ^ 31) : g.checkedSqrt = .ok g.sqrt := by
  have := hg.le_exponent; have := hg.exponent_le; have := hg.mantissa_lt
  unfold checkedSqrt sqrt
  split
  · rfl
  split
  · exact checkedRoot_eq_ok (by omega) (by omega)
  · have even : FitsInt32 (g.exponent - 1) := by
      unfold FitsInt32
      omega
    exact bind_eq_ok (int32_eq_ok even) (checkedRoot_eq_ok (by omega) (by omega))

theorem checkedApply_eq_ok {g : Gain} {v : Int} {f : Nat} (hf : 30 + f < 2 ^ 31)
    (h : FitsInt32 (30 + f - g.exponent)) : g.checkedApply v f = .ok (g.apply v f) := by
  have sum : int32 (30 + signed32 f) = .ok (30 + f) := by
    rw [signed32_eq (by omega)]
    exact int32_eq_ok ⟨by omega, by omega⟩
  unfold checkedApply
  by_cases hz : g.isZero ∨ v = 0
  · have none : g.apply v f = 0 := if_pos hz
    rw [if_pos hz, none]
    rfl
  · rw [if_neg hz]
    exact bind_eq_ok sum (bind_eq_ok (int32_eq_ok h) rfl)

namespace Within

theorem checkedScale (hg : g.Within n) {shift : Int} (hm : shift.natAbs ≤ m)
    (hn : n + m < 2 ^ 31) : Gives (g.checkedScale shift) (Gain.Within (n + m)) :=
  .of_eq (checkedScale_eq_ok ((hg.scale hm).fits hn)) (hg.scale hm)

theorem checkedMul_eq (hg : g.Within n) (hh : h.Within m) (hn : n + m + 64 < 2 ^ 31) :
    g.checkedMul h = .ok (g.mul h) := by
  have := hg.le_exponent; have := hg.exponent_le
  have := hh.le_exponent; have := hh.exponent_le
  exact checkedMul_eq_ok hg hh ⟨by omega, by omega⟩ ((hg.mul hh).fits hn)

theorem checkedMul (hg : g.Within n) (hh : h.Within m) (hn : n + m + 64 < 2 ^ 31) :
    Gives (g.checkedMul h) (Gain.Within (n + m + 64)) :=
  .of_eq (hg.checkedMul_eq hh hn) (hg.mul hh)

theorem checkedRecip_eq (hg : g.Within n) (hn : n + 64 < 2 ^ 31) :
    g.checkedRecip = .ok g.recip := by
  have := hg.le_exponent; have := hg.exponent_le
  exact checkedRecip_eq_ok hg ⟨by omega, by omega⟩ (hg.recip.fits hn)

theorem checkedRecip (hg : g.Within n) (hn : n + 64 < 2 ^ 31) :
    Gives (g.checkedRecip) (Gain.Within (n + 64)) :=
  .of_eq (hg.checkedRecip_eq hn) hg.recip

theorem checkedSqrt (hg : g.Within n) (hn : n + 64 < 2 ^ 31) :
    Gives (g.checkedSqrt) (Gain.Within (n + 64)) :=
  .of_eq (checkedSqrt_eq_ok hg (by omega)) hg.sqrt

theorem checkedInvFourthRoot_eq (hg : g.Within n) (hn : n + 192 < 2 ^ 31) :
    g.checkedInvFourthRoot = .ok g.invFourthRoot := by
  have half := checkedSqrt_eq_ok hg (by omega)
  have quarter := checkedSqrt_eq_ok hg.sqrt (by omega)
  have recip := hg.sqrt.sqrt.checkedRecip_eq (by omega)
  exact bind_eq_ok half (bind_eq_ok quarter recip)

theorem checkedInvFourthRoot (hg : g.Within n) (hn : n + 192 < 2 ^ 31) :
    Gives (g.checkedInvFourthRoot) (Gain.Within (n + 192)) :=
  .of_eq (hg.checkedInvFourthRoot_eq hn) hg.sqrt.sqrt.recip

theorem checkedApply (hg : g.Within n) {value : Int} {fracBits : Nat}
    (hn : n + fracBits + 30 < 2 ^ 31) : Gives (g.checkedApply value fracBits) fun _ => True :=
  .of_eq (checkedApply_eq_ok (by omega) (hg.fits_places (by omega))) trivial

end Within

/-! ### Powers of two -/

theorem powerSteps_range : ∀ i < 64, 2 ^ 30 ≤ powerSteps.getD i 0 ∧
    powerSteps.getD i 0 < powerSteps.getD (i + 1) 0 ∧ powerSteps.getD (i + 1) 0 ≤ 2 ^ 31 := by
  decide

/-- A straight line does not reach its end before the last of 1024 steps. -/
theorem interpolate_lt {low high k : Nat} (hlow : low < high) (hk : k < 1024) :
    low + (high - low) * k / 1024 < high := by
  have step : (high - low) * k < (high - low) * 1024 := Nat.mul_lt_mul_of_pos_left hk (by omega)
  omega

/-- The whole part of the exponent is the exponent of the power. -/
theorem exists_powerOfTwo (x : Int) : ∃ mantissa, 2 ^ 30 ≤ mantissa ∧ mantissa < 2 ^ 31 ∧
    powerOfTwo x = ⟨mantissa, x / 2 ^ 16⟩ := by
  unfold powerOfTwo
  dsimp only
  rw [Array.getElem_eq_getD 0, Array.getElem_eq_getD 0]
  obtain ⟨low, rises, high⟩ := powerSteps_range ((x % 2 ^ 16).toNat / 1024) (by omega)
  have line := interpolate_lt rises (Nat.mod_lt (x % 2 ^ 16).toNat (by decide : 0 < 1024))
  generalize powerSteps.getD ((x % 2 ^ 16).toNat / 1024) 0 = first at *
  generalize powerSteps.getD ((x % 2 ^ 16).toNat / 1024 + 1) 0 = last at *
  refine ⟨first + (last - first) * ((x % 2 ^ 16).toNat % 1024) / 1024, by omega, by omega, ?_⟩
  rw [ofFraction_of_range (by omega) (by omega), scale_eq (by dsimp only; omega), zero_add]

/-- A gain in decibels has an exponent of 16 bits. -/
theorem within_ofDecibels (db : Int) : (ofDecibels db).Within (2 ^ 15) := by
  have high := (saturate (db * decibelScale / 2 ^ 16)).toInt_lt
  have low := (saturate (db * decibelScale / 2 ^ 16)).le_toInt
  obtain ⟨mantissa, range, range', power⟩ :=
    exists_powerOfTwo (saturate (db * decibelScale / 2 ^ 16)).toInt
  rw [ofDecibels, power]
  exact ⟨range', fun _ => range, by dsimp only; omega, by dsimp only; omega⟩

end Gain

end Wma
