import Wma.Proofs.Fixed.Circle
import Wma.Proofs.Transform.Checked
import Wma.Proofs.Transform.Exact
import Wma.Proofs.Transform.Recursion

/-!
# Networks neither wrap nor drift

`strictPoint` is the arithmetic of decoding on integers, and fails where a word does not hold a sum or
a product. `tablePoint` has the same factors and rounds nothing. `Near M E` says of a point over these
two and over `fixedPoint` that the words hold what the integers are, that its modulus is at most `M`,
and that it is no further than `E` from the exact point.

A butterfly adds moduli and distances (`Near.butterfly`); a product with a factor stretches both by a
part in 64 at most, and adds its rounding (`Near.mul`). So both grow a little faster than the number
of points (`Network.near_run`), and inputs of 30 bits, less those of the number of points, leave room
enough (`Network.run_exact`).
-/

namespace Wma

/-- The word of an integer, if there is one. -/
def word32 (x : Int) : Except Error Int32 :=
  return saturate (← int32 x)

/-- The arithmetic of decoding, with a failure wherever it would wrap around or saturate. -/
def strictPoint : Arithmetic (Except Error Int32) where
  add a b := do word32 ((← a).toInt + (← b).toInt)
  sub a b := do word32 ((← a).toInt - (← b).toInt)
  neg a := do word32 (-(← a).toInt)
  mul z w :=
    { re := do
        word32 (((← z.re).toInt * (← w.re).toInt - (← z.im).toInt * (← w.im).toInt) / 2 ^ 31)
      im := do
        word32 (((← z.im).toInt * (← w.re).toInt + (← z.re).toInt * (← w.im).toInt) / 2 ^ 31) }
  root bits k := (FixedPoint.root bits k).map .ok
  tilt bits k := (FixedPoint.tilt bits k).map .ok

/-- A factor of decoding as the number that it stands for. -/
def FixedPoint.ratio (a : Int32) : ℚ :=
  a.toInt / 2 ^ 31

/-- Exact arithmetic with the factors of decoding. -/
def tablePoint : Arithmetic ℚ where
  add := (· + ·)
  sub := (· - ·)
  neg := (- ·)
  mul z w := ⟨z.re * w.re - z.im * w.im, z.im * w.re + z.re * w.im⟩
  root bits k := (FixedPoint.root bits k).map FixedPoint.ratio
  tilt bits k := (FixedPoint.tilt bits k).map FixedPoint.ratio

/-! ### Parts -/

/-- A part of a point: the word holds `x`, and the exact part is `y`. -/
structure IsPart (s : Except Error Int32) (a : Int32) (t : ℚ) (x y : ℝ) : Prop where
  strict : s = .ok a
  word : (a.toInt : ℝ) = x
  table : (t : ℝ) = y

theorem word32_eq {x : Int} (h : FitsInt32 x) : word32 x = .ok (saturate x) := by
  unfold word32 int32
  rw [if_pos h]
  rfl

theorem fits_of_abs_lt {x : Int} (h : |(x : ℝ)| < 2 ^ 31) : FitsInt32 x := by
  have bound : |x| < 2 ^ 31 := by exact_mod_cast h
  have := abs_lt.mp bound
  unfold FitsInt32
  omega

namespace IsPart

variable {s s' : Except Error Int32} {a a' : Int32} {t t' : ℚ} {x x' y y' : ℝ}

/-- A word holds each integer that there is a word of. -/
theorem of_word32 {n : Int} (room : |(n : ℝ)| < 2 ^ 31) (word : a = saturate n) (table : (t : ℝ) = y) :
    IsPart (word32 n) a t n y := by
  have fits := fits_of_abs_lt room
  refine ⟨(word32_eq fits).trans (congrArg Except.ok word.symm), ?_, table⟩
  rw [word, toInt_saturate_of_fits fits]

theorem add (h : IsPart s a t x y) (h' : IsPart s' a' t' x' y') (room : |x + x'| < 2 ^ 31) :
    IsPart (strictPoint.add s s') (fixedPoint.add a a') (tablePoint.add t t') (x + x') (y + y') := by
  obtain ⟨rfl, rfl, rfl⟩ := h
  obtain ⟨rfl, rfl, rfl⟩ := h'
  rw [← Int.cast_add] at room ⊢
  have fits := fits_of_abs_lt room
  have sum : a + a' = saturate (a.toInt + a'.toInt) := by
    rw [← Int32.toInt_inj, toInt_saturate_of_fits fits, Int32.toInt_add]
    exact Int.bmod_eq_of_le fits.1 fits.2
  exact of_word32 room sum (by simp [tablePoint])

theorem sub (h : IsPart s a t x y) (h' : IsPart s' a' t' x' y') (room : |x - x'| < 2 ^ 31) :
    IsPart (strictPoint.sub s s') (fixedPoint.sub a a') (tablePoint.sub t t') (x - x') (y - y') := by
  obtain ⟨rfl, rfl, rfl⟩ := h
  obtain ⟨rfl, rfl, rfl⟩ := h'
  rw [← Int.cast_sub] at room ⊢
  have fits := fits_of_abs_lt room
  have difference : a - a' = saturate (a.toInt - a'.toInt) := by
    rw [← Int32.toInt_inj, toInt_saturate_of_fits fits, Int32.toInt_sub]
    exact Int.bmod_eq_of_le fits.1 fits.2
  exact of_word32 room difference (by simp [tablePoint])

end IsPart

/-! ### Points -/

/-- The words of a point hold `z`, and the exact point is `w`. -/
structure IsPoint (s : Phasor (Except Error Int32)) (a : Phasor Int32) (t : Phasor ℚ) (z w : ℂ) :
    Prop where
  re : IsPart s.re a.re t.re z.re w.re
  im : IsPart s.im a.im t.im z.im w.im

/-- Words of modulus at most `M` which are no further than `E` from the exact point. -/
def Near (M E : ℝ) (s : Phasor (Except Error Int32)) (a : Phasor Int32) (t : Phasor ℚ) : Prop :=
  ∃ z w : ℂ, IsPoint s a t z w ∧ ‖z‖ ≤ M ∧ ‖z - w‖ ≤ E

section

variable {s s' : Phasor (Except Error Int32)} {a a' : Phasor Int32} {t t' : Phasor ℚ}
  {z z' w w' : ℂ} {M N E F : ℝ}

theorem re_lt_of_norm_lt (h : ‖z‖ < 2 ^ 31) : |z.re| < 2 ^ 31 :=
  (Complex.abs_re_le_norm z).trans_lt h

theorem im_lt_of_norm_lt (h : ‖z‖ < 2 ^ 31) : |z.im| < 2 ^ 31 :=
  (Complex.abs_im_le_norm z).trans_lt h

namespace IsPoint

theorem plus (h : IsPoint s a t z w) (h' : IsPoint s' a' t' z' w') (room : ‖z + z'‖ < 2 ^ 31) :
    IsPoint (strictPoint.plus s s') (fixedPoint.plus a a') (tablePoint.plus t t') (z + z')
      (w + w') :=
  ⟨h.re.add h'.re (re_lt_of_norm_lt room), h.im.add h'.im (im_lt_of_norm_lt room)⟩

theorem minus (h : IsPoint s a t z w) (h' : IsPoint s' a' t' z' w') (room : ‖z - z'‖ < 2 ^ 31) :
    IsPoint (strictPoint.minus s s') (fixedPoint.minus a a') (tablePoint.minus t t') (z - z')
      (w - w') :=
  ⟨h.re.sub h'.re (re_lt_of_norm_lt room), h.im.sub h'.im (im_lt_of_norm_lt room)⟩

/-- What a butterfly adds to its first point. -/
theorem sum (h : IsPoint s a t z w) (h' : IsPoint s' a' t' z' w') (room : ‖z + z'‖ < 2 ^ 31) :
    IsPoint ⟨strictPoint.add s'.re s.re, strictPoint.add s.im s'.im⟩
      ⟨fixedPoint.add a'.re a.re, fixedPoint.add a.im a'.im⟩
      ⟨tablePoint.add t'.re t.re, tablePoint.add t.im t'.im⟩ (z + z') (w + w') := by
  refine ⟨?_, h.im.add h'.im (im_lt_of_norm_lt room)⟩
  rw [add_comm z, add_comm w]
  rw [add_comm z] at room
  exact h'.re.add h.re (re_lt_of_norm_lt room)

/-- What a butterfly adds to its second point, the difference after a quarter turn. -/
theorem turn (h : IsPoint s a t z w) (h' : IsPoint s' a' t' z' w') (room : ‖z' - z‖ < 2 ^ 31) :
    IsPoint ⟨strictPoint.sub s.im s'.im, strictPoint.sub s'.re s.re⟩
      ⟨fixedPoint.sub a.im a'.im, fixedPoint.sub a'.re a.re⟩
      ⟨tablePoint.sub t.im t'.im, tablePoint.sub t'.re t.re⟩ (Complex.I * (z' - z))
      (Complex.I * (w' - w)) := by
  have re (u v : ℂ) : (Complex.I * (u - v)).re = v.im - u.im := by simp
  have im (u v : ℂ) : (Complex.I * (u - v)).im = u.re - v.re := by simp
  constructor <;> dsimp only
  · rw [re, re]
    refine h.im.sub h'.im ?_
    rw [abs_sub_comm]
    exact im_lt_of_norm_lt room
  · rw [im, im]
    exact h'.re.sub h.re (re_lt_of_norm_lt room)

end IsPoint

namespace Near

theorem plus (h : Near M E s a t) (h' : Near N F s' a' t') (room : M + N < 2 ^ 31) :
    Near (M + N) (E + F) (strictPoint.plus s s') (fixedPoint.plus a a') (tablePoint.plus t t') := by
  obtain ⟨z, w, point, size, close⟩ := h
  obtain ⟨z', w', point', size', close'⟩ := h'
  have norm : ‖z + z'‖ ≤ M + N := (norm_add_le z z').trans (add_le_add size size')
  refine ⟨z + z', w + w', point.plus point' (norm.trans_lt room), norm, ?_⟩
  rw [add_sub_add_comm]
  exact (norm_add_le _ _).trans (add_le_add close close')

theorem minus (h : Near M E s a t) (h' : Near N F s' a' t') (room : M + N < 2 ^ 31) :
    Near (M + N) (E + F) (strictPoint.minus s s') (fixedPoint.minus a a')
      (tablePoint.minus t t') := by
  obtain ⟨z, w, point, size, close⟩ := h
  obtain ⟨z', w', point', size', close'⟩ := h'
  have norm : ‖z - z'‖ ≤ M + N := (norm_sub_le z z').trans (add_le_add size size')
  refine ⟨z - z', w - w', point.minus point' (norm.trans_lt room), norm, ?_⟩
  rw [sub_sub_sub_comm]
  exact (norm_sub_le _ _).trans (add_le_add close close')

theorem sum (h : Near M E s a t) (h' : Near M E s' a' t') (room : 2 * M < 2 ^ 31) :
    Near (2 * M) (2 * E) ⟨strictPoint.add s'.re s.re, strictPoint.add s.im s'.im⟩
      ⟨fixedPoint.add a'.re a.re, fixedPoint.add a.im a'.im⟩
      ⟨tablePoint.add t'.re t.re, tablePoint.add t.im t'.im⟩ := by
  obtain ⟨z, w, point, size, close⟩ := h
  obtain ⟨z', w', point', size', close'⟩ := h'
  have norm : ‖z + z'‖ ≤ 2 * M := (norm_add_le z z').trans (by linarith)
  refine ⟨z + z', w + w', point.sum point' (norm.trans_lt room), norm, ?_⟩
  rw [add_sub_add_comm]
  exact (norm_add_le _ _).trans (by linarith)

theorem turn (h : Near M E s a t) (h' : Near M E s' a' t') (room : 2 * M < 2 ^ 31) :
    Near (2 * M) (2 * E) ⟨strictPoint.sub s.im s'.im, strictPoint.sub s'.re s.re⟩
      ⟨fixedPoint.sub a.im a'.im, fixedPoint.sub a'.re a.re⟩
      ⟨tablePoint.sub t.im t'.im, tablePoint.sub t'.re t.re⟩ := by
  obtain ⟨z, w, point, size, close⟩ := h
  obtain ⟨z', w', point', size', close'⟩ := h'
  have norm : ‖z' - z‖ ≤ 2 * M := (norm_sub_le z' z).trans (by linarith)
  refine ⟨_, _, point.turn point' (norm.trans_lt room), ?_, ?_⟩
  · rwa [norm_mul, Complex.norm_I, one_mul]
  · rw [← mul_sub, norm_mul, Complex.norm_I, one_mul, sub_sub_sub_comm]
    exact (norm_sub_le _ _).trans (by linarith)

theorem nonneg (h : Near M E s a t) : 0 ≤ M ∧ 0 ≤ E := by
  obtain ⟨z, w, -, size, close⟩ := h
  exact ⟨(norm_nonneg z).trans size, (norm_nonneg _).trans close⟩

theorem mono (h : Near M E s a t) (hM : M ≤ N) (hE : E ≤ F) : Near N F s a t := by
  obtain ⟨z, w, point, size, close⟩ := h
  exact ⟨z, w, point, size.trans hM, close.trans hE⟩

end Near

end

section

variable {s₁ s₂ s₃ s₄ : Phasor (Except Error Int32)} {a₁ a₂ a₃ a₄ : Phasor Int32}
  {t₁ t₂ t₃ t₄ : Phasor ℚ} {M N E F : ℝ}

open Network (butterfly turned joinAt)

/-- The points of a butterfly are sums of three. -/
theorem Near.butterfly (h₁ : Near M E s₁ a₁ t₁) (h₂ : Near M E s₂ a₂ t₂) (h₃ : Near N F s₃ a₃ t₃)
    (h₄ : Near N F s₄ a₄ t₄) (room : M + 2 * N < 2 ^ 31) (quarter : ℕ) :
    Near (M + 2 * N) (E + 2 * F) ((butterfly strictPoint s₁ s₂ s₃ s₄).point quarter)
      ((butterfly fixedPoint a₁ a₂ a₃ a₄).point quarter)
      ((butterfly tablePoint t₁ t₂ t₃ t₄).point quarter) := by
  have inner : 2 * N < 2 ^ 31 := by linarith [h₁.nonneg.1]
  match quarter with
  | 0 => exact h₁.plus (h₃.sum h₄ inner) room
  | 1 => exact h₂.plus (h₃.turn h₄ inner) room
  | 2 => exact h₁.minus (h₃.sum h₄ inner) room
  | _ + 3 => exact h₂.minus (h₃.turn h₄ inner) room

end

/-! ### Products -/

/-- The complex number of a factor. -/
noncomputable def FixedPoint.complex (w : Phasor Int32) : ℂ :=
  Phasor.toComplex (w.map fun x => FixedPoint.ratio x)

theorem FixedPoint.complex_re (w : Phasor Int32) :
    (FixedPoint.complex w).re = w.re.toInt / 2 ^ 31 := by
  show ((FixedPoint.ratio w.re : ℚ) : ℝ) = _
  push_cast [FixedPoint.ratio]
  rfl

theorem FixedPoint.complex_im (w : Phasor Int32) :
    (FixedPoint.complex w).im = w.im.toInt / 2 ^ 31 := by
  show ((FixedPoint.ratio w.im : ℚ) : ℝ) = _
  push_cast [FixedPoint.ratio]
  rfl

theorem norm_le_of_parts {z : ℂ} {b : ℝ} (hre : |z.re| ≤ b) (him : |z.im| ≤ b) :
    ‖z‖ ≤ 3 / 2 * b := by
  have nonneg : 0 ≤ b := (abs_nonneg _).trans hre
  have re : z.re * z.re ≤ b * b := abs_mul_abs_self z.re ▸ mul_self_le_mul_self (abs_nonneg _) hre
  have im : z.im * z.im ≤ b * b := abs_mul_abs_self z.im ▸ mul_self_le_mul_self (abs_nonneg _) him
  rw [Complex.norm_def, Real.sqrt_le_iff, Complex.normSq_apply]
  exact ⟨by positivity, by nlinarith⟩

/-- The rounding of an integer that is divided by `2 ^ 31`. -/
theorem abs_floor_sub_le (x : Int) : |((x / 2 ^ 31 : Int) : ℝ) - x / 2 ^ 31| ≤ 1 := by
  have low : x / 2 ^ 31 * 2 ^ 31 ≤ x := by omega
  have high : x < x / 2 ^ 31 * 2 ^ 31 + 2 ^ 31 := by omega
  have low : ((x / 2 ^ 31 : Int) : ℝ) * 2 ^ 31 ≤ x := by exact_mod_cast low
  have high : (x : ℝ) < ((x / 2 ^ 31 : Int) : ℝ) * 2 ^ 31 + 2 ^ 31 := by exact_mod_cast high
  rw [abs_le]
  constructor <;> linarith

/-- The real part of a product of words, before it is scaled. -/
def wideRe (a w : Phasor Int32) : Int :=
  a.re.toInt * w.re.toInt - a.im.toInt * w.im.toInt

/-- The imaginary part of a product of words, before it is scaled. -/
def wideIm (a w : Phasor Int32) : Int :=
  a.im.toInt * w.re.toInt + a.re.toInt * w.im.toInt

/-- What the words of a product hold. -/
noncomputable def rounded (a w : Phasor Int32) : ℂ :=
  ⟨(wideRe a w / 2 ^ 31 : Int), (wideIm a w / 2 ^ 31 : Int)⟩

section

variable {s : Phasor (Except Error Int32)} {a w : Phasor Int32} {t : Phasor ℚ} {z z' : ℂ} {M E : ℝ}

theorem FixedPoint.mul_re_eq (a : Phasor Int32) (hw : IsFactor w) :
    (FixedPoint.mul a w).re = saturate (wideRe a w / 2 ^ 31) := by
  unfold FixedPoint.mul wideRe
  dsimp only
  rw [saturate64_eq, toInt_shiftRight31, toInt_sum_re a hw, neg_add_eq_sub]

theorem FixedPoint.mul_im_eq (a : Phasor Int32) (hw : IsFactor w) :
    (FixedPoint.mul a w).im = saturate (wideIm a w / 2 ^ 31) := by
  unfold FixedPoint.mul wideIm
  dsimp only
  rw [saturate64_eq, toInt_shiftRight31, toInt_sum_im a hw]

namespace IsPoint

theorem mul (h : IsPoint s a t z z') (hw : FixedPoint.IsFactor w) (room : ‖rounded a w‖ < 2 ^ 31) :
    IsPoint (strictPoint.mul s (w.map .ok)) (fixedPoint.mul a w)
      (tablePoint.mul t (w.map FixedPoint.ratio)) (rounded a w) (z' * FixedPoint.complex w) := by
  constructor
  · have strict : (strictPoint.mul s (w.map .ok)).re = word32 (wideRe a w / 2 ^ 31) := by
      unfold strictPoint Phasor.map
      dsimp only
      rw [h.re.strict, h.im.strict]
      rfl
    rw [strict]
    refine .of_word32 (re_lt_of_norm_lt room) (FixedPoint.mul_re_eq a hw) ?_
    rw [Complex.mul_re, ← h.re.table, ← h.im.table]
    simp [tablePoint, FixedPoint.complex, Phasor.toComplex, Phasor.map]
  · have strict : (strictPoint.mul s (w.map .ok)).im = word32 (wideIm a w / 2 ^ 31) := by
      unfold strictPoint Phasor.map
      dsimp only
      rw [h.re.strict, h.im.strict]
      rfl
    rw [strict]
    refine .of_word32 (im_lt_of_norm_lt room) (FixedPoint.mul_im_eq a hw) ?_
    rw [Complex.mul_im, ← h.re.table, ← h.im.table]
    simp [tablePoint, FixedPoint.complex, Phasor.toComplex, Phasor.map, add_comm]

theorem norm_rounded_sub_le (h : IsPoint s a t z z') (w : Phasor Int32) :
    ‖rounded a w - z * FixedPoint.complex w‖ ≤ 3 / 2 := by
  have re : (z * FixedPoint.complex w).re = (wideRe a w : ℝ) / 2 ^ 31 := by
    rw [Complex.mul_re, FixedPoint.complex_re, FixedPoint.complex_im, ← h.re.word, ← h.im.word, wideRe]
    push_cast
    ring
  have im : (z * FixedPoint.complex w).im = (wideIm a w : ℝ) / 2 ^ 31 := by
    rw [Complex.mul_im, FixedPoint.complex_re, FixedPoint.complex_im, ← h.re.word, ← h.im.word, wideIm]
    push_cast
    ring
  refine (norm_le_of_parts (b := 1) ?_ ?_).trans (by norm_num)
  · rw [Complex.sub_re, re]
    exact abs_floor_sub_le _
  · rw [Complex.sub_im, im]
    exact abs_floor_sub_le _

end IsPoint

theorem norm_mul_complex_le (hlong : ‖FixedPoint.complex w‖ ≤ 65 / 64) (hz : ‖z‖ ≤ M) :
    ‖z * FixedPoint.complex w‖ ≤ 65 / 64 * M := by
  rw [norm_mul, mul_comm]
  exact mul_le_mul hlong hz (norm_nonneg z) (by norm_num)

/-- A product with a factor that is longer than one by a part in 64 at most. -/
theorem Near.mul (h : Near M E s a t) (hw : FixedPoint.IsFactor w)
    (hlong : ‖FixedPoint.complex w‖ ≤ 65 / 64) (room : 65 / 64 * M + 3 / 2 < 2 ^ 31) :
    Near (65 / 64 * M + 3 / 2) (65 / 64 * E + 3 / 2) (strictPoint.mul s (w.map .ok))
      (fixedPoint.mul a w) (tablePoint.mul t (w.map FixedPoint.ratio)) := by
  obtain ⟨z, z', point, size, close⟩ := h
  have rounding := point.norm_rounded_sub_le w
  have norm : ‖rounded a w‖ ≤ 65 / 64 * M + 3 / 2 := by
    have product := norm_mul_complex_le hlong size
    linarith [norm_le_insert' (rounded a w) (z * FixedPoint.complex w)]
  refine ⟨rounded a w, z' * FixedPoint.complex w, point.mul hw (norm.trans_lt room), norm, ?_⟩
  have stretched := norm_mul_complex_le hlong close
  have split : rounded a w - z' * FixedPoint.complex w =
      (rounded a w - z * FixedPoint.complex w) + (z - z') * FixedPoint.complex w := by ring
  rw [split]
  linarith [norm_add_le (rounded a w - z * FixedPoint.complex w) ((z - z') * FixedPoint.complex w)]

end

/-! ### Factors -/

namespace FixedPoint

theorem norm_complex_root_le (bits k : ℕ) : ‖complex (root bits k)‖ ≤ 65 / 64 := by
  have circle := sine_sq_add_cosine_sq_le (turn / 2 ^ bits * k)
  rw [Complex.norm_def, Real.sqrt_le_iff, Complex.normSq_apply, complex_re, complex_im, root_eq,
    rootAt]
  have circle : (64 : ℝ) ^ 2 * ((sine (turn / 2 ^ bits * k)).toInt ^ 2 +
      (cosine (turn / 2 ^ bits * k)).toInt ^ 2) ≤ 65 ^ 2 * 2 ^ 62 := by
    exact_mod_cast circle
  dsimp only
  exact ⟨by norm_num, by linarith⟩

/-- The factor that turns back. -/
def back (bits k : ℕ) : Phasor Int32 :=
  fixedPoint.conj (root bits k)

theorem toInt_back (bits k : ℕ) : (back bits k).im.toInt = -(root bits k).im.toInt := by
  have least := (isFactor_root bits k).2
  show (negSaturated _).toInt = _
  rw [toInt_negSaturated]
  omega

theorem norm_complex_back_le (bits k : ℕ) : ‖complex (back bits k)‖ ≤ 65 / 64 := by
  have same : complex (back bits k) = star (complex (root bits k)) := by
    refine Complex.ext rfl ?_
    show (complex (back bits k)).im = -(complex (root bits k)).im
    rw [complex_im, complex_im, toInt_back]
    push_cast
    ring
  rw [same, norm_star]
  exact norm_complex_root_le bits k

theorem conj_strict (bits k : ℕ) :
    strictPoint.conj (strictPoint.root bits k) = (back bits k).map .ok := by
  have fits : FitsInt32 (-(root bits k).im.toInt) := by
    have least := (isFactor_root bits k).2
    have := (root bits k).im.toInt_lt
    unfold FitsInt32
    omega
  have word : saturate (-(root bits k).im.toInt) = (back bits k).im := by
    rw [← Int32.toInt_inj, toInt_saturate_of_fits fits, toInt_back]
  show Phasor.mk _ (word32 (-(root bits k).im.toInt)) = _
  rw [word32_eq fits, word]
  rfl

theorem conj_table (bits k : ℕ) :
    tablePoint.conj (tablePoint.root bits k) = (back bits k).map ratio := by
  have im : -ratio (root bits k).im = ratio (back bits k).im := by
    unfold ratio
    rw [toInt_back]
    push_cast
    rw [neg_div]
  exact congrArg (Phasor.mk _) im

end FixedPoint

section

variable {s₁ s₂ s₃ s₄ : Phasor (Except Error Int32)} {a₁ a₂ a₃ a₄ : Phasor Int32}
  {t₁ t₂ t₃ t₄ : Phasor ℚ} {M N E F : ℝ}

theorem Near.turned (h₁ : Near M E s₁ a₁ t₁) (h₂ : Near M E s₂ a₂ t₂) (h₃ : Near N F s₃ a₃ t₃)
    (h₄ : Near N F s₄ a₄ t₄) (room : M + 2 * (65 / 64 * N + 3 / 2) < 2 ^ 31) (bits k quarter : ℕ) :
    Near (M + 2 * (65 / 64 * N + 3 / 2)) (E + 2 * (65 / 64 * F + 3 / 2))
      ((Network.turned strictPoint (strictPoint.root bits k) s₁ s₂ s₃ s₄).point quarter)
      ((Network.turned fixedPoint (fixedPoint.root bits k) a₁ a₂ a₃ a₄).point quarter)
      ((Network.turned tablePoint (tablePoint.root bits k) t₁ t₂ t₃ t₄).point quarter) := by
  have inner : 65 / 64 * N + 3 / 2 < 2 ^ 31 := by linarith [h₁.nonneg.1, h₃.nonneg.1]
  have back := h₃.mul (FixedPoint.isFactor_conj_root bits k)
    (FixedPoint.norm_complex_back_le bits k) inner
  have ahead := h₄.mul (FixedPoint.isFactor_root bits k)
    (FixedPoint.norm_complex_root_le bits k) inner
  unfold Network.turned
  rw [FixedPoint.conj_strict, FixedPoint.conj_table]
  exact h₁.butterfly h₂ back ahead room quarter

theorem Near.joinAt (h₁ : Near M E s₁ a₁ t₁) (h₂ : Near M E s₂ a₂ t₂) (h₃ : Near N F s₃ a₃ t₃)
    (h₄ : Near N F s₄ a₄ t₄) (room : M + 2 * (65 / 64 * N + 3 / 2) < 2 ^ 31) (bits k quarter : ℕ) :
    Near (M + 2 * (65 / 64 * N + 3 / 2)) (E + 2 * (65 / 64 * F + 3 / 2))
      ((Network.joinAt strictPoint bits k s₁ s₂ s₃ s₄).point quarter)
      ((Network.joinAt fixedPoint bits k a₁ a₂ a₃ a₄).point quarter)
      ((Network.joinAt tablePoint bits k t₁ t₂ t₃ t₄).point quarter) := by
  have nonneg := h₃.nonneg
  unfold Network.joinAt
  split
  · exact (h₁.butterfly h₂ h₃ h₄ (by linarith) quarter).mono (by linarith) (by linarith)
  · exact h₁.turned h₂ h₃ h₄ room bits k quarter

end

/-! ### Bounds along the recursion -/

/-- The modulus that a network of `2 ^ bits` points reaches from inputs of modulus `m`. -/
noncomputable def peak (m : ℝ) (bits : ℕ) : ℝ :=
  (m + 1.5) * (129 / 64) ^ bits - 1.5

/-- How far a network of `2 ^ bits` points drifts. There is no product before the third step. -/
noncomputable def drift (bits : ℕ) : ℝ :=
  1.5 * ((129 / 64) ^ (bits - 1) - 1)

section

variable {m : ℝ} (hm : 0 ≤ m)

include hm

theorem peak_add_two (bits : ℕ) :
    peak m (bits + 1) + 2 * (65 / 64 * peak m bits + 3 / 2) ≤ peak m (bits + 2) := by
  have power : (1 : ℝ) ≤ (129 / 64) ^ bits := one_le_pow₀ (by norm_num)
  have scaled : 0 ≤ (m + 3 / 2) * (129 / 64) ^ bits := by positivity
  unfold peak
  rw [pow_succ _ (bits + 1), pow_succ _ bits]
  linarith

theorem peak_mono {fewer bits : ℕ} (h : fewer ≤ bits) : peak m fewer ≤ peak m bits := by
  have power : (129 / 64 : ℝ) ^ fewer ≤ (129 / 64) ^ bits := pow_le_pow_right₀ (by norm_num) h
  unfold peak
  gcongr

theorem peak_nonneg (bits : ℕ) : 0 ≤ peak m bits := by
  have power : (1 : ℝ) ≤ (129 / 64) ^ bits := one_le_pow₀ (by norm_num)
  unfold peak
  nlinarith

end

theorem drift_two : drift 1 + 2 * drift 0 ≤ drift 2 := by
  norm_num [drift]

theorem drift_add_three (bits : ℕ) :
    drift (bits + 2) + 2 * (65 / 64 * drift (bits + 1) + 3 / 2) ≤ drift (bits + 3) := by
  have power : (1 : ℝ) ≤ (129 / 64) ^ bits := one_le_pow₀ (by norm_num)
  unfold drift
  rw [Nat.add_sub_cancel, show bits + 2 - 1 = bits + 1 from rfl, show bits + 3 - 1 = bits + 2 from rfl,
    pow_succ _ (bits + 1), pow_succ _ bits]
  linarith

/-! ### Networks -/

/-- Each point is near its exact one. -/
def NearAll (M E : ℝ) {n : ℕ} (S : Vector (Phasor (Except Error Int32)) n)
    (A : Vector (Phasor Int32) n) (T : Vector (Phasor ℚ) n) : Prop :=
  ∀ (i : ℕ) (_ : i < n), Near M E S[i] A[i] T[i]

namespace Network

theorem fixedPoint_root_four_two : fixedPoint.root 4 2 = fixedPoint.root 3 1 := by
  show FixedPoint.root 4 2 = FixedPoint.root 3 1
  rw [FixedPoint.root_eq, FixedPoint.root_eq]
  rfl

theorem strictPoint_root_four_two : strictPoint.root 4 2 = strictPoint.root 3 1 :=
  congrArg (Phasor.map Except.ok) fixedPoint_root_four_two

theorem tablePoint_root_four_two : tablePoint.root 4 2 = tablePoint.root 3 1 :=
  congrArg (Phasor.map FixedPoint.ratio) fixedPoint_root_four_two

theorem nearAll_part {M E : ℝ} {n : ℕ} {S : Vector (Phasor (Except Error Int32)) n}
    {A : Vector (Phasor Int32) n} {T : Vector (Phasor ℚ) n} (h : NearAll M E S A T)
    {start count : ℕ} (hn : start + count ≤ n) :
    NearAll M E (part S start count hn) (part A start count hn) (part T start count hn) := by
  intro i hi
  rw [getElem_part S _ _ _ hi, getElem_part A _ _ _ hi, getElem_part T _ _ _ hi]
  exact h (start + i) (by omega)

/-- Points of a network are near the exact ones. The bounds follow the recursion of the network. -/
theorem near_run {m : ℝ} (hm : 0 ≤ m) : ∀ {bits : ℕ}
    {S : Vector (Phasor (Except Error Int32)) (2 ^ bits)} {A : Vector (Phasor Int32) (2 ^ bits)}
    {T : Vector (Phasor ℚ) (2 ^ bits)}, NearAll m 0 S A T → peak m bits < 2 ^ 31 →
      NearAll (peak m bits) (drift bits) (run strictPoint bits S) (run fixedPoint bits A)
        (run tablePoint bits T)
  | 0, S, A, T, h, _, i, hi =>
    (h i hi).mono (by norm_num [peak]) (by norm_num [drift])
  | 1, S, A, T, h, room, i, hi => by
    have double : m + m ≤ peak m 1 := by
      unfold peak
      linarith
    have first := h 0 (by decide)
    have second := h 1 (by decide)
    obtain rfl | rfl : i = 0 ∨ i = 1 := by omega
    · exact (first.plus second (by linarith)).mono double (by norm_num [drift])
    · exact (first.minus second (by linarith)).mono double (by norm_num [drift])
  | bits + 2, S, A, T, h, room, i, hi => by
    have bound := peak_add_two hm bits
    have nonneg := peak_nonneg hm bits
    have whole : 2 ^ (bits + 2) = 2 ^ bits * 4 := by ring
    have twice : 2 ^ (bits + 1) = 2 ^ bits * 2 := by ring
    obtain ⟨quarter, k, hq, hk, rfl⟩ :
        ∃ quarter k, quarter < 4 ∧ k < 2 ^ bits ∧ i = 2 ^ bits * quarter + k :=
      ⟨i / 2 ^ bits, i % 2 ^ bits, Nat.div_lt_of_lt_mul (by omega),
        Nat.mod_lt _ (Nat.two_pow_pos bits), (Nat.div_add_mod _ _).symm⟩
    have half := near_run hm (nearAll_part h (half_le bits))
      ((peak_mono hm (by omega)).trans_lt room)
    have third := near_run hm (nearAll_part h (third_le bits))
      ((peak_mono hm (by omega)).trans_lt room)
    have fourth := near_run hm (nearAll_part h (fourth_le bits))
      ((peak_mono hm (by omega)).trans_lt room)
    rw [run_add_two strictPoint strictPoint_root_four_two,
      run_add_two fixedPoint fixedPoint_root_four_two,
      run_add_two tablePoint tablePoint_root_four_two]
    unfold runJoined
    rw [getElem_join _ _ _ _ _ hk (by omega) (by omega) hi,
      getElem_join _ _ _ _ _ hk (by omega) (by omega) hi,
      getElem_join _ _ _ _ _ hk (by omega) (by omega) hi]
    have left := half k (by omega)
    have right := half (2 ^ bits + k) (by omega)
    cases bits with
    | zero =>
      -- The only butterfly of four points turns nothing.
      obtain rfl : k = 0 := by omega
      exact (left.butterfly right (third 0 hk) (fourth 0 hk) (by linarith) quarter).mono
        (by linarith) drift_two
    | succ bits =>
      exact (left.joinAt right (third k hk) (fourth k hk) (by linarith) _ k quarter).mono bound
        (drift_add_three bits)

theorem peak_lt {bits : ℕ} (hlow : 2 ≤ bits) (hhigh : bits ≤ 12) :
    peak (3 / 2 * (2 ^ 30 / 2 ^ bits)) bits < 2 ^ 31 := by
  unfold peak
  interval_cases bits <;> norm_num

theorem drift_lt {bits : ℕ} (hlow : 2 ≤ bits) (hhigh : bits ≤ 12) : drift bits < 2 ^ bits := by
  unfold drift
  interval_cases bits <;> norm_num

/-- The words of a point, as exact numbers. -/
def exactly (z : Phasor Int32) : Phasor ℚ :=
  z.map fun a => (a.toInt : ℚ)

theorem near_exactly {z : Phasor Int32} {b : ℝ} (hre : |(z.re.toInt : ℝ)| ≤ b)
    (him : |(z.im.toInt : ℝ)| ≤ b) : Near (3 / 2 * b) 0 (z.map .ok) z (exactly z) := by
  refine ⟨⟨z.re.toInt, z.im.toInt⟩, ⟨z.re.toInt, z.im.toInt⟩, ⟨⟨rfl, rfl, ?_⟩, ⟨rfl, rfl, ?_⟩⟩,
    norm_le_of_parts hre him, ?_⟩
  · simp [exactly, Phasor.map]
  · simp [exactly, Phasor.map]
  · rw [sub_self, norm_zero]

/-- A part of the words of a point is no further from the exact part than the point. -/
theorem abs_sub_lt_of_near {M E b : ℝ} {s : Phasor (Except Error Int32)} {a : Phasor Int32}
    {t : Phasor ℚ} (h : Near M E s a t) (hb : E < b) :
    |(a.re.toInt : ℝ) - t.re| < b ∧ |(a.im.toInt : ℝ) - t.im| < b := by
  obtain ⟨z, w, ⟨⟨-, hre, hre'⟩, ⟨-, him, him'⟩⟩, -, close⟩ := h
  rw [hre, hre', him, him', ← Complex.sub_re, ← Complex.sub_im]
  exact ⟨((Complex.abs_re_le_norm _).trans close).trans_lt hb,
    ((Complex.abs_im_le_norm _).trans close).trans_lt hb⟩

/-- Over a network of four to 4096 points, whose inputs leave as many bits free as there are steps,
no sum or difference wraps around and no product saturates; and what comes out is closer than the
number of points to what the same network gives without rounding. -/
theorem run_exact {bits : ℕ} (hlow : 2 ≤ bits) (hhigh : bits ≤ 12)
    {z : Vector (Phasor Int32) (2 ^ bits)}
    (hz : ∀ p ∈ z, |p.re.toInt| ≤ 2 ^ 30 / 2 ^ bits ∧ |p.im.toInt| ≤ 2 ^ 30 / 2 ^ bits) :
    run strictPoint bits (z.map (Phasor.map .ok)) =
        (run fixedPoint bits z).map (Phasor.map .ok) ∧
      ∀ (i : ℕ) (_ : i < 2 ^ bits),
        let output := (run fixedPoint bits z)[i]
        let exactOutput := (run tablePoint bits (z.map exactly))[i]
        |(output.re.toInt : ℚ) - exactOutput.re| < 2 ^ bits ∧
          |(output.im.toInt : ℚ) - exactOutput.im| < 2 ^ bits := by
  have quotient : ((2 ^ 30 / 2 ^ bits : Int) : ℝ) = 2 ^ 30 / 2 ^ bits := by
    interval_cases bits <;> norm_num
  have inputs : NearAll (3 / 2 * (2 ^ 30 / 2 ^ bits)) 0 (z.map (Phasor.map .ok)) z
      (z.map exactly) := by
    intro i hi
    obtain ⟨re, im⟩ := hz z[i] (Vector.getElem_mem hi)
    rw [Vector.getElem_map, Vector.getElem_map, ← quotient]
    exact near_exactly (by exact_mod_cast re) (by exact_mod_cast im)
  have outputs := near_run (by positivity) inputs (peak_lt hlow hhigh)
  refine ⟨?_, fun i hi => ?_⟩
  · ext1 i hi
    obtain ⟨-, -, ⟨⟨re, -, -⟩, ⟨im, -, -⟩⟩, -, -⟩ := outputs i hi
    rw [Vector.getElem_map]
    exact congrArg₂ Phasor.mk re im
  · obtain ⟨re, im⟩ := abs_sub_lt_of_near (outputs i hi) (drift_lt hlow hhigh)
    exact ⟨by exact_mod_cast re, by exact_mod_cast im⟩

/-- Eight points as large as they may be. -/
theorem run_exact_eight :
    let z : Vector (Phasor Int32) (2 ^ 3) := .replicate 8 ⟨2 ^ 27, -2 ^ 27⟩
    (∀ p ∈ z, |p.re.toInt| ≤ 2 ^ 30 / 2 ^ 3 ∧ |p.im.toInt| ≤ 2 ^ 30 / 2 ^ 3) ∧
      run strictPoint 3 (z.map (Phasor.map .ok)) =
          (run fixedPoint 3 z).map (Phasor.map .ok) ∧
        ∀ (i : ℕ) (_ : i < 2 ^ 3),
          let output := (run fixedPoint 3 z)[i]
          let exactOutput := (run tablePoint 3 (z.map exactly))[i]
          |(output.re.toInt : ℚ) - exactOutput.re| < 2 ^ 3 ∧
            |(output.im.toInt : ℚ) - exactOutput.im| < 2 ^ 3 := by
  intro z
  have inputs : ∀ p ∈ z, |p.re.toInt| ≤ 2 ^ 30 / 2 ^ 3 ∧ |p.im.toInt| ≤ 2 ^ 30 / 2 ^ 3 := by
    intro p hp
    rw [Vector.eq_of_mem_replicate hp]
    decide
  exact ⟨inputs, run_exact (by decide) (by decide) inputs⟩

end Network

end Wma
