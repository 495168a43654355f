import Wma.Proofs.Fixed.Product
import Wma.Proofs.Gives
import Wma.Synthesis.Overlap

/-!
# What a window makes of a block

`BlockShape.windowed` is a sample of a block under its window, told by the zone in which the sample
lies: silence, the slope of the shorter neighbour, the flat part, the slope of the shorter neighbour
on the other side, silence. In front of the flat part it adds to what is in the buffer, and from there
on it takes the place of it (`BlockShape.blend`). `BlockShape.exists_overlapAdd` says that this is
what overlapping makes of each sample of the buffer.
-/

namespace Wma

/-! ### Parts of a buffer -/

namespace Buffer

variable {α : Type} {a b : Array α} {start count : Nat}

theorem exists_splice (h : start + b.size ≤ a.size) :
    ∃ c, splice a start b = .ok c ∧ c.size = a.size ∧ ∀ i d, c.getD i d =
      if start ≤ i ∧ i < start + b.size then b.getD (i - start) d else a.getD i d := by
  refine ⟨_, if_pos h, ?_, fun i d => ?_⟩
  · simp only [Array.size_append, Array.size_extract]
    omega
  simp only [Array.getD_eq_getD_getElem?, Array.getElem?_append, Array.getElem?_extract,
    Array.size_append, Array.size_extract, Nat.sub_zero, Nat.zero_add,
    Nat.min_eq_left (show start ≤ a.size by omega)]
  by_cases first : i < start
  · rw [if_pos (by omega), if_pos first, if_pos first, if_neg (by omega)]
  by_cases second : i < start + b.size
  · rw [if_pos second, if_neg first, if_pos ⟨by omega, second⟩]
  rw [if_neg second, if_neg (show ¬(start ≤ i ∧ i < start + b.size) by omega), Nat.min_self,
    Nat.add_sub_cancel' (show start + b.size ≤ i by omega)]
  split
  · rfl
  · rw [Array.getElem?_eq_none (by omega)]

theorem getD_extract {stop i : Nat} (h : stop ≤ a.size) (hi : start + i < stop) (d : α) :
    (a.extract start stop).getD i d = a.getD (start + i) d := by
  have inside : i < (a.extract start stop).size := by
    rw [Array.size_extract_of_le h]
    omega
  rw [← Array.getElem_eq_getD (h := inside), Array.getElem_extract, Array.getElem_eq_getD]

theorem exists_slice (h : start + count ≤ a.size) :
    ∃ c, slice a start count = .ok c ∧ c.size = count ∧
      ∀ i < count, ∀ d, c.getD i d = a.getD (start + i) d := by
  refine ⟨_, if_pos h, ?_, fun i hi d => getD_extract h (by omega) d⟩
  rw [Array.size_extract_of_le h, Nat.add_sub_cancel_left]

theorem exists_rest (h : start ≤ a.size) :
    ∃ c, rest a start = .ok c ∧ c.size = a.size - start ∧ ∀ i d, c.getD i d = a.getD (start + i) d := by
  refine ⟨_, if_pos h, by rw [Array.size_extract, Nat.min_self], fun i d => ?_⟩
  rw [Array.getD_eq_getD_getElem?, Array.getD_eq_getD_getElem?, Array.getElem?_extract, Nat.min_self]
  split
  · rfl
  · rw [Array.getElem?_eq_none (by omega)]

theorem exists_replaceRest (h : start + b.size = a.size) :
    ∃ c, replaceRest a start b = .ok c ∧ c.size = a.size ∧ ∀ i d, c.getD i d =
      if i < start then a.getD i d else b.getD (i - start) d := by
  have front : (a.extract 0 start).size = start := by
    rw [Array.size_extract]
    omega
  refine ⟨_, if_pos h, by rw [Array.size_append, front, h], fun i d => ?_⟩
  rw [Array.getD_eq_getD_getElem?, Array.getElem?_append, front]
  split
  · rw [Array.getElem?_extract, Nat.sub_zero, Nat.zero_add, if_pos (by omega),
      ← Array.getD_eq_getD_getElem?]
  · rw [← Array.getD_eq_getD_getElem?]

end Buffer

/-! ### Slopes -/

namespace Window

/-- Place `i` of the slope that rises over `2 ^ bits` samples. There is none shorter than the
shortest block. -/
def rise (bits i : Nat) : Int32 :=
  sine (turn / 8 * (2 * i + 1) / 2 ^ max bits minBlockBits)

/-- Place `i` of the slope that falls. -/
def fall (bits i : Nat) : Int32 :=
  rise bits (2 ^ max bits minBlockBits - 1 - i)

variable {bits i : Nat}

theorem slope_eq (h : bits ≤ maxBlockBits) : slope bits = slopeOf (max bits minBlockBits) := by
  have least : minBlockBits + (min (max bits minBlockBits) maxBlockBits - minBlockBits) =
      max bits minBlockBits := by
    unfold minBlockBits maxBlockBits at *
    omega
  rw [← least]
  exact Vector.getElem_ofFn ..

theorem size_slope (h : bits ≤ maxBlockBits) : 2 ^ bits ≤ (slope bits).size := by
  rw [slope_eq h, slopeOf, Array.size_ofFn]
  exact Nat.pow_le_pow_right (by decide) (Nat.le_max_left ..)

theorem getD_slope (h : bits ≤ maxBlockBits) (hi : i < 2 ^ bits) :
    (slope bits).getD i 0 = rise bits i := by
  have inside := Nat.lt_of_lt_of_le hi (size_slope h)
  rw [slope_eq h] at inside ⊢
  rw [← Array.getElem_eq_getD (h := inside)]
  simp [slopeOf, rise]

theorem getD_reverse_slope (h : bits ≤ maxBlockBits) (hi : i < 2 ^ bits) :
    (slope bits).reverse.getD i 0 = fall bits i := by
  have inside : i < (slope bits).reverse.size := by
    rw [Array.size_reverse]
    exact Nat.lt_of_lt_of_le hi (size_slope h)
  rw [slope_eq h] at inside ⊢
  rw [← Array.getElem_eq_getD (h := inside)]
  simp [slopeOf, fall, rise]

end Window

/-! ### Sums -/

theorem saturate_toInt (a : Int32) : saturate a.toInt = a := by
  have := a.toInt_lt
  have := a.le_toInt
  apply Int32.toInt.inj
  rw [toInt_saturate]
  omega

theorem addSaturated_eq (a b : Int32) : addSaturated a b = saturate (a.toInt + b.toInt) := by
  have := a.toInt_lt
  have := a.le_toInt
  have := b.toInt_lt
  have := b.le_toInt
  unfold addSaturated
  rw [saturate64_eq, Int64.toInt_add, Int32.toInt_toInt64, Int32.toInt_toInt64, Int.bmod_eq_of_le]
  · omega
  · omega

/-! ### Zones -/

namespace BlockShape

/-- Samples of a block before the slope of a shorter neighbour, or behind it. -/
def margin (bits neighbourBits : Nat) : Nat :=
  (2 ^ bits - 2 ^ neighbourBits) / 2

/-- Binary logarithm of the shorter of the block and the block before. -/
def leftBits (s : BlockShape) : Nat :=
  min s.prevBits s.bits

/-- Binary logarithm of the shorter of the block and the block after. -/
def rightBits (s : BlockShape) : Nat :=
  min s.nextBits s.bits

/-- The first sample that the window lets through. -/
def opens (s : BlockShape) : Nat :=
  margin s.bits s.leftBits

/-- The first sample of the flat part. -/
def levels (s : BlockShape) : Nat :=
  s.opens + 2 ^ s.leftBits

/-- The first sample behind the flat part. -/
def falls (s : BlockShape) : Nat :=
  2 ^ s.bits + margin s.bits s.rightBits

/-- The first sample that the window stops again. -/
def closes (s : BlockShape) : Nat :=
  s.falls + 2 ^ s.rightBits

/-- The sample `x` at place `i` of a block under its window. -/
def windowed (s : BlockShape) (i : Nat) (x : Int32) : Int32 :=
  if i < s.opens then 0
  else if i < s.levels then mulQ31 x (Window.rise s.leftBits (i - s.opens))
  else if i < s.falls then x
  else if i < s.closes then mulQ31 x (Window.fall s.rightBits (i - s.falls))
  else 0

/-- What comes of the sample `o` of a buffer at place `i` of a block, which has `x` there. In front of
the window and on its left slope, the block adds to the buffer; from the flat part on, it takes the
place of what is there. -/
def blend (s : BlockShape) (i : Nat) (o x : Int32) : Int32 :=
  if i < s.levels then addSaturated o (s.windowed i x) else s.windowed i x

variable {s : BlockShape}

theorem pow_leftBits_le (s : BlockShape) : 2 ^ s.leftBits ≤ 2 ^ s.bits :=
  Nat.pow_le_pow_right (by decide) (Nat.min_le_right ..)

theorem pow_rightBits_le (s : BlockShape) : 2 ^ s.rightBits ≤ 2 ^ s.bits :=
  Nat.pow_le_pow_right (by decide) (Nat.min_le_right ..)

theorem levels_le (s : BlockShape) : s.levels ≤ 2 ^ s.bits := by
  have := s.pow_leftBits_le
  unfold levels opens margin
  omega

theorem closes_le (s : BlockShape) : s.closes ≤ 2 * 2 ^ s.bits := by
  have := s.pow_rightBits_le
  unfold closes falls margin
  omega

/-! ### Both halves of a block -/

variable {f : Int32 → Int32 → Int32 → Int32} {out input slope : Array Int32} {i start count : Nat}

theorem size_fade (f : Int32 → Int32 → Int32 → Int32) (out input slope : Array Int32) :
    (fade f out input slope).size = out.size := by
  refine Buffer.size_overlay ?_
  simp only [Array.size_map, Array.size_zip]
  omega

theorem getD_fade (hout : i < out.size) (hinput : i < input.size) (hslope : i < slope.size) :
    (fade f out input slope).getD i 0 = f (out.getD i 0) (input.getD i 0) (slope.getD i 0) := by
  have fits : (((out.zip input).zip slope).map fun p => f p.1.1 p.1.2 p.2).size ≤ out.size := by
    simp only [Array.size_map, Array.size_zip]
    omega
  show (Buffer.overlay out (((out.zip input).zip slope).map fun p => f p.1.1 p.1.2 p.2)).getD i 0 = _
  rw [Array.getD_eq_getD_getElem?, Buffer.getElem?_overlay fits,
    if_pos (by simp only [Array.size_map, Array.size_zip]; omega)]
  simp [hout, hinput, hslope]

/-- Within the stretch, a sample fades; the others stay. -/
theorem exists_fadeAt (f : Int32 → Int32 → Int32 → Int32) (hout : start + count ≤ out.size)
    (hinput : start + count ≤ input.size) (hslope : count ≤ slope.size) :
    ∃ out', fadeAt f start count out input slope = .ok out' ∧ out'.size = out.size ∧
      ∀ i, out'.getD i 0 = if start ≤ i ∧ i < start + count then
        f (out.getD i 0) (input.getD i 0) (slope.getD (i - start) 0) else out.getD i 0 := by
  obtain ⟨o, ho, hosize, hovalues⟩ := Buffer.exists_slice hout
  obtain ⟨x, hx, hxsize, hxvalues⟩ := Buffer.exists_slice hinput
  have size : (fade f o x slope).size = count := (size_fade ..).trans hosize
  obtain ⟨out', hsplice, hsize, hvalues⟩ :=
    Buffer.exists_splice (show start + (fade f o x slope).size ≤ out.size by omega)
  refine ⟨out', ?_, hsize, fun i => ?_⟩
  · unfold fadeAt
    rw [ho, hx]
    exact hsplice
  · rw [hvalues, size]
    split
    · rename_i inside
      rw [getD_fade (by omega) (by omega) (by omega), hovalues _ (by omega), hxvalues _ (by omega),
        Nat.add_sub_cancel' inside.1]
    · rfl

theorem checkedMargin_eq_ok {neighbourBits : Nat} (hbits : s.bits ≤ maxBlockBits)
    (h : neighbourBits < s.bits) :
    checkedMargin s.bits neighbourBits = .ok (margin s.bits neighbourBits) := by
  have fits : checkShift neighbourBits = .ok () := if_pos (by unfold maxBlockBits at hbits; omega)
  have shorter : difference (2 ^ s.bits) (2 ^ neighbourBits) = .ok (2 ^ s.bits - 2 ^ neighbourBits) :=
    if_pos (Nat.pow_le_pow_right (by decide) h.le)
  unfold checkedMargin
  rw [fits, shorter]
  rfl

theorem margin_add_le {neighbourBits : Nat} (h : neighbourBits ≤ s.bits) :
    margin s.bits neighbourBits + 2 ^ neighbourBits ≤ 2 ^ s.bits := by
  have := Nat.pow_le_pow_right (n := 2) (by decide) h
  unfold margin
  omega

theorem addSaturated_zero (a : Int32) : addSaturated a 0 = a := by
  rw [addSaturated_eq]
  show saturate (a.toInt + 0) = a
  rw [Int.add_zero, saturate_toInt]

/-- In front of the window, a buffer stays as it is. -/
theorem blend_left (o x : Int32) (hi : i < 2 ^ s.bits) : s.blend i o x =
    if i < s.opens then o
    else if i < s.levels then fadeIn o x (Window.rise s.leftBits (i - s.opens))
    else x := by
  have flat : i < s.falls := Nat.lt_of_lt_of_le hi (Nat.le_add_right ..)
  unfold blend windowed
  by_cases first : i < s.opens
  · have slope : i < s.levels := Nat.lt_of_lt_of_le first (Nat.le_add_right ..)
    rw [if_pos first, if_pos first, if_pos slope, addSaturated_zero]
  · rw [if_neg first, if_neg first]
    by_cases second : i < s.levels
    · simp only [if_pos second]
      rfl
    · rw [if_neg second, if_neg second, if_neg second, if_pos flat]

/-- Behind the flat part, whatever is there is written over. -/
theorem blend_right (i : Nat) (o x : Int32) : s.blend (2 ^ s.bits + i) o x =
    if 2 ^ s.bits + i < s.falls then x
    else if 2 ^ s.bits + i < s.closes then
      fadeOut o x (Window.fall s.rightBits (2 ^ s.bits + i - s.falls))
    else 0 := by
  have middle := s.levels_le
  have behind : ¬2 ^ s.bits + i < s.levels := by omega
  have inside : ¬2 ^ s.bits + i < s.opens := fun hlt =>
    behind (Nat.lt_of_lt_of_le hlt (Nat.le_add_right ..))
  rw [blend, if_neg behind, windowed, if_neg inside, if_neg behind]
  rfl

section halves

variable (hbits : s.bits ≤ maxBlockBits) (hout : out.size = 2 ^ s.bits)
  (hinput : input.size = 2 ^ s.bits)

include hbits hout hinput

theorem exists_addLeft_of_lt (h : s.prevBits < s.bits) :
    ∃ out', s.addLeft out input = .ok out' ∧ out'.size = 2 ^ s.bits ∧ ∀ i, out'.getD i 0 =
      if i < margin s.bits s.prevBits then out.getD i 0
      else if i < margin s.bits s.prevBits + 2 ^ s.prevBits then
        fadeIn (out.getD i 0) (input.getD i 0) (Window.rise s.prevBits (i - margin s.bits s.prevBits))
      else input.getD i 0 := by
  have room := margin_add_le h.le
  have wide := Nat.two_pow_pos s.prevBits
  obtain ⟨faded, hfade, hsize, hfaded⟩ := exists_fadeAt fadeIn
    (show margin s.bits s.prevBits + 2 ^ s.prevBits ≤ out.size by omega)
    (show _ ≤ input.size by omega) (Window.size_slope (by omega))
  obtain ⟨tail, htail, htsize, htvalues⟩ := Buffer.exists_rest
    (show margin s.bits s.prevBits + 2 ^ s.prevBits ≤ input.size by omega)
  obtain ⟨out', hreplace, hsize', hvalues⟩ := Buffer.exists_replaceRest
    (show margin s.bits s.prevBits + 2 ^ s.prevBits + tail.size = faded.size by omega)
  refine ⟨out', ?_, by omega, fun i => ?_⟩
  · unfold addLeft
    rw [if_neg (Nat.not_le.mpr h), checkedMargin_eq_ok hbits h]
    dsimp only [bind, Except.bind]
    rw [hfade]
    dsimp only
    rw [htail]
    exact hreplace
  · rw [hvalues, hfaded]
    by_cases second : i < margin s.bits s.prevBits + 2 ^ s.prevBits
    · rw [if_pos second, if_pos second]
      by_cases first : i < margin s.bits s.prevBits
      · rw [if_pos first, if_neg (by omega)]
      · rw [if_neg first, if_pos (by omega), Window.getD_slope (by omega) (by omega)]
    · rw [if_neg second, if_neg second, if_neg (by omega), htvalues, Nat.add_sub_cancel' (by omega)]

/-- What becomes of the left half of the samples that a block meets. -/
theorem exists_addLeft : ∃ out', s.addLeft out input = .ok out' ∧ out'.size = 2 ^ s.bits ∧
    ∀ i < 2 ^ s.bits, out'.getD i 0 = s.blend i (out.getD i 0) (input.getD i 0) := by
  by_cases hp : s.bits ≤ s.prevBits
  · have short : s.leftBits = s.bits := Nat.min_eq_right hp
    have opens : s.opens = 0 := by simp [BlockShape.opens, margin, short]
    have levels : s.levels = 2 ^ s.bits := by simp [BlockShape.levels, opens, short]
    refine ⟨_, if_pos hp, (size_fade ..).trans hout, fun i hi => ?_⟩
    have slope := Window.size_slope hbits
    rw [getD_fade (by omega) (by omega) (by omega), Window.getD_slope hbits hi, blend_left _ _ hi,
      opens, levels, if_neg (Nat.not_lt_zero i), if_pos hi, short, Nat.sub_zero]
  · have short : s.leftBits = s.prevBits := Nat.min_eq_left (by omega)
    obtain ⟨out', hadd, hsize, hvalues⟩ := exists_addLeft_of_lt hbits hout hinput (by omega)
    refine ⟨out', hadd, hsize, fun i hi => ?_⟩
    rw [hvalues, blend_left _ _ hi, BlockShape.levels, BlockShape.opens, short]

theorem exists_writeRight_of_lt (h : s.nextBits < s.bits) :
    ∃ out', s.writeRight out input = .ok out' ∧ out'.size = 2 ^ s.bits ∧ ∀ i o, out'.getD i 0 =
      if i < margin s.bits s.nextBits then input.getD i 0
      else if i < margin s.bits s.nextBits + 2 ^ s.nextBits then
        fadeOut o (input.getD i 0) (Window.fall s.nextBits (i - margin s.bits s.nextBits))
      else 0 := by
  have room := margin_add_le h.le
  have wide := Nat.two_pow_pos s.nextBits
  have slope : 2 ^ s.nextBits ≤ (Window.slope s.nextBits).reverse.size := by
    rw [Array.size_reverse]
    exact Window.size_slope (by omega)
  obtain ⟨start, hstart, hssize, hsvalues⟩ :=
    Buffer.exists_slice (show 0 + margin s.bits s.nextBits ≤ input.size by omega)
  obtain ⟨flat, hflat, hsize, hflatValues⟩ :=
    Buffer.exists_splice (show 0 + start.size ≤ out.size by omega)
  obtain ⟨faded, hfade, hsize', hfaded⟩ := exists_fadeAt fadeOut
    (show margin s.bits s.nextBits + 2 ^ s.nextBits ≤ flat.size by omega)
    (show _ ≤ input.size by omega) slope
  obtain ⟨tail, htail, htsize, -⟩ := Buffer.exists_rest
    (show margin s.bits s.nextBits + 2 ^ s.nextBits ≤ faded.size by omega)
  have zeros : (Array.replicate tail.size (0 : Int32)).size = tail.size := Array.size_replicate
  obtain ⟨out', hreplace, hsize'', hvalues⟩ := Buffer.exists_replaceRest
    (show margin s.bits s.nextBits + 2 ^ s.nextBits + (Array.replicate tail.size (0 : Int32)).size =
      faded.size by omega)
  refine ⟨out', ?_, by omega, fun i o => ?_⟩
  · unfold writeRight
    rw [if_neg (Nat.not_le.mpr h), checkedMargin_eq_ok hbits h]
    dsimp only [bind, Except.bind]
    rw [hstart]
    dsimp only
    rw [hflat]
    dsimp only
    rw [hfade]
    dsimp only
    rw [htail]
    exact hreplace
  · rw [hvalues, hfaded, hflatValues]
    by_cases second : i < margin s.bits s.nextBits + 2 ^ s.nextBits
    · rw [if_pos second, if_pos second]
      by_cases first : i < margin s.bits s.nextBits
      · rw [if_pos first, if_neg (by omega), if_pos (by omega), Nat.sub_zero, hsvalues i first,
          Nat.zero_add]
      · rw [if_neg first, if_pos (by omega), Window.getD_reverse_slope (by omega) (by omega)]
        rfl
    · rw [if_neg second, if_neg second, if_neg (by omega), Array.getD_eq_getD_getElem?,
        Array.getElem?_replicate]
      split <;> rfl

/-- What becomes of the right half. -/
theorem exists_writeRight : ∃ out', s.writeRight out input = .ok out' ∧ out'.size = 2 ^ s.bits ∧
    ∀ i < 2 ^ s.bits, ∀ o, out'.getD i 0 = s.blend (2 ^ s.bits + i) o (input.getD i 0) := by
  by_cases hn : s.bits ≤ s.nextBits
  · have short : s.rightBits = s.bits := Nat.min_eq_right hn
    have falls : s.falls = 2 ^ s.bits := by simp [BlockShape.falls, margin, short]
    have closes : s.closes = 2 ^ s.bits + 2 ^ s.bits := by rw [BlockShape.closes, falls, short]
    refine ⟨_, if_pos hn, (size_fade ..).trans hout, fun i hi o => ?_⟩
    have slope := Window.size_slope hbits
    rw [getD_fade (by omega) (by omega) (by rw [Array.size_reverse]; omega),
      Window.getD_reverse_slope hbits hi, blend_right, falls, closes, if_neg (by omega),
      if_pos (by omega), short, Nat.add_sub_cancel_left]
    rfl
  · have short : s.rightBits = s.nextBits := Nat.min_eq_left (by omega)
    obtain ⟨out', hwrite, hsize, hvalues⟩ := exists_writeRight_of_lt hbits hout hinput (by omega)
    refine ⟨out', hwrite, hsize, fun i hi o => ?_⟩
    rw [hvalues i o, blend_right, BlockShape.closes, BlockShape.falls, short, Nat.add_assoc,
      Nat.add_sub_add_left]
    simp only [Nat.add_lt_add_iff_left]

end halves

/-- What becomes of the samples that a block meets. -/
theorem exists_overlapAdd {buffer : Array Int32} (hbits : s.bits ≤ maxBlockBits)
    (hroom : start + s.samples ≤ buffer.size) (hinput : s.samples ≤ input.size) :
    ∃ buffer', s.overlapAdd buffer start input = .ok buffer' ∧ buffer'.size = buffer.size ∧
      ∀ i, buffer'.getD i 0 =
        if start ≤ i ∧ i < start + s.samples then
          s.blend (i - start) (buffer.getD i 0) (input.getD (i - start) 0)
        else buffer.getD i 0 := by
  have shift : checkShift s.bits = .ok () := if_pos (by unfold maxBlockBits at hbits; omega)
  have count : word64 (2 * 2 ^ s.bits) = .ok s.samples := word64_eq_ok (by
    have := Nat.pow_le_pow_right (n := 2) (by decide) hbits
    unfold maxBlockBits at this
    omega)
  have double : s.samples = 2 ^ s.bits + 2 ^ s.bits := Nat.two_mul _
  obtain ⟨out, hout, hosize, hovalues⟩ := Buffer.exists_slice hroom
  obtain ⟨block, hblock, hbsize, hbvalues⟩ :=
    Buffer.exists_slice (show 0 + s.samples ≤ input.size by omega)
  have halves : ∀ a : Array Int32, a.size = s.samples → (a.extract 0 (2 ^ s.bits)).size = 2 ^ s.bits ∧
      (a.extract (2 ^ s.bits) s.samples).size = 2 ^ s.bits := fun a ha => by
    rw [Array.size_extract_of_le (by omega), Array.size_extract_of_le (by omega)]
    omega
  obtain ⟨left, hleft, hlsize, hlvalues⟩ :=
    exists_addLeft hbits (halves out hosize).1 (halves block hbsize).1
  obtain ⟨right, hright, hrsize, hrvalues⟩ :=
    exists_writeRight hbits (halves out hosize).2 (halves block hbsize).2
  have size : (left ++ right).size = s.samples := by
    rw [Array.size_append]
    omega
  obtain ⟨buffer', hsplice, hsize, hvalues⟩ :=
    Buffer.exists_splice (show start + (left ++ right).size ≤ buffer.size by omega)
  refine ⟨buffer', ?_, hsize, fun i => ?_⟩
  · unfold overlapAdd
    dsimp only
    rw [shift, count]
    dsimp only [bind, Except.bind]
    rw [hout, hblock]
    dsimp only
    rw [hleft, hright]
    exact hsplice
  rw [hvalues, size]
  split
  · rename_i inside
    obtain ⟨k, rfl⟩ := Nat.exists_eq_add_of_le inside.1
    have hk : k < s.samples := by omega
    have sample := hbvalues k hk 0
    rw [Nat.zero_add] at sample
    rw [Nat.add_sub_cancel_left, ← hovalues k hk, ← sample, Array.getD_eq_getD_getElem?,
      Array.getElem?_append, hlsize]
    split
    · rename_i first
      rw [← Array.getD_eq_getD_getElem?, hlvalues k first, Buffer.getD_extract (by omega) (by omega),
        Buffer.getD_extract (by omega) (by omega), Nat.zero_add]
    · rw [← Array.getD_eq_getD_getElem?, hrvalues (k - 2 ^ s.bits) (by omega) (out.getD k 0),
        Buffer.getD_extract (by omega) (by omega), Nat.add_sub_cancel' (by omega)]
  · rfl

theorem size_of_overlapAdd {buffer buffer' : Array Int32}
    (h : s.overlapAdd buffer start input = .ok buffer') : buffer'.size = buffer.size := by
  obtain ⟨_, -, h⟩ := ok_of_bind h
  obtain ⟨samples, -, h⟩ := ok_of_bind h
  obtain ⟨out, -, h⟩ := ok_of_bind h
  obtain ⟨block, -, h⟩ := ok_of_bind h
  obtain ⟨left, -, h⟩ := ok_of_bind h
  obtain ⟨right, -, hsplice⟩ := ok_of_bind h
  exact Buffer.size_of_splice hsplice

/-- All samples of a block are added. -/
theorem samples_le_of_overlapAdd {buffer buffer' : Array Int32}
    (h : s.overlapAdd buffer start input = .ok buffer') : s.samples ≤ input.size := by
  obtain ⟨_, -, h⟩ := ok_of_bind h
  obtain ⟨samples, hcount, h⟩ := ok_of_bind h
  obtain ⟨out, -, h⟩ := ok_of_bind h
  obtain ⟨block, hblock, -⟩ := ok_of_bind h
  obtain rfl : s.samples = samples := eq_of_word64 hcount
  by_contra short
  cases (if_neg (by omega)).symm.trans hblock

/-- What stands behind the samples of a block is not added. -/
theorem overlapAdd_congr {input' buffer : Array Int32}
    (h : Buffer.slice input 0 s.samples = Buffer.slice input' 0 s.samples) :
    s.overlapAdd buffer start input = s.overlapAdd buffer start input' := by
  refine bind_congr fun _ => ?_
  show (word64 (2 * 2 ^ s.bits) >>= _) = word64 (2 * 2 ^ s.bits) >>= _
  cases hcount : word64 (2 * 2 ^ s.bits) with
  | error e => rfl
  | ok n =>
    obtain rfl : s.samples = n := eq_of_word64 hcount
    show (Buffer.slice buffer start s.samples >>= _) = Buffer.slice buffer start s.samples >>= _
    exact bind_congr fun out => congrArg (· >>= _) h

end BlockShape

end Wma
