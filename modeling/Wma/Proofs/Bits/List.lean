import Mathlib.Data.List.Induction
import Wma.Proofs.Bits.Reading

/-!
# Readers and lists of bits

`Bits.ofBytes` lists the bits of bytes in the order in which they are read, and `Bits.value` is the
number that a row of bits stands for. What a reader has in front of it is the list
`BitReader.remaining`: a field is the value of its first bits (`BitReader.peek_eq`), and moving the
cursor drops them. `BitReader.ofList` is a reader of a given list, at a given place of a byte.
-/

namespace Wma

namespace Bits

/-- The bits of bytes, the highest bit of a byte first. -/
def ofBytes (bytes : Array UInt8) : List Bool :=
  (List.range (8 * bytes.size)).map fun p => (bytes.getD (p / 8) 0).toNat.testBit (7 - p % 8)

/-- The number with the given bits, the highest first. -/
def value (l : List Bool) : Nat :=
  l.foldl (fun n b => 2 * n + b.toNat) 0

/-- Bytes that begin with the given bits; zeros fill up the last of them. -/
def pack (l : List Bool) : Array UInt8 :=
  Array.ofFn fun i : Fin ((l.length + 7) / 8) =>
    UInt8.ofNat (value ((List.range 8).map fun j => l.getD (8 * i + j) false))

@[simp] theorem length_ofBytes (bytes : Array UInt8) : (ofBytes bytes).length = 8 * bytes.size := by
  simp [ofBytes]

theorem getElem_ofBytes {bytes : Array UInt8} {p : Nat} (h : p < (ofBytes bytes).length) :
    (ofBytes bytes)[p] = (bytes.getD (p / 8) 0).toNat.testBit (7 - p % 8) := by
  simp [ofBytes]

theorem ofBytes_append (a b : Array UInt8) : ofBytes (a ++ b) = ofBytes a ++ ofBytes b := by
  refine List.ext_getElem (by simp; omega) fun p h h' => ?_
  rw [getElem_ofBytes, List.getElem_append]
  split
  · rename_i hp
    rw [length_ofBytes] at hp
    rw [getElem_ofBytes, Array.getD_eq_getD_getElem?, Array.getElem?_append_left (by omega),
      ← Array.getD_eq_getD_getElem?]
  · rename_i hp
    rw [length_ofBytes] at hp
    have place : (p - 8 * a.size) / 8 = p / 8 - a.size := by omega
    have phase : (p - 8 * a.size) % 8 = p % 8 := by omega
    rw [getElem_ofBytes, Array.getD_eq_getD_getElem?, Array.getElem?_append_right (by omega),
      ← Array.getD_eq_getD_getElem?, length_ofBytes, place, phase]

theorem ofBytes_rest (a : Array UInt8) (k : Nat) :
    ofBytes (a.extract k a.size) = (ofBytes a).drop (8 * k) := by
  refine List.ext_getElem (by simp; omega) fun p h h' => ?_
  simp only [length_ofBytes, Array.size_extract, Nat.min_self] at h
  have place : (8 * k + p) / 8 = k + p / 8 := by omega
  have phase : (8 * k + p) % 8 = p % 8 := by omega
  rw [getElem_ofBytes, List.getElem_drop, getElem_ofBytes, place, phase, Array.getD_eq_getD_getElem?,
    Array.getD_eq_getD_getElem?, Array.getElem?_extract_of_lt (by omega),
    Array.getElem?_eq_getElem (by omega)]

/-! ### Values of rows of bits -/

theorem value_concat (l : List Bool) (b : Bool) : value (l ++ [b]) = 2 * value l + b.toNat := by
  simp [value]

theorem value_lt (l : List Bool) : value l < 2 ^ l.length := by
  induction l using List.reverseRecOn with
  | nil => decide
  | append_singleton l b ih =>
    have bit : b.toNat ≤ 1 := by cases b <;> decide
    rw [value_concat, List.length_append, List.length_singleton, Nat.pow_succ]
    omega

theorem testBit_value {l : List Bool} {j : Nat} (h : j < l.length) :
    (value l).testBit j = l[l.length - 1 - j] := by
  induction l using List.reverseRecOn generalizing j with
  | nil => simp at h
  | append_singleton l b ih =>
    rw [value_concat]
    rw [List.length_append, List.length_singleton] at h
    cases j with
    | zero => cases b <;> simp [Nat.testBit_zero]
    | succ j =>
      have half : (2 * value l + b.toNat) / 2 = value l := by
        have bit : b.toNat ≤ 1 := by cases b <;> decide
        omega
      rw [Nat.testBit_succ, half, ih (by omega)]
      simp only [List.length_append, List.length_singleton]
      rw [List.getElem_append_left (by omega)]
      congr 1
      omega

theorem value_append_zeros (l : List Bool) (m : Nat) :
    value (l ++ List.replicate m false) = value l * 2 ^ m := by
  induction m with
  | zero => simp
  | succ m ih =>
    rw [List.replicate_succ', ← List.append_assoc, value_concat, ih, Nat.pow_succ]
    simp only [Bool.toNat_false]
    rw [Nat.add_zero, Nat.mul_comm 2, Nat.mul_assoc]

/-- A byte has the bits of its value. -/
theorem testBit_byte {l : List Bool} (hl : l.length = 8) {j : Nat} (hj : j < 8) :
    (UInt8.ofNat (value l)).toNat.testBit (7 - j) = l[j] := by
  have fits := value_lt l
  rw [hl] at fits
  rw [UInt8.toNat_ofNat_of_lt' (by simpa using fits), testBit_value (by omega)]
  congr 1
  omega

theorem ofBytes_byte {l : List Bool} (hl : l.length = 8) : ofBytes #[UInt8.ofNat (value l)] = l := by
  refine List.ext_getElem (by simp [hl]) fun p h h' => ?_
  have first : p / 8 = 0 := by omega
  have phase : p % 8 = p := by omega
  rw [getElem_ofBytes, first, phase]
  exact testBit_byte hl (by omega)

theorem size_pack (l : List Bool) : (pack l).size = (l.length + 7) / 8 :=
  Array.size_ofFn

theorem getElem_ofBytes_pack {l : List Bool} {p : Nat} (h : p < (ofBytes (pack l)).length) :
    (ofBytes (pack l))[p] = l.getD p false := by
  have byte : (pack l).getD (p / 8) 0 =
      UInt8.ofNat (value ((List.range 8).map fun j => l.getD (8 * (p / 8) + j) false)) := by
    have inside : p / 8 < (l.length + 7) / 8 := by
      rw [length_ofBytes, size_pack] at h
      omega
    simp only [Array.getD_eq_getD_getElem?, pack, Array.getElem?_ofFn, inside, ↓reduceDIte,
      Option.getD_some]
  have back : 8 * (p / 8) + p % 8 = p := by omega
  rw [getElem_ofBytes, byte, testBit_byte (by simp) (by omega)]
  simp [back]

theorem ofBytes_pack (l : List Bool) :
    ofBytes (pack l) = l ++ List.replicate (8 * (pack l).size - l.length) false := by
  refine List.ext_getElem (by simp [size_pack]; omega) fun p h h' => ?_
  rw [getElem_ofBytes_pack, List.getElem_append, List.getD_eq_getElem?_getD]
  split
  · rename_i inside
    rw [List.getElem?_eq_getElem inside]
    rfl
  · rw [List.getElem?_eq_none (by omega), List.getElem_replicate]
    rfl

theorem take_ofBytes_pack (l : List Bool) : (ofBytes (pack l)).take l.length = l := by
  rw [ofBytes_pack]
  exact List.take_left' rfl

/-- Bytes are known by their bits. -/
theorem eq_of_ofBytes_eq {a b : Array UInt8} (h : ofBytes a = ofBytes b) : a = b := by
  have size : a.size = b.size := by
    have length := congrArg List.length h
    rw [length_ofBytes, length_ofBytes] at length
    omega
  refine Array.ext size fun i hi hi' => UInt8.toNat_inj.mp (Nat.eq_of_testBit_eq fun j => ?_)
  by_cases hj : j < 8
  · -- The bit `j` of byte `i` is the one at place `8 * i + 7 - j`.
    have inside : 8 * i + (7 - j) < 8 * a.size := by omega
    have bit := List.getElem_of_eq h (i := 8 * i + (7 - j)) (by simpa using inside)
    rw [getElem_ofBytes, getElem_ofBytes, show (8 * i + (7 - j)) / 8 = i by omega,
      show 7 - (8 * i + (7 - j)) % 8 = j by omega] at bit
    simpa [hi, hi'] using bit
  · have wide : 2 ^ 8 ≤ 2 ^ j := Nat.pow_le_pow_right (by decide) (by omega)
    rw [Nat.testBit_lt_two_pow (Nat.lt_of_lt_of_le a[i].toNat_lt wide),
      Nat.testBit_lt_two_pow (Nat.lt_of_lt_of_le b[i].toNat_lt wide)]

end Bits

namespace BitReader

/-- The bits between the cursor and the cut. -/
def remaining (r : BitReader) : List Bool :=
  ((Bits.ofBytes r.bytes).take r.bitLength).drop r.position

/-- A reader of the given bits that begins `phase` bits behind the beginning of a byte. -/
def ofList (phase : Nat) (l : List Bool) : BitReader where
  bytes := Bits.pack (List.replicate phase false ++ l)
  bitLength := phase + l.length
  position := phase
  bitLength_le := by simp [Bits.pack]; omega
  position_le := Nat.le_add_right ..

variable {r r' : BitReader} {n : Nat}

@[simp] theorem remaining_ofList (phase : Nat) (l : List Bool) : (ofList phase l).remaining = l := by
  have packed := Bits.take_ofBytes_pack (List.replicate phase false ++ l)
  rw [List.length_append, List.length_replicate] at packed
  show List.drop phase (List.take (phase + l.length) (Bits.ofBytes (Bits.pack _))) = l
  rw [packed]
  exact List.drop_left' List.length_replicate

/-- Bits that zeros fill up to whole bytes. -/
theorem ofBits_eq_ofList {bytes : Array UInt8} {l : List Bool} {m : Nat} (hm : m < 8)
    (h : Bits.ofBytes bytes = l ++ List.replicate m false) : ofBits bytes l.length = ofList 0 l := by
  have length := congrArg List.length h
  rw [Bits.length_ofBytes, List.length_append, List.length_replicate] at length
  have packed : Bits.pack l = bytes := by
    refine Bits.eq_of_ofBytes_eq ?_
    rw [Bits.ofBytes_pack, h, Bits.size_pack]
    congr 2
    omega
  unfold ofBits ofList
  congr 1
  · exact packed.symm
  · omega

@[simp] theorem remaining_ofBytes (bytes : Array UInt8) :
    (ofBytes bytes).remaining = Bits.ofBytes bytes := by
  show List.drop 0 (List.take (8 * bytes.size) (Bits.ofBytes bytes)) = _
  rw [← Bits.length_ofBytes, List.take_length, List.drop_zero]

@[simp] theorem length_remaining (r : BitReader) : r.remaining.length = r.left := by
  have := r.bitLength_le
  simp only [remaining, left, List.length_drop, List.length_take, Bits.length_ofBytes]
  omega

theorem le_left_of_drop {r : BitReader} {b : Bool} {l : List Bool}
    (h : r.remaining.drop n = b :: l) : n ≤ r.left := by
  rw [← length_remaining]
  by_contra short
  rw [List.drop_of_length_le (Nat.le_of_not_le short)] at h
  cases h

theorem bit_eq (r : BitReader) (i : Nat) : r.bit i = r.remaining.getD i false := by
  have length := r.length_remaining
  have left := r.left_eq
  rw [List.getD_eq_getElem?_getD]
  unfold bit
  by_cases h : r.position + i < r.bitLength
  · have hi : i < r.remaining.length := by omega
    rw [List.getElem?_eq_getElem hi]
    simp only [h, decide_true, Bool.true_and, Option.getD_some]
    simp only [remaining, List.getElem_drop, List.getElem_take, Bits.getElem_ofBytes]
    rfl
  · have hi : r.remaining.length ≤ i := by omega
    rw [List.getElem?_eq_none hi]
    simp [h]

theorem testBit_window (r : BitReader) {k : Nat} (hk : k < 40) :
    r.window.testBit k = (r.byteAt (r.position / 8 + (39 - k) / 8)).testBit (k % 8) := by
  have byte : ∀ i, r.byteAt i < 2 ^ 8 := fun i => (r.bytes.getD i 0).toNat_lt
  have split : ∀ a b j, b < 2 ^ 8 →
      (a * 256 + b).testBit j = if j < 8 then b.testBit j else a.testBit (j - 8) := fun a b j hb => by
    rw [Nat.mul_comm, show 256 = 2 ^ 8 from rfl, Nat.testBit_two_pow_mul_add a hb]
  unfold window
  dsimp only
  rw [split _ _ _ (byte _)]
  split
  · rw [show (39 - k) / 8 = 4 by omega, show k % 8 = k by omega]
  rw [split _ _ _ (byte _)]
  split
  · rw [show (39 - k) / 8 = 3 by omega, show k % 8 = k - 8 by omega]
  rw [split _ _ _ (byte _)]
  split
  · rw [show (39 - k) / 8 = 2 by omega, show k % 8 = k - 8 - 8 by omega]
  rw [split _ _ _ (byte _)]
  split
  · rw [show (39 - k) / 8 = 1 by omega, show k % 8 = k - 8 - 8 - 8 by omega]
  · rw [show (39 - k) / 8 = 0 by omega, show k % 8 = k - 8 - 8 - 8 - 8 by omega, Nat.add_zero]

theorem testBit_peek (r : BitReader) (hn : n ≤ 32) {j : Nat} (hj : j < n) :
    (r.peek n).testBit j = r.bit (n - 1 - j) := by
  have left := r.left_eq
  unfold peek bit
  dsimp only
  rw [Nat.mul_comm, Nat.testBit_two_pow_mul]
  by_cases h : r.position + (n - 1 - j) < r.bitLength
  · have front : n - r.left ≤ j := by omega
    simp only [h, decide_true, Bool.true_and, ge_iff_le, front]
    rw [Nat.testBit_div_two_pow, Nat.sub_add_cancel front, Nat.testBit_mod_two_pow,
      Nat.testBit_div_two_pow, testBit_window r (by omega)]
    simp only [hj, decide_true, Bool.true_and]
    congr 2
    · omega
    · omega
  · have behind : ¬n - r.left ≤ j := by omega
    simp [h, behind]

/-- A field is the number that the bits ahead stand for. -/
theorem peek_eq (r : BitReader) (hn : n ≤ 32) : r.peek n = Bits.value ((List.range n).map r.bit) := by
  have fits := Bits.value_lt ((List.range n).map r.bit)
  rw [List.length_map, List.length_range] at fits
  refine Nat.eq_of_testBit_eq fun j => ?_
  by_cases hj : j < n
  · rw [testBit_peek r hn hj, Bits.testBit_value (by simpa using hj)]
    simp
  · have wide : 2 ^ n ≤ 2 ^ j := Nat.pow_le_pow_right (by decide) (by omega)
    rw [Nat.testBit_lt_two_pow (Nat.lt_of_lt_of_le (r.peek_lt n) wide),
      Nat.testBit_lt_two_pow (Nat.lt_of_lt_of_le fits wide)]

theorem map_bit_range (h : n ≤ r.left) : (List.range n).map r.bit = r.remaining.take n := by
  have length := r.length_remaining
  refine List.ext_getElem (by simp; omega) fun i hi hi' => ?_
  simp only [List.length_map, List.length_range] at hi
  have inside : i < r.remaining.length := by omega
  simp [bit_eq, List.getElem?_eq_getElem inside]

/-- A field that fits is the value of its bits. -/
theorem exists_read (hn : n ≤ 32) (h : n ≤ r.left) :
    ∃ r', r.read n = .ok (Bits.value (r.remaining.take n), r') ∧ r.Moved n r' := by
  unfold read
  split
  · subst n
    exact ⟨r, rfl, rfl, rfl, rfl⟩
  rw [if_neg (by omega)]
  obtain ⟨r', hr', hm⟩ := exists_skip h
  exact ⟨r', by rw [hr', peek_eq r hn, map_bit_range h]; rfl, hm⟩

/-- A field that goes beyond the cut is not read. -/
theorem exists_read_eq_error (h : r.left < n) : ∃ cause, r.read n = .error (.corrupt cause) := by
  unfold read
  rw [if_neg (by omega)]
  split
  · exact ⟨_, rfl⟩
  · rcases r.skip_cases n with ⟨q, -, hm⟩ | ⟨-, hr⟩
    · have left := hm.left
      omega
    · exact ⟨_, by rw [hr]; rfl⟩

namespace Moved

theorem remaining (h : r.Moved n r') : r'.remaining = r.remaining.drop n := by
  simp only [BitReader.remaining, h.bytes, h.bitLength, h.position, List.drop_drop]

end Moved

end BitReader

namespace Parse

variable {σ : Type} {s : Scan σ} {E : Error → Scan σ → Prop} {n : Nat}

theorem wp_skip_of_le {Q : Unit → Scan σ → Prop} (h : n ≤ s.reader.left)
    (hQ : ∀ q, s.reader.Moved n q → Q () ⟨q, s.state⟩) : (skip n).wp Q E s := by
  obtain ⟨q, hq, hm⟩ := BitReader.exists_skip h
  unfold skip
  rw [wp_ofReader, hq]
  exact hQ q hm

/-- A field that fits is read. -/
theorem wp_read_of_le {Q : Nat → Scan σ → Prop} (hn : n ≤ 32) (h : n ≤ s.reader.left)
    (hQ : ∀ q, s.reader.Moved n q → Q (Bits.value (s.reader.remaining.take n)) ⟨q, s.state⟩) :
    (read n).wp Q E s := by
  obtain ⟨q, hq, hm⟩ := BitReader.exists_read hn h
  unfold read
  rw [wp_ofReader, hq]
  exact hQ q hm

theorem wp_read_of_lt {Q : Nat → Scan σ → Prop} (h : s.reader.left < n)
    (hE : ∀ cause, E (.corrupt cause) s) : (read n).wp Q E s := by
  obtain ⟨cause, hread⟩ := BitReader.exists_read_eq_error h
  unfold read
  rw [wp_ofReader, hread]
  exact hE cause

theorem wp_readBit_of_cons {Q : Bool → Scan σ → Prop} {b : Bool} {rest : List Bool}
    (h : s.reader.remaining = b :: rest)
    (hQ : ∀ q, s.reader.Moved 1 q → q.remaining = rest → Q b ⟨q, s.state⟩) :
    readBit.wp Q E s := by
  have left : 1 ≤ s.reader.left := by
    rw [← s.reader.length_remaining, h]
    exact Nat.succ_le_succ (Nat.zero_le _)
  obtain ⟨q, hq, hm⟩ := BitReader.exists_read (by decide) left
  have value : Bits.value (s.reader.remaining.take 1) = b.toNat := by
    rw [h]
    cases b <;> rfl
  have bit : s.reader.readBit = .ok (b, q) := by
    unfold BitReader.readBit
    rw [hq, value]
    cases b <;> rfl
  unfold readBit
  rw [wp_ofReader, bit]
  exact hQ q hm (by rw [hm.remaining, h]; rfl)

theorem wp_readBit_of_nil {Q : Bool → Scan σ → Prop} (h : s.reader.remaining = [])
    (hE : ∀ cause, E (.corrupt cause) s) : readBit.wp Q E s := by
  have left : s.reader.left < 1 := by
    rw [← s.reader.length_remaining, h]
    exact Nat.one_pos
  obtain ⟨cause, hread⟩ := BitReader.exists_read_eq_error left
  have bit : s.reader.readBit = .error (.corrupt cause) := by
    unfold BitReader.readBit
    rw [hread]
    rfl
  unfold readBit
  rw [wp_ofReader, bit]
  exact hE cause

end Parse

end Wma
