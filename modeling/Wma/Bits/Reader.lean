import Wma.Error

/-!
# Reading bits

A `BitReader` is a cursor over the bits of a byte packet, the highest bit of a byte first. It may be
cut to the first `bitLength` bits; behind the cut every bit reads as zero, which lets a look-ahead
of fixed width work at the end of the data. Reading past the cut fails and leaves the cursor alone.

`bit r i` is the bit `i` places ahead. `peek` gathers the next bits into a number through a window
of five bytes, which covers any 32 bits whatever the place of the cursor within its byte.
-/

namespace Wma

/-- A cursor over the first `bitLength` bits of `bytes`. -/
structure BitReader where
  bytes : Array UInt8
  bitLength : Nat
  position : Nat
  bitLength_le : bitLength ≤ 8 * bytes.size
  position_le : position ≤ bitLength

namespace BitReader

/-- A reader over the first `limit` bits of `bytes`, or over all of them if there are fewer. -/
def ofBits (bytes : Array UInt8) (limit : Nat) : BitReader where
  bytes := bytes
  bitLength := min limit (8 * bytes.size)
  position := 0
  bitLength_le := Nat.min_le_right ..
  position_le := Nat.zero_le _

def ofBytes (bytes : Array UInt8) : BitReader where
  bytes := bytes
  bitLength := 8 * bytes.size
  position := 0
  bitLength_le := Nat.le_refl _
  position_le := Nat.zero_le _

/-- Number of bits in front of the cut. -/
def left (r : BitReader) : Nat :=
  r.bitLength - r.position

def byteAt (r : BitReader) (i : Nat) : Nat :=
  (r.bytes.getD i 0).toNat

/-- The bit `i` places ahead of the cursor; zero behind the cut. -/
def bit (r : BitReader) (i : Nat) : Bool :=
  let p := r.position + i
  p < r.bitLength && (r.byteAt (p / 8)).testBit (7 - p % 8)

/-- The five bytes from the one under the cursor on, as one number. -/
def window (r : BitReader) : Nat :=
  let i := r.position / 8
  (((r.byteAt i * 256 + r.byteAt (i + 1)) * 256 + r.byteAt (i + 2)) * 256 + r.byteAt (i + 3)) * 256
    + r.byteAt (i + 4)

/-- The next `count` bits as a number, for `count` up to 32. Bits behind the cut are zero. -/
def peek (r : BitReader) (count : Nat) : Nat :=
  let value := r.window / 2 ^ (40 - r.position % 8 - count) % 2 ^ count
  let missing := count - r.left
  value / 2 ^ missing * 2 ^ missing

def skip (r : BitReader) (count : Nat) : Except Error BitReader :=
  if h : count ≤ r.left then
    .ok { r with
      position := r.position + count
      position_le := by have := r.position_le; simp only [left] at h; omega }
  else
    .error (.corrupt (.overrun count r.position r.bitLength))

/-- Reads a field of `count` bits. -/
def read (r : BitReader) (count : Nat) : Except Error (Nat × BitReader) :=
  if count = 0 then
    .ok (0, r)
  else if 32 < count then
    .error (.corrupt (.fieldTooWide count))
  else
    (r.skip count).map fun r' => (r.peek count, r')

def readBit (r : BitReader) : Except Error (Bool × BitReader) :=
  (r.read 1).map fun (value, r') => (value != 0, r')

/-- Moves the cursor to the next byte boundary, but not past the cut. -/
def align (r : BitReader) : BitReader :=
  { r with
    position := min ((r.position + 7) / 8 * 8) r.bitLength
    position_le := Nat.min_le_right .. }

end BitReader

end Wma
