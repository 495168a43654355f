import Wma.Fixed.Tables
import Wma.Word

/-!
# Sine and cosine

Angles count steps of which a full turn has 32768. `sine` and `cosine` have 31 fractional bits. A
sine in the first quarter is put together from a coarse and a fine table entry; the other quarters
follow by symmetry.
-/

namespace Wma

def turn : Nat := 32768

def quarterSine (angle : Nat) : Int32 :=
  let coarse := angle / 128
  let fine := angle % 128
  if fine = 0 then
    sineCoarse.getD coarse 0
  else
    saturate64
      (((sineCoarse.getD coarse 0).toInt64 * (cosineFine.getD fine 0).toInt64 +
        (sineCoarse.getD (64 - coarse) 0).toInt64 * (sineFine.getD fine 0).toInt64) >>> 31)

/-- The sine of an angle in the upper half of the circle. -/
def halfSine (angle : Nat) : Int32 :=
  if angle ≤ turn / 4 then quarterSine angle else quarterSine (turn / 2 - angle)

/-- The sine of an angle, with 31 fractional bits. -/
def sine (angle : Nat) : Int32 :=
  let a := angle % turn
  if turn / 2 ≤ a then -halfSine (a - turn / 2) else halfSine a

def cosine (angle : Nat) : Int32 :=
  sine (angle % turn + turn / 4)

end Wma
