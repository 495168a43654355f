import Wma.Word

/-!
# Integer roots and reciprocals

`isqrt32` and `isqrt64` give the square root of a word, rounded down, one binary digit at a time.
`inverse` gives the reciprocal of a number between one half and one by Newton's iteration from a
linear guess. The checked forms fail where a step leaves its word or a loop goes on for too long.
-/

namespace Wma

/-- Position of the highest one of `n`, counted from zero; zero has none and gives zero. -/
def log2Floor (n : Nat) : Nat :=
  n.log2

def leadingZeros32 (n : Nat) : Nat :=
  if n = 0 then 32 else 31 - n.log2

/-- Goes through `digits` digits of a square root, the highest first. `rest` is what the digits
found so far leave of the number, and `root` holds them, scaled to the weight of the next digit. -/
def rootDigits : (digits rest root : Nat) → Nat
  | 0, _, root => root
  | digits + 1, rest, root =>
    let weight := 4 ^ digits
    if root + weight ≤ rest then
      rootDigits digits (rest - (root + weight)) (root / 2 + weight)
    else
      rootDigits digits rest (root / 2)

/-- Square root of a number of 32 bits, rounded down. -/
def isqrt32 (n : Nat) : Nat :=
  rootDigits 16 n 0

def isqrt64 (n : Nat) : Nat :=
  rootDigits 32 n 0

/-! The checked root goes from weight to weight, each a fourth of the one before, until none is left.
`rounds` bounds the number of weights that a loop meets. -/

/-- The first weight that `n` holds. Zero holds none but the weight zero, which is no digit's. -/
def checkedWeight (n : Nat) : (rounds weight : Nat) → Except Error Nat
  | 0, _ => .error (.fault .progress)
  | rounds + 1, weight =>
    if weight ≤ n then .ok weight else checkedWeight n rounds (weight / 4)

/-- The digits of `rootDigits` from the one of the given weight on, if the sums fit words of `bits`
bits. -/
def checkedDigits (bits : Nat) : (rounds rest root weight : Nat) → Except Error Nat
  | 0, _, _, _ => .error (.fault .progress)
  | rounds + 1, rest, root, weight => do
    if weight = 0 then
      return root
    else
      let sum ← word bits (root + weight)
      if sum ≤ rest then
        checkedDigits bits rounds (rest - sum) (← word bits (root / 2 + weight)) (weight / 4)
      else
        checkedDigits bits rounds rest (root / 2) (weight / 4)

/-- Square root of a word of twice as many bits as the root has digits. -/
def checkedIsqrt (digits n : Nat) : Except Error Nat := do
  checkedDigits (2 * digits) (digits + 1) n 0 (← checkedWeight n (digits + 1) (4 ^ (digits - 1)))

def checkedIsqrt32 (n : Nat) : Except Error Nat :=
  checkedIsqrt 16 n

def checkedIsqrt64 (n : Nat) : Except Error Nat :=
  checkedIsqrt 32 n

/-- The first guess at `1 / x`, with 29 fractional bits. -/
def inverseGuess (x : Int) : Int :=
  1515870810 - 1010580540 * x / 2 ^ (31 : Nat)

def inverseStep (x y : Int) : Int :=
  y * (2 ^ (30 : Nat) - x * y / 2 ^ (31 : Nat)) / 2 ^ (29 : Nat)

def inverseAfter (x : Int) : Nat → Int
  | 0 => inverseGuess x
  | n + 1 => inverseStep x (inverseAfter x n)

/-- `1 / x` with 29 fractional bits, for `x` with 31 fractional bits between one half and one. -/
def inverse (x : Nat) : Nat :=
  (max 0 (min (inverseAfter x 5) (2 ^ (30 : Nat)))).toNat

def checkedInverseAfter (x : Int) : Nat → Except Error Int
  | 0 => do return 1515870810 - (← int64 (1010580540 * x)) / 2 ^ (31 : Nat)
  | n + 1 => do
    let y ← checkedInverseAfter x n
    let product ← int64 (x * y)
    return (← int64 (y * (2 ^ (30 : Nat) - product / 2 ^ (31 : Nat)))) / 2 ^ (29 : Nat)

def checkedInverse (x : Nat) : Except Error Nat := do
  return (max 0 (min (← checkedInverseAfter x 5) (2 ^ (30 : Nat)))).toNat

end Wma
