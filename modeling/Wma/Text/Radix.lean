/-!
# Numbers in base two and sixteen

`binary` and `hexadecimal` write a natural number with the mark of its base, `0b` or `0x`. A binary
number can be padded to a width, which counts its digits and not the mark. `value` reads digits of
any base up to sixteen, in both cases, and `Hex.bytes` reads bytes, each of which is written as two
digits, the higher first.
-/

namespace Wma

-- In this namespace, powers and sums of numbers are those of the core library, whatever algebra is
-- imported beside it.
attribute [scoped instance (20000)] instPowNat Zero.ofOfNat0

namespace Radix

/-- The digits of `n` in base two, the highest first; zero has the one digit `0`. -/
def binaryDigits (n : Nat) : List Char :=
  Nat.toDigits 2 n

/-- `n` in base two with the mark `0b`, filled up with zeros to `width` digits. -/
def binary (width n : Nat) : String :=
  let digits := binaryDigits n
  "0b" ++ String.ofList (List.replicate (width - digits.length) '0' ++ digits)

/-- `n` in base sixteen with the mark `0x` and lower-case digits. -/
def hexadecimal (n : Nat) : String :=
  "0x" ++ String.ofList (Nat.toDigits 16 n)

def digit (base : Nat) (c : Char) : Option Nat :=
  let value :=
    if '0' ≤ c ∧ c ≤ '9' then c.toNat - '0'.toNat
    else if 'a' ≤ c ∧ c ≤ 'f' then c.toNat - 'a'.toNat + 10
    else if 'A' ≤ c ∧ c ≤ 'F' then c.toNat - 'A'.toNat + 10
    else base
  if value < base then some value else none

/-- The number that the digits `cs` write, of which there is at least one. -/
def value (base : Nat) (cs : List Char) : Option Nat :=
  if cs.isEmpty then none
  else cs.foldlM (fun n c => (digit base c).map (base * n + ·)) 0

end Radix

/-- The bytes that pairs of digits write. -/
def Hex.bytes : List Char → Option (List UInt8)
  | [] => some []
  | [_] => none
  | high :: low :: rest => do
    let h ← Radix.digit 16 high
    let l ← Radix.digit 16 low
    return UInt8.ofNat (16 * h + l) :: (← bytes rest)

end Wma
