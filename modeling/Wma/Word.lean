import Wma.Error

/-!
# Numbers and the words that hold them

Samples and coefficients are 32-bit words; products of two of them are 64-bit words. `saturate`
brings a number to the nearest 32-bit word, `int32`, `int64`, `word` and `word64` let a number pass
only if the word holds it, `signed32`, `wrap32` and `wrap64` take a number modulo the size of the
word, and `difference` refuses to go below zero. Products of two 32-bit words are formed in 64 bits
and rounded down.
-/

namespace Wma

/-- The 32-bit word nearest to `x`. -/
def saturate (x : Int) : Int32 :=
  Int32.ofInt (max (-2 ^ (31 : Nat)) (min x (2 ^ (31 : Nat) - 1)))

def saturate64 (x : Int64) : Int32 :=
  if 2147483647 < x then 2147483647 else if x < -2147483648 then -2147483648 else x.toInt32

/-- Sum of two words, brought back into the word. -/
def addSaturated (a b : Int32) : Int32 :=
  saturate64 (a.toInt64 + b.toInt64)

def subSaturated (a b : Int32) : Int32 :=
  saturate64 (a.toInt64 - b.toInt64)

/-- Negation that sends the least word to the greatest. -/
def negSaturated (a : Int32) : Int32 :=
  subSaturated 0 a

/-- Whether a signed word of 32 bits holds `x`. -/
def FitsInt32 (x : Int) : Prop :=
  -2 ^ (31 : Nat) ≤ x ∧ x < 2 ^ (31 : Nat)

def FitsInt64 (x : Int) : Prop :=
  -2 ^ (63 : Nat) ≤ x ∧ x < 2 ^ (63 : Nat)

instance (x : Int) : Decidable (FitsInt32 x) :=
  inferInstanceAs (Decidable (_ ∧ _))

instance (x : Int) : Decidable (FitsInt64 x) :=
  inferInstanceAs (Decidable (_ ∧ _))

/-- `x`, if a signed word of 32 bits holds it. -/
def int32 (x : Int) : Except Error Int :=
  if FitsInt32 x then .ok x else .error (.fault .word)

def int64 (x : Int) : Except Error Int :=
  if FitsInt64 x then .ok x else .error (.fault .word)

/-- `n`, if a word of `bits` bits holds it. -/
def word (bits n : Nat) : Except Error Nat :=
  if n < 2 ^ bits then .ok n else .error (.fault .word)

def word64 (n : Nat) : Except Error Nat :=
  word 64 n

/-- The negation of a word, which the least word has none of. -/
def negate (a : Int32) : Except Error Int32 :=
  if a = Int32.minValue then .error (.fault .word) else .ok (-a)

/-- The value of `x` modulo `2 ^ 64` that a signed word of 64 bits holds. -/
def wrap64 (x : Int) : Int :=
  x.bmod (2 ^ (64 : Nat))

def wrap32 (x : Int) : Int :=
  x.bmod (2 ^ (32 : Nat))

/-- The signed word of 32 bits that has the bits of `n`. -/
def signed32 (n : Nat) : Int :=
  wrap32 n

/-- Fails unless a word of 64 bits can be shifted by `places`. -/
def checkShift (places : Nat) : Except Error Unit :=
  if places < 64 then .ok () else .error (.fault .word)

def difference (a b : Nat) : Except Error Nat :=
  if b ≤ a then .ok (a - b) else .error (.fault .negative)

/-! ### Products -/

def mac64 (acc : Int64) (a b : Int32) : Int64 :=
  acc + a.toInt64 * b.toInt64

/-- `a * b / 2 ^ shift`, rounded down and brought into the word. -/
def mulShift (a b : Int32) (shift : Nat) : Int32 :=
  saturate (a.toInt * b.toInt / 2 ^ shift)

/-- Product of two words of which one has 31 fractional bits. -/
def mulQ31 (a b : Int32) : Int32 :=
  saturate64 ((a.toInt64 * b.toInt64) >>> 31)

end Wma
