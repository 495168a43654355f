import Wma.Text.Radix

/-!
# JSON

`Json.ofText` reads a JSON text. It keeps what parameters can be made of: natural numbers that are
not too long for a word, lists and objects. Of every other value it makes sure that it is well
formed, and keeps nothing.

The names of members may be written with escapes. An escape stands for one unit of sixteen bits, and
two units that make up a character must stand next to each other; a name in which they do not is
kept as no name at all.
-/

namespace Wma

inductive Json
  /-- A number of few digits without sign, fraction and exponent. -/
  | natural (n : Nat)
  | list (items : List Json)
  | object (members : List (Option String × Json))
  | other
deriving Inhabited

namespace Json

/-- Whether a character may stand between values. -/
def isBlank (c : Char) : Bool :=
  c == ' ' || c == '\t' || c == '\n' || c == '\r'

def skipBlanks (s : List Char) : List Char :=
  s.dropWhile isBlank

/-! ### Numbers -/

def skipDigits (s : List Char) : Option (List Char) :=
  if (s.takeWhile Char.isDigit).isEmpty then none else some (s.dropWhile Char.isDigit)

/-- The digits of the whole part of a number, and the rest. A whole part of several digits does not
begin with zero. -/
def whole (s : List Char) : Option (List Char × List Char) := do
  let rest ← skipDigits s
  let digits := s.takeWhile Char.isDigit
  if digits.head? = some '0' ∧ digits.length ≠ 1 then none else some (digits, rest)

def skipFraction : List Char → Option (List Char)
  | '.' :: s => skipDigits s
  | s => some s

def skipSign : List Char → List Char
  | '+' :: s => s
  | '-' :: s => s
  | s => s

def skipExponent : List Char → Option (List Char)
  | 'e' :: s => skipDigits (skipSign s)
  | 'E' :: s => skipDigits (skipSign s)
  | s => some s

/-- Whether a number ends with its whole part. -/
def endsWhole : List Char → Bool
  | c :: _ => c != '.' && c != 'e' && c != 'E'
  | [] => true

/-- The most digits of a number that is kept. Twenty digits are enough for any word of 64 bits. -/
def maxDigits : Nat := 20

def unsigned (s : List Char) : Option (Json × List Char) := do
  let (digits, s) ← whole s
  let rest ← skipExponent (← skipFraction s)
  if digits.length ≤ maxDigits ∧ endsWhole s then
    return (natural (← Radix.value 10 digits), rest)
  else
    return (other, rest)

def number : List Char → Option (Json × List Char)
  | '-' :: s => (unsigned s).map fun (_, rest) => (other, rest)
  | s => unsigned s

/-! ### Texts -/

/-- The unit that a letter stands for behind a backslash. -/
def escape : Char → Option Nat
  | '"' => some 0x22
  | '\\' => some 0x5c
  | '/' => some 0x2f
  | 'b' => some 0x08
  | 'f' => some 0x0c
  | 'n' => some 0x0a
  | 'r' => some 0x0d
  | 't' => some 0x09
  | _ => none

/-- Reads the units of a text behind its opening mark. -/
def units : List Char → Option (List Nat × List Char)
  | [] => none
  | '"' :: s => some ([], s)
  | '\\' :: 'u' :: a :: b :: c :: d :: s => do
    let unit ← Radix.value 16 [a, b, c, d]
    (units s).map fun (us, rest) => (unit :: us, rest)
  | '\\' :: c :: s => do
    let unit ← escape c
    (units s).map fun (us, rest) => (unit :: us, rest)
  | c :: s =>
    if c.toNat < 0x20 then none
    else (units s).map fun (us, rest) => (c.toNat :: us, rest)

/-- Whether a unit is the first of two that make up a character. -/
def isHigh (unit : Nat) : Bool :=
  0xd800 ≤ unit && unit < 0xdc00

def isLow (unit : Nat) : Bool :=
  0xdc00 ≤ unit && unit < 0xe000

def characters : List Nat → Option (List Char)
  | [] => some []
  | high :: low :: us =>
    if isHigh high then
      if isLow low then
        (characters us).map
          (Char.ofNat ((high - 0xd800) * 0x400 + (low - 0xdc00) + 0x10000) :: ·)
      else
        none
    else if isLow high then
      none
    else
      (characters (low :: us)).map (Char.ofNat high :: ·)
  | [unit] => if isHigh unit || isLow unit then none else some [Char.ofNat unit]

/-- Reads a text behind its opening mark. -/
def text (s : List Char) : Option (Option String × List Char) :=
  (units s).map fun (us, rest) => ((characters us).map String.ofList, rest)

/-! ### Values -/

/-- Reads a value that has no parts. -/
def leaf : List Char → Option (Json × List Char)
  | '"' :: s => (text s).map fun (_, rest) => (other, rest)
  | 'n' :: 'u' :: 'l' :: 'l' :: s => some (other, s)
  | 't' :: 'r' :: 'u' :: 'e' :: s => some (other, s)
  | 'f' :: 'a' :: 'l' :: 's' :: 'e' :: s => some (other, s)
  | s => number s

/-- Reads the name of a member and the colon behind it. -/
def memberName (s : List Char) : Option (Option String × List Char) :=
  match skipBlanks s with
  | '"' :: s =>
    match text s with
    | some (name, s) =>
      match skipBlanks s with
      | ':' :: s => some (name, s)
      | _ => none
    | none => none
  | _ => none

mutual

/-- Reads a value. `limit` bounds the depth of the calls. -/
def value : (limit : Nat) → List Char → Option (Json × List Char)
  | 0, _ => none
  | limit + 1, s =>
    match skipBlanks s with
    | '[' :: s =>
      match skipBlanks s with
      | ']' :: s => some (list [], s)
      | s => (items limit s).map fun (xs, rest) => (list xs, rest)
    | '\x7b' :: s =>
      match skipBlanks s with
      | '\x7d' :: s => some (object [], s)
      | s => (members limit s).map fun (ms, rest) => (object ms, rest)
    | s => leaf s

def items : (limit : Nat) → List Char → Option (List Json × List Char)
  | 0, _ => none
  | limit + 1, s => do
    let (x, s) ← value limit s
    match skipBlanks s with
    | ',' :: s => (items limit s).map fun (xs, rest) => (x :: xs, rest)
    | ']' :: s => some ([x], s)
    | _ => none

def members : (limit : Nat) → List Char → Option (List (Option String × Json) × List Char)
  | 0, _ => none
  | limit + 1, s => do
    let (name, s) ← memberName s
    let (x, s) ← value limit s
    match skipBlanks s with
    | ',' :: s => (members limit s).map fun (ms, rest) => ((name, x) :: ms, rest)
    | '\x7d' :: s => some ([(name, x)], s)
    | _ => none

end

/-- Reads a JSON text. Two calls take at least one character, which bounds their depth. -/
def ofText (s : String) : Option Json := do
  let s := s.toList
  let (x, rest) ← value (2 * s.length + 2) s
  if (skipBlanks rest).isEmpty then some x else none

/-! ### Contents -/

def naturalBelow (bound : Nat) : Json → Option Nat
  | natural n => if n < bound then some n else none
  | _ => none

def bytes : Json → Option (Array UInt8)
  | list items => do return ((← items.mapM (naturalBelow 256)).map UInt8.ofNat).toArray
  | _ => none

end Json

end Wma
