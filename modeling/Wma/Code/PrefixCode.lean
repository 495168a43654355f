import Wma.Bits.Parse
import Wma.Code.Table

/-!
# Prefix codes

A `PrefixCode` reads symbols off a `BitReader`. `ofWords` builds it from one code word per symbol,
and `decode` looks up the bits ahead of the cursor.

The table of a code begins with a place for each pattern of `window` bits. A word that fits the
window takes all places that begin with it. Words that are longer are gathered by their first
`window` bits, and each group is given a part of its own behind all others, as wide as the longest of
its words asks for, where the rest of each word takes its places in the same way.
-/

namespace Wma

/-- A symbol with its code word: the low `length` bits of `bits`, the highest first. -/
structure CodeWord where
  symbol : Nat
  bits : Nat
  length : Nat
deriving DecidableEq, Repr

namespace CodeWord

/-- The low `n` bits of `value`, the highest first. -/
def bitsOf (value n : Nat) : List Bool :=
  (List.range n).map fun i => value.testBit (n - 1 - i)

def path (w : CodeWord) : List Bool :=
  bitsOf w.bits w.length

/-- The first `n` bits of a word as a number, for `n` up to its length. -/
def head (w : CodeWord) (n : Nat) : Nat :=
  w.bits / 2 ^ (w.length - n)

/-- What follows the first `n` bits of a word. -/
def tail (w : CodeWord) (n : Nat) : CodeWord where
  symbol := w.symbol
  bits := w.bits % 2 ^ (w.length - n)
  length := w.length - n

end CodeWord

namespace CodeTable

/-- Enters a word into the `2 ^ bits` places from `start` on. -/
def enter (start bits : Nat) (t : CodeTable) (w : CodeWord) : Except Error CodeTable :=
  t.fill (start + w.bits * 2 ^ (bits - w.length)) (2 ^ (bits - w.length)) (.word w.symbol w.length)

/-- Enters words that share their first `window` bits, in a part of their own. The place of that part
is kept in a word of 32 bits. -/
def enterGroup (window : Nat) (t : CodeTable) : List CodeWord → Except Error CodeTable
  | [] => .ok t
  | w :: ws => do
    let head := w.head window
    let bits := ((w :: ws).map (·.length - window)).max?.getD 1
    match ← t.lookup head with
    | .empty =>
      let taken ← t.set head (.part (t.size % 2 ^ (32 : Nat)) bits)
      ((w :: ws).map (·.tail window)).foldlM (enter t.size bits) (taken.grow (2 ^ bits))
    | _ => .error (.setup (.wordClash head))

/-- The words longer than the window, those with the same first bits together. -/
def groups (window : Nat) (words : List CodeWord) : List (List CodeWord) :=
  ((words.filter (window < ·.length)).mergeSort fun v w => v.head window ≤ w.head window).splitBy
    fun v w => v.head window == w.head window

def ofWords (window : Nat) (words : List CodeWord) : Except Error CodeTable := do
  let t ← (words.filter (·.length ≤ window)).foldlM (enter 0 window) (ofSize (2 ^ window))
  (groups window words).foldlM (enterGroup window) t

end CodeTable

namespace PrefixCode

def maxLength : Nat := 32

def wordsOf (words lengths : List Nat) : List CodeWord :=
  ((words.zip lengths).zipIdx.filter (·.1.2 ≠ 0)).map fun ((bits, length), symbol) =>
    ⟨symbol, bits, length⟩

/-- Refuses a word whose bits do not fit its length, or whose symbol is out of range. -/
def check (w : CodeWord) : Except Error Unit :=
  if maxLength < w.length ∨ 2 ^ w.length ≤ w.bits then
    .error (.setup (.wordTooWide w.bits w.symbol w.length))
  else if 65535 < w.symbol then
    .error (.setup (.symbolRange w.symbol))
  else
    .ok ()

end PrefixCode

/-- A code is a table that has been filled with words. -/
structure PrefixCode where
  /-- Number of bits that are looked up first. -/
  window : Nat
  table : CodeTable
  size : Nat
  window_pos : 1 ≤ window
  window_le : window ≤ 16
  filled : ∃ words : List CodeWord,
    words.forM PrefixCode.check = .ok () ∧ CodeTable.ofWords window words = .ok table

namespace PrefixCode

/-- Builds a code. Symbol `i` has the low `lengths[i]` bits of `words[i]`, or no word if the length
is zero. -/
def ofWords (words lengths : List Nat) (window : Nat) : Except Error PrefixCode :=
  if words.length ≠ lengths.length then
    .error (.setup (.codeCount words.length lengths.length))
  else if h : window = 0 ∨ 16 < window then
    .error (.setup (.windowWidth window))
  else
    match checked : (wordsOf words lengths).forM check with
    | .error e => .error e
    | .ok () =>
      match filled : CodeTable.ofWords window (wordsOf words lengths) with
      | .error e => .error e
      | .ok table => .ok {
          window, table
          size := (wordsOf words lengths).length
          window_pos := by omega
          window_le := by omega
          filled := ⟨_, checked, filled⟩ }

def invalidCode (bits width : Nat) : Error :=
  .corrupt (.invalidCode bits width)

def decode (c : PrefixCode) (r : BitReader) : Except Error (Nat × BitReader) := do
  let index := r.peek c.window
  match ← c.table.lookup index with
  | .word symbol length => (r.skip length).map (symbol, ·)
  | .part start bits =>
    let ahead := r.peek (c.window + bits)
    match ← c.table.lookup (start + ahead % 2 ^ bits) with
    | .word symbol length => (r.skip (c.window + length)).map (symbol, ·)
    | _ => .error (invalidCode ahead (c.window + bits))
  | .empty => .error (invalidCode index c.window)

def next {σ : Type} (c : PrefixCode) : Parse σ Nat :=
  Parse.ofReader c.decode

end PrefixCode

end Wma
