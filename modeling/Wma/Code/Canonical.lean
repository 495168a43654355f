import Wma.Code.PrefixCode

/-!
# Canonical codes

A canonical code is given by the lengths of its words alone: in the order of length, and of symbols
among words of one length, each word is the successor of the one before, filled up with zeros to its
own length. Unused words are then the last ones.
-/

namespace Wma.Canonical

/-- Symbols with the lengths of their words, shortest first; a symbol of length zero has no word. -/
def order (lengths : List Nat) : List (Nat × Nat) :=
  (lengths.zipIdx.filter (·.1 ≠ 0)).mergeSort (fun a b => a.1 ≤ b.1)

structure Progress where
  /-- The first free word of `width` bits. -/
  next : Nat
  width : Nat
  /-- The words of all symbols, zero where none has been handed out. -/
  words : Array Nat

def assign (p : Progress) : Nat × Nat → Except Error Progress
  | (length, symbol) =>
    if PrefixCode.maxLength < length then
      .error (.setup (.codeLength length))
    else
      let word := p.next * 2 ^ (length - p.width)
      if 2 ^ length ≤ word then
        .error (.setup .oversubscribed)
      else
        .ok ⟨word + 1, length, p.words.setIfInBounds symbol word⟩

def words (lengths : List Nat) : Except Error (List Nat) := do
  let start : Progress := ⟨0, 0, Array.replicate lengths.length 0⟩
  let done ← (order lengths).foldlM assign start
  return done.words.toList

def code (lengths : List Nat) (window : Nat) : Except Error PrefixCode := do
  PrefixCode.ofWords (← words lengths) lengths window

end Wma.Canonical
