import Wma.Error

/-!
# Code tables

A `CodeTable` tells code words apart by the bits ahead: a run of bits is an index into the table, and
the entry there is the word that they begin with, or says which part of the table goes on with longer
words. The table grows while words are entered, and a place that is taken is never overwritten.

A table may have more than `2 ^ 32` places, nearly all of them empty, so `CodeEntries` keeps only
those that are not.
-/

namespace Wma

/-- What a place of a code table says about the bits that lead there. -/
inductive CodeEntry
  /-- No word begins with them. -/
  | empty
  /-- They begin with a word; `length` counts its bits since the beginning of this part. -/
  | word (symbol length : Nat)
  /-- Longer words begin with them, and the next `bits` bits lead on from the place `start`. -/
  | part (start bits : Nat)
deriving DecidableEq, Repr

/-- Entries by their index: the index 0 is `here`, and the indices `2 * i + 1` and `2 * i + 2` are
those at `i` to the left and to the right. What is left out is empty. -/
inductive CodeEntries
  | nil
  | node (here : CodeEntry) (left right : CodeEntries)

namespace CodeEntries

def here : CodeEntries → CodeEntry
  | nil => .empty
  | node e _ _ => e

def left : CodeEntries → CodeEntries
  | nil => nil
  | node _ l _ => l

def right : CodeEntries → CodeEntries
  | nil => nil
  | node _ _ r => r

def get : CodeEntries → Nat → CodeEntry
  | nil, _ => .empty
  | node e _ _, 0 => e
  | node _ l r, i + 1 => if i % 2 = 0 then l.get (i / 2) else r.get (i / 2)

def put (e : CodeEntry) (t : CodeEntries) : Nat → CodeEntries
  | 0 => node e t.left t.right
  | i + 1 =>
    if i % 2 = 0 then node t.here (put e t.left (i / 2)) t.right
    else node t.here t.left (put e t.right (i / 2))

@[simp] theorem get_nil (i : Nat) : nil.get i = .empty := rfl

theorem get_zero (t : CodeEntries) : t.get 0 = t.here := by
  cases t <;> rfl

theorem get_succ (t : CodeEntries) (i : Nat) :
    t.get (i + 1) = if i % 2 = 0 then t.left.get (i / 2) else t.right.get (i / 2) := by
  cases t with
  | nil => simp [get, left, right]
  | node e l r => rfl

theorem get_put (e : CodeEntry) (t : CodeEntries) (i j : Nat) :
    (t.put e i).get j = if j = i then e else t.get j := by
  fun_induction put e t i generalizing j with
  | case1 t => cases j <;> simp [get, get_succ]
  | case2 t i even ih =>
    cases j with
    | zero => simp [get, get_zero]
    | succ j =>
      rw [get, get_succ]
      split
      · rw [ih]
        simp only [show j / 2 = i / 2 ↔ j + 1 = i + 1 by omega]
      · rw [if_neg (by omega)]
  | case3 t i odd ih =>
    cases j with
    | zero => simp [get, get_zero]
    | succ j =>
      rw [get, get_succ]
      split
      · rw [if_neg (by omega)]
      · rw [ih]
        simp only [show j / 2 = i / 2 ↔ j + 1 = i + 1 by omega]

end CodeEntries

structure CodeTable where
  size : Nat
  entries : CodeEntries
  get_eq_empty : ∀ i, size ≤ i → entries.get i = .empty

namespace CodeTable

def ofSize (n : Nat) : CodeTable where
  size := n
  entries := .nil
  get_eq_empty _ _ := rfl

/-- The entry at the place `i`, which is empty behind the end. -/
def entry (t : CodeTable) (i : Nat) : CodeEntry :=
  t.entries.get i

def lookup (t : CodeTable) (i : Nat) : Except Error CodeEntry :=
  if i < t.size then .ok (t.entry i) else .error (.fault .index)

def set (t : CodeTable) (i : Nat) (e : CodeEntry) : Except Error CodeTable :=
  if h : i < t.size then
    .ok { t with
      entries := t.entries.put e i
      get_eq_empty := fun j hj => by
        rw [CodeEntries.get_put, if_neg (by omega), t.get_eq_empty j hj] }
  else
    .error (.fault .index)

/-- Adds `count` empty places at the end. -/
def grow (t : CodeTable) (count : Nat) : CodeTable where
  size := t.size + count
  entries := t.entries
  get_eq_empty i hi := t.get_eq_empty i (by omega)

/-- Puts `e` into an empty place. -/
def occupy (e : CodeEntry) (t : CodeTable) (i : Nat) : Except Error CodeTable := do
  match ← t.lookup i with
  | .empty => t.set i e
  | _ => .error (.setup .wordsOverlap)

/-- Puts `e` into the `count` places from `start` on, all of which must be empty. -/
def fill (t : CodeTable) (start count : Nat) (e : CodeEntry) : Except Error CodeTable :=
  if start + count ≤ t.size then
    (List.range' start count).foldlM (occupy e) t
  else
    .error (.fault .index)

end CodeTable

end Wma
