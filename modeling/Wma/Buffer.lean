import Wma.Error

/-!
# Buffers

Access to arrays that fails with a fault outside their bounds. `splice` overwrites a part of a
buffer, `overlay` its beginning and `replaceRest` its end; all of them keep its size.
-/

namespace Wma.Buffer

variable {α : Type}

def lookup (a : Array α) (i : Nat) : Except Error α :=
  match a[i]? with
  | some x => .ok x
  | none => .error (.fault .index)

def room (a : Array α) (n : Nat) : Except Error Unit :=
  if n ≤ a.size then .ok () else .error (.fault .index)

def rest (a : Array α) (start : Nat) : Except Error (Array α) :=
  if start ≤ a.size then .ok (a.extract start a.size) else .error (.fault .index)

/-- The `count` elements from `start` on. -/
def slice (a : Array α) (start count : Nat) : Except Error (Array α) :=
  if start + count ≤ a.size then .ok (a.extract start (start + count)) else .error (.fault .index)

def head (a : Array α) (n : Nat) : Except Error (Vector α n) :=
  if h : n ≤ a.size then
    .ok ⟨a.extract 0 n, by rw [Array.size_extract, Nat.min_eq_left h, Nat.sub_zero]⟩
  else
    .error (.fault .index)

/-- Replaces the beginning of `a` by `b`. What of `b` goes beyond `a` is not left out. -/
def overlay (a b : Array α) : Array α :=
  b ++ a.extract b.size a.size

/-- Replaces the elements of `a` from `start` on by those of `b`. -/
def splice (a : Array α) (start : Nat) (b : Array α) : Except Error (Array α) :=
  if start + b.size ≤ a.size then
    .ok (a.extract 0 start ++ b ++ a.extract (start + b.size) a.size)
  else
    .error (.fault .index)

/-- Replaces the elements of `a` from `start` on by those of `b`, of which there must be as many. -/
def replaceRest (a : Array α) (start : Nat) (b : Array α) : Except Error (Array α) :=
  if start + b.size = a.size then .ok (a.extract 0 start ++ b) else .error (.fault .index)

end Wma.Buffer
