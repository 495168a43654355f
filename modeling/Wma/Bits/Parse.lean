import Wma.Bits.Reader
import Wma.Word

/-!
# Parsing steps

A `Parse σ α` reads bits, works on a state of type `σ` and gives an `α` or an error. What it did to
the cursor and to the state before it failed stays: a damaged frame leaves its mark, and the caller
decides what to drop.

`focus` runs a step on a part of the state, and `elsewhere` runs it on another reader.
-/

namespace Wma

structure Scan (σ : Type) where
  reader : BitReader
  state : σ

/-- A step that reads bits and works on a state; its effects outlast its failure. -/
abbrev Parse (σ : Type) : Type → Type :=
  EStateM Error (Scan σ)

namespace Parse

variable {σ τ α : Type}

def ofReader (f : BitReader → Except Error (α × BitReader)) : Parse σ α := fun s =>
  match f s.reader with
  | .ok (a, r) => .ok a { s with reader := r }
  | .error e => .error e s

def read (count : Nat) : Parse σ Nat :=
  ofReader (·.read count)

def readBit : Parse σ Bool :=
  ofReader BitReader.readBit

def skip (count : Nat) : Parse σ Unit :=
  ofReader fun r => (r.skip count).map ((), ·)

/-- Moves the cursor to the next byte boundary. -/
def align : Parse σ Unit := fun s =>
  .ok () { s with reader := s.reader.align }

def reader : Parse σ BitReader := fun s =>
  .ok s.reader s

def state : Parse σ σ := fun s =>
  .ok s.state s

def setState (a : σ) : Parse σ Unit := fun s =>
  .ok () { s with state := a }

def update (f : σ → σ) : Parse σ Unit := fun s =>
  .ok () { s with state := f s.state }

def updateM (f : σ → Except Error σ) : Parse σ Unit := fun s =>
  match f s.state with
  | .ok a => .ok () { s with state := a }
  | .error e => .error e s

def ofExcept : Except Error α → Parse σ α
  | .ok a => fun s => .ok a s
  | .error e => fun s => .error e s

def corrupt (cause : StreamCause) : Parse σ α := fun s =>
  .error (.corrupt cause) s

def require (p : Prop) [Decidable p] (cause : StreamCause) : Parse σ Unit :=
  if p then pure () else corrupt cause

/-- Runs a step on the part of the state that `get` shows and `set` puts back. -/
def focus (get : σ → τ) (set : τ → σ → σ) (p : Parse τ α) : Parse σ α := fun s =>
  match p ⟨s.reader, get s.state⟩ with
  | .ok a t => .ok a ⟨t.reader, set t.state s.state⟩
  | .error e t => .error e ⟨t.reader, set t.state s.state⟩

/-- Runs a step on the reader `r`; the reader at hand stays where it is. -/
def elsewhere (r : BitReader) (p : Parse σ α) : Parse σ α := fun s =>
  match p ⟨r, s.state⟩ with
  | .ok a t => .ok a ⟨s.reader, t.state⟩
  | .error e t => .error e ⟨s.reader, t.state⟩

end Parse

end Wma
