import Wma.Code.Canonical
import Wma.Code.Tables

/-!
# Run/level books

Coefficients are coded as pairs of a run of zeros and the level that follows it. A `RunLevelBook`
has a canonical code whose symbols stand for such pairs, and two more symbols: one that introduces a
pair written out in full, and one that ends the block.
-/

namespace Wma

/-- A run of zeros and the level after it. -/
structure RunLevel where
  run : Nat
  level : Nat
deriving DecidableEq, Repr, Inhabited

structure RunLevelBook where
  code : PrefixCode
  /-- The pairs of all symbols; the first two have none and hold zeros. -/
  pairs : Array RunLevel

namespace RunLevelBook

def escape : Nat := 0

def endOfBlock : Nat := 1

def window : Nat := 9

/-- The pairs of level `level`, and of the levels after it. -/
def pairsFrom : (level : Nat) → (runs : List Nat) → List RunLevel
  | _, [] => []
  | level, count :: runs => (List.range count).map (⟨·, level⟩) ++ pairsFrom (level + 1) runs

def pairsOf (layout : RunLevelLayout) : List RunLevel :=
  ⟨0, 0⟩ :: ⟨0, 0⟩ :: pairsFrom 1 layout.runs

/-- Builds a book, if it has as many words as pairs. -/
def ofLayout (layout : RunLevelLayout) : Except Error RunLevelBook := do
  let pairs := pairsOf layout
  if pairs.length ≠ layout.lengths.length then
    throw (.setup (.runLevelCount layout.lengths.length pairs.length))
  let code ← Canonical.code layout.lengths window
  return ⟨code, pairs.toArray⟩

end RunLevelBook

end Wma
