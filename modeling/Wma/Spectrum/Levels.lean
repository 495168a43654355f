import Wma.Bits.Parse
import Wma.Buffer
import Wma.Code.RunLevel

/-!
# Coefficient levels

The quantized coefficients of a block are read as runs of zeros and the levels after them, up to the
last coefficient or to the symbol that ends the block. A level is stored at its place before it is
known whether the runs stay within the block; the place is taken modulo the block length.
-/

namespace Wma.Levels

/-- Reads the pair that a symbol stands for. A pair written out has its level first. -/
def readPair (book : RunLevelBook) (levelBits runBits symbol : Nat) :
    Parse (Array Int32) RunLevel := do
  if symbol = RunLevelBook.escape then
    let level ← Parse.read levelBits
    let run ← Parse.read runBits
    return ⟨run, level⟩
  else
    Parse.ofExcept (Buffer.lookup book.pairs symbol)

/-- Stores a level at a place, modulo the size of the buffer, which is a power of two. -/
def place (position : Nat) (level : Int32) : Parse (Array Int32) Unit := do
  let size := (← Parse.state).size
  let mask ← Parse.ofExcept (difference size 1)
  let i := position &&& mask
  if i < size then
    Parse.update (·.setIfInBounds i level)
  else
    throw (.fault .index)

/-- Reads levels from `position` on and gives the position after the last one. Each level takes at
least one place, so `count` of them are enough. -/
def readFrom (book : RunLevelBook) (levelBits runBits count : Nat) :
    (limit : Nat) → (position : Nat) → Parse (Array Int32) Nat
  | 0, position => return position
  | limit + 1, position => do
    if count ≤ position then
      return position
    let symbol ← book.code.next
    if symbol = RunLevelBook.endOfBlock then
      return position
    let pair ← readPair book levelBits runBits symbol
    let positive ← Parse.readBit
    let level := Int32.ofNat pair.level
    place (position + pair.run) (← Parse.ofExcept (if positive then .ok level else negate level))
    readFrom book levelBits runBits count limit (position + pair.run + 1)

/-- Reads `count` coefficients over a buffer that is cleared first. -/
def read (book : RunLevelBook) (levelBits runBits count : Nat) : Parse (Array Int32) Unit := do
  Parse.update fun out => Array.replicate out.size 0
  let position ← readFrom book levelBits runBits count count 0
  Parse.require (position ≤ count) (.runOverflow position count)

end Wma.Levels
