import Wma.Buffer
import Wma.Synthesis.Window

/-!
# Overlap

A block of `2 ^ bits` coefficients has twice as many samples, which overlap with those of its
neighbours. Its left half is added to what the block before left in the buffer; behind the slope it
replaces what is there. Its right half is new and replaces what is there throughout.
-/

namespace Wma.BlockShape

def samples (s : BlockShape) : Nat :=
  2 * 2 ^ s.bits

/-- The sample `x` of a left half, at a place `w` of the slope, upon `o` of the block before. -/
def fadeIn (o x w : Int32) : Int32 :=
  addSaturated o (mulQ31 x w)

def fadeOut (_o x w : Int32) : Int32 :=
  mulQ31 x w

/-- Works on the beginning of `out`, as far as the samples and the slope go as well. -/
def fade (f : Int32 → Int32 → Int32 → Int32) (out input slope : Array Int32) : Array Int32 :=
  Buffer.overlay out (((out.zip input).zip slope).map fun ((o, x), w) => f o x w)

/-- Works in the same way on `count` samples from `start` on. -/
def fadeAt (f : Int32 → Int32 → Int32 → Int32) (start count : Nat) (out input slope : Array Int32) :
    Except Error (Array Int32) := do
  Buffer.splice out start
    (fade f (← Buffer.slice out start count) (← Buffer.slice input start count) slope)

/-- Samples of a block before the slope of a shorter neighbour, or behind it. -/
def checkedMargin (bits neighbourBits : Nat) : Except Error Nat := do
  checkShift neighbourBits
  return (← difference (2 ^ bits) (2 ^ neighbourBits)) / 2

/-- Adds a left half to `out`. -/
def addLeft (s : BlockShape) (out input : Array Int32) : Except Error (Array Int32) := do
  if s.bits ≤ s.prevBits then
    return fade fadeIn out input (Window.slope s.bits)
  else
    let margin ← checkedMargin s.bits s.prevBits
    let faded ← fadeAt fadeIn margin (2 ^ s.prevBits) out input (Window.slope s.prevBits)
    let behind := margin + 2 ^ s.prevBits
    Buffer.replaceRest faded behind (← Buffer.rest input behind)

/-- Writes a right half over `out`. -/
def writeRight (s : BlockShape) (out input : Array Int32) : Except Error (Array Int32) := do
  if s.bits ≤ s.nextBits then
    return fade fadeOut out input (Window.slope s.bits).reverse
  else
    let margin ← checkedMargin s.bits s.nextBits
    let flat ← Buffer.splice out 0 (← Buffer.slice input 0 margin)
    let faded ← fadeAt fadeOut margin (2 ^ s.nextBits) flat input (Window.slope s.nextBits).reverse
    let behind := margin + 2 ^ s.nextBits
    Buffer.replaceRest faded behind (Array.replicate (← Buffer.rest faded behind).size 0)

/-- Adds the samples of a block to `buffer` from `start` on. -/
def overlapAdd (s : BlockShape) (buffer : Array Int32) (start : Nat) (input : Array Int32) :
    Except Error (Array Int32) := do
  checkShift s.bits
  let length := 2 ^ s.bits
  let samples ← word64 (2 * length)
  let out ← Buffer.slice buffer start samples
  let block ← Buffer.slice input 0 samples
  let left ← s.addLeft (out.extract 0 length) (block.extract 0 length)
  let right ← s.writeRight (out.extract length samples) (block.extract length samples)
  Buffer.splice buffer start (left ++ right)

end Wma.BlockShape
