import Wma.Frame.State

/-!
# Block lengths

A block states the length of the block after it, so that its window is known. The length of the
block itself was stated by the block before, unless the lengths are reset: then the block states its
own length and that of the block before as well. Streams whose frames are not split state nothing.
-/

namespace Wma.BlockState

def readBits {σ : Type} (c : Config) : Parse σ Nat := do
  let index ← Parse.read c.selectorBits
  Parse.require (index < c.sizeCount) (.blockSizeIndex index c.sizeCount)
  Parse.ofExcept (difference c.frameBits index)

/-- Reads the lengths of the block before and of the block itself. -/
def readReset (c : Config) : Parse BlockState Unit := do
  Parse.update fun b => { b with reset := false }
  let prevBits ← readBits c
  Parse.update fun b => { b with prevBits }
  let bits ← readBits c
  Parse.update fun b => { b with bits }

/-- Goes on to the next block, whose length is known. -/
def advance (b : BlockState) : BlockState :=
  { b with prevBits := b.bits, bits := b.nextBits }

/-- Goes on to the next block and reads what it states of lengths. -/
def readLengths (c : Config) : Parse BlockState Unit := do
  if c.variableBlocks then
    if (← Parse.state).reset then readReset c else Parse.update advance
    let nextBits ← readBits c
    Parse.update fun b => { b with nextBits }
  else
    Parse.update fun b =>
      { b with prevBits := c.frameBits, bits := c.frameBits, nextBits := c.frameBits }

/-- Goes on to the next block, which must not go beyond the frame. -/
def read (c : Config) : Parse BlockState Unit := do
  readLengths c
  Parse.ofExcept (checkShift (← Parse.state).bits)
  Parse.update fun b => { b with length := 2 ^ b.bits }
  let b ← Parse.state
  Parse.require (b.position + b.length ≤ c.frameLength) (.blockOverrun b.length b.position)

end Wma.BlockState
