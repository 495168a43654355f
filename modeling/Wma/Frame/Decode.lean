import Wma.Frame.Lengths
import Wma.Frame.Spectra
import Wma.Frame.Synthesis

/-!
# Frames

A frame is a row of blocks that add up to the frame length. `Frame.decode` reads one frame and gives
its values, left and right in turn.
-/

namespace Wma.Frame

/-- Reads which channels of a block are coded, and whether they are mid and side. -/
def readCoded (c : Config) : Parse FrameState Unit := do
  let midSide ← if c.channels = .stereo then Parse.readBit else pure false
  FrameState.onBlock <| Parse.update fun b => { b with midSide }
  FrameState.eachChannel fun _ => do
    let coded ← Parse.readBit
    Lane.onChannel <| Parse.update fun c => { c with coded }

def readBlock (s : Stream) : Parse FrameState Unit := do
  FrameState.onBlock (BlockState.read s.config)
  readCoded s.config
  if (← Parse.state).channels.toList.any (·.coded) then
    FrameState.readSpectra s
  FrameState.synthesize s.config
  FrameState.onBlock <| Parse.update fun b => { b with position := b.position + b.length }

/-- Reads blocks until the frame is complete. `limit` bounds their number. -/
def readBlocks (s : Stream) : (limit : Nat) → Parse FrameState Unit
  | 0 => Parse.ofExcept (.error (.fault .progress))
  | limit + 1 => do
    readBlock s
    if (← Parse.state).block.position < s.config.frameLength then readBlocks s limit

/-- Reads a frame and gives its values. No block is empty, so it has no more blocks than samples. -/
def decode (s : Stream) : Parse FrameState (Array Int16) := do
  FrameState.onBlock <| Parse.update fun b => { b with position := 0 }
  readBlocks s s.config.frameLength
  let values ← Parse.ofExcept ((← Parse.state).values s.config)
  Parse.update (·.shift s.config)
  return values

end Wma.Frame
