import Wma.Bits.Parse

/-!
# Superframe headers

A superframe is a packet that holds several frames. Its header counts the frames that end in the
packet, one more if the packet begins with a new frame, and tells how many bits belong to the frame
that earlier packets have begun. The second number is left out if no frame ends in the packet.
-/

namespace Wma

structure SuperframeHeader where
  /-- The count of frames as it is coded. -/
  framesEnding : Nat
  /-- Bits that belong to the frame begun earlier. -/
  bitOffset : Nat
  width : Nat
deriving DecidableEq, Repr

namespace SuperframeHeader

variable {σ : Type}

/-- The count of frames in the header of a packet in which no frame ends. -/
def idleCount (carried : Bool) : Nat :=
  if carried then 0 else 1

def readIdle (framesEnding : Nat) : Parse σ SuperframeHeader := do
  let r ← Parse.reader
  Parse.require (8 < r.left) (.continuationTooShort (r.position + r.left))
  return ⟨framesEnding, 0, r.position⟩

def readFull (offsetBits framesEnding : Nat) : Parse σ SuperframeHeader := do
  let bitOffset ← Parse.read (offsetBits + 3)
  let r ← Parse.reader
  Parse.require (bitOffset ≤ r.left) (.bitOffset bitOffset)
  return ⟨framesEnding, bitOffset, r.position⟩

/-- Reads a header. `carried` tells whether earlier packets have begun a frame. -/
def read (offsetBits : Nat) (carried : Bool) : Parse σ SuperframeHeader := do
  Parse.skip 4
  let framesEnding ← Parse.read 4
  Parse.require (framesEnding ≠ 0 ∨ carried) .noFrames
  if framesEnding = idleCount carried then readIdle framesEnding
  else readFull offsetBits framesEnding

def frameCount (h : SuperframeHeader) (carried : Bool) : Nat :=
  h.framesEnding - idleCount carried

end SuperframeHeader

end Wma
