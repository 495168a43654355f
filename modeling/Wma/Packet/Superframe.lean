import Wma.Frame.Decode
import Wma.Packet.Header
import Wma.Packet.Reservoir

/-!
# Packets

A packet is either one frame or a superframe. A superframe begins with the end of a frame that
earlier packets have begun, goes on with whole frames, and ends with the beginning of a frame that
later packets complete. Values are written over the beginning of a buffer, frame by frame; whether
it has room for all of them is known before anything changes.
-/

namespace Wma

/-- What a packet changes. -/
structure Session where
  frames : FrameState
  reservoir : Reservoir
  pcm : Array Int16

namespace Session

def maxFrames : Nat := 15

def onReservoir {α : Type} (p : Parse Reservoir α) : Parse Session α :=
  Parse.focus (·.reservoir) (fun r s => { s with reservoir := r }) p

def requireRoom (s : Stream) (count : Nat) : Parse Session Unit := do
  let got := (← Parse.state).pcm.size
  let needed := count * s.config.frameSamples
  if got < needed then throw (.outputTooSmall got needed)

/-- Decodes a frame and writes its values behind those of `index` frames. -/
def decodeFrame (s : Stream) (index : Nat) : Parse Session Unit := do
  let values ← Parse.focus (·.frames) (fun f x => { x with frames := f }) (Frame.decode s)
  Parse.updateM fun x => do
    return { x with pcm := ← Buffer.splice x.pcm (index * s.config.frameSamples) values }

/-- Decodes frames one after the other, the first of them behind `index` frames. -/
def decodeFrames (s : Stream) : (count index : Nat) → Parse Session Unit
  | 0, _ => return ()
  | count + 1, index => do
    decodeFrame s index
    decodeFrames s count (index + 1)

/-- Completes the frame that earlier packets have begun with the next `bitOffset` bits. -/
def decodeCarried (s : Stream) (bitOffset : Nat) : Parse Session Unit := do
  let held := (← Parse.state).reservoir.size
  onReservoir (Reservoir.appendBits bitOffset)
  let r := (← Parse.state).reservoir
  Parse.elsewhere (BitReader.ofBits r.bytes (8 * held + bitOffset)) do
    Parse.skip r.bitOffset
    decodeFrame s 0

/-- Decodes `count` frames that begin `places` bits ahead. The first of them states all lengths. -/
def decodeFresh (s : Stream) (places count index : Nat) : Parse Session Unit := do
  Parse.skip places
  Parse.update fun x => { x with frames := x.frames.resetLengths }
  decodeFrames s count index

/-- Keeps what comes behind the cursor, which is in the part of the packet from byte `base` on, for
later packets. -/
def keepTail (packet : Array UInt8) (base : Nat) : Parse Session Unit := do
  let tail := (← Parse.reader).position + 8 * base
  let bytes ← Parse.ofExcept (Buffer.rest packet (tail / 8))
  onReservoir (Reservoir.store bytes (tail % 8))

/-- Decodes `count` frames that begin at bit `start` of the packet, and keeps what comes behind them
for later packets. -/
def decodeWhole (s : Stream) (packet : Array UInt8) (start count index : Nat) :
    Parse Session Unit := do
  let base := start / 8
  let body ← Parse.ofExcept (Buffer.rest packet base)
  Parse.elsewhere (BitReader.ofBytes body) do
    decodeFresh s (start % 8) count index
    keepTail packet base

def decodeBody (s : Stream) (packet : Array UInt8) (carried : Bool) (h : SuperframeHeader) :
    Parse Session Nat := do
  let count := h.frameCount carried
  if count = 0 then
    let payload ← Parse.ofExcept (Buffer.rest packet (h.width / 8))
    onReservoir (Reservoir.extend payload)
  else
    requireRoom s count
    let start := h.width + h.bitOffset
    if carried then
      decodeCarried s h.bitOffset
      decodeWhole s packet start (count - 1) 1
    else
      decodeWhole s packet start count 0
  return count

/-- Decodes a superframe and gives the number of its frames. The reader is at the beginning of the
packet. -/
def decodeSuperframe (s : Stream) (packet : Array UInt8) : Parse Session Nat := do
  let carried := !(← Parse.state).reservoir.isEmpty
  let h ← SuperframeHeader.read s.config.offsetBits carried
  decodeBody s packet carried h

def decodeSingle (s : Stream) : Parse Session Nat := do
  requireRoom s 1
  decodeFrame s 0
  return 1

end Session

end Wma
