import Wma.Packet.Superframe

/-!
# Decoders

A `Decoder` takes one packet of a stream after another and writes 16-bit values, left and right in
turn, to a buffer of the caller. Values always come in pairs; a single channel goes to both sides.

`Decoder.decode` fails in three ways. A packet that is too short and a buffer that is too small
change nothing, so that the call can be made again. A damaged packet empties the reservoir, and the
next packet is decoded as if it were the first.
-/

namespace Wma

/-- A stream and what its packets have changed so far. -/
structure Decoder where
  stream : Stream
  frames : FrameState
  reservoir : Reservoir

structure DecodeReport where
  samples : Nat
  frames : Nat
  bytesConsumed : Nat
  /-- Bytes kept for the next packet. -/
  reservoirSize : Nat
deriving DecidableEq, Repr

/-- What a call gives back: the report or an error, the decoder, and the buffer. -/
structure DecodeOutcome where
  report : Except Error DecodeReport
  decoder : Decoder
  pcm : Array Int16

namespace Decoder

def ofStream (s : Stream) : Decoder where
  stream := s
  frames := .initial s.config
  reservoir := .empty

def ofParams (p : Params) : Except Error Decoder := do
  let config ← Config.ofParams p
  return ofStream (← Stream.ofConfig config)

def config (d : Decoder) : Config :=
  d.stream.config

/-- Size of a buffer that has room for the values of any packet. -/
def maxSamples (d : Decoder) : Nat :=
  (if d.config.bitReservoir then Session.maxFrames else 1) * d.config.frameSamples

def decodePacket (s : Stream) (packet : Array UInt8) : Parse Session Nat :=
  if s.config.bitReservoir then Session.decodeSuperframe s packet else Session.decodeSingle s

def reservoirAfter (e : Error) (r : Reservoir) : Reservoir :=
  match e with
  | .corrupt _ => .empty
  | _ => r

/-- Decodes the first `blockAlign` bytes of a packet. An empty packet marks the end of the
stream. -/
def decode (d : Decoder) (packet : Array UInt8) (pcm : Array Int16) : DecodeOutcome :=
  let needed := d.config.blockAlign
  if packet.isEmpty then
    ⟨.ok ⟨0, 0, 0, 0⟩, { d with reservoir := .empty }, pcm⟩
  else if packet.size < needed then
    ⟨.error (.insufficientInput packet.size needed), d, pcm⟩
  else
    let packet := packet.extract 0 needed
    match decodePacket d.stream packet ⟨.ofBytes packet, ⟨d.frames, d.reservoir, pcm⟩⟩ with
    | .ok count ⟨_, s⟩ =>
      ⟨.ok ⟨count * d.config.frameSamples, count, needed, s.reservoir.size⟩,
        { d with frames := s.frames, reservoir := s.reservoir }, s.pcm⟩
    | .error e ⟨_, s⟩ =>
      ⟨.error e, { d with frames := s.frames, reservoir := reservoirAfter e s.reservoir }, s.pcm⟩

/-- Goes back to the start of the stream, as after a jump to another place in it. -/
def flush (d : Decoder) : Decoder :=
  { d with frames := d.frames.restart d.config, reservoir := .empty }

end Decoder

end Wma
