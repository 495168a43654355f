import Wma.Text.Radix

/-!
# Errors

An operation fails for a *cause*. Causes that make a stream or a table unusable are gathered in
`SetupCause`, damage found in coded data in `StreamCause`; `Error` adds the two ways in which a
caller can hand over too little. A `Fault` is none of these: it stands for a broken promise inside
the decoder, such as an index outside its buffer.

`Error.message` is the only place where errors are put into words.
-/

namespace Wma

/-- A broken promise inside the decoder. -/
inductive Fault
  /-- A position outside the buffer it belongs to. -/
  | index
  /-- A difference below zero. -/
  | negative
  /-- A number outside the word that holds it. -/
  | word
  /-- A loop that outran the bound on its steps. -/
  | progress
deriving DecidableEq, Repr

inductive SetupCause
  | codecTag (tag : Nat)
  | channelCount (count : Nat)
  | sampleRate (rate : Nat)
  | zeroBitRate
  | blockAlign (bytes : Nat)
  | noFlagWord (bytes : Nat)
  | headerTooWide (bitRate : Nat)
  | codeCount (words lengths : Nat)
  | windowWidth (bits : Nat)
  | wordTooWide (word symbol length : Nat)
  | symbolRange (symbol : Nat)
  | wordsOverlap
  | wordClash (window : Nat)
  | codeLength (length : Nat)
  | oversubscribed
  | runLevelCount (words pairs : Nat)
  | networkSize (bits : Nat)
  | transformSize (bits : Nat)
  | blockSize (bits : Nat)
deriving DecidableEq, Repr

inductive StreamCause
  | fieldTooWide (count : Nat)
  | overrun (count position bitLength : Nat)
  | invalidCode (window width : Nat)
  | exponentRange (exponent : Int)
  | runOverflow (position count : Nat)
  | blockSizeIndex (index count : Nat)
  | blockOverrun (length position : Nat)
  | noEnvelope
  | noBandLayout (index : Nat)
  | noFrames
  | continuationTooShort (bits : Nat)
  | bitOffset (offset : Nat)
  | reservoirBits (held bits : Nat)
  | reservoirBytes (held bytes : Nat)
  | tailTooLong (bytes : Nat)
deriving DecidableEq, Repr

inductive Error
  | setup (cause : SetupCause)
  /-- The coded data is damaged; only the current frame is lost. -/
  | corrupt (cause : StreamCause)
  /-- The packet is shorter than one coded unit. -/
  | insufficientInput (got needed : Nat)
  | outputTooSmall (got needed : Nat)
  | fault (fault : Fault)
deriving DecidableEq, Repr

namespace SetupCause

def message : SetupCause → String
  | codecTag tag => "unsupported codec tag " ++ Radix.hexadecimal tag
  | channelCount count => s!"unsupported channel count {count}"
  | sampleRate rate => s!"unsupported sample rate {rate}"
  | zeroBitRate => "bit rate must be non-zero"
  | blockAlign bytes => s!"unsupported block alignment {bytes}"
  | noFlagWord bytes => s!"codec-private data of {bytes} bytes does not hold a flag word"
  | headerTooWide bitRate => s!"bit rate {bitRate} is too high for the superframe header"
  | codeCount words lengths => s!"VLC has {words} codes but {lengths} lengths"
  | windowWidth bits => s!"VLC root table of {bits} bits is unsupported"
  | wordTooWide word symbol length =>
    "VLC code " ++ Radix.hexadecimal word ++
      s!" for symbol {symbol} does not fit in {length} bits"
  | symbolRange symbol => s!"VLC symbol {symbol} out of range"
  | wordsOverlap => "VLC codes overlap"
  | wordClash window =>
    "VLC prefix " ++ Radix.hexadecimal window ++ " is both a code and a code prefix"
  | codeLength length => s!"VLC code length {length} exceeds 32"
  | oversubscribed => "VLC code lengths over-subscribe the code space"
  | runLevelCount words pairs =>
    s!"coefficient codebook has {words} codes for {pairs} run/level pairs"
  | networkSize bits => s!"FFT of 2^{bits} points is unsupported"
  | transformSize bits => s!"IMDCT of 2^{bits} points is unsupported"
  | blockSize bits => s!"no transform for 2^{bits} coefficients"

end SetupCause

namespace StreamCause

def message : StreamCause → String
  | fieldTooWide count => s!"bit field of {count} bits is wider than 32"
  | overrun count position bitLength =>
    s!"read of {count} bits at bit {position} overruns {bitLength} bit buffer"
  | invalidCode window width => "invalid VLC code " ++ Radix.binary width window
  | exponentRange exponent => s!"exponent {exponent} out of range"
  | runOverflow position count => s!"coefficient run overflow ({position} > {count})"
  | blockSizeIndex index count => s!"block size index {index} out of range (< {count})"
  | blockOverrun length position => s!"block of {length} at {position} overruns the frame"
  | noEnvelope => "coded channel has no exponents"
  | noBandLayout index => s!"no band layout for block size index {index}"
  | noFrames => "superframe declares no frames"
  | continuationTooShort bits => s!"continuation packet of {bits} bits is too short"
  | bitOffset offset => s!"superframe bit offset {offset} exceeds the packet"
  | reservoirBits held bits => s!"bit reservoir overflow: {held} + {bits} bits"
  | reservoirBytes held bytes => s!"bit reservoir overflow: {held} + {bytes} bytes"
  | tailTooLong bytes => s!"superframe tail of {bytes} bytes exceeds the reservoir"

end StreamCause

namespace Error

def message : Error → String
  | setup cause => "Decoder initialization failed: " ++ cause.message
  | corrupt cause => "Corrupt stream: " ++ cause.message
  | insufficientInput got needed => s!"Insufficient input: got {got} bytes, need {needed}"
  | outputTooSmall got needed => s!"Output buffer too small: got {got} samples, need {needed}"
  | fault _ => "Internal fault"

/-- Whether the stream can go on with the next packet. -/
def isRecoverable : Error → Bool
  | setup _ | fault _ => false
  | corrupt _ | insufficientInput .. | outputTooSmall .. => true

end Error

end Wma
