import Wma.Bands.Tables
import Wma.Fixed.Sine
import Wma.Stream.Config

/-!
# Band layout

The coefficients of a block are divided into *envelope bands*, each of which has one level of the
spectral envelope. Coefficients from `coefsStart` to `coefsEnd` are coded; those from `highStart` on
may be replaced by noise, one *high band* at a time, a high band being the part of an envelope band
that lies between `highStart` and `coefsEnd`.

A `BandLayout` holds the bands of every block size of a stream.
-/

namespace Wma

structure BlockBands where
  length : Nat
  envelopeBands : List Nat
  coefsEnd : Nat
  /-- First coefficient that noise may replace. -/
  highStart : Nat
  highBands : List Nat
deriving DecidableEq, Repr

structure BandLayout where
  coefsStart : Nat
  /-- The bands of each block size, the whole frame first. -/
  blocks : Array BlockBands
  /-- `2 * cos (π * i / frameLength)` with 28 fractional bits; empty if envelopes are stepped. -/
  lineCosines : Array Int
deriving DecidableEq, Repr

namespace BandLayout

/-- Widths between ascending edges, the first of which is measured from `last`. An edge at or past
`length` is the last one. -/
def widthsUpTo (length : Nat) : (last : Nat) → (edges : List Nat) → List Nat
  | _, [] => []
  | last, edge :: edges =>
    let edge := min edge length
    (edge - last) :: if length ≤ edge then [] else widthsUpTo length edge edges

/-- Adds a band for what the bands leave of a block. -/
def coverTail (length : Nat) (widths : List Nat) : List Nat :=
  if widths.sum < length then widths ++ [length - widths.sum] else widths

/-- Critical band edges in coefficients, rounded to nearest. -/
def roundedEdges (length sampleRate : Nat) : List Nat :=
  criticalEdges.map fun f => (length * 2 * f + sampleRate / 2) / sampleRate

/-- Critical band edges in coefficients, rounded to a multiple of four. -/
def quadEdges (length sampleRate : Nat) : List Nat :=
  criticalEdges.map fun f => (length * 2 * f + 2 * sampleRate) / (4 * sampleRate) * 4

/-- The fixed widths for a sample rate, if there are any for the given block size. -/
def fixedWidths (sampleRate blockBits : Nat) : Option (List Nat) :=
  let tables :=
    if 44100 ≤ sampleRate then bandWidths44100
    else if 32000 ≤ sampleRate then bandWidths32000
    else if 22050 ≤ sampleRate then bandWidths22050
    else []
  if minBlockBits ≤ blockBits then tables[blockBits - minBlockBits]? else none

def envelopeBands (c : Config) (blockBits : Nat) : List Nat :=
  let length := 2 ^ blockBits
  match c.version with
  | .v1 => coverTail length (widthsUpTo length 0 (roundedEdges length c.sampleRate))
  | .v2 =>
    match fixedWidths c.sampleRate blockBits with
    | some widths => widths
    | none =>
      coverTail length ((widthsUpTo length 0 (quadEdges length c.sampleRate)).filter (0 < ·))

/-- Widths of the parts of bands that lie between `first` and `last`. The first band begins at
`start`; a band that lies outside is left out. -/
def clip (first last : Nat) : (start : Nat) → (widths : List Nat) → List Nat
  | _, [] => []
  | start, width :: widths =>
    let low := max start first
    let high := min (start + width) last
    let rest := clip first last (start + width) widths
    if low < high then (high - low) :: rest else rest

/-- The bands of the block size that is `2 ^ index` times shorter than the frame. -/
def block (c : Config) (index : Nat) : BlockBands :=
  let length := c.frameLength / 2 ^ index
  let bands := envelopeBands c (c.frameBits - index)
  let coefsEnd := (c.frameLength - c.frameLength * 9 / 100) / 2 ^ index
  let highStart := (length * c.noisePermille + 500) / 1000
  { length, coefsEnd, highStart
    envelopeBands := bands
    highBands := clip highStart coefsEnd 0 bands }

def firstCoef : Version → Nat
  | .v1 => 3
  | .v2 => 0

/-- `2 * cos (π * i / frameLength)` with 28 fractional bits. -/
def cosines (frameLength : Nat) : Array Int :=
  Array.ofFn fun i : Fin frameLength => (cosine (turn / 2 * i / frameLength)).toInt / 4

def ofConfig (c : Config) : BandLayout where
  coefsStart := firstCoef c.version
  blocks := ((List.range c.sizeCount).map (block c)).toArray
  lineCosines := if c.steppedEnvelope then #[] else cosines c.frameLength

end BandLayout

end Wma
