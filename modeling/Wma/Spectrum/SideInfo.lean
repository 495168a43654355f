import Wma.Bits.Parse
import Wma.Code.Books
import Wma.Fixed.Gain
import Wma.Stream.Params

/-!
# Gains and noise bands of a block

Ahead of its coefficients a block states its gain, and for each high band whether noise stands for
its coefficients. The noise of such bands has a gain of its own, coded as its difference from the
gain of the noise band before.
-/

namespace Wma

namespace BlockGain

variable {σ : Type}

/-- Adds up chunks of seven bits until one of them is not full. `limit` bounds their number. -/
def readFrom : (limit : Nat) → (total : Int) → Parse σ Int
  | 0, _ => Parse.ofExcept (.error (.fault .progress))
  | limit + 1, total => do
    let chunk ← Parse.read 7
    let total ← Parse.ofExcept (int32 (total + chunk))
    if chunk = 127 then readFrom limit total else return total

def read : Parse σ Int := do
  readFrom ((← Parse.reader).left / 7 + 1) 1

/-- Width of a level that is written out, for a block of the given gain. -/
def levelBits (gain : Int) : Nat :=
  if gain < 15 then 13
  else if gain < 32 then 12
  else if gain < 40 then 11
  else if gain < 45 then 10
  else 9

/-- One over half the block length; in the first version, one over its square root. The binary
logarithm of the length is a 32-bit word, and the words from `2 ^ 31` on are negative. -/
def blockNorm (version : Version) (blockBits : Nat) : Gain :=
  let norm := Gain.one.scale (1 - signed32 blockBits)
  match version with
  | .v1 => norm.sqrt
  | .v2 => norm

end BlockGain

/-- Which high bands hold noise, and its gain in decibels. -/
structure NoiseBands where
  flags : List Bool
  gains : List Int
deriving DecidableEq, Repr

namespace NoiseBands

def none : NoiseBands := ⟨[], []⟩

def holds (b : NoiseBands) (j : Nat) : Bool :=
  b.flags.getD j false

/-- Number of coefficients in the bands that hold noise. -/
def substituted (b : NoiseBands) (widths : List Nat) : Nat :=
  ((widths.zip b.flags).map fun (width, flag) => if flag then width else 0).sum

def readFlagsOf : (count : Nat) → Parse NoiseBands Unit
  | 0 => pure ()
  | count + 1 => do
    let flag ← Parse.readBit
    Parse.update fun b => { b with flags := b.flags ++ [flag] }
    readFlagsOf count

/-- Reads the flags of the high bands, and sets all gains to zero. -/
def readFlags (widths : List Nat) : Parse NoiseBands Unit := do
  Parse.setState ⟨[], List.replicate widths.length 0⟩
  readFlagsOf widths.length

/-- Reads a gain. The first one of a block is written out, the others follow the one before. -/
def readGain (code : PrefixCode) : (last : Option Int) → Parse NoiseBands Int
  | Option.none => do return (← Parse.read 7) - 19
  | some last => do
    let sum ← Parse.ofExcept (int32 (last + (← code.next)))
    Parse.ofExcept (int32 (sum - Books.noiseGainBias))

/-- Reads the gains of the bands from `j` on, of which `flags` tells whether they hold noise. -/
def readGainsOf (code : PrefixCode) :
    (flags : List Bool) → (j : Nat) → (last : Option Int) → Parse NoiseBands Unit
  | [], _, _ => pure ()
  | false :: flags, j, last => readGainsOf code flags (j + 1) last
  | true :: flags, j, last => do
    let gain ← readGain code last
    Parse.update fun b => { b with gains := b.gains.set j gain }
    readGainsOf code flags (j + 1) (some gain)

def readGains (code : PrefixCode) : Parse NoiseBands Unit := do
  readGainsOf code (← Parse.state).flags 0 Option.none

end NoiseBands

end Wma
