import Wma.Code.RunLevel

/-!
# The books of a decoder

`Books.builtIn` gathers every code that a decoder reads: the steps of the envelope, the steps of the
noise gains, and a pair of run/level books for each rate class, the second of which codes the side
channel of a mid/side pair.
-/

namespace Wma

structure Books where
  envelope : PrefixCode
  noiseGain : PrefixCode
  /-- The plain and the side book of each rate class. -/
  levels : Array (RunLevelBook × RunLevelBook)

namespace Books

/-- The envelope symbol of a step of zero. -/
def envelopeBias : Int := 60

/-- The noise gain symbol of a step of zero. -/
def noiseGainBias : Int := 18

def layouts : List (RunLevelLayout × RunLevelLayout) :=
  [(.lowPlain, .lowSide), (.middlePlain, .middleSide), (.highPlain, .highSide)]

def levelPair (l : RunLevelLayout × RunLevelLayout) :
    Except Error (RunLevelBook × RunLevelBook) := do
  return (← RunLevelBook.ofLayout l.1, ← RunLevelBook.ofLayout l.2)

/-- The books that belong to the format. -/
def builtIn : Except Error Books := do
  let envelope ← PrefixCode.ofWords envelopeWords envelopeLengths 8
  let noiseGain ← PrefixCode.ofWords noiseGainWords noiseGainLengths 9
  let levels ← layouts.mapM levelPair
  return ⟨envelope, noiseGain, levels.toArray⟩

end Books

end Wma
