import Wma.Fixed.Sine
import Wma.Stream.Config

/-!
# Windows

The samples of a block fade in over its neighbour on the left and fade out over its neighbour on the
right. Where blocks of different lengths meet, the shorter one gives the slope; the longer one is
silent at its very edge and untouched towards its middle.
-/

namespace Wma

namespace Window

/-- The rising slope of `2 ^ bits` samples, `sin (π / 2 * (i + 1 / 2) / 2 ^ bits)`. -/
def slopeOf (bits : Nat) : Array Int32 :=
  Array.ofFn fun i : Fin (2 ^ bits) => sine (turn / 8 * (2 * i + 1) / 2 ^ bits)

/-- The slopes of all block sizes, the shortest first. -/
def slopes : Vector (Array Int32) (maxBlockBits + 1 - minBlockBits) :=
  Vector.ofFn fun i => slopeOf (minBlockBits + i)

theorem index_lt (bits : Nat) :
    min (max bits minBlockBits) maxBlockBits - minBlockBits < maxBlockBits + 1 - minBlockBits := by
  unfold minBlockBits maxBlockBits
  omega

/-- The rising slope of a block size, or of the nearest one that there is. -/
def slope (bits : Nat) : Array Int32 :=
  slopes.get ⟨min (max bits minBlockBits) maxBlockBits - minBlockBits, index_lt bits⟩

end Window

/-- Binary logarithms of the length of a block and of those of its neighbours. -/
structure BlockShape where
  prevBits : Nat
  bits : Nat
  nextBits : Nat
deriving DecidableEq, Repr

end Wma
