/-!
# Band edges

Critical band edges in hertz, and for the common sample rates the widths of the envelope bands of
the three shortest block sizes.
-/

namespace Wma

/-- Critical band edges in hertz. -/
def criticalEdges : List Nat :=
  [100, 200, 300, 400, 510, 630, 770, 920, 1080, 1270, 1480, 1720, 2000, 2320, 2700, 3150, 3700,
   4400, 5300, 6400, 7700, 9500, 12000, 15500, 24500]

/-- Widths of the envelope bands from 22050 Hz on, for blocks of 128, 256 and 512 coefficients. -/
def bandWidths22050 : List (List Nat) :=
  [[4, 8, 4, 8, 8, 12, 20, 24, 24, 16],
   [4, 8, 8, 4, 12, 12, 16, 24, 16, 20, 24, 32, 40, 36],
   [4, 4, 4, 8, 4, 4, 8, 8, 8, 8, 8, 12, 12, 16, 16, 24, 24, 32, 44, 48, 60, 84, 72]]

/-- Widths of the envelope bands from 32000 Hz on, for blocks of 128, 256 and 512 coefficients. -/
def bandWidths32000 : List (List Nat) :=
  [[4, 4, 8, 4, 4, 12, 16, 24, 20, 28, 4],
   [4, 8, 4, 4, 8, 8, 16, 20, 12, 20, 20, 28, 40, 56, 8],
   [8, 4, 8, 8, 8, 8, 16, 12, 24, 16, 28, 32, 44, 68, 96, 132]]

/-- Widths of the envelope bands from 44100 Hz on, for blocks of 128, 256 and 512 coefficients. -/
def bandWidths44100 : List (List Nat) :=
  [[4, 4, 4, 4, 4, 8, 8, 8, 12, 16, 20, 36],
   [4, 8, 4, 8, 8, 4, 8, 8, 12, 12, 12, 24, 28, 40, 76],
   [4, 8, 8, 4, 12, 12, 8, 8, 24, 16, 20, 24, 32, 40, 60, 80, 152]]

end Wma
