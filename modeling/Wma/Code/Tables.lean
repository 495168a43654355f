/-!
# Built-in code books

Code words of the envelope steps and of the noise gain steps, and the word lengths of the six
run/level books. Symbol `s` of the first two stands for a step of `s - 60` and of `s - 18`.
-/

namespace Wma

def envelopeWords : List Nat :=
  [0x3ffe8, 0x3ffe6, 0x3ffe7, 0x3ffe5, 0x7fff5, 0x7fff1, 0x7ffed, 0x7fff6, 0x7ffee, 0x7ffef,
   0x7fff0, 0x7fffc, 0x7fffd, 0x7ffff, 0x7fffe, 0x7fff7, 0x7fff8, 0x7fffb, 0x7fff9, 0x3ffe4,
   0x7fffa, 0x3ffe3, 0x1ffef, 0x1fff0, 0xfff5, 0x1ffee, 0xfff2, 0xfff3, 0xfff4, 0xfff1, 0x7ff6,
   0x7ff7, 0x3ff9, 0x3ff5, 0x3ff7, 0x3ff3, 0x3ff6, 0x3ff2, 0x1ff7, 0x1ff5, 0xff9, 0xff7, 0xff6,
   0x7f9, 0xff4, 0x7f8, 0x3f9, 0x3f7, 0x3f5, 0x1f8, 0x1f7, 0xfa, 0xf8, 0xf6, 0x79, 0x3a, 0x38, 0x1a,
   0xb, 0x4, 0x0, 0xa, 0xc, 0x1b, 0x39, 0x3b, 0x78, 0x7a, 0xf7, 0xf9, 0x1f6, 0x1f9, 0x3f4, 0x3f6,
   0x3f8, 0x7f5, 0x7f4, 0x7f6, 0x7f7, 0xff5, 0xff8, 0x1ff4, 0x1ff6, 0x1ff8, 0x3ff8, 0x3ff4, 0xfff0,
   0x7ff4, 0xfff6, 0x7ff5, 0x3ffe2, 0x7ffd9, 0x7ffda, 0x7ffdb, 0x7ffdc, 0x7ffdd, 0x7ffde, 0x7ffd8,
   0x7ffd2, 0x7ffd3, 0x7ffd4, 0x7ffd5, 0x7ffd6, 0x7fff2, 0x7ffdf, 0x7ffe7, 0x7ffe8, 0x7ffe9,
   0x7ffea, 0x7ffeb, 0x7ffe6, 0x7ffe0, 0x7ffe1, 0x7ffe2, 0x7ffe3, 0x7ffe4, 0x7ffe5, 0x7ffd7,
   0x7ffec, 0x7fff4, 0x7fff3]

def envelopeLengths : List Nat :=
  [18, 18, 18, 18, 19, 19, 19, 19, 19, 19, 19, 19, 19, 19, 19, 19, 19, 19, 19, 18, 19, 18, 17, 17,
   16, 17, 16, 16, 16, 16, 15, 15, 14, 14, 14, 14, 14, 14, 13, 13, 12, 12, 12, 11, 12, 11, 10, 10,
   10, 9, 9, 8, 8, 8, 7, 6, 6, 5, 4, 3, 1, 4, 4, 5, 6, 6, 7, 7, 8, 8, 9, 9, 10, 10, 10, 11, 11, 11,
   11, 12, 12, 13, 13, 13, 14, 14, 16, 15, 16, 15, 18, 19, 19, 19, 19, 19, 19, 19, 19, 19, 19, 19,
   19, 19, 19, 19, 19, 19, 19, 19, 19, 19, 19, 19, 19, 19, 19, 19, 19, 19, 19]

def noiseGainWords : List Nat :=
  [0x3, 0x2e7, 0x1, 0x5cd, 0x5d, 0x5c9, 0x5e, 0x3, 0x16, 0xb, 0x1, 0x6, 0x1, 0x6, 0x4, 0x5, 0x4,
   0x7, 0x3, 0x7, 0x4, 0xa, 0xa, 0x2, 0x3, 0x0, 0x5, 0x2, 0x5f, 0x4, 0x3, 0x2, 0x5c8, 0xb8, 0x5ca,
   0x5cb, 0x5cc]

def noiseGainLengths : List Nat :=
  [10, 12, 10, 13, 9, 13, 9, 8, 7, 5, 5, 4, 4, 3, 3, 3, 4, 3, 4, 4, 5, 5, 6, 8, 7, 10, 8, 10, 9, 8,
   9, 9, 13, 10, 13, 13, 13]

/-- Layout of a run/level book. Symbol 0 escapes, symbol 1 ends the block, and the symbols from 2 on
go through the levels `1, 2, …`: level `l` has `runs[l - 1]` symbols, one for each run from 0 on. -/
structure RunLevelLayout where
  lengths : List Nat
  runs : List Nat
deriving DecidableEq, Repr

namespace RunLevelLayout

def lowPlain : RunLevelLayout where
  lengths :=
    [11, 5, 3, 4, 4, 4, 4, 5, 5, 5, 5, 6, 6, 6, 7, 7, 7, 7, 8, 8, 8, 8, 9, 9, 9, 9, 10, 10, 10, 10,
     11, 11, 5, 5, 5, 5, 6, 6, 6, 7, 7, 7, 7, 8, 8, 8, 8, 9, 9, 9, 9, 10, 6, 6, 6, 7, 7, 7, 8, 8, 8,
     8, 9, 9, 7, 8, 8, 8, 8, 9, 9, 9, 9, 9, 9, 9, 10, 10, 10, 10, 10, 11, 11, 11, 12, 12, 12, 13,
     14, 15, 16, 17]
  runs :=
    [30, 20, 12, 8, 6, 4, 3, 2, 2, 1, 1, 1]

def lowSide : RunLevelLayout where
  lengths :=
    [11, 6, 3, 4, 4, 4, 4, 5, 5, 5, 5, 5, 6, 6, 6, 6, 6, 7, 7, 7, 7, 7, 8, 8, 8, 8, 8, 9, 9, 9, 9,
     9, 10, 10, 10, 10, 10, 11, 11, 11, 11, 11, 5, 5, 6, 6, 6, 6, 6, 7, 7, 7, 7, 7, 8, 8, 8, 8, 8,
     9, 9, 9, 9, 9, 9, 10, 7, 7, 7, 7, 7, 8, 8, 8, 8, 8, 9, 9, 8, 8, 9, 9, 9, 9, 9, 10, 10, 10, 10,
     10, 11, 11, 11, 12, 13, 14, 15, 16, 17]
  runs :=
    [40, 24, 12, 8, 5, 3, 2, 1, 1, 1]

def middlePlain : RunLevelLayout where
  lengths :=
    [11, 5, 3, 4, 4, 4, 5, 5, 5, 6, 6, 6, 6, 7, 7, 7, 8, 8, 8, 8, 9, 9, 9, 10, 10, 10, 4, 5, 5, 5,
     6, 6, 6, 7, 7, 7, 7, 8, 8, 8, 9, 9, 9, 9, 6, 6, 6, 6, 7, 7, 7, 8, 8, 8, 8, 9, 9, 9, 7, 7, 7, 7,
     8, 8, 8, 9, 9, 9, 8, 8, 8, 8, 9, 9, 9, 10, 9, 9, 9, 9, 10, 10, 9, 10, 10, 10, 11, 10, 11, 11,
     11, 12, 12, 12, 12, 13, 13, 14, 14, 14, 15, 16, 17, 18, 19]
  runs :=
    [24, 18, 14, 10, 8, 6, 5, 4, 3, 3, 2, 2, 1, 1, 1, 1]

def middleSide : RunLevelLayout where
  lengths :=
    [11, 5, 4, 4, 4, 4, 4, 5, 5, 5, 5, 6, 6, 6, 6, 6, 7, 7, 7, 7, 8, 8, 8, 8, 9, 9, 9, 9, 9, 10, 10,
     10, 10, 11, 5, 5, 5, 5, 6, 6, 6, 6, 7, 7, 7, 7, 8, 8, 8, 8, 8, 9, 9, 9, 6, 6, 6, 7, 7, 7, 7, 8,
     8, 8, 8, 9, 9, 9, 7, 8, 8, 8, 8, 9, 9, 9, 9, 9, 9, 9, 9, 9, 10, 10, 10, 10, 10, 11, 11, 12, 12,
     13, 13, 13, 14, 15, 16, 17]
  runs :=
    [32, 20, 14, 10, 6, 4, 3, 2, 2, 1, 1, 1]

def highPlain : RunLevelLayout where
  lengths :=
    [11, 5, 4, 4, 4, 5, 5, 5, 5, 6, 6, 7, 7, 7, 8, 8, 8, 9, 4, 5, 5, 5, 6, 6, 6, 7, 7, 7, 8, 8, 8,
     9, 5, 5, 6, 6, 6, 7, 7, 7, 8, 8, 8, 9, 6, 6, 6, 7, 7, 7, 8, 8, 8, 9, 6, 7, 7, 7, 8, 8, 8, 9, 7,
     7, 8, 8, 9, 9, 9, 8, 8, 9, 9, 9, 9, 9, 9, 9, 10, 10, 9, 10, 10, 10, 10, 10, 11, 11, 11, 11, 11,
     11, 12, 12, 12, 12, 13, 13, 14, 14, 14, 15, 16, 17, 18, 19, 20, 21, 22]
  runs :=
    [16, 14, 12, 10, 8, 7, 6, 5, 4, 4, 3, 3, 2, 2, 2, 1, 1, 1, 1, 1, 1, 1, 1, 1]

def highSide : RunLevelLayout where
  lengths :=
    [12, 6, 3, 4, 4, 4, 5, 5, 5, 5, 6, 6, 6, 6, 7, 7, 7, 7, 8, 8, 8, 8, 9, 9, 9, 9, 10, 10, 10, 10,
     5, 5, 5, 5, 6, 6, 6, 6, 7, 7, 7, 7, 8, 8, 8, 8, 9, 9, 6, 6, 6, 6, 7, 7, 7, 7, 8, 8, 8, 9, 7, 7,
     7, 7, 8, 8, 8, 9, 9, 8, 8, 8, 9, 9, 9, 9, 9, 9, 9, 10, 10, 10, 10, 10, 11, 11, 11, 12, 12, 12,
     13, 13, 13, 14, 15, 16, 17, 18, 19, 20]
  runs :=
    [28, 18, 12, 9, 7, 5, 4, 3, 3, 2, 2, 1, 1, 1, 1, 1]

end RunLevelLayout

end Wma
