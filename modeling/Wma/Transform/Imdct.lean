import Wma.Buffer
import Wma.Stream.Config
import Wma.Transform.Network

/-!
# The inverse modified cosine transform

For `n = 2 ^ (bits + 2)`, `Imdct.full` turns `n / 2` coefficients `X` into the `n` samples

  `y m = - ∑ k, X k * cos (2 π / n * (m + 1 / 2 + n / 4) * (k + 1 / 2))`.

The coefficients are paired from both ends, turned, sent through a network of `n / 4` points, and
turned again; this gives the middle half of the samples, and symmetry gives the rest.
-/

namespace Wma

namespace Imdct

variable {α : Type} (A : Arithmetic α)

/-- The input of the network at `k`: a coefficient from the end and one from the beginning. -/
def pairAt (bits : Nat) (input : Vector α (2 ^ (bits + 1))) (k : Fin (2 ^ bits)) : Phasor α :=
  A.mul
    ⟨input.get ⟨2 ^ (bits + 1) - 1 - 2 * k, by
        have := Nat.two_pow_pos (bits + 1); omega⟩,
      input.get ⟨2 * k, by have := k.isLt; rw [Nat.pow_succ]; omega⟩⟩
    (A.tilt (bits + 2) k)

/-- The middle half of the samples, in pairs. -/
def middle (bits : Nat) (input : Vector α (2 ^ (bits + 1)))
    (scratch : Vector (Phasor α) (2 ^ bits)) : Vector (Phasor α) (2 ^ bits) :=
  let z := Network.run A bits (Network.load bits (pairAt A bits input) scratch)
  let w := Vector.ofFn fun j : Fin (2 ^ bits) =>
    A.mul (z.get j).swap (A.tilt (bits + 2) j).swap
  Vector.ofFn fun j => ⟨(w.get j).re, (w.get j.rev).im⟩

def interleave (bits : Nat) (z : Vector (Phasor α) (2 ^ bits)) : Vector α (2 ^ (bits + 1)) :=
  have h : 2 ^ (bits + 1) = 2 * 2 ^ bits := by rw [Nat.pow_succ]; omega
  Vector.ofFn fun m =>
    let pair := z.get ⟨m.val / 2, by have := m.isLt; omega⟩
    if m.val % 2 = 0 then pair.re else pair.im

/-- All samples from the middle half: the first quarter repeats what follows it backwards and with
the opposite sign, and the last quarter what comes before it backwards. -/
def unfold (bits : Nat) (half : Vector α (2 ^ (bits + 1))) : Vector α (2 ^ (bits + 2)) :=
  have h : 2 ^ (bits + 1) = 2 * 2 ^ bits := by rw [Nat.pow_succ]; omega
  have h' : 2 ^ (bits + 2) = 4 * 2 ^ bits := by rw [Nat.pow_succ]; omega
  have pos := Nat.two_pow_pos bits
  Vector.ofFn fun m =>
    have lt := m.isLt
    if first : m.val < 2 ^ bits then A.neg (half.get ⟨2 ^ bits - 1 - m.val, by omega⟩)
    else if last : 3 * 2 ^ bits ≤ m.val then half.get ⟨5 * 2 ^ bits - 1 - m.val, by omega⟩
    else half.get ⟨m.val - 2 ^ bits, by omega⟩

/-- The samples that belong to the given coefficients. The network works in `scratch`. -/
def full (bits : Nat) (input : Vector α (2 ^ (bits + 1))) (scratch : Vector (Phasor α) (2 ^ bits)) :
    Vector α (2 ^ (bits + 2)) :=
  unfold A bits (interleave bits (middle A bits input scratch))

/-- The samples that belong to the coefficients at the beginning of `spectrum`. The network works at
the beginning of `scratch`; what it leaves there is given as well. -/
def ofSpectrum (bits : Nat) (spectrum : Array Int32) (scratch : Array (Phasor Int32)) :
    Except Error (Array Int32 × Array (Phasor Int32)) := do
  let input ← Buffer.head spectrum (2 ^ (bits + 1))
  let work ← Buffer.head scratch (2 ^ bits)
  let pairs := middle fixedPoint bits input work
  return ((unfold fixedPoint bits (interleave bits pairs)).toArray,
    Buffer.overlay scratch pairs.toArray)

end Imdct

/-- Refuses a network of `2 ^ bits` points if there is none. -/
def checkNetwork (bits : Nat) : Except Error Unit :=
  if 2 ≤ bits ∧ bits ≤ FixedPoint.maxNetworkBits then .ok ()
  else .error (.setup (.networkSize bits))

def checkTransform (bits : Nat) : Except Error Unit :=
  if bits < 4 then .error (.setup (.transformSize bits)) else checkNetwork (bits - 2)

/-- Refuses a block of `2 ^ bits` coefficients if there is no transform for it. -/
def checkBlock (bits : Nat) : Except Error Unit :=
  if minBlockBits ≤ bits ∧ bits ≤ maxBlockBits then .ok () else .error (.setup (.blockSize bits))

end Wma
