import Wma.Transform.Arithmetic

/-!
# The split-radix network

`Network.run` computes `X m = ∑ k, x k * e ^ (2 π i k m / n)` for `n = 2 ^ bits` points, if `x k` is
loaded into the place `slot bits k`. A network of `n` points joins one of `n / 2` points, over the
even `k`, with two of `n / 4` points, over the `k` that leave three and over those that leave one
when divided by four. Networks of four, eight and sixteen points are written out.
-/

namespace Wma.Network

variable {α : Type} (A : Arithmetic α)

/-- The place into which input `k` of a network of `2 ^ bits` points is loaded. -/
def slot : (bits k : Nat) → Nat
  | 0, _ => 0
  | 1, k => k % 2
  | bits + 2, k =>
    if k % 2 = 0 then slot (bits + 1) (k / 2)
    else if k % 4 = 3 then 2 ^ (bits + 1) + slot bits ((k + 1) / 4 % 2 ^ bits)
    else 2 ^ (bits + 1) + 2 ^ bits + slot bits (k / 4)

theorem slot_lt : ∀ bits k, slot bits k < 2 ^ bits
  | 0, _ => by simp [slot]
  | 1, k => by simp only [slot]; omega
  | bits + 2, k => by
    have half := slot_lt (bits + 1) (k / 2)
    have third := slot_lt bits ((k + 1) / 4 % 2 ^ bits)
    have fourth := slot_lt bits (k / 4)
    simp only [slot, Nat.pow_succ] at *
    split
    · omega
    · split <;> omega

/-- Four points a quarter of a turn apart. -/
structure Quad (α : Type) where
  first : Phasor α
  second : Phasor α
  third : Phasor α
  fourth : Phasor α

def Quad.point {α : Type} (quad : Quad α) : (quarter : Nat) → Phasor α
  | 0 => quad.first
  | 1 => quad.second
  | 2 => quad.third
  | _ => quad.fourth

/-- Joins two points of the half network with a point of each quarter network. -/
def butterfly (z w p q : Phasor α) : Quad α :=
  let re := A.add q.re p.re
  let im := A.add p.im q.im
  let dre := A.sub p.im q.im
  let dim := A.sub q.re p.re
  { first := ⟨A.add z.re re, A.add z.im im⟩
    second := ⟨A.add w.re dre, A.add w.im dim⟩
    third := ⟨A.sub z.re re, A.sub z.im im⟩
    fourth := ⟨A.sub w.re dre, A.sub w.im dim⟩ }

/-- Joins points after turning those of the quarter networks in opposite directions. -/
def turned (factor z w p q : Phasor α) : Quad α :=
  butterfly A z w (A.mul p (A.conj factor)) (A.mul q factor)

/-- Joins the points that belong to `k` in a network of `2 ^ bits` points. -/
def joinAt (bits k : Nat) (z w p q : Phasor α) : Quad α :=
  if k = 0 then butterfly A z w p q else turned A (A.root bits k) z w p q

/-- Joins a half network with two quarter networks of `2 ^ bits` points each. -/
def join (bits : Nat) (half : Vector (Phasor α) (2 ^ (bits + 1)))
    (third fourth : Vector (Phasor α) (2 ^ bits)) : Vector (Phasor α) (2 ^ (bits + 2)) :=
  let quads := Vector.ofFn fun k : Fin (2 ^ bits) =>
    joinAt A (bits + 2) k
      (half.get ⟨k, by have := k.isLt; rw [Nat.pow_succ]; omega⟩)
      (half.get ⟨2 ^ bits + k, by have := k.isLt; rw [Nat.pow_succ]; omega⟩)
      (third.get k) (fourth.get k)
  Vector.ofFn fun m =>
    (quads.get ⟨m % 2 ^ bits, Nat.mod_lt _ (Nat.two_pow_pos bits)⟩).point (m / 2 ^ bits)

def two (z : Vector (Phasor α) 2) : Vector (Phasor α) 2 :=
  #v[A.plus z[0] z[1], A.minus z[0] z[1]]

def four (z : Vector (Phasor α) 4) : Vector (Phasor α) 4 :=
  let a := butterfly A (A.plus z[0] z[1]) (A.minus z[0] z[1]) z[2] z[3]
  #v[a.first, a.second, a.third, a.fourth]

def eight (z : Vector (Phasor α) 8) : Vector (Phasor α) 8 :=
  let h := four A #v[z[0], z[1], z[2], z[3]]
  let a := butterfly A h[0] h[2] (A.plus z[4] z[5]) (A.plus z[6] z[7])
  let b := turned A (A.root 3 1) h[1] h[3] (A.minus z[4] z[5]) (A.minus z[6] z[7])
  #v[a.first, b.first, a.second, b.second, a.third, b.third, a.fourth, b.fourth]

def sixteen (z : Vector (Phasor α) 16) : Vector (Phasor α) 16 :=
  let h := eight A #v[z[0], z[1], z[2], z[3], z[4], z[5], z[6], z[7]]
  let p := four A #v[z[8], z[9], z[10], z[11]]
  let q := four A #v[z[12], z[13], z[14], z[15]]
  let a := butterfly A h[0] h[4] p[0] q[0]
  let b := turned A (A.root 4 1) h[1] h[5] p[1] q[1]
  let c := turned A (A.root 3 1) h[2] h[6] p[2] q[2]
  let d := turned A (A.root 4 3) h[3] h[7] p[3] q[3]
  #v[a.first, b.first, c.first, d.first, a.second, b.second, c.second, d.second,
    a.third, b.third, c.third, d.third, a.fourth, b.fourth, c.fourth, d.fourth]

/-- The `count` points from `start` on. -/
def part {n : Nat} (z : Vector (Phasor α) n) (start count : Nat) (h : start + count ≤ n) :
    Vector (Phasor α) count :=
  Vector.ofFn fun i => z.get ⟨start + i, by have := i.isLt; omega⟩

/-- The network of `2 ^ bits` points. -/
def run : (bits : Nat) → Vector (Phasor α) (2 ^ bits) → Vector (Phasor α) (2 ^ bits)
  | 0, z => z
  | 1, z => two A z
  | 2, z => four A z
  | 3, z => eight A z
  | 4, z => sixteen A z
  | bits + 5, z =>
    have h : 2 ^ (bits + 4) + 2 ^ (bits + 3) + 2 ^ (bits + 3) = 2 ^ (bits + 5) := by
      rw [Nat.pow_succ 2 (bits + 4), Nat.pow_succ 2 (bits + 3)]; omega
    have h' := Nat.two_pow_pos (bits + 3)
    join A (bits + 3)
      (run (bits + 4) (part z 0 (2 ^ (bits + 4)) (by omega)))
      (run (bits + 3) (part z (2 ^ (bits + 4)) (2 ^ (bits + 3)) (by omega)))
      (run (bits + 3) (part z (2 ^ (bits + 4) + 2 ^ (bits + 3)) (2 ^ (bits + 3)) (by omega)))

/-- Loads inputs into their places, over whatever `z` held. -/
def load (bits : Nat) (input : Fin (2 ^ bits) → Phasor α) (z : Vector (Phasor α) (2 ^ bits)) :
    Vector (Phasor α) (2 ^ bits) :=
  (List.finRange (2 ^ bits)).foldl
    (fun z (k : Fin (2 ^ bits)) => z.set (slot bits k) (input k) (slot_lt bits k)) z

end Wma.Network
