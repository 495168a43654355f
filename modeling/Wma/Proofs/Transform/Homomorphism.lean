import Wma.Transform.Imdct

/-!
# Maps between arithmetics

A map of numbers that respects the operations of two arithmetics (`Arithmetic.Hom`) respects every
transform over them (`Imdct.full_map`). It need respect only the products that transforms form, those
with factors of the first arithmetic.
-/

namespace Wma

variable {α β : Type}

theorem get_eq_getElem {n : Nat} (z : Vector α n) (i : Fin n) : z.get i = z[i.val] := rfl

/-- Maps both parts of a complex number. -/
def Phasor.map (f : α → β) (z : Phasor α) : Phasor β := ⟨f z.re, f z.im⟩

namespace Arithmetic

/-- The map `f` takes the arithmetic `A` to `B`. -/
structure Hom (A : Arithmetic α) (B : Arithmetic β) (f : α → β) : Prop where
  add : ∀ a b, B.add (f a) (f b) = f (A.add a b)
  sub : ∀ a b, B.sub (f a) (f b) = f (A.sub a b)
  neg : ∀ a, B.neg (f a) = f (A.neg a)
  root : ∀ bits k, B.root bits k = (A.root bits k).map f
  tilt : ∀ bits k, B.tilt bits k = (A.tilt bits k).map f
  mul_root : ∀ z bits k, B.mul (z.map f) ((A.root bits k).map f) = (A.mul z (A.root bits k)).map f
  mul_conj_root : ∀ z bits k,
    B.mul (z.map f) ((A.conj (A.root bits k)).map f) = (A.mul z (A.conj (A.root bits k))).map f
  mul_tilt : ∀ z bits k, B.mul (z.map f) ((A.tilt bits k).map f) = (A.mul z (A.tilt bits k)).map f
  mul_tilt_swap : ∀ z bits k,
    B.mul (z.map f) ((A.tilt bits k).swap.map f) = (A.mul z (A.tilt bits k).swap).map f

end Arithmetic

namespace Network

variable {A : Arithmetic α} {B : Arithmetic β} {f : α → β} (h : A.Hom B f)

include h

theorem plus_map (z w : Phasor α) : B.plus (z.map f) (w.map f) = (A.plus z w).map f := by
  simp only [Arithmetic.plus, Phasor.map, h.add]

theorem minus_map (z w : Phasor α) : B.minus (z.map f) (w.map f) = (A.minus z w).map f := by
  simp only [Arithmetic.minus, Phasor.map, h.sub]

theorem conj_map (z : Phasor α) : B.conj (z.map f) = (A.conj z).map f := by
  simp only [Arithmetic.conj, Phasor.map, h.neg]

omit h in
/-- Maps the four points of a quad. -/
def Quad.map (f : α → β) (q : Quad α) : Quad β :=
  ⟨q.first.map f, q.second.map f, q.third.map f, q.fourth.map f⟩

omit h in
theorem Quad.point_map (q : Quad α) : ∀ quarter, (Quad.map f q).point quarter = (q.point quarter).map f
  | 0 => rfl
  | 1 => rfl
  | 2 => rfl
  | _ + 3 => rfl

theorem butterfly_map (z w p q : Phasor α) :
    butterfly B (z.map f) (w.map f) (p.map f) (q.map f) = Quad.map f (butterfly A z w p q) := by
  simp only [butterfly, Quad.map, Phasor.map, h.add, h.sub]

theorem turned_map (bits k : Nat) (z w p q : Phasor α) :
    turned B (B.root bits k) (z.map f) (w.map f) (p.map f) (q.map f) =
      Quad.map f (turned A (A.root bits k) z w p q) := by
  simp only [turned, h.root, conj_map h, h.mul_root, h.mul_conj_root, butterfly_map h]

theorem joinAt_map (bits k : Nat) (z w p q : Phasor α) :
    joinAt B bits k (z.map f) (w.map f) (p.map f) (q.map f) =
      Quad.map f (joinAt A bits k z w p q) := by
  unfold joinAt
  split
  · exact butterfly_map h z w p q
  · exact turned_map h bits k z w p q

theorem join_map (bits : Nat) (half : Vector (Phasor α) (2 ^ (bits + 1)))
    (third fourth : Vector (Phasor α) (2 ^ bits)) :
    join B bits (half.map (Phasor.map f)) (third.map (Phasor.map f)) (fourth.map (Phasor.map f)) =
      (join A bits half third fourth).map (Phasor.map f) := by
  ext1 i hi
  simp only [join, get_eq_getElem, Vector.getElem_ofFn, Vector.getElem_map, joinAt_map h,
    Quad.point_map]

theorem two_map (z : Vector (Phasor α) 2) :
    two B (z.map (Phasor.map f)) = (two A z).map (Phasor.map f) := by
  simp [two, plus_map h, minus_map h]

theorem four_map (z : Vector (Phasor α) 4) :
    four B (z.map (Phasor.map f)) = (four A z).map (Phasor.map f) := by
  simp [four, plus_map h, minus_map h, butterfly_map h, Quad.map]

theorem eight_map (z : Vector (Phasor α) 8) :
    eight B (z.map (Phasor.map f)) = (eight A z).map (Phasor.map f) := by
  have half : four B #v[z[0].map f, z[1].map f, z[2].map f, z[3].map f] =
      (four A #v[z[0], z[1], z[2], z[3]]).map (Phasor.map f) := by
    rw [← four_map h]
    simp
  simp [eight, half, plus_map h, minus_map h, butterfly_map h, turned_map h, Quad.map]

theorem sixteen_map (z : Vector (Phasor α) 16) :
    sixteen B (z.map (Phasor.map f)) = (sixteen A z).map (Phasor.map f) := by
  have half : eight B #v[z[0].map f, z[1].map f, z[2].map f, z[3].map f, z[4].map f, z[5].map f,
        z[6].map f, z[7].map f] =
      (eight A #v[z[0], z[1], z[2], z[3], z[4], z[5], z[6], z[7]]).map (Phasor.map f) := by
    rw [← eight_map h]
    simp
  have third : four B #v[z[8].map f, z[9].map f, z[10].map f, z[11].map f] =
      (four A #v[z[8], z[9], z[10], z[11]]).map (Phasor.map f) := by
    rw [← four_map h]
    simp
  have fourth : four B #v[z[12].map f, z[13].map f, z[14].map f, z[15].map f] =
      (four A #v[z[12], z[13], z[14], z[15]]).map (Phasor.map f) := by
    rw [← four_map h]
    simp
  simp [sixteen, half, third, fourth, butterfly_map h, turned_map h, Quad.map]

omit h in
theorem part_map {n : Nat} (z : Vector (Phasor α) n) (start count : Nat) (hn : start + count ≤ n) :
    part (z.map (Phasor.map f)) start count hn = (part z start count hn).map (Phasor.map f) := by
  ext1 i hi
  simp only [part, get_eq_getElem, Vector.getElem_ofFn, Vector.getElem_map]

theorem run_map : ∀ (bits : Nat) (z : Vector (Phasor α) (2 ^ bits)),
    run B bits (z.map (Phasor.map f)) = (run A bits z).map (Phasor.map f)
  | 0, _ => rfl
  | 1, z => two_map h z
  | 2, z => four_map h z
  | 3, z => eight_map h z
  | 4, z => sixteen_map h z
  | bits + 5, z => by
    simp only [run, part_map, run_map (bits + 4), run_map (bits + 3)]
    exact join_map h (bits + 3) _ _ _

omit h in
theorem load_map (bits : Nat) (input : Fin (2 ^ bits) → Phasor α)
    (z : Vector (Phasor α) (2 ^ bits)) :
    load bits (fun k => (input k).map f) (z.map (Phasor.map f)) =
      (load bits input z).map (Phasor.map f) := by
  unfold load
  generalize List.finRange (2 ^ bits) = places
  induction places generalizing z with
  | nil => rfl
  | cons k places ih =>
    rw [List.foldl_cons, List.foldl_cons, ← ih, Vector.map_set]

end Network

namespace Imdct

variable {A : Arithmetic α} {B : Arithmetic β} {f : α → β} (h : A.Hom B f)

include h

theorem pairAt_map (bits : Nat) (input : Vector α (2 ^ (bits + 1))) (k : Fin (2 ^ bits)) :
    pairAt B bits (input.map f) k = (pairAt A bits input k).map f := by
  simp only [pairAt, h.tilt, get_eq_getElem, Vector.getElem_map, ← h.mul_tilt]
  rfl

theorem middle_map (bits : Nat) (input : Vector α (2 ^ (bits + 1)))
    (scratch : Vector (Phasor α) (2 ^ bits)) :
    middle B bits (input.map f) (scratch.map (Phasor.map f)) =
      (middle A bits input scratch).map (Phasor.map f) := by
  have loaded : Network.load bits (pairAt B bits (input.map f)) (scratch.map (Phasor.map f)) =
      (Network.load bits (pairAt A bits input) scratch).map (Phasor.map f) := by
    rw [← Network.load_map]
    congr 1
    exact funext fun k => pairAt_map h bits input k
  have turned : ∀ (z : Phasor α) (j : Nat),
      B.mul (z.map f).swap (B.tilt (bits + 2) j).swap =
        (A.mul z.swap (A.tilt (bits + 2) j).swap).map f := fun z j => by
    rw [h.tilt]
    exact h.mul_tilt_swap z.swap _ _
  unfold middle
  rw [loaded, Network.run_map h]
  ext1 i hi
  simp only [get_eq_getElem, Vector.getElem_ofFn, Vector.getElem_map, turned]
  rfl

omit h in
theorem interleave_map (bits : Nat) (z : Vector (Phasor α) (2 ^ bits)) :
    interleave bits (z.map (Phasor.map f)) = (interleave bits z).map f := by
  ext1 i hi
  simp only [interleave, get_eq_getElem, Vector.getElem_ofFn, Vector.getElem_map]
  split <;> rfl

theorem unfold_map (bits : Nat) (half : Vector α (2 ^ (bits + 1))) :
    unfold B bits (half.map f) = (unfold A bits half).map f := by
  ext1 i hi
  simp only [unfold, get_eq_getElem, Vector.getElem_ofFn, Vector.getElem_map, h.neg]
  split
  · rfl
  · split <;> rfl

theorem full_map (bits : Nat) (input : Vector α (2 ^ (bits + 1)))
    (scratch : Vector (Phasor α) (2 ^ bits)) :
    full B bits (input.map f) (scratch.map (Phasor.map f)) = (full A bits input scratch).map f := by
  unfold full
  rw [middle_map h, interleave_map, unfold_map h]

end Imdct

end Wma
