import Wma.Proofs.Parse.Related
import Wma.Proofs.Transform.Order
import Wma.Transform.Imdct

/-!
# A transform writes over its scratch

Every place of a network takes an input (`Network.bijective_slot`), so nothing of what the points
held before is left when it runs (`Network.load_eq`), and the samples of a transform do not depend on
it (`Imdct.middle_eq`).
-/

namespace Wma

namespace Network

theorem load_eq {α : Type} {bits : Nat} (input : Fin (2 ^ bits) → Phasor α)
    (z z' : Vector (Phasor α) (2 ^ bits)) : load bits input z = load bits input z' := by
  refine Vector.ext fun i hi => ?_
  obtain ⟨k, hk⟩ := (bijective_slot bits).surjective ⟨i, hi⟩
  obtain rfl : slot bits k = i := congrArg Fin.val hk
  rw [getElem_load, getElem_load]

end Network

namespace Imdct

theorem middle_eq {α : Type} (A : Arithmetic α) (bits : Nat) (input : Vector α (2 ^ (bits + 1)))
    (scratch scratch' : Vector (Phasor α) (2 ^ bits)) :
    middle A bits input scratch = middle A bits input scratch' := by
  unfold middle
  rw [Network.load_eq _ scratch scratch']

/-- With scratch of one size, a transform gives the same samples and the same size of scratch. -/
theorem alike_ofSpectrum {E : Error → Error → Prop} (hE : ∀ e, E e e) (bits : Nat)
    (spectrum : Array Int32) {scratch scratch' : Array (Phasor Int32)}
    (h : scratch.size = scratch'.size) :
    Alike (fun x y => x.1 = y.1 ∧ x.1.size = 2 ^ (bits + 2) ∧ x.2.size = scratch.size ∧
        y.2.size = scratch.size) E
      (ofSpectrum bits spectrum scratch) (ofSpectrum bits spectrum scratch') := by
  refine .bind (R := Eq) (.of_eq hE (fun _ => rfl) rfl) ?_
  rintro input _ rfl
  have heads : Alike (fun _ _ => 2 ^ bits ≤ scratch.size) E (Buffer.head scratch (2 ^ bits))
      (Buffer.head scratch' (2 ^ bits)) := by
    unfold Buffer.head
    by_cases room : 2 ^ bits ≤ scratch.size
    · rw [dif_pos room, dif_pos (h ▸ room)]
      exact room
    · rw [dif_neg room, dif_neg (h ▸ room)]
      exact hE _
  refine heads.bind fun work work' room => ?_
  rw [middle_eq fixedPoint bits input work work']
  refine ⟨rfl, by simp, ?_, ?_⟩
  · simp only [Buffer.overlay, Array.size_append, Array.size_extract, Vector.size_toArray]
    omega
  · simp only [Buffer.overlay, Array.size_append, Array.size_extract, Vector.size_toArray]
    omega

end Imdct

end Wma
