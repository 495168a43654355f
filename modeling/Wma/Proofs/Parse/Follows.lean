import Wma.Proofs.Parse.Related

/-!
# One run in the tracks of another

`Follows P p q Q` says that `q` succeeds wherever `p` does, from the same reader and with states as in
`P`: it comes to the same reader, with values and states as in `Q`. Nothing is said of `q` where `p`
fails, so that `q` may be let through where `p` is not. This is `Related` for a view that is
one-sided.
-/

namespace Wma

/-- Only a reader looks like itself, and the second run matters only where the first succeeds. -/
def View.follow : View :=
  { View.exact with oneSided := True }

namespace Parse

variable {σ α : Type}

/-- Where `p` succeeds, so does `q`. -/
abbrev Follows (P : σ → σ → Prop) (p q : Parse σ α) (Q : α → α → σ → σ → Prop) : Prop :=
  Related .follow (fun _ _ => True) P p q Q

namespace Follows

variable {P R : σ → σ → Prop} {p q : Parse σ α} {Q : α → α → σ → σ → Prop}

/-- The run that follows. -/
theorem exists_run (h : Follows P p q Q) {r : BitReader} {x y : σ} {a : α} {s : Scan σ} (hxy : P x y)
    (hp : p ⟨r, x⟩ = .ok a s) : ∃ b z, q ⟨r, y⟩ = .ok b ⟨s.reader, z⟩ ∧ Q a b s.state z := by
  have runs := h ⟨r, x⟩ ⟨r, y⟩ rfl hxy
  rw [hp] at runs
  obtain ⟨b, ⟨reader, z⟩, hq, hreader, hQ⟩ := runs.exists_ok
  exact ⟨b, z, by rw [hq, show s.reader = reader from hreader], hQ⟩

theorem throw (e : Error) : Follows P (throw e) q Q :=
  fun s _ _ _ => .of_oneSided trivial e s _

theorem updateM {Q : Unit → Unit → σ → σ → Prop} {f g : σ → Except Error σ}
    (h : ∀ x y x', P x y → f x = .ok x' → Gives (g y) (Q () () x')) :
    Follows P (updateM f) (updateM g) Q := by
  intro s t hr hxy
  unfold Parse.updateM
  cases hf : f s.state with
  | error e => exact .of_oneSided trivial e s _
  | ok x' =>
    obtain ⟨y', hy', hQ⟩ := h _ _ _ hxy hf
    rw [hy']
    exact ⟨hr, hQ⟩

/-- From one reader and one state, there is only one run. -/
theorem same {I J : σ → Prop} {p : Parse σ α} {T : α → σ → Prop} (h : Triple J I p T) :
    Follows (fun x y => x = y ∧ I x) p p fun a b x y => a = b ∧ x = y ∧ T a x := by
  rintro ⟨r, x⟩ ⟨r', _⟩ (rfl : r = r') ⟨rfl, hx⟩
  have run := h ⟨r, x⟩ hx
  unfold wp at run
  cases hp : p ⟨r, x⟩ with
  | error e s => exact .of_oneSided trivial e s _
  | ok a s =>
    rw [hp] at run
    exact ⟨rfl, rfl, rfl, run.2⟩

theorem reader {f : BitReader → Parse σ α} (hf : ∀ r, Follows P (f r) (f r) Q) :
    Follows P (Parse.reader >>= f) (Parse.reader >>= f) Q := by
  rintro ⟨r, s⟩ ⟨r', t⟩ (rfl : r = r') hst
  exact hf r ⟨r, s⟩ ⟨r, t⟩ rfl hst

end Follows

end Parse

end Wma
