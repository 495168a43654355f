import Wma.Proofs.Parse.Related

/-!
# Steps that keep an invariant

`Parse.Maintains I p` says that the step `p` keeps `I`, however it ends: the states that it leaves
are as in `I` if the one it was given is, when it fails as well as when it gives a value. A step that
works on any state, because it only reads, keeps everything (`Maintains.of_keeps`).
-/

namespace Wma.Parse

variable {σ τ α β : Type}

/-- However the step ends, it keeps `I`. -/
def Maintains (I : σ → Prop) (p : Parse σ α) : Prop :=
  ∀ s : Scan σ, I s.state → p.wp (fun _ t => I t.state) (fun _ t => I t.state) s

namespace Maintains

variable {I : σ → Prop}

theorem pure (a : α) : Maintains I (pure a) :=
  fun _ h => h

theorem bind {p : Parse σ β} {f : β → Parse σ α} (hp : Maintains I p)
    (hf : ∀ b, Maintains I (f b)) : Maintains I (p >>= f) := by
  intro s h
  rw [wp_bind]
  exact wp_mono (hp s h) (fun b t ht => hf b t ht) fun _ _ he => he

/-- The second step may rely on having been given what the first one gave. -/
theorem bind_of_ok {p : Parse σ β} {f : β → Parse σ α} (hp : Maintains I p)
    (hf : ∀ b s t, p s = .ok b t → Maintains I (f b)) : Maintains I (p >>= f) := by
  intro s h
  rw [wp_bind]
  refine wp_of_result (fun b t ht => ?_) fun e t ht => wp_error (hp s h) ht
  exact hf b s t ht t (wp_ok (hp s h) ht)

theorem forall_ {ι : Type} {I : ι → σ → Prop} {p : Parse σ α} (h : ∀ i, Maintains (I i) p) :
    Maintains (fun s => ∀ i, I i s) p := by
  intro s hs
  refine wp_of_result (fun a t ht i => ?_) fun e t ht i => ?_
  · exact wp_ok (h i s (hs i)) ht
  · exact wp_error (h i s (hs i)) ht

/-- A fact that is not about the state stays true. -/
theorem fact (c : Prop) {p : Parse σ α} : Maintains (fun _ => c) p :=
  fun _ h => wp_of_result (fun _ _ _ => h) fun _ _ _ => h

theorem ite {c : Prop} [Decidable c] {p q : Parse σ α} (hp : Maintains I p) (hq : Maintains I q) :
    Maintains I (if c then p else q) := by
  split
  · exact hp
  · exact hq

theorem state : Maintains I state :=
  fun _ h => h

theorem corrupt (cause : StreamCause) : Maintains I (corrupt cause : Parse σ α) :=
  fun _ h => h

theorem align : Maintains I align :=
  fun _ h => h

theorem update {f : σ → σ} (hf : ∀ s, I s → I (f s)) : Maintains I (update f) :=
  fun s h => hf s.state h

theorem updateM {f : σ → Except Error σ} (hf : ∀ s t, I s → f s = .ok t → I t) :
    Maintains I (updateM f) := by
  intro s h
  rw [wp_updateM]
  cases hs : f s.state with
  | ok t => exact hf _ _ h hs
  | error e => exact h

theorem ofExcept (x : Except Error α) : Maintains I (ofExcept x) := by
  intro s h
  cases x with
  | ok a => exact h
  | error e => exact h

theorem require {c : Prop} [Decidable c] {cause : StreamCause} : Maintains I (require c cause) :=
  ite (pure ()) (corrupt cause)

theorem ofReader (f : BitReader → Except Error (α × BitReader)) : Maintains I (ofReader f) := by
  intro s h
  rw [wp_ofReader]
  cases f s.reader with
  | ok x => exact h
  | error e => exact h

theorem readBit : Maintains I readBit :=
  ofReader _

theorem read (n : Nat) : Maintains I (read n) :=
  ofReader _

/-- A step that keeps any relation of states leaves the state alone. -/
theorem of_keeps {p : Parse σ α} (hp : ∀ R : σ → σ → Prop, Keeps .exact R R p) : Maintains I p := by
  intro s h
  -- beside itself, from states of which the first is as in `I`
  have run := hp (fun a _ => I a) s s rfl h
  refine wp_of_result (fun a t ht => ?_) fun e t ht => ?_
  · rw [ht] at run
    exact run.2.2
  · rw [ht] at run
    exact (run.resolve_left id).2.2

/-- A step on a part of the state. -/
theorem focus {J : τ → Prop} {get : σ → τ} {set : τ → σ → σ} {p : Parse τ α} (hp : Maintains J p)
    (hget : ∀ s, I s → J (get s)) (hset : ∀ s t, I s → J t → I (set t s)) :
    Maintains I (focus get set p) := by
  intro s h
  rw [wp_focus]
  exact wp_mono (hp ⟨s.reader, get s.state⟩ (hget _ h)) (fun _ _ ht => hset _ _ h ht)
    fun _ _ ht => hset _ _ h ht

/-- A step on a part of the state that `I` does not speak of. -/
theorem focus_apart {get : σ → τ} {set : τ → σ → σ} {p : Parse τ α}
    (hset : ∀ s t, I s → I (set t s)) : Maintains I (Parse.focus get set p) := by
  refine focus (J := fun _ => True) (fun s _ => ?_) (fun _ _ => trivial) fun s t h _ => hset s t h
  exact wp_of_result (fun _ _ _ => trivial) fun _ _ _ => trivial

theorem forM {ι : Type} {p : ι → Parse σ Unit} (l : List ι) (h : ∀ i, Maintains I (p i)) :
    Maintains I (l.forM p) := by
  induction l with
  | nil => exact pure ()
  | cons i l ih => exact bind (h i) fun _ => ih

end Maintains

end Wma.Parse
