import Wma.Bits.Parse
import Wma.Proofs.Gives
import Wma.Stream.Config

/-!
# Triples of parsing steps

`p.wp Q E s` says how the step `p` ends from the scan `s`: with a value and a scan as in `Q`, or with
an error and a scan as in `E`. `Triple J I p Q` speaks of states: from a state as in `I`, the step
ends as in `Q`, or fails and leaves a state as in `J`. The reader does not grow; if it is short, no
longer than the largest packet, only damage of the stream makes the step fail.

`J` stays the same from step to step, so that triples compose (`Triple.bind`); `Triple.focus` takes
a triple of a part of the state to the whole.
-/

namespace Wma

/-- Whether an error stands for damage of the stream, and not for a gap in the tables. -/
def Error.IsDamage : Error → Prop
  | .corrupt (.noBandLayout _) => False
  | .corrupt _ => True
  | _ => False

/-- Whether a reader is no longer than the largest packet. -/
def BitReader.Short (r : BitReader) : Prop :=
  r.bitLength ≤ 8 * maxPacketBytes

namespace Parse

variable {σ τ α β : Type} {s : Scan σ}

/-- How a step ends from a scan. -/
def wp (p : Parse σ α) (Q : α → Scan σ → Prop) (E : Error → Scan σ → Prop) (s : Scan σ) : Prop :=
  match p s with
  | .ok a t => Q a t
  | .error e t => E e t

section wp

variable {Q : α → Scan σ → Prop} {E : Error → Scan σ → Prop}

theorem wp_mono {p : Parse σ α} {Q' : α → Scan σ → Prop} {E' : Error → Scan σ → Prop}
    (h : p.wp Q E s) (hQ : ∀ a t, Q a t → Q' a t) (hE : ∀ e t, E e t → E' e t) : p.wp Q' E' s := by
  unfold wp at *
  cases hp : p s with
  | ok a t => rw [hp] at h; exact hQ a t h
  | error e t => rw [hp] at h; exact hE e t h

theorem wp_and {p : Parse σ α} {Q' : α → Scan σ → Prop} {E' : Error → Scan σ → Prop}
    (h : p.wp Q E s) (h' : p.wp Q' E' s) :
    p.wp (fun a t => Q a t ∧ Q' a t) (fun e t => E e t ∧ E' e t) s := by
  unfold wp at *
  cases hp : p s with
  | ok a t => rw [hp] at h h'; exact ⟨h, h'⟩
  | error e t => rw [hp] at h h'; exact ⟨h, h'⟩

theorem wp_ok {p : Parse σ α} {a : α} {t : Scan σ} (h : p.wp Q E s) (hp : p s = .ok a t) :
    Q a t := by
  unfold wp at h; rwa [hp] at h

theorem wp_error {p : Parse σ α} {e : Error} {t : Scan σ} (h : p.wp Q E s) (hp : p s = .error e t) :
    E e t := by
  unfold wp at h; rwa [hp] at h

theorem wp_of_result {p : Parse σ α} (hQ : ∀ a t, p s = .ok a t → Q a t)
    (hE : ∀ e t, p s = .error e t → E e t) : p.wp Q E s := by
  unfold wp
  cases hp : p s with
  | ok a t => exact hQ a t hp
  | error e t => exact hE e t hp

theorem wp_of_ok {p : Parse σ α} {a : α} {t : Scan σ} (hp : p s = .ok a t) (h : Q a t) :
    p.wp Q E s := by
  unfold wp
  rwa [hp]

theorem exists_of_wp {p : Parse σ α} (h : p.wp Q (fun _ _ => False) s) :
    ∃ a t, p s = .ok a t ∧ Q a t := by
  unfold wp at h
  cases hp : p s with
  | ok a t =>
    rw [hp] at h
    exact ⟨a, t, rfl, h⟩
  | error e t =>
    rw [hp] at h
    exact h.elim

theorem exists_error_of_wp {p : Parse σ α} (h : p.wp (fun _ _ => False) E s) :
    ∃ e t, p s = .error e t ∧ E e t := by
  unfold wp at h
  cases hp : p s with
  | ok a t =>
    rw [hp] at h
    exact h.elim
  | error e t =>
    rw [hp] at h
    exact ⟨e, t, rfl, h⟩

@[simp] theorem wp_pure (a : α) : (pure a : Parse σ α).wp Q E s ↔ Q a s := Iff.rfl

@[simp] theorem wp_bind {p : Parse σ β} {f : β → Parse σ α} :
    (p >>= f).wp Q E s ↔ p.wp (fun b t => (f b).wp Q E t) E s := by
  show (match EStateM.bind p f s with | .ok a t => Q a t | .error e t => E e t) ↔ _
  unfold EStateM.bind wp
  cases p s <;> rfl

@[simp] theorem wp_ite {c : Prop} [Decidable c] {p q : Parse σ α} :
    (if c then p else q).wp Q E s ↔ if c then p.wp Q E s else q.wp Q E s := by
  split <;> rfl

@[simp] theorem wp_throw (e : Error) : (throw e : Parse σ α).wp Q E s ↔ E e s := Iff.rfl

theorem wp_ofReader {f : BitReader → Except Error (α × BitReader)} :
    (ofReader f).wp Q E s ↔
      match f s.reader with
      | .ok (a, r) => Q a { s with reader := r }
      | .error e => E e s := by
  unfold ofReader wp
  dsimp only
  cases f s.reader <;> rfl

@[simp] theorem wp_reader {Q : BitReader → Scan σ → Prop} : reader.wp Q E s ↔ Q s.reader s :=
  Iff.rfl

@[simp] theorem wp_state {Q : σ → Scan σ → Prop} : state.wp Q E s ↔ Q s.state s := Iff.rfl

@[simp] theorem wp_setState {Q : Unit → Scan σ → Prop} (a : σ) :
    (setState a).wp Q E s ↔ Q () { s with state := a } := Iff.rfl

@[simp] theorem wp_update {Q : Unit → Scan σ → Prop} (f : σ → σ) :
    (update f).wp Q E s ↔ Q () { s with state := f s.state } := Iff.rfl

theorem wp_updateM {Q : Unit → Scan σ → Prop} (f : σ → Except Error σ) :
    (updateM f).wp Q E s ↔
      match f s.state with
      | .ok a => Q () { s with state := a }
      | .error e => E e s := by
  unfold updateM wp
  dsimp only
  cases f s.state <;> rfl

@[simp] theorem wp_ofExcept_ok (a : α) : (ofExcept (.ok a) : Parse σ α).wp Q E s ↔ Q a s := Iff.rfl

@[simp] theorem wp_ofExcept_error (e : Error) :
    (ofExcept (.error e) : Parse σ α).wp Q E s ↔ E e s := Iff.rfl

@[simp] theorem wp_require {Q : Unit → Scan σ → Prop} {c : Prop} [Decidable c]
    {cause : StreamCause} :
    (require c cause).wp Q E s ↔ if c then Q () s else E (.corrupt cause) s := by
  unfold require; split <;> rfl

@[simp] theorem wp_focus {get : σ → τ} {set : τ → σ → σ} {p : Parse τ α} :
    (focus get set p).wp Q E s ↔
      p.wp (fun a t => Q a ⟨t.reader, set t.state s.state⟩)
        (fun e t => E e ⟨t.reader, set t.state s.state⟩) ⟨s.reader, get s.state⟩ := by
  unfold focus wp
  dsimp only
  cases p ⟨s.reader, get s.state⟩ <;> rfl

@[simp] theorem wp_elsewhere {r : BitReader} {p : Parse σ α} :
    (elsewhere r p).wp Q E s ↔
      p.wp (fun a t => Q a ⟨s.reader, t.state⟩) (fun e t => E e ⟨s.reader, t.state⟩)
        ⟨r, s.state⟩ := by
  unfold elsewhere wp
  dsimp only
  cases p ⟨r, s.state⟩ <;> rfl

end wp

/-- From a state as in `I`, a step ends as in `Q`, or fails with a state as in `J`. Off a short reader,
it fails for damage. -/
def Triple (J I : σ → Prop) (p : Parse σ α) (Q : α → σ → Prop) : Prop :=
  ∀ s : Scan σ, I s.state →
    p.wp (fun a t => t.reader.bitLength ≤ s.reader.bitLength ∧ Q a t.state)
      (fun e t => (s.reader.Short → e.IsDamage) ∧ t.reader.bitLength ≤ s.reader.bitLength ∧
        J t.state) s

namespace Triple

variable {I J : σ → Prop} {Q : α → σ → Prop}

theorem mono {J' I' : σ → Prop} {Q' : α → σ → Prop} {p : Parse σ α} (h : Triple J I p Q)
    (hI : ∀ s, I' s → I s) (hQ : ∀ a s, Q a s → Q' a s) (hJ : ∀ s, J s → J' s) :
    Triple J' I' p Q' :=
  fun s hi => wp_mono (h s (hI _ hi)) (fun _ _ h => ⟨h.1, hQ _ _ h.2⟩)
    fun _ _ h => ⟨h.1, h.2.1, hJ _ h.2.2⟩

theorem post {Q' : α → σ → Prop} {p : Parse σ α} (h : Triple J I p Q)
    (hQ : ∀ a s, Q a s → Q' a s) : Triple J I p Q' :=
  h.mono (fun _ h => h) hQ fun _ h => h

theorem pre {I' : σ → Prop} {p : Parse σ α} (h : Triple J I p Q) (hI : ∀ s, I' s → I s) :
    Triple J I' p Q :=
  h.mono hI (fun _ _ h => h) fun _ h => h

theorem pure {a : α} (h : ∀ s, I s → Q a s) : Triple J I (pure a) Q :=
  fun _ hi => ⟨Nat.le_refl _, h _ hi⟩

theorem bind {R : β → σ → Prop} {p : Parse σ β} {f : β → Parse σ α} (hp : Triple J I p R)
    (hf : ∀ b, Triple J (R b) (f b) Q) : Triple J I (p >>= f) Q := by
  intro s hi
  refine wp_bind.2 (wp_mono (hp s hi) (fun b t h => ?_) fun _ _ h => h)
  exact wp_mono (hf b t h.2) (fun _ _ h' => ⟨Nat.le_trans h'.1 h.1, h'.2⟩) fun _ _ h' =>
    ⟨fun hs => h'.1 (Nat.le_trans h.1 hs), Nat.le_trans h'.2.1 h.1, h'.2.2⟩

theorem ite {c : Prop} [Decidable c] {p q : Parse σ α} (hp : c → Triple J I p Q)
    (hq : ¬c → Triple J I q Q) : Triple J I (if c then p else q) Q := by
  split
  · exact hp ‹_›
  · exact hq ‹_›

/-- A fact about the state that `I` makes known holds throughout the step. -/
theorem of_fact {c : Prop} {p : Parse σ α} (hc : ∀ s, I s → c) (h : c → Triple J I p Q) :
    Triple J I p Q :=
  fun s hi => h (hc _ hi) s hi

theorem state {Q : σ → σ → Prop} (h : ∀ s, I s → Q s s) : Triple J I state Q :=
  fun _ hi => ⟨Nat.le_refl _, h _ hi⟩

theorem setState {Q : Unit → σ → Prop} {a : σ} (h : ∀ s, I s → Q () a) :
    Triple J I (setState a) Q :=
  fun _ hi => ⟨Nat.le_refl _, h _ hi⟩

theorem update {Q : Unit → σ → Prop} {f : σ → σ} (h : ∀ s, I s → Q () (f s)) :
    Triple J I (update f) Q :=
  fun _ hi => ⟨Nat.le_refl _, h _ hi⟩

theorem updateM {Q : Unit → σ → Prop} {f : σ → Except Error σ}
    (h : ∀ s, I s → Gives (f s) (Q ())) : Triple J I (updateM f) Q := by
  intro s hi
  obtain ⟨t, ht, hq⟩ := h _ hi
  rw [wp_updateM, ht]
  exact ⟨Nat.le_refl _, hq⟩

theorem ofExcept {x : Except Error α} (h : ∀ s, I s → Gives x (Q · s)) :
    Triple J I (ofExcept x) Q := by
  intro s hi
  obtain ⟨a, rfl, hq⟩ := h _ hi
  exact ⟨Nat.le_refl _, hq⟩

theorem require {Q : Unit → σ → Prop} {c : Prop} [Decidable c] {cause : StreamCause}
    (hc : (Error.corrupt cause).IsDamage) (hJ : ∀ s, I s → J s) (h : c → ∀ s, I s → Q () s) :
    Triple J I (require c cause) Q := by
  intro s hi
  rw [wp_require]
  split
  · exact ⟨Nat.le_refl _, h ‹_› _ hi⟩
  · exact ⟨fun _ => hc, Nat.le_refl _, hJ _ hi⟩

theorem align {Q : Unit → σ → Prop} (h : ∀ s, I s → Q () s) : Triple J I align Q :=
  fun _ hi => ⟨Nat.le_refl _, h _ hi⟩

theorem focus {I' J' : τ → Prop} {Q' : α → τ → Prop} {get : σ → τ} {set : τ → σ → σ}
    {p : Parse τ α} (h : Triple J' I' p Q') (hI : ∀ s, I s → I' (get s))
    (hQ : ∀ a s t, I s → Q' a t → Q a (set t s)) (hJ : ∀ s t, I s → J' t → J (set t s)) :
    Triple J I (focus get set p) Q :=
  fun s hi => wp_focus.2 (wp_mono (h ⟨s.reader, get s.state⟩ (hI _ hi))
    (fun _ _ h => ⟨h.1, hQ _ _ _ hi h.2⟩) fun _ _ h => ⟨h.1, h.2.1, hJ _ _ hi h.2.2⟩)

theorem elsewhere {r : BitReader} {p : Parse σ α} (hr : r.Short) (h : Triple J I p Q) :
    Triple J I (elsewhere r p) Q :=
  fun s hi => wp_elsewhere.2 (wp_mono (h ⟨r, s.state⟩ hi)
    (fun _ _ h => ⟨Nat.le_refl _, h.2⟩) fun _ _ h => ⟨fun _ => h.1 hr, Nat.le_refl _, h.2.2⟩)

/-- A step that goes on from the reader that another one leaves. That reader is no longer. -/
theorem elsewhere_reader {R : σ → Prop} {r : BitReader} {p : Parse σ Unit}
    {f : BitReader → Parse σ α} (hr : r.Short) (hp : Triple J I p fun _ => R)
    (hf : ∀ r', r'.bitLength ≤ r.bitLength → Triple J R (f r') Q) :
    Triple J I (Parse.elsewhere r (do p; f (← Parse.reader))) Q := by
  refine fun s hi => wp_elsewhere.2 (wp_bind.2 (wp_mono (hp ⟨r, s.state⟩ hi)
    (fun _ t h => ?_) fun _ _ h => ⟨fun _ => h.1 hr, Nat.le_refl _, h.2.2⟩))
  rw [wp_bind, wp_reader]
  exact wp_mono (hf t.reader h.1 t h.2) (fun _ _ h => ⟨Nat.le_refl _, h.2⟩) fun _ _ h' =>
    ⟨fun _ => h'.1 (Nat.le_trans h.1 hr), Nat.le_refl _, h'.2.2⟩

theorem forM {ι : Type} {I : σ → Prop} {p : ι → Parse σ Unit} (l : List ι)
    (h : ∀ i ∈ l, Triple J I (p i) fun _ => I) : Triple J I (l.forM p) fun _ => I := by
  induction l with
  | nil => exact pure fun _ h => h
  | cons i l ih =>
    show Triple J I (p i >>= fun _ => l.forM p) _
    exact bind (h i (by simp)) fun _ => ih fun j hj => h j (by simp [hj])

/-- Steps in a row that give a value each give as many values. -/
theorem mapM {ι : Type} {I : σ → Prop} {P : α → Prop} {p : ι → Parse σ α} (l : List ι)
    (h : ∀ i ∈ l, Triple J I (p i) fun a s => P a ∧ I s) :
    Triple J I (l.mapM p) fun as s => (as.length = l.length ∧ ∀ a ∈ as, P a) ∧ I s := by
  induction l with
  | nil => exact pure fun _ h => ⟨⟨rfl, by simp⟩, h⟩
  | cons i l ih =>
    rw [List.mapM_cons]
    refine bind (h i (by simp)) fun a => of_fact (fun _ h => h.1) fun ha => ?_
    refine bind ((ih fun j hj => h j (by simp [hj])).pre fun _ h => h.2) fun as => ?_
    refine of_fact (fun _ h => h.1) fun has => pure fun _ hi => ⟨⟨by simp [has.1], ?_⟩, hi.2⟩
    intro a' ha'
    rcases List.mem_cons.mp ha' with rfl | ha'
    · exact ha
    · exact has.2 a' ha'

end Triple

end Parse

end Wma
