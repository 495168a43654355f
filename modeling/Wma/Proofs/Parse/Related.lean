import Wma.Code.PrefixCode
import Wma.Proofs.Parse.Triple

/-!
# Two runs of a step

A `View` says when two readers look alike and which errors may stand for one another; what is read
off readers that look alike is the same. `Related V J P p q Q` speaks of a run of `p` beside a run of
`q`, from states as in `P` and readers that look alike: both succeed, with values and states as in
`Q`, or both fail, with states as in `J`. Where a view is one-sided, only the run of `p` matters, and
`q` may do anything once `p` has failed. Most steps are run beside themselves and keep a relation of
states, `Keeps V J R p`; with equality for `R` this says that a step sees no more of its reader than
`V` does.
-/

namespace Wma

/-- Both results are values as in `R`, or both are errors as in `E`. -/
def Alike {α β : Type} (R : α → β → Prop) (E : Error → Error → Prop) :
    Except Error α → Except Error β → Prop
  | .ok a, .ok b => R a b
  | .error e, .error f => E e f
  | _, _ => False

namespace Alike

variable {α β γ δ : Type} {E : Error → Error → Prop}

theorem bind {R : α → β → Prop} {Q : γ → δ → Prop} {x : Except Error α} {y : Except Error β}
    {f : α → Except Error γ} {g : β → Except Error δ} (h : Alike R E x y)
    (hf : ∀ a b, R a b → Alike Q E (f a) (g b)) : Alike Q E (x >>= f) (y >>= g) := by
  match x, y, h with
  | .ok a, .ok b, h => exact hf a b h
  | .error _, .error _, h => exact h

theorem of_eq {R : α → α → Prop} {x y : Except Error α} (hE : ∀ e, E e e) (hR : ∀ a, R a a)
    (h : x = y) : Alike R E x y := by
  subst h
  cases x with
  | ok a => exact hR a
  | error e => exact hE e

theorem mono {R Q : α → β → Prop} {x : Except Error α} {y : Except Error β} (h : Alike R E x y)
    (hQ : ∀ a b, R a b → Q a b) : Alike Q E x y := by
  match x, y, h with
  | .ok a, .ok b, h => exact hQ a b h
  | .error _, .error _, h => exact h

/-- Where both results are values, they need not be compared any further. -/
theorem of_gives {P : α → Prop} {P' : β → Prop} {x : Except Error α} {y : Except Error β}
    (hx : Gives x P) (hy : Gives y P') :
    Alike (fun a b => (x = .ok a ∧ P a) ∧ y = .ok b ∧ P' b) E x y := by
  obtain ⟨a, ha, hP⟩ := hx
  obtain ⟨b, hb, hP'⟩ := hy
  rw [ha, hb]
  exact ⟨⟨rfl, hP⟩, rfl, hP'⟩

theorem map {R : α → β → Prop} {Q : γ → δ → Prop} {x : Except Error α} {y : Except Error β}
    {f : α → γ} {g : β → δ} (h : Alike R E x y) (hf : ∀ a b, R a b → Q (f a) (g b)) :
    Alike Q E (x.map f) (y.map g) := by
  match x, y, h with
  | .ok a, .ok b, h => exact hf a b h
  | .error _, .error _, h => exact h

end Alike

/-- Which readers look alike, and which errors may stand for one another. -/
structure View where
  reader : BitReader → BitReader → Prop
  error : Error → Error → Prop
  /-- Whether nothing is asked of the second run where the first fails. -/
  oneSided : Prop
  error_refl : ∀ e, error e e
  left {r r' : BitReader} : reader r r' → r.left = r'.left
  align {r r' : BitReader} : reader r r' → reader r.align r'.align
  skip {r r' : BitReader} (n : Nat) : reader r r' → Alike reader error (r.skip n) (r'.skip n)
  read {r r' : BitReader} (n : Nat) : reader r r' →
    Alike (fun x y => x.1 = y.1 ∧ reader x.2 y.2) error (r.read n) (r'.read n)
  decode {r r' : BitReader} (c : PrefixCode) : reader r r' →
    Alike (fun x y => x.1 = y.1 ∧ reader x.2 y.2) error (c.decode r) (c.decode r')

namespace View

/-- The second of two conditions is the first, or holds and the view is one-sided. -/
def Implies (V : View) (b b' : Bool) : Prop :=
  b = b' ∨ V.oneSided ∧ b' = true

namespace Implies

variable {V : View} {a a' b b' : Bool}

theorem or (a : Bool) (h : V.Implies b b') : V.Implies (a || b) (a || b') := by
  rcases h with rfl | ⟨hV, rfl⟩
  · exact .inl rfl
  · exact .inr ⟨hV, Bool.or_true a⟩

theorem and (h : V.Implies a a') (h' : V.Implies b b') : V.Implies (a && b) (a' && b') := by
  rcases h with rfl | ⟨hV, rfl⟩ <;> rcases h' with rfl | ⟨hV, rfl⟩
  · exact .inl rfl
  · cases a
    · exact .inl rfl
    · exact .inr ⟨hV, rfl⟩
  · cases b
    · exact .inl (Bool.and_false a)
    · exact .inr ⟨hV, rfl⟩
  · exact .inr ⟨hV, rfl⟩

end Implies

end View

/-- Only a reader looks like itself. -/
def View.exact : View where
  reader := Eq
  error := Eq
  oneSided := False
  error_refl _ := rfl
  left h := h ▸ rfl
  align h := h ▸ rfl
  skip _ h := h ▸ .of_eq (fun _ => rfl) (fun _ => rfl) rfl
  read _ h := h ▸ .of_eq (fun _ => rfl) (fun _ => ⟨rfl, rfl⟩) rfl
  decode _ h := h ▸ .of_eq (fun _ => rfl) (fun _ => ⟨rfl, rfl⟩) rfl

namespace Parse

variable {σ τ α β : Type} {V : View}

/-- Both runs end with values and states as in `Q`, or both with states as in `J`. -/
def EndAlike (V : View) (J : σ → σ → Prop) (Q : α → α → σ → σ → Prop) :
    EStateM.Result Error (Scan σ) α → EStateM.Result Error (Scan σ) α → Prop
  | .ok a s, .ok b t => V.reader s.reader t.reader ∧ Q a b s.state t.state
  | .error e s, .error f t =>
    V.oneSided ∨ V.error e f ∧ V.reader s.reader t.reader ∧ J s.state t.state
  | .error _ _, .ok _ _ => V.oneSided
  | .ok _ _, .error _ _ => False

/-- What the runs of `p` and `q` have in common. -/
def Related (V : View) (J P : σ → σ → Prop) (p q : Parse σ α) (Q : α → α → σ → σ → Prop) : Prop :=
  ∀ s t : Scan σ, V.reader s.reader t.reader → P s.state t.state → EndAlike V J Q (p s) (q t)

/-- Two runs of a step give the same value and keep states related. -/
def Keeps (V : View) (J R : σ → σ → Prop) (p : Parse σ α) : Prop :=
  Related V J R p p fun a b s t => a = b ∧ R s t

namespace EndAlike

variable {J J' : σ → σ → Prop} {Q : α → α → σ → σ → Prop}

theorem mono {Q' : α → α → σ → σ → Prop} {x y : EStateM.Result Error (Scan σ) α}
    (h : EndAlike V J Q x y) (hQ : ∀ a b s t, Q a b s t → Q' a b s t)
    (hJ : ∀ s t, J s t → J' s t) : EndAlike V J' Q' x y := by
  cases x <;> cases y
  · exact ⟨h.1, hQ _ _ _ _ h.2⟩
  · exact h.elim
  · exact h
  · exact h.imp_right fun h => ⟨h.1, h.2.1, hJ _ _ h.2.2⟩

theorem of_oneSided (h : V.oneSided) (e : Error) (s : Scan σ) (y : EStateM.Result Error (Scan σ) α) :
    EndAlike V J Q (.error e s) y := by
  cases y
  · exact h
  · exact .inl h

/-- Beside a run that succeeds, the second one succeeds. -/
theorem exists_ok {a : α} {s : Scan σ} {y : EStateM.Result Error (Scan σ) α}
    (h : EndAlike V J Q (.ok a s) y) :
    ∃ b t, y = .ok b t ∧ V.reader s.reader t.reader ∧ Q a b s.state t.state := by
  cases y
  · exact ⟨_, _, rfl, h⟩
  · exact h.elim

end EndAlike

namespace Related

variable {J P : σ → σ → Prop} {p q : Parse σ α} {Q : α → α → σ → σ → Prop}

theorem mono {J' P' : σ → σ → Prop} {Q' : α → α → σ → σ → Prop} (h : Related V J P p q Q)
    (hP : ∀ s t, P' s t → P s t) (hQ : ∀ a b s t, Q a b s t → Q' a b s t)
    (hJ : ∀ s t, J s t → J' s t) : Related V J' P' p q Q' :=
  fun s t hr hp => (h s t hr (hP _ _ hp)).mono hQ hJ

theorem post {Q' : α → α → σ → σ → Prop} (h : Related V J P p q Q)
    (hQ : ∀ a b s t, Q a b s t → Q' a b s t) : Related V J P p q Q' :=
  h.mono (fun _ _ h => h) hQ fun _ _ h => h

theorem pre {P' : σ → σ → Prop} (h : Related V J P p q Q) (hP : ∀ s t, P' s t → P s t) :
    Related V J P' p q Q :=
  h.mono hP (fun _ _ _ _ h => h) fun _ _ h => h

theorem pure {a b : α} (h : ∀ s t, P s t → Q a b s t) :
    Related V J P (pure a) (pure b) Q :=
  fun _ _ hr hp => ⟨hr, h _ _ hp⟩

theorem bind {R : β → β → σ → σ → Prop} {p q : Parse σ β} {f g : β → Parse σ α}
    (h : Related V J P p q R) (hf : ∀ a b, Related V J (R a b) (f a) (g b) Q) :
    Related V J P (p >>= f) (q >>= g) Q := by
  intro s t hr hp
  have first := h s t hr hp
  show EndAlike V J Q (EStateM.bind p f s) (EStateM.bind q g t)
  unfold EStateM.bind
  cases hx : p s <;> cases hy : q t <;> rw [hx, hy] at first
  · exact hf _ _ _ _ first.1 first.2
  · exact first.elim
  · exact .of_oneSided first _ _ _
  · exact first

/-- A fact about related states holds throughout the step. -/
theorem of_fact {c : Prop} (hc : ∀ s t, P s t → c) (h : c → Related V J P p q Q) :
    Related V J P p q Q :=
  fun s t hr hp => h (hc _ _ hp) s t hr hp

/-- Runs that come to the same value go on from it. -/
theorem andThen {R : σ → σ → Prop} {p q : Parse σ β} {f g : β → Parse σ α}
    (h : Related V J P p q fun a b s t => a = b ∧ R s t)
    (hf : ∀ a, Related V J R (f a) (g a) Q) : Related V J P (p >>= f) (q >>= g) Q := by
  refine h.bind fun a b => .of_fact (fun _ _ h => h.1) fun hab => ?_
  subst hab
  exact (hf a).pre fun _ _ h => h.2

theorem ite {c d : Prop} [Decidable c] [Decidable d] {p' q' : Parse σ α} (hcd : c ↔ d)
    (hp : c → Related V J P p q Q) (hq : ¬c → Related V J P p' q' Q) :
    Related V J P (if c then p else p') (if d then q else q') Q := by
  by_cases hc : c
  · rw [if_pos hc, if_pos (hcd.mp hc)]
    exact hp hc
  · rw [if_neg hc, if_neg (hc ∘ hcd.mpr)]
    exact hq hc

theorem state {Q : σ → σ → σ → σ → Prop} (h : ∀ s t, P s t → Q s t s t) :
    Related V J P state state Q :=
  fun _ _ hr hp => ⟨hr, h _ _ hp⟩

theorem update {Q : Unit → Unit → σ → σ → Prop} {f g : σ → σ}
    (h : ∀ s t, P s t → Q () () (f s) (g t)) : Related V J P (update f) (update g) Q :=
  fun _ _ hr hp => ⟨hr, h _ _ hp⟩

theorem setState {Q : Unit → Unit → σ → σ → Prop} {x y : σ} (h : ∀ s t, P s t → Q () () x y) :
    Related V J P (setState x) (setState y) Q :=
  fun _ _ hr hp => ⟨hr, h _ _ hp⟩

/-- What the first run is refused, the second one may be let through if the view is one-sided. -/
theorem require {Q : Unit → Unit → σ → σ → Prop} {b b' : Bool} {cause : StreamCause}
    (hJ : ∀ s t, P s t → J s t) (hb : ∀ s t, P s t → V.Implies b b')
    (h : ∀ s t, P s t → Q () () s t) :
    Related V J P (require b cause) (require b' cause) Q := by
  refine .of_fact hb fun hb => ?_
  rcases hb with rfl | ⟨hV, rfl⟩
  · exact .ite Iff.rfl (fun _ => .pure h) fun _ => fun _ _ hr hp =>
      .inr ⟨V.error_refl _, hr, hJ _ _ hp⟩
  · cases b
    · exact fun s _ _ _ => .of_oneSided hV _ s _
    · exact .pure h

theorem updateM {Q : Unit → Unit → σ → σ → Prop} {f g : σ → Except Error σ}
    (hJ : ∀ s t, P s t → J s t) (h : ∀ s t, P s t → Alike (Q () ()) V.error (f s) (g t)) :
    Related V J P (updateM f) (updateM g) Q := by
  intro s t hr hp
  have h := h _ _ hp
  unfold Parse.updateM
  match hf : f s.state, hg : g t.state with
  | .ok a, .ok b => rw [hf, hg] at h; exact ⟨hr, h⟩
  | .error e, .error e' => rw [hf, hg] at h; exact .inr ⟨h, hr, hJ _ _ hp⟩
  | .ok a, .error e => rw [hf, hg] at h; exact h.elim
  | .error e, .ok a => rw [hf, hg] at h; exact h.elim

theorem ofExcept {x y : Except Error α} (hJ : ∀ s t, P s t → J s t)
    (h : ∀ s t, P s t → Alike (fun a b => Q a b s t) V.error x y) :
    Related V J P (ofExcept x) (ofExcept y) Q := by
  intro s t hr hp
  match x, y, h _ _ hp with
  | .ok a, .ok b, h => exact ⟨hr, h⟩
  | .error e, .error f, h => exact .inr ⟨h, hr, hJ _ _ hp⟩

theorem focus {J' P' : τ → τ → Prop} {Q' : α → α → τ → τ → Prop} {get : σ → τ} {set : τ → σ → σ}
    {p q : Parse τ α} (h : Related V J' P' p q Q') (hP : ∀ s t, P s t → P' (get s) (get t))
    (hQ : ∀ a b s t x y, P s t → Q' a b x y → Q a b (set x s) (set y t))
    (hJ : ∀ s t x y, P s t → J' x y → J (set x s) (set y t)) :
    Related V J P (focus get set p) (focus get set q) Q := by
  intro s t hr hp
  have h := h ⟨s.reader, get s.state⟩ ⟨t.reader, get t.state⟩ hr (hP _ _ hp)
  unfold Parse.focus
  cases hx : p ⟨s.reader, get s.state⟩ <;> cases hy : q ⟨t.reader, get t.state⟩ <;> rw [hx, hy] at h
  · exact ⟨h.1, hQ _ _ _ _ _ _ hp h.2⟩
  · exact h.elim
  · exact h
  · exact h.imp_right fun h => ⟨h.1, h.2.1, hJ _ _ _ _ hp h.2.2⟩

theorem elsewhere {r r' : BitReader} (hr : V.reader r r') (h : Related V J P p q Q) :
    Related V J P (elsewhere r p) (elsewhere r' q) Q := by
  intro s t hst hp
  have h := h ⟨r, s.state⟩ ⟨r', t.state⟩ hr hp
  unfold Parse.elsewhere
  cases hx : p ⟨r, s.state⟩ <;> cases hy : q ⟨r', t.state⟩ <;> rw [hx, hy] at h
  · exact ⟨hst, h.2⟩
  · exact h.elim
  · exact h
  · exact h.imp_right fun h => ⟨h.1, hst, h.2.2⟩

end Related

/-- What each of the runs keeps to by itself. -/
theorem Related.keep {I I' K K' : σ → Prop} {T T' : α → σ → Prop} {J P : σ → σ → Prop}
    {p q : Parse σ α} {Q : α → α → σ → σ → Prop} (h : Related V J P p q Q) (hp : Triple K I p T)
    (hq : Triple K' I' q T') (hI : ∀ s t, P s t → I s ∧ I' t) :
    Related V J P p q fun a b s t => T a s ∧ T' b t ∧ Q a b s t := by
  intro s t hr hst
  have both := h s t hr hst
  have left := hp s (hI _ _ hst).1
  have right := hq t (hI _ _ hst).2
  unfold wp at left right
  cases hx : p s <;> cases hy : q t <;> rw [hx] at both left <;> rw [hy] at both right
  · exact ⟨both.1, left.2, right.2, both.2⟩
  · exact both
  · exact both
  · exact both

namespace Keeps

variable {J R : σ → σ → Prop} {p : Parse σ α}

theorem pure (a : α) : Keeps V J R (pure a) :=
  Related.pure fun _ _ h => ⟨rfl, h⟩

/-- A step that comes to states as in `R` goes on as one that keeps `R`. -/
theorem after {P : σ → σ → Prop} {p : Parse σ β} {f : β → Parse σ α}
    (h : Related V J P p p fun a b s t => a = b ∧ R s t) (hf : ∀ b, Keeps V J R (f b)) :
    Related V J P (p >>= f) (p >>= f) fun a b s t => a = b ∧ R s t :=
  h.andThen hf

theorem bind {p : Parse σ β} {f : β → Parse σ α} (h : Keeps V J R p)
    (hf : ∀ b, Keeps V J R (f b)) : Keeps V J R (p >>= f) :=
  after h hf

theorem ite {c : Prop} [Decidable c] {q : Parse σ α} (hp : c → Keeps V J R p)
    (hq : ¬c → Keeps V J R q) : Keeps V J R (if c then p else q) :=
  Related.ite Iff.rfl hp hq

/-- Related states go on with the same step. -/
theorem state {f : σ → Parse σ α} (hf : ∀ s t, R s t → f s = f t) (h : ∀ s, Keeps V J R (f s)) :
    Keeps V J R (Parse.state >>= f) := by
  refine Related.bind (R := fun s t s' t' => f s = f t ∧ R s' t')
    (.state fun s t hst => ⟨hf s t hst, hst⟩) fun s t => .of_fact (fun _ _ h => h.1) fun hst => ?_
  rw [hst]
  exact Related.mono (h t) (fun _ _ h => h.2) (fun _ _ _ _ h => h) fun _ _ h => h

/-- A step that goes on with the number of bits that are left. -/
theorem left {f : Nat → Parse σ α} (hf : ∀ n, Keeps V J R (f n)) :
    Keeps V J R (reader >>= fun r => f r.left) := by
  intro s t hr hp
  show EndAlike V J _ (f s.reader.left s) (f t.reader.left t)
  rw [V.left hr]
  exact hf _ s t hr hp

theorem update {f : σ → σ} (h : ∀ s t, R s t → R (f s) (f t)) : Keeps V J R (update f) :=
  Related.update fun s t hst => ⟨rfl, h s t hst⟩

theorem setState (a : σ) (h : R a a) : Keeps V J R (setState a) :=
  fun _ _ hr _ => ⟨hr, rfl, h⟩

theorem ofExcept (hJ : ∀ s t, R s t → J s t) (x : Except Error α) : Keeps V J R (ofExcept x) :=
  Related.ofExcept hJ fun _ _ h => .of_eq V.error_refl (fun _ => ⟨rfl, h⟩) rfl

theorem throw (hJ : ∀ s t, R s t → J s t) (e : Error) : Keeps V J R (throw e : Parse σ α) :=
  fun _ _ hr h => .inr ⟨V.error_refl e, hr, hJ _ _ h⟩

theorem require (hJ : ∀ s t, R s t → J s t) {c : Prop} [Decidable c] {cause : StreamCause} :
    Keeps V J R (require c cause) :=
  .ite (fun _ => .pure ()) fun _ => throw hJ _

theorem align : Keeps V J R align :=
  fun _ _ hr h => ⟨V.align hr, rfl, h⟩

theorem ofReader (hJ : ∀ s t, R s t → J s t) {f : BitReader → Except Error (α × BitReader)}
    (h : ∀ r r', V.reader r r' →
      Alike (fun x y => x.1 = y.1 ∧ V.reader x.2 y.2) V.error (f r) (f r')) :
    Keeps V J R (ofReader f) := by
  intro s t hr hst
  have h := h _ _ hr
  unfold Parse.ofReader
  match hf : f s.reader, hg : f t.reader with
  | .ok (a, r), .ok (b, r') => rw [hf, hg] at h; exact ⟨h.2, h.1, hst⟩
  | .error e, .error e' => rw [hf, hg] at h; exact .inr ⟨h, hr, hJ _ _ hst⟩
  | .ok a, .error e => rw [hf, hg] at h; exact h.elim
  | .error e, .ok a => rw [hf, hg] at h; exact h.elim

theorem read (hJ : ∀ s t, R s t → J s t) (n : Nat) : Keeps V J R (read n) :=
  ofReader hJ fun _ _ => V.read n

theorem readBit (hJ : ∀ s t, R s t → J s t) : Keeps V J R readBit := by
  refine ofReader hJ fun _ _ h => (V.read 1 h).map ?_
  rintro ⟨a, r⟩ ⟨b, r'⟩ ⟨hab, h⟩
  exact ⟨congrArg (· != 0) hab, h⟩

theorem skip (hJ : ∀ s t, R s t → J s t) (n : Nat) : Keeps V J R (skip n) :=
  ofReader hJ fun _ _ h => (V.skip n h).map fun _ _ h => ⟨rfl, h⟩

theorem next (hJ : ∀ s t, R s t → J s t) (c : PrefixCode) : Keeps V J R c.next :=
  ofReader hJ fun _ _ => V.decode c

theorem focus {J' R' : τ → τ → Prop} {get : σ → τ} {set : τ → σ → σ} {p : Parse τ α}
    (h : Keeps V J' R' p) (hget : ∀ s t, R s t → R' (get s) (get t))
    (hset : ∀ s t x y, R s t → R' x y → R (set x s) (set y t))
    (hJ : ∀ s t x y, R s t → J' x y → J (set x s) (set y t)) :
    Keeps V J R (Parse.focus get set p) :=
  Related.focus h hget (fun _ _ s t x y hst h => ⟨h.1, hset s t x y hst h.2⟩) hJ

theorem forM {ι : Type} {p : ι → Parse σ Unit} (l : List ι) (h : ∀ i, Keeps V J R (p i)) :
    Keeps V J R (l.forM p) := by
  induction l with
  | nil => exact pure ()
  | cons i l ih =>
    show Keeps V J R (p i >>= fun _ => l.forM p)
    exact bind (h i) fun _ => ih

theorem mapM {ι : Type} {p : ι → Parse σ α} (l : List ι) (h : ∀ i, Keeps V J R (p i)) :
    Keeps V J R (l.mapM p) := by
  induction l with
  | nil => exact pure []
  | cons i l ih =>
    rw [List.mapM_cons]
    exact bind (h i) fun a => bind ih fun as => pure (a :: as)

end Keeps

end Parse

end Wma
