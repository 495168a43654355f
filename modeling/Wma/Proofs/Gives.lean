import Wma.Buffer
import Wma.Word

/-!
# Operations that give a result

`Gives x Q` says that an operation succeeds, and with a result as in `Q`. The checks of words and of
buffers succeed where their promises hold (`Gives.int32`, `Gives.slice`, …), and a row of operations
succeeds if each of them does (`Gives.mapM`).
-/

namespace Wma

variable {α β : Type}

/-- The operation `x` succeeds, and with a result as in `Q`. -/
def Gives (x : Except Error α) (Q : α → Prop) : Prop :=
  ∃ a, x = .ok a ∧ Q a

namespace Gives

variable {P Q : α → Prop}

theorem ok {a : α} (h : Q a) : Gives (.ok a) Q :=
  ⟨a, rfl, h⟩

theorem pure {a : α} (h : Q a) : Gives (pure a) Q :=
  ⟨a, rfl, h⟩

theorem mono {x : Except Error α} (h : Gives x P) (hQ : ∀ a, P a → Q a) : Gives x Q := by
  obtain ⟨a, rfl, ha⟩ := h
  exact ⟨a, rfl, hQ a ha⟩

theorem bind {x : Except Error β} {f : β → Except Error α} {R : β → Prop} (hx : Gives x R)
    (hf : ∀ b, R b → Gives (f b) Q) : Gives (x >>= f) Q := by
  obtain ⟨b, rfl, hb⟩ := hx
  exact hf b hb

theorem ite {c : Prop} [Decidable c] {x y : Except Error α} (hx : c → Gives x Q)
    (hy : ¬c → Gives y Q) : Gives (if c then x else y) Q := by
  split
  · exact hx ‹_›
  · exact hy ‹_›

/-- Both branches of a step go on in the same way. -/
theorem ite_bind {c : Prop} [Decidable c] {x y : Except Error β} {f : β → Except Error α}
    {R : β → Prop} (h : Gives (if c then x else y) R) (hf : ∀ b, R b → Gives (f b) Q) :
    Gives (if c then x >>= f else y >>= f) Q := by
  split at h
  · rw [if_pos ‹_›]; exact h.bind hf
  · rw [if_neg ‹_›]; exact h.bind hf

theorem of_eq {x : Except Error α} {a : α} (hx : x = .ok a) (h : Q a) : Gives x Q :=
  ⟨a, hx, h⟩

/-- A row of operations that succeed gives as many results. -/
theorem mapM {f : β → Except Error α} (l : List β) (h : ∀ b ∈ l, Gives (f b) Q) :
    Gives (l.mapM f) fun l' => l'.length = l.length ∧ ∀ a ∈ l', Q a := by
  induction l with
  | nil => exact .ok ⟨rfl, by simp⟩
  | cons b l ih =>
    rw [List.mapM_cons]
    refine (h b (by simp)).bind fun a ha => ?_
    refine (ih fun b hb => h b (by simp [hb])).bind fun l' hl' => ?_
    refine .pure ⟨by simp [hl'.1], ?_⟩
    intro a' ha'
    rcases List.mem_cons.mp ha' with rfl | ha'
    · exact ha
    · exact hl'.2 a' ha'

theorem arrayMapM {f : β → Except Error α} (l : Array β) (h : ∀ b ∈ l, Gives (f b) Q) :
    Gives (l.mapM f) fun l' => l'.size = l.size ∧ ∀ a ∈ l', Q a := by
  rw [Array.mapM_eq_mapM_toList]
  obtain ⟨l', hl', hsize, hQ⟩ := mapM l.toList fun b hb => h b (by simpa using hb)
  refine ⟨l'.toArray, by rw [hl']; rfl, by simpa using hsize, by simpa using hQ⟩

end Gives

theorem bind_eq_ok {x : Except Error α} {f : α → Except Error β} {a : α} {b : β}
    (hx : x = .ok a) (hf : f a = .ok b) : x >>= f = .ok b := by
  rw [hx]
  exact hf

/-- What a composed operation gives, its parts give one after the other. -/
theorem ok_of_bind {x : Except Error α} {f : α → Except Error β} {b : β}
    (h : x >>= f = .ok b) : ∃ a, x = .ok a ∧ f a = .ok b := by
  cases x with
  | error e => cases h
  | ok a => exact ⟨a, rfl, h⟩

theorem error_of_bind {x : Except Error α} {f : α → Except Error β} {e : Error}
    (h : x >>= f = .error e) : x = .error e ∨ ∃ a, x = .ok a ∧ f a = .error e := by
  cases x with
  | error e' => cases h; exact .inl rfl
  | ok a => exact .inr ⟨a, rfl, h⟩

theorem ok_of_map {x : Except Error α} {f : α → β} {b : β} (h : x.map f = .ok b) :
    ∃ a, x = .ok a ∧ f a = b := by
  cases x with
  | error e => cases h
  | ok a => exact ⟨a, rfl, Except.ok.inj h⟩

/-- Where a fold fails, one of its steps does. -/
theorem error_of_foldlM {f : β → α → Except Error β} {P : Error → Prop}
    (hf : ∀ b a e, f b a = .error e → P e) {l : List α} {b : β} {e : Error}
    (h : l.foldlM f b = .error e) : P e := by
  induction l generalizing b with
  | nil => cases h
  | cons a l ih =>
    rw [List.foldlM_cons] at h
    rcases error_of_bind h with h | ⟨b', -, h⟩
    · exact hf b a e h
    · exact ih h

theorem error_of_forM {f : α → Except Error Unit} {P : Error → Prop}
    (hf : ∀ a e, f a = .error e → P e) {l : List α} {e : Error} (h : l.forM f = .error e) : P e := by
  induction l with
  | nil => cases h
  | cons a l ih =>
    have h : (f a >>= fun _ => l.forM f) = .error e := h
    rcases error_of_bind h with h | ⟨_, -, h⟩
    · exact hf a e h
    · exact ih h

/-- A row of operations that succeed gives their results. -/
theorem mapM_eq_ok {f : α → Except Error β} {g : α → β} {l : List α}
    (h : ∀ a ∈ l, f a = .ok (g a)) : l.mapM f = .ok (l.map g) := by
  induction l with
  | nil => rfl
  | cons a l ih =>
    rw [List.mapM_cons, h a List.mem_cons_self, ih fun a ha => h a (List.mem_cons_of_mem _ ha)]
    rfl

/-- What a row of operations gives, each of them gives in turn. -/
theorem ok_of_mapM {f : α → Except Error β} {Q : β → Prop} {l : List α} {l' : List β}
    (h : l.mapM f = .ok l') (hf : ∀ a ∈ l, ∀ b, f a = .ok b → Q b) :
    l'.length = l.length ∧ ∀ b ∈ l', Q b := by
  induction l generalizing l' with
  | nil => cases h; exact ⟨rfl, by simp⟩
  | cons a l ih =>
    rw [List.mapM_cons] at h
    obtain ⟨b, hb, h⟩ := ok_of_bind h
    obtain ⟨bs, hbs, h⟩ := ok_of_bind h
    cases h
    obtain ⟨hlength, hQ⟩ := ih hbs fun a ha => hf a (by simp [ha])
    refine ⟨by simp [hlength], fun b' hb' => ?_⟩
    rcases List.mem_cons.mp hb' with rfl | hb'
    · exact hf a (by simp) _ hb
    · exact hQ b' hb'

/-- Each result of a row of operations is that of the operation at its place. -/
theorem getElem?_of_mapM {f : α → Except Error β} {l : List α} {l' : List β}
    (h : l.mapM f = .ok l') {i : Nat} {a : α} (ha : l[i]? = some a) :
    ∃ b, l'[i]? = some b ∧ f a = .ok b := by
  induction l generalizing l' i with
  | nil => cases ha
  | cons a' l ih =>
    rw [List.mapM_cons] at h
    obtain ⟨b, hb, h⟩ := ok_of_bind h
    obtain ⟨bs, hbs, h⟩ := ok_of_bind h
    cases h
    cases i with
    | zero =>
      cases ha
      exact ⟨b, rfl, hb⟩
    | succ i => exact ih hbs ha

theorem toList_of_mapM {f : α → Except Error β} {l : Array α} {l' : Array β}
    (h : l.mapM f = .ok l') : l.toList.mapM f = .ok l'.toList := by
  rw [Array.mapM_eq_mapM_toList] at h
  cases hl : l.toList.mapM f with
  | error e =>
    rw [hl] at h
    cases h
  | ok values =>
    rw [hl] at h
    cases h
    rfl

theorem arrayMapM_eq_ok {f : α → Except Error β} {g : α → β} {l : Array α}
    (h : ∀ a ∈ l, f a = .ok (g a)) : l.mapM f = .ok (l.map g) := by
  rw [Array.mapM_eq_mapM_toList, mapM_eq_ok fun a ha => h a (by simpa using ha)]
  exact congrArg Except.ok (Array.toList_inj.mp (by simp))

theorem size_of_mapM {f : α → Except Error β} {l : Array α} {l' : Array β}
    (h : l.mapM f = .ok l') : l'.size = l.size := by
  have length := (ok_of_mapM (Q := fun _ => True) (toList_of_mapM h) fun _ _ _ _ => trivial).1
  simpa using length

theorem Buffer.size_of_slice {a b : Array α} {start n : Nat} (h : Buffer.slice a start n = .ok b) :
    b.size = n := by
  unfold Buffer.slice at h
  split at h
  · cases h
    rw [Array.size_extract]
    omega
  · cases h

theorem Buffer.size_of_splice {a b c : Array α} {start : Nat}
    (h : Buffer.splice a start b = .ok c) : c.size = a.size := by
  unfold Buffer.splice at h
  split at h
  · cases h
    simp only [Array.size_append, Array.size_extract]
    omega
  · cases h

/-! ### Words -/

theorem int32_eq_ok {x : Int} (h : FitsInt32 x) : int32 x = .ok x :=
  if_pos h

theorem int64_eq_ok {x : Int} (h : FitsInt64 x) : int64 x = .ok x :=
  if_pos h

theorem word64_eq_ok {n : Nat} (h : n < 2 ^ (64 : Nat)) : word64 n = .ok n :=
  if_pos h

theorem eq_of_word64 {n m : Nat} (h : word64 n = .ok m) : n = m := by
  unfold word64 word at h
  split at h
  · cases h
    rfl
  · cases h

theorem eq_of_int64 {x y : Int} (h : int64 x = .ok y) : y = x := by
  unfold int64 at h
  split at h <;> cases h
  rfl

namespace Gives

theorem int32 {x : Int} {Q : Int → Prop} (hx : FitsInt32 x) (h : Q x) : Gives (int32 x) Q :=
  of_eq (int32_eq_ok hx) h

theorem int64 {x : Int} {Q : Int → Prop} (hx : FitsInt64 x) (h : Q x) : Gives (int64 x) Q :=
  of_eq (int64_eq_ok hx) h

theorem negate {a : Int32} {Q : Int32 → Prop} (ha : a ≠ Int32.minValue) (h : Q (-a)) :
    Gives (negate a) Q :=
  of_eq (if_neg ha) h

theorem checkShift {n : Nat} {Q : Unit → Prop} (hn : n < 64) (h : Q ()) :
    Gives (checkShift n) Q :=
  of_eq (if_pos hn) h

theorem difference {a b : Nat} {Q : Nat → Prop} (hb : b ≤ a) (h : Q (a - b)) :
    Gives (difference a b) Q :=
  of_eq (if_pos hb) h

/-! ### Buffers -/

theorem lookup {a : Array α} {i : Nat} {Q : α → Prop} (hi : i < a.size) (h : ∀ x ∈ a, Q x) :
    Gives (Buffer.lookup a i) Q := by
  refine of_eq (a := a[i]) ?_ (h _ (Array.getElem_mem hi))
  unfold Buffer.lookup
  rw [Array.getElem?_eq_getElem hi]

theorem room {a : Array α} {n : Nat} {Q : Unit → Prop} (hn : n ≤ a.size) (h : Q ()) :
    Gives (Buffer.room a n) Q :=
  of_eq (if_pos hn) h

theorem rest {a : Array α} {start : Nat} {Q : Array α → Prop} (hn : start ≤ a.size)
    (h : Q (a.extract start a.size)) : Gives (Buffer.rest a start) Q :=
  of_eq (if_pos hn) h

theorem slice {a : Array α} {start count : Nat} {Q : Array α → Prop}
    (hn : start + count ≤ a.size) (h : Q (a.extract start (start + count))) :
    Gives (Buffer.slice a start count) Q :=
  of_eq (if_pos hn) h

theorem head {a : Array α} {n : Nat} {Q : Vector α n → Prop} (hn : n ≤ a.size) (h : ∀ v, Q v) :
    Gives (Buffer.head a n) Q :=
  of_eq (dif_pos hn) (h _)

theorem splice {a b : Array α} {start : Nat} {Q : Array α → Prop}
    (hn : start + b.size ≤ a.size) (h : ∀ c, c.size = a.size → Q c) :
    Gives (Buffer.splice a start b) Q :=
  of_eq (if_pos hn) (h _ (Buffer.size_of_splice (if_pos hn)))

end Gives

theorem Buffer.size_overlay {a b : Array α} (h : b.size ≤ a.size) :
    (Buffer.overlay a b).size = a.size := by
  simp only [Buffer.overlay, Array.size_append, Array.size_extract]
  omega

theorem Buffer.le_size_overlay (a b : Array α) : a.size ≤ (Buffer.overlay a b).size := by
  simp only [Buffer.overlay, Array.size_append, Array.size_extract]
  omega

theorem Buffer.overlay_of_size_le {a b : Array α} (h : a.size ≤ b.size) : Buffer.overlay a b = b := by
  unfold Buffer.overlay
  rw [Array.extract_eq_empty_of_le (by omega), Array.append_empty]

theorem Buffer.getElem?_overlay {a b : Array α} (h : b.size ≤ a.size) (i : Nat) :
    (Buffer.overlay a b)[i]? = if i < b.size then b[i]? else a[i]? := by
  unfold Buffer.overlay
  rw [Array.getElem?_append]
  split
  · rfl
  · rw [Array.getElem?_extract]
    split
    · congr 1
      omega
    · rw [Array.getElem?_eq_none (by omega)]

theorem Buffer.extract_overlay {a b : Array α} {n : Nat} (h : b.size = n) :
    (overlay a b).extract 0 n = b := by
  unfold overlay
  rw [Array.extract_append, h, Nat.zero_sub, Nat.sub_self, Array.extract_zero, Array.append_empty,
    ← h, Array.extract_size]

theorem Buffer.mem_extract {a : Array α} {start stop : Nat} {x : α} (h : x ∈ a.extract start stop) :
    x ∈ a := by
  obtain ⟨i, hi, rfl⟩ := Array.mem_iff_getElem.mp h
  rw [Array.getElem_extract]
  exact Array.getElem_mem _

theorem Buffer.mem_overlay {a b : Array α} {x : α} (h : x ∈ Buffer.overlay a b) : x ∈ b ∨ x ∈ a :=
  (Array.mem_append.mp h).imp_right Buffer.mem_extract

end Wma
