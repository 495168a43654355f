import Wma.Proofs.Bits.List

/-!
# Steps that have succeeded

What is known of a step once it has given a value: where its parts have led, and which bits its
fields were.
-/

namespace Wma

namespace BitReader

theorem of_skip_eq_ok {r r' : BitReader} {n : Nat} (h : r.skip n = .ok r') :
    n ≤ r.left ∧ r.Moved n r' := by
  rcases r.skip_cases n with ⟨q, hq, hm⟩ | ⟨-, hq⟩
  · rw [hq] at h
    cases h
    exact ⟨by have := hm.left; omega, hm⟩
  · rw [hq] at h
    cases h

theorem of_read_eq_ok {r r' : BitReader} {n a : Nat} (h : r.read n = .ok (a, r')) :
    n ≤ r.left ∧ a = Bits.value (r.remaining.take n) ∧ r.Moved n r' := by
  unfold read at h
  split at h
  · cases h
    subst n
    exact ⟨Nat.zero_le _, rfl, rfl, rfl, rfl⟩
  split at h
  · cases h
  rename_i hn
  cases hs : r.skip n with
  | error e => rw [hs] at h; cases h
  | ok q =>
    rw [hs] at h
    cases h
    obtain ⟨hle, hm⟩ := of_skip_eq_ok hs
    exact ⟨hle, by rw [peek_eq r (by omega), map_bit_range hle], hm⟩

theorem width_le_of_read_eq_ok {r : BitReader} {n : Nat} {x : Nat × BitReader}
    (h : r.read n = .ok x) : n ≤ 32 := by
  unfold read at h
  split at h
  · omega
  split at h
  · cases h
  · omega

end BitReader

namespace Parse

variable {σ τ α β : Type} {s t : Scan σ}

theorem ok_bind {p : Parse σ β} {f : β → Parse σ α} {a : α} (h : (p >>= f) s = .ok a t) :
    ∃ b u, p s = .ok b u ∧ f b u = .ok a t := by
  have h : EStateM.bind p f s = .ok a t := h
  unfold EStateM.bind at h
  split at h
  · exact ⟨_, _, ‹_›, h⟩
  · cases h

theorem error_bind {p : Parse σ β} {f : β → Parse σ α} {e : Error} (h : (p >>= f) s = .error e t) :
    p s = .error e t ∨ ∃ b u, p s = .ok b u ∧ f b u = .error e t := by
  have h : EStateM.bind p f s = .error e t := h
  unfold EStateM.bind at h
  split at h
  · exact .inr ⟨_, _, ‹_›, h⟩
  · cases h
    exact .inl ‹_›

theorem bind_of_ok {p : Parse σ β} {b : β} (h : p s = .ok b t) (f : β → Parse σ α) :
    (p >>= f) s = f b t := by
  show EStateM.bind p f s = _
  unfold EStateM.bind
  rw [h]

theorem ok_state {a : σ} (h : state s = .ok a t) : a = s.state ∧ s = t := by
  cases h
  exact ⟨rfl, rfl⟩

theorem ok_ofExcept {x : Except Error α} {a : α} (h : ofExcept x s = .ok a t) :
    x = .ok a ∧ s = t := by
  cases x with
  | ok b => cases h; exact ⟨rfl, rfl⟩
  | error e => cases h

theorem ok_require {c : Prop} [Decidable c] {cause : StreamCause} {a : Unit}
    (h : require c cause s = .ok a t) : c ∧ s = t := by
  unfold require at h
  split at h
  · cases h; exact ⟨‹_›, rfl⟩
  · cases h

theorem ok_ofReader {f : BitReader → Except Error (α × BitReader)} {a : α}
    (h : ofReader f s = .ok a t) : f s.reader = .ok (a, t.reader) ∧ t.state = s.state := by
  unfold ofReader at h
  split at h
  · cases h; exact ⟨‹_›, rfl⟩
  · cases h

theorem ok_skip {n : Nat} {a : Unit} (h : skip n s = .ok a t) :
    n ≤ s.reader.left ∧ s.reader.Moved n t.reader ∧ t.state = s.state := by
  obtain ⟨h, hstate⟩ := ok_ofReader h
  cases hs : s.reader.skip n with
  | error e => rw [hs] at h; cases h
  | ok q =>
    rw [hs] at h
    cases h
    obtain ⟨hle, hm⟩ := BitReader.of_skip_eq_ok hs
    exact ⟨hle, hm, hstate⟩

theorem ok_read {n a : Nat} (h : read n s = .ok a t) :
    n ≤ s.reader.left ∧ a = Bits.value (s.reader.remaining.take n) ∧
      s.reader.Moved n t.reader ∧ t.state = s.state := by
  obtain ⟨h, hstate⟩ := ok_ofReader h
  obtain ⟨hle, hv, hm⟩ := BitReader.of_read_eq_ok h
  exact ⟨hle, hv, hm, hstate⟩

theorem ok_updateM {f : σ → Except Error σ} {a : Unit} (h : updateM f s = .ok a t) :
    f s.state = .ok t.state ∧ t.reader = s.reader := by
  unfold updateM at h
  split at h
  · cases h; exact ⟨‹_›, rfl⟩
  · cases h

theorem ok_focus {get : σ → τ} {set : τ → σ → σ} {p : Parse τ α} {a : α}
    (h : focus get set p s = .ok a t) :
    ∃ u, p ⟨s.reader, get s.state⟩ = .ok a u ∧ t = ⟨u.reader, set u.state s.state⟩ := by
  unfold focus at h
  split at h
  · cases h; exact ⟨_, ‹_›, rfl⟩
  · cases h

theorem ok_elsewhere {r : BitReader} {p : Parse σ α} {a : α} (h : elsewhere r p s = .ok a t) :
    ∃ u, p ⟨r, s.state⟩ = .ok a u ∧ t = ⟨s.reader, u.state⟩ := by
  unfold elsewhere at h
  split at h
  · cases h; exact ⟨_, ‹_›, rfl⟩
  · cases h

end Parse

end Wma
