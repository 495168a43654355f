import Wma.Proofs.Bits.Same
import Wma.Proofs.Parse.Success

/-!
# Steps that look at nothing behind the bits that they take

A code word is looked up in bits that reach beyond its end, and a field is cut out of a window of
several bytes. All the same, a step that succeeds depends on no bit but those that it takes: from any
other reader that begins with them it succeeds in the same way (`Parse.Local`). Alignment is the one
step that asks for more, namely for the place of the cursor and for whole bytes
(`BitReader.Shares`).
-/

namespace Wma

namespace BitReader

/-- Both readers begin with the same `n` bits; where steps align the cursor, it stands at the same
place of a byte as well, and the bytes of `r` are whole. -/
structure Shares (aligned : Prop) (n : Nat) (r r' : BitReader) : Prop where
  bits : r.remaining.take n <+: r'.remaining
  phase : aligned → r.position % 8 = r'.position % 8 ∧ r.bitLength % 8 = 0

variable {aligned : Prop} {m n : Nat} {r r' q q' : BitReader}

namespace Shares

theorem le_left (h : r.Shares aligned n r') (hn : n ≤ r.left) : n ≤ r'.left := by
  have length := h.bits.length_le
  rw [List.length_take, length_remaining, length_remaining] at length
  omega

theorem mono (h : r.Shares aligned n r') (hm : m ≤ n) : r.Shares aligned m r' where
  bits := (List.take_prefix_take_left hm).trans h.bits
  phase := h.phase

theorem take_eq (h : r.Shares aligned n r') (hn : n ≤ r.left) :
    r'.remaining.take n = r.remaining.take n := by
  have length : (r.remaining.take n).length = n := by simp; omega
  have taken := List.prefix_iff_eq_take.mp h.bits
  rw [length] at taken
  exact taken.symm

/-- What is left of the bits in common once `m` of them are taken off both readers. -/
theorem moved (h : r.Shares aligned (m + n) r') (hq : r.Moved m q) (hq' : r'.Moved m q') :
    q.Shares aligned n q' where
  bits := by
    obtain ⟨rest, hrest⟩ := h.bits
    rw [hq.remaining, hq'.remaining, ← hrest]
    have left := hq.left
    rw [List.drop_append_of_le_length (by simp; omega), List.drop_take, Nat.add_sub_cancel_left]
    exact List.prefix_append ..
  phase ha := by
    have := h.phase ha
    have := hq.position
    have := hq'.position
    have := hq.bitLength
    omega

/-- A field that was read off one reader is read off the other. -/
theorem exists_read {a : Nat} (h : r.Shares aligned n r') (ha : r.read n = .ok (a, q)) :
    ∃ q', r'.read n = .ok (a, q') ∧ r'.Moved n q' := by
  obtain ⟨hle, rfl, -⟩ := of_read_eq_ok ha
  rw [← h.take_eq hle]
  exact BitReader.exists_read (width_le_of_read_eq_ok ha) (h.le_left hle)

end Shares

end BitReader

namespace Parse

variable {σ τ α β : Type} {aligned : Prop}

/-- A step that succeeds does the same from any reader that begins with the bits that it takes. -/
def Local (aligned : Prop) (p : Parse σ α) : Prop :=
  ∀ ⦃s t : Scan σ⦄ ⦃a : α⦄, p s = .ok a t → ∃ n, s.reader.Moved n t.reader ∧
    ∀ r', s.reader.Shares aligned n r' →
      ∃ q', p ⟨r', s.state⟩ = .ok a ⟨q', t.state⟩ ∧ r'.Moved n q'

namespace Local

/-- A step that leaves the reader alone. -/
theorem of_still {p : Parse σ α} (h : ∀ s t a, p s = .ok a t →
    t.reader = s.reader ∧ ∀ r', p ⟨r', s.state⟩ = .ok a ⟨r', t.state⟩) : Local aligned p := by
  intro s t a hp
  obtain ⟨hr, hp'⟩ := h s t a hp
  exact ⟨0, by rw [hr]; exact ⟨rfl, rfl, rfl⟩, fun r' _ => ⟨r', hp' r', rfl, rfl, rfl⟩⟩

theorem pure (a : α) : Local aligned (pure a : Parse σ α) :=
  of_still fun s t b h => by cases h; exact ⟨rfl, fun _ => rfl⟩

theorem bind {p : Parse σ β} {f : β → Parse σ α} (hp : Local aligned p)
    (hf : ∀ b, Local aligned (f b)) : Local aligned (p >>= f) := by
  intro s t a h
  obtain ⟨b, u, hb, ha⟩ := ok_bind h
  obtain ⟨m, hm, first⟩ := hp hb
  obtain ⟨n, hn, second⟩ := hf b ha
  refine ⟨m + n, hm.trans hn, fun r' hr' => ?_⟩
  obtain ⟨q, hq, hmq⟩ := first r' (hr'.mono (Nat.le_add_right m n))
  obtain ⟨q', hq', hnq⟩ := second q (hr'.moved hm hmq)
  exact ⟨q', by rw [bind_of_ok hq, hq'], hmq.trans hnq⟩

theorem ite {c : Prop} [Decidable c] {p q : Parse σ α} (hp : c → Local aligned p)
    (hq : ¬c → Local aligned q) : Local aligned (if c then p else q) := by
  split
  · exact hp ‹_›
  · exact hq ‹_›

theorem state : Local aligned (state : Parse σ σ) :=
  of_still fun s t a h => by cases h; exact ⟨rfl, fun _ => rfl⟩

theorem setState (x : σ) : Local aligned (setState x) :=
  of_still fun s t a h => by cases h; exact ⟨rfl, fun _ => rfl⟩

theorem update (f : σ → σ) : Local aligned (update f) :=
  of_still fun s t a h => by cases h; exact ⟨rfl, fun _ => rfl⟩

theorem updateM (f : σ → Except Error σ) : Local aligned (updateM f) := by
  refine of_still fun s t a h => ?_
  obtain ⟨hf, hr⟩ := ok_updateM h
  refine ⟨hr, fun r' => ?_⟩
  unfold Parse.updateM
  rw [hf]

theorem ofExcept (x : Except Error α) : Local aligned (ofExcept x : Parse σ α) := by
  refine of_still fun s t a h => ?_
  obtain ⟨rfl, rfl⟩ := ok_ofExcept h
  exact ⟨rfl, fun _ => rfl⟩

theorem throw (e : Error) : Local aligned (throw e : Parse σ α) := by
  intro s t a h
  cases h

theorem require {c : Prop} [Decidable c] {cause : StreamCause} :
    Local aligned (require c cause : Parse σ Unit) :=
  ite (fun _ => pure ()) fun _ => throw _

/-- A read that takes `n` bits where `m` bits more than it takes would be too many. -/
theorem ofReader {f : BitReader → Except Error (α × BitReader)}
    (h : ∀ r a q, f r = .ok (a, q) → ∃ n, r.Moved n q ∧
      ∀ r', r.Shares aligned n r' → ∃ q', f r' = .ok (a, q') ∧ r'.Moved n q') :
    Local aligned (ofReader f : Parse σ α) := by
  intro s t a hp
  obtain ⟨hf, hstate⟩ := ok_ofReader hp
  obtain ⟨n, hn, hr⟩ := h _ _ _ hf
  refine ⟨n, hn, fun r' hr' => ?_⟩
  obtain ⟨q', hq', hnq⟩ := hr r' hr'
  refine ⟨q', ?_, hnq⟩
  unfold Parse.ofReader
  simp only [hq', hstate]

theorem read (n : Nat) : Local aligned (read n : Parse σ Nat) := by
  refine ofReader fun r a q h => ?_
  obtain ⟨-, -, hm⟩ := BitReader.of_read_eq_ok h
  exact ⟨n, hm, fun r' hr' => hr'.exists_read h⟩

theorem readBit : Local aligned (readBit : Parse σ Bool) := by
  refine ofReader fun r a q h => ?_
  obtain ⟨⟨value, q⟩, hread, h⟩ := ok_of_map h
  cases h
  obtain ⟨-, -, hm⟩ := BitReader.of_read_eq_ok hread
  refine ⟨1, hm, fun r' hr' => ?_⟩
  obtain ⟨q', hq', hm'⟩ := hr'.exists_read hread
  exact ⟨q', by unfold BitReader.readBit; rw [hq']; rfl, hm'⟩

/-- A look-up goes beyond the end of the word that it finds, but depends on that word alone. -/
theorem next (c : PrefixCode) : Local aligned (c.next : Parse σ Nat) := by
  refine ofReader fun r x q h => ?_
  obtain ⟨p, hreads, hpre, hm⟩ := PrefixCode.decode_eq_ok_iff.mp h
  refine ⟨p.length, hm, fun r' hr' => ?_⟩
  have ahead := hr'.bits
  rw [← List.prefix_iff_eq_take.mp hpre] at ahead
  exact (hreads r' ahead).imp fun q' hq' => ⟨hq'.2, hq'.1⟩

/-- How far alignment moves a cursor depends on its place alone, where bytes are whole. -/
theorem align (h : aligned) : Local aligned (align : Parse σ Unit) := by
  rintro s t a ⟨⟩
  refine ⟨_, s.reader.moved_align, fun r' hr' => ⟨_, rfl, ?_⟩⟩
  obtain ⟨hplace, hwhole⟩ := hr'.phase h
  have left := s.reader.left_eq
  have moved := r'.moved_align
  have enough := hr'.le_left (Nat.min_le_right ..)
  rwa [show min ((8 - r'.position % 8) % 8) r'.left =
    min ((8 - s.reader.position % 8) % 8) s.reader.left by omega] at moved

theorem focus {get : σ → τ} {set : τ → σ → σ} {p : Parse τ α} (h : Local aligned p) :
    Local aligned (focus get set p) := by
  intro s t a hp
  obtain ⟨u, hu, rfl⟩ := ok_focus hp
  obtain ⟨n, hm, hr⟩ := h hu
  refine ⟨n, hm, fun r' hr' => ?_⟩
  obtain ⟨q', hq', hm'⟩ := hr r' hr'
  refine ⟨q', ?_, hm'⟩
  unfold Parse.focus
  rw [hq']

theorem forM {ι : Type} {p : ι → Parse σ Unit} (l : List ι) (h : ∀ i, Local aligned (p i)) :
    Local aligned (l.forM p) := by
  induction l with
  | nil => exact pure ()
  | cons i l ih =>
    show Local aligned (p i >>= fun _ => l.forM p)
    exact bind (h i) fun _ => ih

theorem mapM {ι : Type} {p : ι → Parse σ α} (l : List ι) (h : ∀ i, Local aligned (p i)) :
    Local aligned (l.mapM p) := by
  induction l with
  | nil => exact pure []
  | cons i l ih =>
    rw [List.mapM_cons]
    exact bind (h i) fun a => bind ih fun as => pure (a :: as)

end Local

end Parse

end Wma
