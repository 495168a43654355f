import Wma.Proofs.Parse.Triple

/-!
# What a read does to its reader

A read that succeeds moves the cursor on and changes nothing else (`BitReader.Moved`); one that fails
reports damage and leaves the reader alone.
-/

namespace Wma

/-- The readers that `n` bits read from `r` lead to. -/
structure BitReader.Moved (r : BitReader) (n : Nat) (r' : BitReader) : Prop where
  bytes : r'.bytes = r.bytes
  bitLength : r'.bitLength = r.bitLength
  position : r'.position = r.position + n

namespace BitReader

variable {r r' : BitReader}

theorem left_eq (r : BitReader) : r.left + r.position = r.bitLength := by
  have := r.position_le
  unfold left; omega

namespace Moved

variable {n : Nat}

theorem left (h : r.Moved n r') : r'.left + n = r.left := by
  have := r.left_eq; have := r'.left_eq; have := h.bitLength; have := h.position
  omega

theorem trans {m : Nat} {r'' : BitReader} (h : r.Moved n r') (h' : r'.Moved m r'') :
    r.Moved (n + m) r'' where
  bytes := h'.bytes.trans h.bytes
  bitLength := h'.bitLength.trans h.bitLength
  position := by rw [h'.position, h.position, Nat.add_assoc]

theorem eq_of_zero (h : r.Moved 0 r') : r' = r := by
  obtain ⟨_, _, _, _, _⟩ := r'
  obtain ⟨hbytes, hlength, hposition⟩ := h
  cases hbytes
  cases hlength
  cases hposition
  rfl

end Moved

theorem skip_cases (r : BitReader) (n : Nat) :
    (∃ r', r.skip n = .ok r' ∧ r.Moved n r') ∨
      (r.left < n ∧ r.skip n = .error (.corrupt (.overrun n r.position r.bitLength))) := by
  unfold skip
  split
  · exact .inl ⟨_, rfl, rfl, rfl, rfl⟩
  · exact .inr ⟨by omega, rfl⟩

theorem exists_skip {n : Nat} (h : n ≤ r.left) : ∃ r', r.skip n = .ok r' ∧ r.Moved n r' := by
  rcases r.skip_cases n with hr' | ⟨hlt, -⟩
  · exact hr'
  · omega

theorem peek_lt (r : BitReader) (n : Nat) : r.peek n < 2 ^ n :=
  Nat.lt_of_le_of_lt (Nat.div_mul_le_self _ _) (Nat.mod_lt _ (Nat.two_pow_pos n))

theorem read_cases (r : BitReader) (n : Nat) :
    (∃ a r', r.read n = .ok (a, r') ∧ a < 2 ^ n ∧ r.Moved n r') ∨
      ∃ e, r.read n = .error e ∧ e.IsDamage := by
  unfold read
  split
  · subst n; exact .inl ⟨_, _, rfl, by decide, rfl, rfl, rfl⟩
  split
  · exact .inr ⟨_, rfl, trivial⟩
  rcases r.skip_cases n with ⟨r', h, hm⟩ | ⟨-, h⟩ <;> rw [h]
  · exact .inl ⟨_, _, rfl, r.peek_lt n, hm⟩
  · exact .inr ⟨_, rfl, trivial⟩

theorem readBit_cases (r : BitReader) :
    (∃ a r', r.readBit = .ok (a, r') ∧ r.Moved 1 r') ∨
      ∃ e, r.readBit = .error e ∧ e.IsDamage := by
  unfold readBit
  rcases r.read_cases 1 with ⟨a, r', h, -, hm⟩ | ⟨e, h, he⟩ <;> rw [h]
  · exact .inl ⟨_, _, rfl, hm⟩
  · exact .inr ⟨_, rfl, he⟩

theorem short_ofBytes {bytes : Array UInt8} (h : bytes.size ≤ maxPacketBytes) :
    (ofBytes bytes).Short := by
  show 8 * bytes.size ≤ 8 * maxPacketBytes
  omega

theorem short_ofBits {bytes : Array UInt8} {limit : Nat} (h : bytes.size ≤ maxPacketBytes) :
    (ofBits bytes limit).Short := by
  show min limit (8 * bytes.size) ≤ 8 * maxPacketBytes
  omega

end BitReader

namespace Parse.Triple

variable {σ : Type} {I J : σ → Prop}

theorem ofReader {α : Type} {Q : α → σ → Prop} {f : BitReader → Except Error (α × BitReader)}
    {P : α → Prop} (hJ : ∀ s, I s → J s) (hQ : ∀ a s, P a → I s → Q a s)
    (h : ∀ r, (∃ a r' n, f r = .ok (a, r') ∧ P a ∧ r.Moved n r') ∨
      ∃ e, f r = .error e ∧ e.IsDamage) :
    Triple J I (Parse.ofReader f) Q := by
  intro s hi
  rw [wp_ofReader]
  rcases h s.reader with ⟨a, r', n, h, ha, hm⟩ | ⟨e, h, he⟩ <;> rw [h]
  · exact ⟨Nat.le_of_eq hm.bitLength, hQ _ _ ha hi⟩
  · exact ⟨fun _ => he, Nat.le_refl _, hJ _ hi⟩

theorem read {Q : Nat → σ → Prop} {n : Nat} (hJ : ∀ s, I s → J s)
    (hQ : ∀ a s, a < 2 ^ n → I s → Q a s) : Triple J I (read n) Q :=
  ofReader hJ hQ fun r => (r.read_cases n).imp (fun ⟨a, r', h, ha, hm⟩ => ⟨a, r', n, h, ha, hm⟩) id

theorem readBit {Q : Bool → σ → Prop} (hJ : ∀ s, I s → J s) (hQ : ∀ a s, I s → Q a s) :
    Triple J I readBit Q :=
  ofReader (P := fun _ => True) hJ (fun a s _ => hQ a s) fun r =>
    r.readBit_cases.imp (fun ⟨a, r', h, hm⟩ => ⟨a, r', 1, h, trivial, hm⟩) id

theorem skip {Q : Unit → σ → Prop} {n : Nat} (hJ : ∀ s, I s → J s) (hQ : ∀ s, I s → Q () s) :
    Triple J I (skip n) Q := by
  refine ofReader (P := fun _ => True) hJ (fun _ s _ => hQ s) fun r => ?_
  rcases r.skip_cases n with ⟨r', h, hm⟩ | ⟨-, h⟩ <;> rw [h]
  · exact .inl ⟨(), r', n, rfl, trivial, hm⟩
  · exact .inr ⟨_, rfl, trivial⟩

end Parse.Triple

namespace Parse

variable {σ : Type} {s : Scan σ} {E : Error → Scan σ → Prop}

theorem wp_read {Q : Nat → Scan σ → Prop} {n : Nat}
    (hQ : ∀ a r, a < 2 ^ n → s.reader.Moved n r → Q a ⟨r, s.state⟩)
    (hE : ∀ e, e.IsDamage → E e s) : (read n).wp Q E s := by
  unfold read
  rw [wp_ofReader]
  rcases s.reader.read_cases n with ⟨a, r, h, ha, hm⟩ | ⟨e, h, he⟩ <;> rw [h]
  · exact hQ a r ha hm
  · exact hE e he

theorem wp_skip {Q : Unit → Scan σ → Prop} {n : Nat}
    (hQ : ∀ r, s.reader.Moved n r → Q () ⟨r, s.state⟩) (hE : ∀ e, e.IsDamage → E e s) :
    (skip n).wp Q E s := by
  unfold skip
  rw [wp_ofReader]
  rcases s.reader.skip_cases n with ⟨r, h, hm⟩ | ⟨-, h⟩ <;> rw [h]
  · exact hQ r hm
  · exact hE _ trivial

end Parse

end Wma
