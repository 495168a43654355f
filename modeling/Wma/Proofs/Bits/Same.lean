import Wma.Proofs.Code.PrefixCode
import Wma.Proofs.Parse.Related

/-!
# Readers of the same bits

What is read off a reader depends on the bits in front of it, and on the place of the cursor within
its byte, which `BitReader.align` asks for. So two readers that have these in common give the same
values and move equally far (`View.along`); what they report when they fail may differ.
-/

namespace Wma

namespace BitReader

/-- Alignment skips the rest of a byte, as far as there are bits. -/
theorem moved_align (r : BitReader) : r.Moved (min ((8 - r.position % 8) % 8) r.left) r.align := by
  have := r.left_eq
  refine ⟨rfl, rfl, ?_⟩
  show min ((r.position + 7) / 8 * 8) r.bitLength = _
  omega

/-- Both readers have the same bits in front of them, at the same place of a byte. -/
structure Same (r r' : BitReader) : Prop where
  remaining : r.remaining = r'.remaining
  phase : r.position % 8 = r'.position % 8

namespace Same

variable {r r' q q' : BitReader} {n : Nat}

theorem left (h : Same r r') : r.left = r'.left := by
  rw [← r.length_remaining, ← r'.length_remaining, h.remaining]

theorem bit (h : Same r r') : r.bit = r'.bit :=
  funext fun i => by rw [bit_eq, bit_eq, h.remaining]

theorem peek (h : Same r r') (hn : n ≤ 32) : r.peek n = r'.peek n := by
  rw [peek_eq r hn, peek_eq r' hn, h.bit]

theorem moved (h : Same r r') (hq : r.Moved n q) (hq' : r'.Moved n q') : Same q q' where
  remaining := by rw [hq.remaining, hq'.remaining, h.remaining]
  phase := by
    have := h.phase
    rw [hq.position, hq'.position]
    omega

/-- Alignment moves both cursors equally far. -/
theorem moved_align (h : Same r r') :
    r'.Moved (min ((8 - r.position % 8) % 8) r.left) r'.align := by
  have aligned := r'.moved_align
  rwa [← h.left, ← h.phase] at aligned

/-- Reads off both readers fail together, and move both cursors equally far. -/
theorem skip (h : Same r r') (n : Nat) :
    Alike (fun q q' => r.Moved n q ∧ r'.Moved n q') (fun _ _ => True) (r.skip n) (r'.skip n) := by
  have left := h.left
  rcases r.skip_cases n with ⟨q, hq, hm⟩ | ⟨hlt, hq⟩ <;>
    rcases r'.skip_cases n with ⟨q', hq', hm'⟩ | ⟨hlt', hq'⟩ <;> rw [hq, hq']
  · exact ⟨hm, hm'⟩
  · have := hm.left; omega
  · have := hm'.left; omega
  · exact trivial

theorem read (h : Same r r') (n : Nat) :
    Alike (fun x y => x.1 = y.1 ∧ r.Moved n x.2 ∧ r'.Moved n y.2) (fun _ _ => True)
      (r.read n) (r'.read n) := by
  unfold BitReader.read
  split
  · subst n
    exact ⟨rfl, ⟨rfl, rfl, rfl⟩, ⟨rfl, rfl, rfl⟩⟩
  split
  · exact trivial
  · exact (h.skip n).map fun _ _ hq => ⟨h.peek (by omega), hq⟩

theorem decode (h : Same r r') (c : PrefixCode) :
    Alike (fun x y => x.1 = y.1 ∧ ∃ n, r.Moved n x.2 ∧ r'.Moved n y.2) (fun _ _ => True)
      (c.decode r) (c.decode r') := by
  rcases c.decode_cases r with ⟨x, p, q, hreads, hpre, hm, hq⟩ | ⟨none, e, he, -⟩
  · obtain ⟨q', hm', hq'⟩ := hreads r' (h.remaining ▸ hpre)
    rw [hq, hq']
    exact ⟨rfl, _, hm, hm'⟩
  · rcases c.decode_cases r' with ⟨x, p, q', hreads, hpre, -⟩ | ⟨-, e', he', -⟩
    · exact absurd (h.remaining ▸ hpre) (none x p hreads)
    · rw [he, he']
      exact trivial

end Same

theorem same_ofList (r : BitReader) : Same r (ofList (r.position % 8) r.remaining) where
  remaining := (remaining_ofList _ _).symm
  phase := (Nat.mod_mod _ 8).symm

end BitReader

/-- Readers that have moved equally far from two readers of the same bits look alike, and so do all
errors. -/
def View.along {r₀ r₀' : BitReader} (h : r₀.Same r₀') : View where
  reader r r' := ∃ n, r₀.Moved n r ∧ r₀'.Moved n r'
  error _ _ := True
  oneSided := False
  error_refl _ := trivial
  left := fun ⟨_, hm, hm'⟩ => (h.moved hm hm').left
  align := fun ⟨_, hm, hm'⟩ =>
    have hq := h.moved hm hm'
    ⟨_, hm.trans (BitReader.moved_align _), hm'.trans (hq.moved_align)⟩
  skip k := fun ⟨_, hm, hm'⟩ =>
    ((h.moved hm hm').skip k).mono fun _ _ hq => ⟨_, hm.trans hq.1, hm'.trans hq.2⟩
  read k := fun ⟨_, hm, hm'⟩ =>
    ((h.moved hm hm').read k).mono fun _ _ hq => ⟨hq.1, _, hm.trans hq.2.1, hm'.trans hq.2.2⟩
  decode c := fun ⟨_, hm, hm'⟩ =>
    ((h.moved hm hm').decode c).mono fun _ _ ⟨ha, _, hq, hq'⟩ => ⟨ha, _, hm.trans hq, hm'.trans hq'⟩

end Wma
