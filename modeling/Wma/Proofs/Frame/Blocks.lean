import Wma.Proofs.Frame.Fields

/-!
# Block lengths

A block states lengths of its stream only, so the three lengths that are known stay among these,
however reading them ends (`BlockState.paces`). A block whose lengths have been read lies within its
frame and, unless it states all lengths itself, has the one that the block before announced
(`BlockState.wp_read_begun`); so has one that is complete (`BlockState.Succeeds`).
-/

namespace Wma

open Parse

namespace BlockState

variable {c : Config} {B : BlockState → Prop}

/-- The lengths that a block states, or takes from the block before it, keep `B`. -/
structure Lengthened (c : Config) (B : BlockState → Prop) : Prop where
  reset : ∀ b, B b → B { b with reset := false }
  prevBits : ∀ b prevBits, c.IsBlockBits prevBits → B b → B { b with prevBits }
  bits : ∀ b bits, c.IsBlockBits bits → B b → B { b with bits }
  nextBits : ∀ b nextBits, c.IsBlockBits nextBits → B b → B { b with nextBits }
  advance : ∀ b, B b → B b.advance
  whole : ∀ b, B b →
    B { b with prevBits := c.frameBits, bits := c.frameBits, nextBits := c.frameBits }

/-- What is read as a length is one of the stream. -/
theorem isBlockBits_of_readBits {σ : Type} {s t : Scan σ} {bits : Nat}
    (h : readBits c s = .ok bits t) : c.IsBlockBits bits := by
  obtain ⟨index, u, -, h⟩ := ok_bind h
  obtain ⟨_, v, hrange, h⟩ := ok_bind h
  obtain ⟨hdifference, -⟩ := ok_ofExcept h
  unfold difference at hdifference
  split at hdifference
  · cases hdifference
    exact ⟨index, (ok_require hrange).1, rfl⟩
  · cases hdifference

theorem maintains_readLengths (h : Lengthened c B) : Maintains B (readLengths c) := by
  have bits : Maintains B (readBits c) :=
    .bind (.read _) fun index => .bind .require fun _ => .ofExcept _
  have next : Maintains B (do
      let nextBits ← readBits c
      Parse.update fun b => { b with nextBits }) :=
    .bind_of_ok bits fun nextBits _ _ hnext =>
      .update fun b hb => h.nextBits b nextBits (isBlockBits_of_readBits hnext) hb
  refine .ite (.bind .state fun b => .ite (.bind ?_ fun _ => next) (.bind ?_ fun _ => next)) ?_
  · refine .bind (.update h.reset) fun _ => .bind_of_ok bits fun prevBits _ _ hprev => ?_
    refine .bind (.update fun b hb => h.prevBits b _ (isBlockBits_of_readBits hprev) hb) fun _ => ?_
    exact .bind_of_ok bits fun bits _ _ hbits =>
      .update fun b hb => h.bits b bits (isBlockBits_of_readBits hbits) hb
  · exact .update h.advance
  · exact .update h.whole

theorem lengthened_sound (hc : c.Sound) : Lengthened c (Sound c) where
  reset _ h := { h with }
  prevBits _ _ hp h := { h with prevBits := hp }
  bits _ _ hb h := { h with bits := hb }
  nextBits _ _ hn h := { h with nextBits := hn }
  advance _ h := ⟨h.bits, h.nextBits, h.nextBits⟩
  whole _ _ := ⟨.frameBits hc, .frameBits hc, .frameBits hc⟩

theorem lengthened_position (p : Nat) : Lengthened c fun b => b.position = p where
  reset _ h := h
  prevBits _ _ _ h := h
  bits _ _ _ h := h
  nextBits _ _ _ h := h
  advance _ h := h
  whole _ h := h

/-- The block after `b`: it is announced there, or states its own length. -/
structure Announced (c : Config) (b b' : BlockState) : Prop where
  reset : c.variableBlocks = true → b'.reset = false
  lengths : c.variableBlocks = true → b.reset = false →
    b'.prevBits = b.bits ∧ b'.bits = b.nextBits
  whole : c.variableBlocks = false → b'.bits = c.frameBits

/-- Whatever lengths are read, they are taken from the block before unless all are stated. -/
theorem wp_readLengths_announced (sc : Scan BlockState) :
    (readLengths c).wp (fun _ t => Announced c sc.state t.state) (fun _ _ => True) sc := by
  have any : ∀ {α : Type} {p : Parse BlockState α} {s : Scan BlockState},
      p.wp (fun _ _ => True) (fun _ _ => True) s :=
    wp_of_result (fun _ _ _ => trivial) fun _ _ _ => trivial
  have same : ∀ {s : Scan BlockState},
      (readBits c).wp (fun _ t => t.state = s.state) (fun _ _ => True) s := by
    intro s
    have bits : Maintains (· = s.state) (readBits (σ := BlockState) c) :=
      .bind (.read _) fun index => .bind .require fun _ => .ofExcept _
    exact wp_mono (bits s rfl) (fun _ _ h => h) fun _ _ _ => trivial
  unfold readLengths
  by_cases hvar : c.variableBlocks = true
  · have fixed : c.variableBlocks ≠ false := by simp [hvar]
    rw [if_pos hvar, wp_bind, wp_state]
    by_cases hreset : sc.state.reset = true
    · have stated : ∀ b : BlockState, b.reset = false → Announced c sc.state b := fun b hb =>
        ⟨fun _ => hb, fun _ h => by simp [hreset] at h, fun h => absurd h fixed⟩
      rw [if_pos hreset]
      simp only [readReset, wp_bind, wp_update]
      refine wp_mono same (fun _ t ht => ?_) fun _ _ _ => trivial
      refine wp_mono same (fun _ u hu => ?_) fun _ _ _ => trivial
      refine wp_mono same (fun _ v hv => stated _ ?_) fun _ _ _ => trivial
      rw [hv, hu, ht]
    · rw [if_neg hreset]
      simp only [wp_bind, wp_update]
      refine wp_mono same (fun _ t ht => ?_) fun _ _ _ => trivial
      rw [ht]
      exact ⟨fun _ => by simpa [advance] using hreset, fun _ _ => ⟨rfl, rfl⟩,
        fun h => absurd h fixed⟩
  · rw [if_neg hvar, wp_update]
    exact ⟨fun h => absurd h hvar, fun h => absurd h hvar, fun _ => rfl⟩

/-- A block whose lengths have been read lies within the frame. -/
theorem wp_read_placed {P C : BlockState → Prop} {sc : Scan BlockState}
    (h : (readLengths c).wp (fun _ t => P t.state) (fun _ t => C t.state) sc)
    (hC : ∀ b length, P b → C b ∧ C { b with length }) :
    (read c).wp (fun _ t => ∃ b, P b ∧ t.state = { b with length := 2 ^ b.bits } ∧
      b.position + 2 ^ b.bits ≤ c.frameLength) (fun _ t => C t.state) sc := by
  simp only [read, wp_bind]
  refine wp_mono h (fun _ t ht => ?_) fun _ _ he => he
  rw [wp_state]
  refine wp_mono (Maintains.ofExcept (I := (· = t.state)) _ t rfl) (fun _ u hu => ?_)
    fun _ u hu => ?_
  · rw [wp_update, wp_state, wp_require, hu]
    split
    · exact ⟨t.state, ht, rfl, ‹_›⟩
    · exact (hC _ _ ht).2
  · rw [hu]
    exact (hC t.state 0 ht).1

/-- The lengths that are known are in the range of the stream, and the block begins within its
frame, or behind it where the frame is complete. -/
structure InRange (c : Config) (b : BlockState) : Prop where
  prevBits : c.frameBits - (c.sizeCount - 1) ≤ b.prevBits ∧ b.prevBits ≤ c.frameBits
  bits : c.frameBits - (c.sizeCount - 1) ≤ b.bits ∧ b.bits ≤ c.frameBits
  nextBits : c.frameBits - (c.sizeCount - 1) ≤ b.nextBits ∧ b.nextBits ≤ c.frameBits
  position : b.position ≤ c.frameLength

/-- The block `b'` comes after `b` and is not complete. -/
structure Begun (c : Config) (b b' : BlockState) : Prop extends Announced c b b', Ready c b' where
  position : b'.position = b.position

/-- The block `b'` comes after `b` and is complete. -/
structure Succeeds (c : Config) (b b' : BlockState) : Prop
    extends Announced c b b', Sound c b' where
  position : b'.position = b.position + 2 ^ b'.bits
  inside : b'.position ≤ c.frameLength

theorem wp_read_begun (hc : c.Sound) {sc : Scan BlockState} (h : sc.state.Sound c) :
    (read c).wp (fun _ t => Begun c sc.state t.state) (fun _ _ => True) sc := by
  have lengths := wp_and (wp_and (maintains_readLengths (lengthened_sound hc) sc h)
    (maintains_readLengths (lengthened_position sc.state.position) sc rfl))
    (wp_readLengths_announced (c := c) sc)
  refine wp_mono (wp_read_placed (C := fun _ => True)
    (P := fun b => (b.Sound c ∧ b.position = sc.state.position) ∧ Announced c sc.state b)
    (wp_mono lengths (fun _ _ ht => ht) fun _ _ _ => trivial) fun _ _ _ => ⟨trivial, trivial⟩)
    (fun _ t ht => ?_) fun _ _ _ => trivial
  obtain ⟨b, ⟨⟨sound, position⟩, announced⟩, hb, inside⟩ := ht
  rw [hb]
  exact ⟨{ announced with }, ⟨{ sound with }, rfl, inside⟩, position⟩

theorem Begun.succeeds {b b' : BlockState} (h : Begun c b b') :
    Succeeds c b { b' with position := b'.position + b'.length } := by
  refine { h with position := ?_ }
  show b'.position + b'.length = _
  rw [h.position, h.length_eq]

/-- Whether a block is complete or not, its lengths are those of the stream. -/
theorem paces (hc : c.Sound) :
    Frame.Paces c (fun b => b.Sound c ∧ b.position ≤ c.frameLength) (Ready c) where
  start _ h := ⟨{ h.1 with }, Nat.zero_le _⟩
  read sc h := by
    have lengths := wp_and (maintains_readLengths (lengthened_sound hc) sc h.1)
      (maintains_readLengths (lengthened_position sc.state.position) sc rfl)
    have begins := h.2
    refine wp_mono (wp_read_placed (C := fun b => b.Sound c ∧ b.position ≤ c.frameLength)
      (P := fun b => b.Sound c ∧ b.position = sc.state.position)
      (wp_mono lengths (fun _ _ ht => ht) fun _ t ht => ⟨ht.1, by omega⟩) fun b length hb => ?_)
      (fun _ t ht => ?_) fun _ _ h => h
    · exact ⟨⟨hb.1, by omega⟩, { hb.1 with }, by dsimp only; omega⟩
    · obtain ⟨b, ⟨sound, -⟩, hb, inside⟩ := ht
      rw [hb]
      exact ⟨{ sound with }, rfl, inside⟩
  midSide _ _ h := { h with }
  weaken b h := ⟨h.toSound, by have := h.inside; omega⟩
  complete _ h := ⟨{ h with }, h.inside⟩

end BlockState

theorem Config.IsBlockBits.range {c : Config} {bits : Nat} (h : c.IsBlockBits bits) :
    c.frameBits - (c.sizeCount - 1) ≤ bits ∧ bits ≤ c.frameBits := by
  obtain ⟨k, hk, rfl⟩ := h
  omega

theorem BlockState.Sound.inRange {c : Config} {b : BlockState} (h : b.Sound c)
    (hposition : b.position ≤ c.frameLength) : b.InRange c :=
  ⟨h.prevBits.range, h.bits.range, h.nextBits.range, hposition⟩

end Wma
