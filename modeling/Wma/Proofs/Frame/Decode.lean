import Wma.Frame.Decode
import Wma.Proofs.Frame.Spectra
import Wma.Proofs.Synthesis.Window

/-!
# Decoding a frame keeps the invariant

A block that has been read lies within the frame (`BlockState.triple_read`), so its samples fit the
overlap buffer, and the blocks of a frame come to an end. `Frame.triple_decode` puts it together.
-/

namespace Wma

open Parse

/-! ### Block lengths -/

namespace BlockState

variable {c : Config}

theorem triple_readBits {σ : Type} {I J : σ → Prop} (hc : c.Sound) (hJ : ∀ s, I s → J s) :
    Triple J I (readBits c) fun bits s => c.IsBlockBits bits ∧ I s := by
  have sizes := hc.sizeCount_le
  refine .bind (R := fun _ => I) (.read hJ fun _ _ _ h => h) fun index => ?_
  refine .bind (R := fun _ s => index < c.sizeCount ∧ I s)
    (.require trivial hJ fun hi _ h => ⟨hi, h⟩) fun _ => .of_fact (fun _ h => h.1) fun hi => ?_
  exact .ofExcept fun _ h => .difference (by unfold minBlockBits at sizes; omega)
    ⟨⟨index, hi, rfl⟩, h.2⟩

/-- The state is sound, and `n` samples more than the frame still lacks are not needed. -/
structure Lacks (c : Config) (n : Nat) (b : BlockState) : Prop extends b.Sound c where
  enough : c.frameLength ≤ b.position + n

theorem triple_readLengths (hc : c.Sound) {n : Nat} :
    Triple (Sound c) (Lacks c n) (readLengths c) fun _ => Lacks c n := by
  have sound : ∀ b, Lacks c n b → Sound c b := fun _ h => h.toSound
  have frame := Config.IsBlockBits.frameBits hc
  refine .ite (fun _ => ?_) fun _ => .update fun b h => ⟨⟨frame, frame, frame⟩, h.enough⟩
  have next : Triple (Sound c) (Lacks c n) (do
      let nextBits ← readBits c
      Parse.update fun b => { b with nextBits }) fun _ => Lacks c n := by
    refine .bind (triple_readBits hc sound) fun bits => .of_fact (fun _ h => h.1) fun hbits => ?_
    exact .update fun b h => ⟨⟨h.2.prevBits, h.2.bits, hbits⟩, h.2.enough⟩
  refine .bind (R := fun _ => Lacks c n) (.state fun _ h => h) fun b => .ite (fun _ => ?_) fun _ => ?_
  · refine .bind (R := fun _ => Lacks c n) ?_ fun _ => next
    refine .bind (R := fun _ => Lacks c n) (.update fun b h => ?_) fun _ => ?_
    · exact ⟨{ h with }, h.enough⟩
    refine .bind (triple_readBits hc sound) fun prevBits => .of_fact (fun _ h => h.1) fun hprev => ?_
    refine .bind (R := fun _ => Lacks c n) (.update fun b h => ?_) fun _ => ?_
    · exact ⟨⟨hprev, h.2.bits, h.2.nextBits⟩, h.2.enough⟩
    refine .bind (triple_readBits hc sound) fun bits => .of_fact (fun _ h => h.1) fun hbits => ?_
    exact .update fun b h => ⟨⟨h.2.prevBits, hbits, h.2.nextBits⟩, h.2.enough⟩
  · refine .bind (R := fun _ => Lacks c n) (.update fun b h => ?_) fun _ => next
    exact ⟨⟨h.bits, h.nextBits, h.nextBits⟩, h.enough⟩

/-- A block that was read lies within the frame. -/
structure Placed (c : Config) (n : Nat) (b : BlockState) : Prop extends b.Ready c where
  enough : c.frameLength ≤ b.position + n

theorem triple_read (hc : c.Sound) {n : Nat} :
    Triple (Sound c) (Lacks c n) (read c) fun _ => Placed c n := by
  refine .bind (triple_readLengths hc) fun _ => ?_
  refine .bind (R := fun b b' => b.Sound c ∧ Lacks c n b')
    (.state fun _ h => ⟨h.toSound, h⟩) fun b => .of_fact (fun _ h => h.1) fun hb => ?_
  have short := hb.bits.le_maxBlockBits hc
  refine .bind (R := fun _ => Lacks c n)
    (.ofExcept fun _ h => .checkShift (by unfold maxBlockBits at short; omega) h.2) fun _ => ?_
  refine .bind (R := fun _ b => Lacks c n b ∧ b.length = 2 ^ b.bits)
    (.update fun b h => ⟨⟨{ h with }, h.enough⟩, rfl⟩) fun _ => ?_
  intro s hi
  simp only [wp_bind, wp_state, wp_require]
  split
  · exact ⟨Nat.le_refl _, ⟨⟨hi.1.toSound, hi.2, ‹_›⟩, hi.1.enough⟩⟩
  · exact ⟨fun _ => trivial, Nat.le_refl _, hi.1.toSound⟩

end BlockState

/-! ### Synthesis -/

namespace Lane

variable {c : Config} {b : BlockState}

/-- The samples of a block have room in the work buffers. -/
theorem gives_transform (hb : b.Ready c) (hpos : 0 < b.bits) (place : ChannelPlace) {l : Lane}
    (hl : l.Sound c) : Gives (l.transform b place) (WorkBuffers.Sound c) := by
  have block := hb.bits.length_le
  have length := hb.length_eq
  have samples := hl.work.samples
  have points := hl.work.points
  obtain ⟨bits, hbits⟩ : ∃ bits, b.bits = bits + 1 := ⟨b.bits - 1, by omega⟩
  have half : 2 ^ b.bits = 2 * 2 ^ bits := by rw [hbits, Nat.pow_succ]; omega
  have quarter : 2 ^ (bits + 2) = 2 * 2 ^ b.bits := by rw [hbits, Nat.pow_succ 2 (bits + 1)]; omega
  refine .bind (.room (Q := fun _ => True) (by omega) trivial) fun _ _ => ?_
  refine .ite (fun _ => ?_) fun _ => .ite (fun _ => .pure hl.work) fun _ => .pure ?_
  · have index : b.bits - 1 = bits := by omega
    rw [index]
    refine .bind (R := fun x => x.1.size = 2 ^ (bits + 2) ∧ x.2.size = c.frameLength / 2) ?_
      fun x hx => .pure { hl.work with samples := ?_, points := hx.2 }
    · refine .bind (.head (Q := fun _ => True) ?_ fun _ => trivial) fun input _ => ?_
      · rw [hl.channel.spectrum, ← hbits]; exact block
      refine .bind (.head (Q := fun _ => True) ?_ fun _ => trivial) fun work _ => .pure ⟨?_, ?_⟩
      · omega
      · simp
      · rw [Buffer.size_overlay, points]
        simp only [Vector.size_toArray]
        omega
    · rw [Buffer.size_overlay (by omega), samples]
  · refine { hl.work with samples := ?_ }
    rw [Buffer.size_overlay (by rw [Array.size_replicate]; omega), samples]

theorem gives_synthesize (hc : c.Sound) (hb : b.Ready c) (place : ChannelPlace) {l : Lane}
    (hl : l.Sound c) : Gives (l.synthesize c.frameLength b place) (Lane.Sound c) := by
  have least := hb.bits.minBlockBits_le hc
  have length := hb.length_eq
  have inside := hb.inside
  have block := hb.bits.length_le
  have overlap := hl.channel.overlap
  unfold minBlockBits at least
  have even : 2 ^ b.bits = 2 * 2 ^ (b.bits - 1) := by
    rw [← Nat.pow_succ']; congr 1; omega
  have frame : c.frameLength % 2 = 0 := by
    have := hc.frameLength_eq_or
    omega
  refine (gives_transform hb (by omega) place hl).bind fun work hwork => ?_
  have samples := hwork.samples
  refine .bind (.difference (Q := fun start =>
    start = c.frameLength / 2 + b.position - b.length / 2) (by omega) rfl) fun start hstart => ?_
  refine .bind (R := fun o => o.size = 2 * c.frameLength) ?_ fun o ho => .pure ?_
  · have count : b.shape.samples = 2 * 2 ^ b.bits := rfl
    obtain ⟨o, ho, hsize, -⟩ := BlockShape.exists_overlapAdd (hb.bits.le_maxBlockBits hc)
      (show start + b.shape.samples ≤ l.channel.overlap.size by omega)
      (show b.shape.samples ≤ work.samples.size by omega)
    exact .of_eq ho (hsize.trans overlap)
  · exact ⟨{ hl.channel with overlap := ho }, hl.noise, hwork⟩

end Lane

namespace FrameState

variable {c : Config}

theorem triple_synthesize (hc : c.Sound) {n : Nat} :
    Triple (Sound c) (SoundAt c (BlockState.Placed c n)) (synthesize c)
      fun _ => SoundAt c (BlockState.Placed c n) := by
  refine .bind (R := fun st st' => st.block.Ready c ∧ SoundAt c (BlockState.Placed c n) st')
    (.state fun _ h => ⟨h.block.toReady, h⟩) fun st => .of_fact (fun _ h => h.1) fun hb => ?_
  have low := hb.bits.minBlockBits_le hc
  have high := hb.bits.le_maxBlockBits hc
  refine .bind (R := fun _ => SoundAt c (BlockState.Placed c n))
    (.ofExcept fun _ h => .of_eq (if_pos ⟨low, high⟩) h.2) fun _ => ?_
  exact triple_eachChannel (fun _ h => h.toSound) fun place =>
    .updateM fun _ hl => Lane.gives_synthesize hc hb place hl

theorem size_interleave (left right : Array Int32) :
    (Pcm.interleave left right).size = 2 * min left.size right.size := by
  unfold Pcm.interleave
  rw [Array.size_flatMap]
  simp only [List.size_toArray, List.length_cons, List.length_nil, Array.map_const',
    Array.sum_replicate_nat, Array.size_zip]
  omega

theorem gives_values {B : BlockState → Prop} {st : FrameState} (h : st.SoundAt c B) :
    Gives (st.values c) fun values => values.size = c.frameSamples := by
  have left := (h.channels .first).overlap
  have right := (h.channels .second).overlap
  refine .bind (.slice (Q := fun a => a.size = c.frameLength) (by omega) ?_) fun a ha => ?_
  · rw [Array.size_extract]; omega
  refine .bind (.slice (Q := fun a => a.size = c.frameLength) (by omega) ?_) fun b hb => .pure ?_
  · rw [Array.size_extract]; omega
  rw [size_interleave, ha, hb, Nat.min_self]
  rfl

theorem SoundAt.shift {B : BlockState → Prop} {st : FrameState} (h : st.SoundAt c B) :
    (st.shift c).SoundAt c B where
  block := h.block
  layout := by simp [FrameState.shift, h.layout]
  channels place := by
    have hch := h.channels place
    have overlap := hch.overlap
    simp only [FrameState.shift, PerChannel.get_map]
    refine { hch with overlap := ?_ }
    simp only [Channel.shift, Array.size_append, Array.size_extract, Array.size_replicate]
    omega
  noise := h.noise
  work := h.work

end FrameState

/-! ### Frames -/

namespace Frame

open FrameState

theorem triple_readCoded {c : Config} {B : BlockState → Prop} (hB : ∀ b, B b → b.Sound c)
    (hms : ∀ b midSide, B b → B { b with midSide }) :
    Triple (Sound c) (SoundAt c B) (readCoded c) fun _ => SoundAt c B := by
  have sound : ∀ st, SoundAt c B st → Sound c st := fun _ h => h.mono hB
  have rest : ∀ midSide, Triple (Sound c) (SoundAt c B) (do
      onBlock <| Parse.update fun b => { b with midSide }
      eachChannel fun _ => do
        let coded ← Parse.readBit
        Lane.onChannel <| Parse.update fun c => { c with coded }) fun _ => SoundAt c B := by
    intro midSide
    refine .bind (triple_onBlock (Q := fun _ => B) (.update fun b h => hms b midSide h)) fun _ => ?_
    refine triple_eachChannel hB fun place => ?_
    refine .bind (R := fun _ => Lane.Sound c) (.readBit (fun _ h => h) fun _ _ h => h) fun coded => ?_
    exact Lane.triple_onChannel (I := Channel.Sound c) (Q := fun _ => Channel.Sound c)
      (.update fun _ h => { h with }) (fun _ h => h) (fun _ _ h => h) fun _ h => h
  refine .ite (fun _ => ?_) fun _ => ?_
  · exact .bind (R := fun _ => SoundAt c B) (.readBit sound fun _ _ h => h) rest
  · exact .bind (R := fun _ => SoundAt c B) (.pure fun _ h => h) rest

variable {s : Stream}

/-- A block takes a sample at least of what the frame lacks. -/
theorem triple_readBlock (hs : s.Sound) {n : Nat} :
    Triple (Sound s.config) (SoundAt s.config (BlockState.Lacks s.config (n + 1))) (readBlock s)
      fun _ => SoundAt s.config (BlockState.Lacks s.config n) := by
  have placed : ∀ b, BlockState.Placed s.config (n + 1) b → b.Sound s.config := fun _ h => h.toSound
  refine .bind ((triple_onBlock (BlockState.triple_read hs.config (n := n + 1))).mono
    (fun _ h => h) (fun _ _ h => h) fun _ h => h) fun _ => ?_
  refine .bind (triple_readCoded placed fun b midSide h => ?_) fun _ => ?_
  · exact ⟨{ h with }, h.enough⟩
  have finish : Triple (Sound s.config)
      (SoundAt s.config (BlockState.Placed s.config (n + 1))) (do
        FrameState.synthesize s.config
        onBlock <| Parse.update fun b => { b with position := b.position + b.length })
      fun _ => SoundAt s.config (BlockState.Lacks s.config n) := by
    refine .bind (triple_synthesize hs.config) fun _ => ?_
    refine (triple_onBlock (J := BlockState.Sound s.config)
      (Q := fun _ => BlockState.Lacks s.config n) (.update fun b h => ?_))
    have length := h.length_eq
    have positive := Nat.two_pow_pos b.bits
    have enough := h.enough
    exact ⟨{ h with }, by dsimp only; omega⟩
  refine .bind (R := fun _ => SoundAt s.config (BlockState.Placed s.config (n + 1)))
    (.state fun _ h => h) fun st => .ite (fun _ => ?_) fun _ => finish
  exact .bind (triple_readSpectra placed hs) fun _ => finish

theorem triple_readBlocks (hs : s.Sound) : ∀ limit : Nat,
    Triple (Sound s.config) (fun st => SoundAt s.config (BlockState.Lacks s.config limit) st ∧
      st.block.position < s.config.frameLength) (readBlocks s limit) fun _ => Sound s.config
  | 0 => .of_fact (c := False) (fun st h => by have := h.1.block.enough; omega) False.elim
  | limit + 1 => by
    refine .bind ((triple_readBlock hs).pre fun _ h => h.1) fun _ => ?_
    intro t hi
    simp only [wp_bind, wp_state, wp_ite]
    split
    · exact triple_readBlocks hs limit t ⟨hi, ‹_›⟩
    · exact ⟨Nat.le_refl _, hi.mono fun _ h => h.toSound⟩

/-- A frame gives all its values, or fails because the stream is damaged. -/
theorem triple_decode (hs : s.Sound) :
    Triple (Sound s.config) (Sound s.config) (decode s) fun values st =>
      values.size = s.config.frameSamples ∧ st.Sound s.config := by
  have frame : 0 < s.config.frameLength := Nat.two_pow_pos _
  refine .bind (R := fun _ st => SoundAt s.config
      (BlockState.Lacks s.config s.config.frameLength) st ∧
    st.block.position < s.config.frameLength) ?_ fun _ => ?_
  · refine ((triple_onBlock (J := BlockState.Sound s.config) (Q := fun _ b =>
      BlockState.Lacks s.config s.config.frameLength b ∧ b.position < s.config.frameLength)
      (.update fun b h => ?_)).post fun _ st h => ⟨h.mono fun _ h => h.1, h.block.2⟩)
    exact ⟨⟨{ h with }, by dsimp only; omega⟩, frame⟩
  refine .bind (triple_readBlocks hs _) fun _ => ?_
  refine .bind (R := fun st st' => st.Sound s.config ∧ st'.Sound s.config)
    (.state fun _ h => ⟨h, h⟩) fun st => .of_fact (fun _ h => h.1) fun hst => ?_
  refine .bind (R := fun values st => values.size = s.config.frameSamples ∧ st.Sound s.config)
    (.ofExcept fun _ h => (gives_values hst).mono fun _ hv => ⟨hv, h.2⟩) fun values => ?_
  refine .of_fact (fun _ h => h.1) fun hv => ?_
  exact .bind (R := fun _ => Sound s.config) (.update fun _ h => h.2.shift) fun _ =>
    .pure fun _ h => ⟨hv, h⟩

end Frame

end Wma
