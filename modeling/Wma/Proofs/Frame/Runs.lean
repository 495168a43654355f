import Wma.Frame.Decode
import Wma.Proofs.Spectrum.Runs

/-!
# Two runs of frame decoding

Two frame states that differ in their work buffers alone are `FrameState.Like W B`, where `W` relates
the work buffers and `B` is what is known of the block. The work buffers are used in two places, for
envelopes from line spectral pairs and for samples; where these give the same (`Stream.Hides`), the
runs of `Frame.decode` from such states give the same values and come to such states again
(`Frame.keeps_decode`).
-/

namespace Wma

open Parse

/-- Both lanes are the same but for their work buffers, which are related by `W`. -/
structure Lane.Like (W : WorkBuffers → WorkBuffers → Prop) (l m : Lane) : Prop where
  channel : l.channel = m.channel
  noise : l.noise = m.noise
  work : W l.work m.work

/-- Both states are the same but for their work buffers, which are related by `W`, and their block is
as in `B`. -/
structure FrameState.Like (W : WorkBuffers → WorkBuffers → Prop) (B : BlockState → Prop)
    (s t : FrameState) : Prop where
  block : s.block = t.block
  holds : B s.block
  channels : s.channels = t.channels
  noise : s.noise = t.noise
  work : W s.work t.work

/-- Nothing is known of the block. -/
abbrev FrameState.LikeAny (W : WorkBuffers → WorkBuffers → Prop) : FrameState → FrameState → Prop :=
  FrameState.Like W fun _ => True

/-- The block has as many coefficients as its shape says. -/
def BlockState.Measured (b : BlockState) : Prop :=
  b.length = 2 ^ b.bits

/-- Work buffers that are related by `W` give the same envelopes and the same samples. -/
structure Stream.Hides (V : View) (s : Stream) (W : WorkBuffers → WorkBuffers → Prop) : Prop where
  ratios : s.config.steppedEnvelope = false → ∀ bands ∈ s.layout.blocks, ∀ pairs w w', W w w' →
    Alike (fun x y => x.1 = y.1 ∧ W { w with curve := x.2 } { w' with curve := y.2 }) V.error
      (LinePairs.ratios s.layout.lineCosines pairs w.curve bands.length)
      (LinePairs.ratios s.layout.lineCosines pairs w'.curve bands.length)
  synthesize : Keeps V (FrameState.LikeAny W) (FrameState.Like W BlockState.Measured)
    (FrameState.synthesize s.config)

variable {V : View} {s : Stream} {W : WorkBuffers → WorkBuffers → Prop} {B : BlockState → Prop}

/-! ### Block lengths -/

namespace BlockState

theorem keeps_readBits {σ : Type} {J R : σ → σ → Prop} (hJ : ∀ s t, R s t → J s t) (c : Config) :
    Keeps V J R (readBits c) :=
  .bind (.read hJ _) fun _ => .bind (.require hJ) fun _ => .ofExcept hJ _

theorem keeps_readReset (c : Config) : Keeps V Eq Eq (readReset c) := by
  have hJ : ∀ s t : BlockState, s = t → s = t := fun _ _ h => h
  refine .bind (.update fun _ _ h => h ▸ rfl) fun _ => .bind (keeps_readBits hJ c) fun prevBits => ?_
  refine .bind (.update fun _ _ h => h ▸ rfl) fun _ => .bind (keeps_readBits hJ c) fun bits => ?_
  exact .update fun _ _ h => h ▸ rfl

theorem keeps_readLengths (c : Config) : Keeps V Eq Eq (readLengths c) := by
  refine .ite (fun _ => ?_) fun _ => .update fun _ _ h => h ▸ rfl
  have next : Keeps V Eq Eq (do
      let nextBits ← readBits c
      Parse.update fun b : BlockState => { b with nextBits }) :=
    .bind (keeps_readBits (fun _ _ h => h) c) fun nextBits => .update fun _ _ h => h ▸ rfl
  refine .state (fun _ _ h => h ▸ rfl) fun b => .ite (fun _ => ?_) fun _ => ?_
  · exact .bind (keeps_readReset c) fun _ => next
  · exact .bind (.update fun _ _ h => h ▸ rfl) fun _ => next

/-- Once it is read, the length of a block fits its shape. -/
theorem related_read (c : Config) :
    Related V Eq Eq (read c) (read c) fun a a' b b' => a = a' ∧ b = b' ∧ b.Measured := by
  refine .bind (keeps_readLengths c) fun _ _ => ?_
  refine .bind (R := fun b b' t t' => b = b' ∧ t = t')
    (.state fun _ _ h => ⟨h.2, h.2⟩) fun b b' => .of_fact (fun _ _ h => h.1) fun hb => ?_
  subst hb
  refine .bind (R := fun (_ _ : Unit) t t' => t = t') (.ofExcept (fun _ _ h => h.2) fun _ _ h => ?_)
    fun _ _ => ?_
  · exact .of_eq V.error_refl (fun _ => h.2) rfl
  refine .bind (R := fun (_ _ : Unit) t t' => t = t' ∧ Measured t)
    (.update fun _ _ h => ⟨h ▸ rfl, rfl⟩) fun _ _ => ?_
  exact Keeps.state (fun _ _ h => h.1 ▸ rfl) fun _ => .require fun _ _ h => h.1

end BlockState

/-! ### Lanes and states -/

namespace Lane

theorem keeps_onChannel {α : Type} {p : Parse Channel α} (h : Keeps V Eq Eq p) :
    Keeps V (Like W) (Like W) (onChannel p) :=
  h.focus (fun _ _ h => h.channel) (fun _ _ _ _ h hc => ⟨hc, h.noise, h.work⟩)
    fun _ _ _ _ h hc => ⟨hc, h.noise, h.work⟩

theorem keeps_whenCoded {p : Parse Lane Unit} (h : Keeps V (Like W) (Like W) p) :
    Keeps V (Like W) (Like W) (whenCoded p) :=
  .state (fun _ _ h => by simp only [h.channel]) fun _ => .ite (fun _ => h) fun _ => .pure ()

theorem keeps_onNoiseBands {p : Parse NoiseBands Unit} (h : Keeps V Eq Eq p) :
    Keeps V (Like W) (Like W) (onChannel <| Parse.focus (·.noiseBands)
      (fun n c => { c with noiseBands := n }) p) :=
  keeps_onChannel <| h.focus (fun _ _ h => h ▸ rfl) (fun _ _ _ _ h hn => h ▸ hn ▸ rfl)
    fun _ _ _ _ h hn => h ▸ hn ▸ rfl

theorem keeps_readRatios (hs : s.Hides V W) {bands : BlockBands} (hb : bands ∈ s.layout.blocks) :
    Keeps V (Like W) (Like W) (readRatios s bands) := by
  have hJ : ∀ l m : Lane, l.Like W m → l.Like W m := fun _ _ h => h
  refine .ite (fun _ => SteppedEnvelope.keeps_read hJ _ _ _ _) fun hpairs => ?_
  refine .bind (LinePairs.keeps_read hJ) fun pairs => ?_
  refine Related.bind (R := fun l m l' m' => l.Like W m ∧ l' = l ∧ m' = m)
    (.state fun _ _ h => ⟨h, rfl, rfl⟩) fun l m => .of_fact (fun _ _ h => h.1) fun hlm => ?_
  refine Related.bind (R := fun x y l' m' => (x.1 = y.1 ∧
      W { l.work with curve := x.2 } { m.work with curve := y.2 }) ∧ l' = l ∧ m' = m)
    (.ofExcept (fun _ _ h => h.2.1 ▸ h.2.2 ▸ hlm) fun _ _ h => ?_) ?_
  · refine (hs.ratios (by simpa using hpairs) bands hb pairs _ _ hlm.work).mono fun _ _ hxy => ⟨hxy, h.2⟩
  · rintro ⟨ratios, curve⟩ ⟨ratios', curve'⟩
    refine .of_fact (fun _ _ h => h.1) fun ⟨hratios, hcurve⟩ => ?_
    refine Related.bind (R := fun _ _ => Like W) (.update ?_) fun _ _ => .pure fun _ _ h =>
      ⟨hratios, h⟩
    rintro _ _ ⟨-, rfl, rfl⟩
    exact { hlm with work := hcurve }

theorem keeps_readEnvelope (hs : s.Hides V W) (sizeIndex : Nat) {bands : BlockBands}
    (hb : bands ∈ s.layout.blocks) : Keeps V (Like W) (Like W) (readEnvelope s sizeIndex bands) := by
  refine .state (fun _ _ h => by simp only [h.channel]) fun l => ?_
  refine .bind (.ofExcept (fun _ _ h => h) _) fun _ => ?_
  refine .bind (keeps_readRatios hs hb) fun ratios => ?_
  exact keeps_onChannel (.update fun _ _ h => h ▸ rfl)

theorem keeps_readLevels (s : Stream) (bands : BlockBands) (book : RunLevelBook) (levelBits : Nat) :
    Keeps V (Like W) (Like W) (readLevels s bands book levelBits) := by
  have hJ : ∀ c d : Channel, c = d → c = d := fun _ _ h => h
  refine keeps_onChannel ?_
  refine .state (fun _ _ h => h ▸ rfl) fun c => ?_
  refine .bind (.ofExcept hJ _) fun count => ?_
  refine .state (fun _ _ h => h ▸ rfl) fun c => ?_
  refine .bind (.ofExcept hJ _) fun _ => ?_
  exact (Levels.keeps_read book levelBits _ count).focus (fun _ _ h => h ▸ rfl)
    (fun _ _ _ _ h hl => h ▸ hl ▸ rfl) fun _ _ _ _ h hl => h ▸ hl ▸ rfl

theorem keeps_dequantize (scaling : Scaling) : Keeps V (Like W) (Like W) (dequantize scaling) := by
  refine Related.updateM (fun _ _ h => h) fun l m h => ?_
  dsimp only
  rw [h.channel, h.noise]
  refine .bind (R := Eq) (.of_eq V.error_refl (fun _ => rfl) rfl) ?_
  rintro ⟨spectrum, noise⟩ _ rfl
  exact ⟨rfl, rfl, rfl, h.work⟩

end Lane

namespace FrameState

variable {t : FrameState}

theorem Like.any {s t : FrameState} (h : Like W B s t) : LikeAny W s t :=
  { h with holds := trivial }

theorem Like.lane {s t : FrameState} (h : Like W B s t) (place : ChannelPlace) :
    (s.lane place).Like W (t.lane place) :=
  ⟨congrArg (·.get place) h.channels, h.noise, h.work⟩

theorem Like.setLane {W' : WorkBuffers → WorkBuffers → Prop} {s t : FrameState} (h : Like W B s t)
    (place : ChannelPlace) {l m : Lane} (hl : l.Like W' m) :
    Like W' B (s.setLane place l) (t.setLane place m) where
  block := h.block
  holds := h.holds
  channels := by simp only [FrameState.setLane, h.channels, hl.channel]
  noise := hl.noise
  work := hl.work

theorem related_onBlock {α : Type} {B' : BlockState → Prop} {p : Parse BlockState α}
    (h : Related V Eq (fun b b' => b = b' ∧ B b) p p fun a a' b b' => a = a' ∧ b = b' ∧ B' b) :
    Related V (LikeAny W) (Like W B) (onBlock p) (onBlock p) fun a a' s t =>
      a = a' ∧ Like W B' s t :=
  h.focus (fun _ _ h => ⟨h.block, h.holds⟩)
    (fun _ _ _ _ _ _ h hb => ⟨hb.1, { h with block := hb.2.1, holds := hb.2.2 }⟩)
    fun _ _ _ _ h hb => { h with block := hb, holds := trivial }

/-- A change of the block that `B` does not speak of. -/
theorem keeps_updateBlock {f : BlockState → BlockState} (hf : ∀ b, B b → B (f b)) :
    Keeps V (LikeAny W) (Like W B) (onBlock (Parse.update f)) :=
  related_onBlock (.update fun _ _ h => ⟨rfl, h.1 ▸ rfl, hf _ h.2⟩)

theorem keeps_eachChannel {p : ChannelPlace → Parse Lane Unit}
    (h : ∀ place, Keeps V (Lane.Like W) (Lane.Like W) (p place)) :
    Keeps V (LikeAny W) (Like W B) (eachChannel p) := by
  refine .state (fun _ _ h => by simp only [h.channels]) fun s => .forM _ fun place => ?_
  exact (h place).focus (fun _ _ h => h.lane place) (fun _ _ _ _ h hl => h.setLane place hl)
    fun _ _ _ _ h hl => (h.setLane place hl).any

theorem keeps_eachCoded {p : Parse Lane Unit} (h : Keeps V (Lane.Like W) (Lane.Like W) p) :
    Keeps V (LikeAny W) (Like W B) (eachChannel fun _ => Lane.whenCoded p) :=
  keeps_eachChannel fun _ => Lane.keeps_whenCoded h

theorem keeps_readEnvelopes (hs : s.Hides V W) (sizeIndex : Nat) {bands : BlockBands}
    (hb : bands ∈ s.layout.blocks) :
    Keeps V (LikeAny W) (Like W B) (readEnvelopes s sizeIndex bands) := by
  have last : Keeps V (LikeAny W) (Like W B) (do
      let channels := (← Parse.state).channels.toList
      Parse.require (channels.all fun c => !c.coded || c.hasEnvelope) .noEnvelope) :=
    .state (fun _ _ h => by dsimp only; rw [h.channels]) fun _ => .require fun _ _ h => h.any
  refine .bind ?_ fun fresh => .ite (fun _ => ?_) fun _ => last
  · refine .state (fun _ _ h => by simp only [h.block]) fun _ => ?_
    exact .ite (fun _ => .pure true) fun _ => .readBit fun _ _ h => h.any
  · exact .bind (keeps_eachCoded (Lane.keeps_readEnvelope hs sizeIndex hb)) fun _ => last

theorem keeps_readLevels (s : Stream) (bands : BlockBands) (gain : Int) :
    Keeps V (LikeAny W) (Like W B) (readLevels s bands gain) := by
  refine .state (fun _ _ h => by simp only [h.block]) fun st => keeps_eachChannel fun place => ?_
  refine .bind (Lane.keeps_whenCoded ?_) fun _ => .ite (fun _ => .align) fun _ => .pure ()
  exact .bind (.ofExcept (fun _ _ h => h) _) fun book => Lane.keeps_readLevels s bands book _

theorem keeps_undoMidSide (length : Nat) :
    Keeps V (LikeAny W) (Like W B) (Parse.updateM (undoMidSide length)) := by
  refine Related.updateM (fun _ _ h => h.any) fun s t h => ?_
  unfold undoMidSide
  rw [h.channels, h.block]
  split
  · exact ⟨rfl, h⟩
  · split
    · refine .bind (R := Eq) (.of_eq V.error_refl (fun _ => rfl) rfl) ?_
      rintro ⟨left, right⟩ _ rfl
      exact ⟨rfl, { h with block := rfl, holds := h.block ▸ h.holds, channels := rfl }⟩
    · exact ⟨rfl, h⟩

theorem keeps_readSpectra (hs : s.Hides V W) :
    Keeps V (LikeAny W) (Like W B) (readSpectra s) := by
  have hJ : ∀ s t : FrameState, Like W B s t → LikeAny W s t := fun _ _ h => h.any
  refine .state (fun _ _ h => by simp only [h.block]) fun st => ?_
  refine .bind (.ofExcept hJ _) fun sizeIndex => ?_
  split
  case h_2 => exact .throw hJ _
  rename_i bands hbands
  have hb : bands ∈ s.layout.blocks := Array.mem_of_getElem? hbands
  refine .bind (BlockGain.keeps_read hJ) fun gain => ?_
  have rest : Keeps V (LikeAny W) (Like W B) (do
      readEnvelopes s sizeIndex bands
      readLevels s bands gain
      eachChannel fun _ =>
        Lane.whenCoded (Lane.dequantize (scaling s st.block.bits sizeIndex bands gain))
      Parse.updateM (undoMidSide bands.length)) := by
    refine .bind (keeps_readEnvelopes hs sizeIndex hb) fun _ => ?_
    refine .bind (keeps_readLevels s bands gain) fun _ => ?_
    refine .bind (keeps_eachCoded (Lane.keeps_dequantize _)) fun _ => ?_
    exact keeps_undoMidSide _
  refine .ite (fun _ => ?_) fun _ => rest
  refine .bind (keeps_eachCoded (Lane.keeps_onNoiseBands (NoiseBands.keeps_readFlags _))) fun _ => ?_
  refine .bind (keeps_eachCoded (Lane.keeps_onNoiseBands (NoiseBands.keeps_readGains _))) fun _ => ?_
  exact rest

end FrameState

namespace Frame

open FrameState

theorem keeps_readCoded (c : Config) :
    Keeps V (LikeAny W) (Like W BlockState.Measured) (readCoded c) := by
  have rest : ∀ midSide : Bool, Keeps V (LikeAny W) (Like W BlockState.Measured) (do
      onBlock <| Parse.update fun b => { b with midSide }
      eachChannel fun _ => do
        let coded ← Parse.readBit
        Lane.onChannel <| Parse.update fun c => { c with coded }) := by
    intro midSide
    refine .bind (keeps_updateBlock fun _ h => h) fun _ => keeps_eachChannel fun _ => ?_
    refine .bind (.readBit fun _ _ h => h) fun coded => ?_
    exact Lane.keeps_onChannel (.update fun _ _ h => h ▸ rfl)
  refine .ite (fun _ => ?_) fun _ => .bind (.pure false) rest
  exact .bind (.readBit fun _ _ h => h.any) rest

theorem keeps_readBlock (hs : s.Hides V W) : Keeps V (LikeAny W) (LikeAny W) (readBlock s) := by
  have first : Related V (LikeAny W) (LikeAny W) (onBlock (BlockState.read s.config))
      (onBlock (BlockState.read s.config)) fun a a' s t =>
        a = a' ∧ Like W BlockState.Measured s t :=
    related_onBlock ((BlockState.related_read _).mono (fun _ _ h => h.1) (fun _ _ _ _ h => h)
      fun _ _ h => h)
  have last : Keeps V (LikeAny W) (Like W BlockState.Measured) (do
      FrameState.synthesize s.config
      onBlock <| Parse.update fun b => { b with position := b.position + b.length }) :=
    .bind hs.synthesize fun _ => keeps_updateBlock fun _ h => h
  refine Related.mono (Keeps.after first fun _ => ?_) (fun _ _ h => h)
    (fun _ _ _ _ h => ⟨h.1, h.2.any⟩) fun _ _ h => h
  refine .bind (keeps_readCoded _) fun _ => ?_
  refine .state (fun _ _ h => by simp only [h.channels]) fun st => .ite (fun _ => ?_) fun _ => last
  exact .bind (keeps_readSpectra hs) fun _ => last

theorem keeps_readBlocks (hs : s.Hides V W) :
    ∀ limit : Nat, Keeps V (LikeAny W) (LikeAny W) (readBlocks s limit)
  | 0 => .ofExcept (fun _ _ h => h) _
  | limit + 1 => by
    refine .bind (keeps_readBlock hs) fun _ => ?_
    refine .state (fun _ _ h => by simp only [h.block]) fun st => ?_
    exact .ite (fun _ => keeps_readBlocks hs limit) fun _ => .pure ()

theorem keeps_decode (hs : s.Hides V W) : Keeps V (LikeAny W) (LikeAny W) (decode s) := by
  refine .bind (keeps_updateBlock fun _ h => h) fun _ => .bind (keeps_readBlocks hs _) fun _ => ?_
  refine .state (fun s t h => ?_) fun st => .bind (.ofExcept (fun _ _ h => h) _) fun values => ?_
  · unfold FrameState.values
    rw [h.channels]
  refine .bind (.update fun _ _ h => ?_) fun _ => .pure values
  exact { h with channels := congrArg (PerChannel.map (Channel.shift s.config.frameLength)) h.channels }

end Frame

end Wma
