import Wma.Proofs.Frame.Decode
import Wma.Proofs.Frame.Tracks

/-!
# A frame in the tracks of another

How a frame is read depends on little of the state: on the lengths of its blocks, on which channels
are coded, on which bands hold noise, and on whether a channel has an envelope. The frame brings all of
that with it but the envelopes and, unless it resets them, the lengths. So two sound states in which
these are the same read a frame alike, and have them in common again however it ends
(`Frame.tracks_decode`). The values are others.

Where only the first run matters, to have an envelope too many does no harm, and lengths that the frame
resets need not have been the same (`BlockState.Resumes`): what is a frame for the first state is a
frame of the same bits for the second (`Frame.follows_decode`).
-/

namespace Wma

open Parse

variable {V : View} {s : Stream} {c : Config} {bits : Nat} {bands : BlockBands}

/-- Sound states whose blocks are related by `B`, and whose channels by `R` and `S`. -/
structure FrameState.TracksBy (c : Config) (U : BlockState → Prop)
    (B : BlockState → BlockState → Prop) (R S : Channel → Channel → Prop) (s t : FrameState) :
    Prop where
  first : s.SoundAt c U
  second : t.SoundAt c U
  block : B s.block t.block
  channels : PerChannel.Both R S s.channels t.channels

/-- Sound states whose blocks are related by `B`, and all of whose channels track each other. -/
abbrev FrameState.Tracks (V : View) (c : Config) (U : BlockState → Prop)
    (B : BlockState → BlockState → Prop) (coded noise : Prop) : FrameState → FrameState → Prop :=
  FrameState.TracksBy c U B (Channel.Tracks V coded noise) (Channel.Tracks V coded noise)

/-- The lengths of the blocks are the same, and whether the next block resets them. -/
structure BlockState.SameLengths (b b' : BlockState) : Prop where
  prevBits : b.prevBits = b'.prevBits
  bits : b.bits = b'.bits
  nextBits : b.nextBits = b'.nextBits
  reset : b.reset = b'.reset

/-- The lengths of the blocks are the same, unless only the first run matters. -/
def BlockState.Supplies (V : View) (b b' : BlockState) : Prop :=
  V.oneSided ∨ b.SameLengths b'

/-- The next block has the same lengths, whatever has been before it. -/
structure BlockState.Resumes (b b' : BlockState) : Prop where
  reset : b.reset = b'.reset
  bits : b.reset = false → b.bits = b'.bits
  nextBits : b.reset = false → b.nextBits = b'.nextBits

/-- What two states still have in common where a step has failed. -/
structure FrameState.Supplies (V : View) (s t : FrameState) : Prop where
  block : s.block.Supplies V t.block
  channels : PerChannel.Both (Channel.Supplies V) (Channel.Supplies V) s.channels t.channels

theorem BlockState.supplies_of_eq {b b' : BlockState} (h : b = b') : b.Supplies V b' :=
  .inr (h ▸ ⟨rfl, rfl, rfl, rfl⟩)

/-! ### Steps on the state -/

namespace FrameState

variable {U : BlockState → Prop} {B : BlockState → BlockState → Prop}
  {R S R' S' : Channel → Channel → Prop} {coded noise coded' noise' : Prop} {x y : FrameState}

theorem Tracks.supplies (h : Tracks V c U B coded noise x y) (hB : ∀ b b', B b b' → b.Supplies V b') :
    Supplies V x y :=
  ⟨hB _ _ h.block, h.channels.imp (fun _ _ h => h.supplies) fun _ _ h => h.supplies⟩

theorem TracksBy.imp (h : TracksBy c U B R R x y) (hR : ∀ c d, R c d → R' c d) :
    TracksBy c U B R' R' x y :=
  { h with channels := h.channels.imp hR hR }

theorem TracksBy.lane_first (h : TracksBy c U B R S x y) :
    Lane.Tracks c R (x.lane .first) (y.lane .first) :=
  ⟨h.first.lane _, h.second.lane _, h.channels.get_first⟩

theorem TracksBy.lane_second (h : TracksBy c U B R S x y) (hc : c.channels = .stereo) :
    Lane.Tracks c S (x.lane .second) (y.lane .second) :=
  ⟨h.first.lane _, h.second.lane _, h.channels.get_second (h.first.layout.trans hc)⟩

theorem TracksBy.setLane_first (h : TracksBy c U B R S x y) {l m : Lane} (hl : Lane.Tracks c R' l m) :
    TracksBy c U B R' S (x.setLane .first l) (y.setLane .first m) :=
  ⟨h.first.setLane _ hl.first, h.second.setLane _ hl.second, h.block,
    h.channels.set_first hl.channel⟩

theorem TracksBy.setLane_second (h : TracksBy c U B R S x y) (hc : c.channels = .stereo) {l m : Lane}
    (hl : Lane.Tracks c S' l m) :
    TracksBy c U B R S' (x.setLane .second l) (y.setLane .second m) :=
  ⟨h.first.setLane _ hl.first, h.second.setLane _ hl.second, h.block,
    h.channels.set_second (h.first.layout.trans hc) hl.channel⟩

theorem tracks_eachChannel (hB : ∀ b b', B b b' → b.Supplies V b')
    {p : ChannelPlace → Parse Lane Unit}
    (h : ∀ place, Related V (Lane.Supplies V) (Lane.Tracks c (Channel.Tracks V coded noise))
      (p place) (p place) fun _ _ => Lane.Tracks c (Channel.Tracks V coded' noise')) :
    Related V (Supplies V) (Tracks V c U B coded noise) (eachChannel p) (eachChannel p)
      fun _ _ => Tracks V c U B coded' noise' := by
  refine .bind (R := fun x y x' y' => (x.channels.layout = c.channels ∧
      y.channels.layout = c.channels) ∧ Tracks V c U B coded noise x' y')
    (.state fun x y h => ⟨⟨h.first.layout, h.second.layout⟩, h⟩) fun x y => ?_
  refine .of_fact (fun _ _ h => h.1) fun ⟨hx, hy⟩ => ?_
  have first : Related V (Supplies V) (Tracks V c U B coded noise)
      (Parse.focus (lane .first) (setLane .first) (p .first))
      (Parse.focus (lane .first) (setLane .first) (p .first)) fun _ _ =>
        TracksBy c U B (Channel.Tracks V coded' noise') (Channel.Tracks V coded noise) :=
    (h .first).focus (fun _ _ h => h.lane_first) (fun _ _ _ _ _ _ h hl => h.setLane_first hl)
      fun _ _ _ _ h hl => ⟨hB _ _ h.block, (h.supplies hB).channels.set .first hl⟩
  rw [PerChannel.places_eq hx, PerChannel.places_eq hy]
  refine .pre ?_ fun _ _ h => h.2
  cases hc : c.channels with
  | mono =>
    exact first.bind fun _ _ => .pure fun x' y' h =>
      { h with channels := h.channels.of_single (h.first.layout.trans hc) }
  | stereo =>
    refine first.bind fun _ _ => .bind (R := fun _ _ => Tracks V c U B coded' noise') ?_ fun _ _ =>
      .pure fun _ _ h => h
    refine (h .second).focus (fun _ _ h => h.lane_second hc)
      (fun _ _ _ _ _ _ h hl => h.setLane_second hc hl) fun _ _ _ _ h hl => ⟨hB _ _ h.block, ?_⟩
    exact (h.channels.imp (fun _ _ h => h.supplies) fun _ _ h => h.supplies).set .second hl

theorem tracks_eachCoded (hB : ∀ b b', B b b' → b.Supplies V b') {p : Parse Lane Unit}
    (hskip : ∀ c d, Channel.Tracks V True noise c d → c.coded = false →
      Channel.Tracks V coded' noise' c d)
    (h : Related V (Lane.Supplies V)
      (Lane.Tracks c fun c d => Channel.Tracks V True noise c d ∧ c.coded = true) p p
      fun _ _ => Lane.Tracks c (Channel.Tracks V coded' noise')) :
    Related V (Supplies V) (Tracks V c U B True noise) (eachChannel fun _ => Lane.whenCoded p)
      (eachChannel fun _ => Lane.whenCoded p) fun _ _ => Tracks V c U B coded' noise' :=
  tracks_eachChannel hB fun _ => Lane.tracks_whenCoded (fun _ _ h => h.coded trivial) hskip h

theorem tracks_onBlock {B' : BlockState → BlockState → Prop} {U' J : BlockState → Prop}
    {p : Parse BlockState Unit} (h : Related V (BlockState.Supplies V) B p p fun _ _ => B')
    (hp : Triple J U p fun _ => U') :
    Related V (Supplies V) (Tracks V c U B coded noise) (onBlock p) (onBlock p)
      fun _ _ => Tracks V c U' B' coded noise := by
  have both : Related V (BlockState.Supplies V) (fun b b' => (U b ∧ U b') ∧ B b b') p p
      fun _ _ b b' => U' b ∧ U' b' ∧ B' b b' :=
    (h.pre fun _ _ h => h.2).keep hp hp fun _ _ h => h.1
  refine both.focus (fun _ _ h => ⟨⟨h.first.block, h.second.block⟩, h.block⟩) ?_ ?_
  · exact fun _ _ x y b b' h hb =>
      ⟨h.first.setBlock hb.1, h.second.setBlock hb.2.1, hb.2.2, h.channels⟩
  · exact fun _ _ _ _ h hb => ⟨hb, h.channels.imp (fun _ _ h => h.supplies) fun _ _ h => h.supplies⟩

theorem tracks_updateBlock {B' : BlockState → BlockState → Prop} {U' : BlockState → Prop}
    {f : BlockState → BlockState} (hB : ∀ b b', B b b' → B' (f b) (f b'))
    (hU : ∀ b, U b → U' (f b)) :
    Related V (Supplies V) (Tracks V c U B coded noise) (onBlock (Parse.update f))
      (onBlock (Parse.update f)) fun _ _ => Tracks V c U' B' coded noise :=
  tracks_onBlock (J := fun _ => False) (.update hB) (.update hU)

/-- Where the frames that are complete are dropped, only values are others. -/
theorem Tracks.shift {B' : BlockState → BlockState → Prop} (h : Tracks V c U B coded noise x y)
    (hB : ∀ b b', B b b' → B' b b') : Tracks V c U B' coded noise (x.shift c) (y.shift c) := by
  refine ⟨h.first.shift, h.second.shift, hB _ _ h.block, ?_⟩
  refine .of_get (h.first.shift.layout.trans h.second.shift.layout.symm) fun place => ?_
  have tracks := h.channels.get place
  simp only [FrameState.shift, PerChannel.get_map]
  exact ⟨tracks.supplies, tracks.coded, tracks.noiseBands⟩

theorem tracks_readEnvelopes (hs : s.Sound) {sizeIndex : Nat} (hi : sizeIndex < 32)
    (hb : bands ∈ s.layout.blocks) (hlength : bands.length ≤ s.config.frameLength) :
    Related V (Supplies V) (Tracks V s.config U Eq True noise) (readEnvelopes s sizeIndex bands)
      (readEnvelopes s sizeIndex bands) fun _ _ => Tracks V s.config U Eq True noise := by
  have hJ : ∀ x y, Tracks V s.config U Eq True noise x y → Supplies V x y :=
    fun _ _ h => h.supplies fun _ _ => BlockState.supplies_of_eq
  have check : Related V (Supplies V) (Tracks V s.config U Eq True noise) (do
      let channels := (← Parse.state).channels.toList
      Parse.require (channels.all fun c => !c.coded || c.hasEnvelope) .noEnvelope) (do
      let channels := (← Parse.state).channels.toList
      Parse.require (channels.all fun c => !c.coded || c.hasEnvelope) .noEnvelope)
      fun _ _ => Tracks V s.config U Eq True noise := by
    refine .bind (R := fun x y x' y' =>
      PerChannel.Both (Channel.Tracks V True noise) (Channel.Tracks V True noise) x.channels
        y.channels ∧ Tracks V s.config U Eq True noise x' y')
      (.state fun _ _ h => ⟨h.channels, h⟩) fun x y => .of_fact (fun _ _ h => h.1) fun hboth => ?_
    exact .require (fun _ _ h => hJ _ _ h.2)
      (fun _ _ _ => hboth.implies_all fun _ _ h => h.supplied) fun _ _ h => h.2
  refine .andThen (R := Tracks V s.config U Eq True noise) ?_ fun fresh =>
    .ite Iff.rfl (fun _ => ?_) fun _ => check
  · refine .bind (R := fun x y x' y' => x.block = y.block ∧ Tracks V s.config U Eq True noise x' y')
      (.state fun _ _ h => ⟨h.block, h⟩) fun x y => .of_fact (fun _ _ h => h.1) fun hblock => ?_
    refine .pre (.ite (by rw [hblock]) (fun _ => ?_) fun _ => Keeps.readBit hJ) fun _ _ h => h.2
    exact .pure fun _ _ h => ⟨rfl, h⟩
  · refine .bind (tracks_eachCoded (fun _ _ => BlockState.supplies_of_eq) (fun _ _ h _ => h) ?_)
      fun _ _ => check
    exact (Lane.tracks_readEnvelope hs hi hb hlength).pre fun _ _ h =>
      ⟨h.first, h.second, h.channel.1⟩

theorem tracks_readLevels (hs : s.Sound) (hb : bands.Sound s.config bits)
    (hlength : bands.length ≤ s.config.frameLength) (gain : Int) :
    Related V (Supplies V) (Tracks V s.config U Eq True (s.config.noiseCoding = true))
      (readLevels s bands gain) (readLevels s bands gain)
      fun _ _ => Tracks V s.config U Eq True False := by
  refine .bind (R := fun x y x' y' => x.block = y.block ∧
    Tracks V s.config U Eq True (s.config.noiseCoding = true) x' y')
    (.state fun _ _ h => ⟨h.block, h⟩) fun x y => .of_fact (fun _ _ h => h.1) fun hblock => ?_
  rw [hblock]
  refine .pre (tracks_eachChannel (fun _ _ => BlockState.supplies_of_eq) fun place => ?_)
    fun _ _ h => h.2
  refine .bind (R := fun _ _ => Lane.Tracks s.config (Channel.Tracks V True False)) ?_ fun _ _ => ?_
  · refine Lane.tracks_whenCoded (fun _ _ h => h.coded trivial)
      (fun _ _ h _ => h.mono id False.elim) ?_
    obtain ⟨book, hbook, sound⟩ := gives_levelBook hs y.block.midSide place
    rw [hbook]
    refine .bind (R := fun a b l m => (a = book ∧ b = book) ∧ Lane.Tracks s.config
      (fun c d => Channel.Tracks V True (s.config.noiseCoding = true) c d ∧ c.coded = true) l m)
      (.ofExcept (fun _ _ h => h.channel.1.supplies) fun l m h => ⟨⟨rfl, rfl⟩, h⟩) fun a b => ?_
    refine .of_fact (fun _ _ h => h.1) ?_
    rintro ⟨rfl, rfl⟩
    exact (Lane.tracks_readLevels hs hb hlength sound (BlockGain.levelBits_le gain)).pre
      fun _ _ h => h.2
  · exact .ite Iff.rfl (fun _ => Related.post Keeps.align fun _ _ _ _ h => h.2) fun _ =>
      .pure fun _ _ h => h

theorem of_undoMidSide {length : Nat} {x x' : FrameState} (h : undoMidSide length x = .ok x') :
    x'.block = x.block ∧
      ∀ place, (x'.channels.get place).hasEnvelope = (x.channels.get place).hasEnvelope := by
  unfold undoMidSide at h
  split at h
  · cases h
    exact ⟨rfl, fun _ => rfl⟩
  rename_i mid side hch
  split at h
  · obtain ⟨⟨left, right⟩, hseparate, h⟩ := ok_of_bind h
    obtain ⟨a, -, hseparate⟩ := ok_of_bind hseparate
    obtain ⟨b, -, hseparate⟩ := ok_of_bind hseparate
    cases hseparate
    cases h
    refine ⟨rfl, fun place => ?_⟩
    rw [hch]
    cases place <;> rfl
  · cases h
    exact ⟨rfl, fun _ => rfl⟩

theorem tracks_undoMidSide {length : Nat} (hlength : length ≤ c.frameLength) :
    Related V (Supplies V) (Tracks V c U Eq coded noise) (Parse.updateM (undoMidSide length))
      (Parse.updateM (undoMidSide length)) fun _ _ => Tracks V c U Eq False False := by
  refine .updateM (fun _ _ h => h.supplies fun _ _ => BlockState.supplies_of_eq) fun x y h => ?_
  refine (Alike.of_gives (gives_undoMidSide hlength h.first)
    (gives_undoMidSide hlength h.second)).mono ?_
  rintro x' y' ⟨⟨hx, soundx⟩, hy, soundy⟩
  obtain ⟨hblock, hkeep⟩ := of_undoMidSide hx
  obtain ⟨hblock', hkeep'⟩ := of_undoMidSide hy
  refine ⟨soundx, soundy, hblock.trans (h.block.trans hblock'.symm), ?_⟩
  refine .of_get (soundx.layout.trans soundy.layout.symm) fun place => ⟨?_, False.elim, False.elim⟩
  unfold Channel.Supplies
  rw [hkeep, hkeep']
  exact (h.channels.get place).supplies

theorem tracks_dequantize {scaling : Scaling} (hscaling : scaling.Sound c bits)
    (hlength : scaling.bands.length ≤ c.frameLength) :
    Related V (Supplies V) (Tracks V c U Eq True False)
      (eachChannel fun _ => Lane.whenCoded (Lane.dequantize scaling))
      (eachChannel fun _ => Lane.whenCoded (Lane.dequantize scaling))
      fun _ _ => Tracks V c U Eq False False := by
  refine tracks_eachCoded (fun _ _ => BlockState.supplies_of_eq)
    (fun _ _ h _ => h.mono False.elim False.elim) ?_
  exact Lane.tracks_updateM (fun l hl => Lane.gives_dequantize hscaling hlength hl)
    (fun _ _ => Lane.hasEnvelope_of_dequantize) fun _ _ h => h.1.supplies

theorem tracks_readSpectra (hU : ∀ b, U b → b.Sound s.config) (hs : s.Sound) :
    Related V (Supplies V) (Tracks V s.config U Eq True False) (readSpectra s) (readSpectra s)
      fun _ _ => Tracks V s.config U Eq False False := by
  have hB : ∀ b b' : BlockState, b = b' → b.Supplies V b' := fun _ _ => BlockState.supplies_of_eq
  have hJ : ∀ x y, Tracks V s.config U Eq True False x y → Supplies V x y := fun _ _ h => h.supplies hB
  refine .bind (R := fun x y x' y' => (x.block = y.block ∧ x.block.Sound s.config) ∧
    Tracks V s.config U Eq True False x' y')
    (.state fun _ _ h => ⟨⟨h.block, hU _ h.first.block⟩, h⟩)
    fun x y => .of_fact (fun _ _ h => h.1) fun ⟨hblock, hsound⟩ => ?_
  rw [← hblock]
  obtain ⟨k, bands, h⟩ := hs.exists_bands hsound.bits
  dsimp only
  rw [h.index_eq]
  refine .bind (R := fun a b x y => (k = a ∧ k = b) ∧ Tracks V s.config U Eq True False x y)
    (.ofExcept (fun _ _ h => hJ _ _ h.2) fun _ _ h => ⟨⟨rfl, rfl⟩, h.2⟩) fun a b => ?_
  refine .of_fact (fun _ _ h => h.1) ?_
  rintro ⟨rfl, rfl⟩
  rw [h.layout]
  refine .pre ?_ fun _ _ h => h.2
  refine .andThen (BlockGain.keeps_read hJ) fun gain => ?_
  have scaled := sound_scaling hs.layout h.sound h.index_lt h.bits_le gain
  have finish : Related V (Supplies V) (Tracks V s.config U Eq True (s.config.noiseCoding = true)) (do
      readEnvelopes s k bands
      readLevels s bands gain
      eachChannel fun _ => Lane.whenCoded (Lane.dequantize (scaling s x.block.bits k bands gain))
      Parse.updateM (undoMidSide bands.length)) (do
      readEnvelopes s k bands
      readLevels s bands gain
      eachChannel fun _ => Lane.whenCoded (Lane.dequantize (scaling s x.block.bits k bands gain))
      Parse.updateM (undoMidSide bands.length))
      fun _ _ => Tracks V s.config U Eq False False := by
    refine .bind (tracks_readEnvelopes hs h.index_lt (Array.mem_of_getElem? h.layout) h.length_le)
      fun _ _ => ?_
    refine .bind (tracks_readLevels hs h.sound h.length_le gain) fun _ _ => ?_
    exact .bind (tracks_dequantize scaled h.length_le) fun _ _ => tracks_undoMidSide h.length_le
  refine .ite Iff.rfl (fun _ => ?_) fun hnoise => finish.pre fun _ _ h => ?_
  · refine .bind (R := fun _ _ => Tracks V s.config U Eq True True) ?_ fun _ _ =>
      .bind (R := fun _ _ => Tracks V s.config U Eq True True) ?_ fun _ _ => finish.pre fun _ _ h => ?_
    · refine tracks_eachCoded hB (fun _ _ h hc => ⟨h.supplies, h.coded, fun _ h => ?_⟩) ?_
      · rw [hc] at h; cases h
      · exact (Lane.tracks_readNoiseFlags h.high_le).pre fun _ _ h =>
          ⟨h.first, h.second, h.channel.1⟩
    · exact tracks_eachCoded hB (fun _ _ h _ => h) (Lane.tracks_readNoiseGains hs)
    · exact h.imp fun _ _ h => h.mono id fun _ => trivial
  · exact h.imp fun _ _ h => h.mono id fun h => absurd h hnoise

theorem tracks_synthesize (hc : c.Sound) :
    Related V (Supplies V) (Tracks V c (BlockState.Ready c) Eq coded noise) (synthesize c)
      (synthesize c) fun _ _ => Tracks V c (BlockState.Ready c) Eq False False := by
  have hB : ∀ b b' : BlockState, b = b' → b.Supplies V b' := fun _ _ => BlockState.supplies_of_eq
  refine .bind (R := fun x y x' y' => (x.block = y.block ∧ x.block.Ready c) ∧
    Tracks V c (BlockState.Ready c) Eq coded noise x' y')
    (.state fun _ _ h => ⟨⟨h.block, h.first.block⟩, h⟩) fun x y => ?_
  refine .of_fact (fun _ _ h => h.1) fun ⟨hblock, hready⟩ => ?_
  rw [← hblock]
  refine .pre (.andThen (Keeps.ofExcept (fun _ _ h => h.supplies hB) _) fun _ =>
    tracks_eachChannel hB fun place => ?_) fun _ _ h => h.2
  exact Lane.tracks_updateM (fun l hl => Lane.gives_synthesize hc hready place hl)
    (fun _ _ => Lane.hasEnvelope_of_synthesize) fun _ _ h => h.supplies

end FrameState

/-! ### Block lengths -/

namespace BlockState

/-- All but whether the channels are mid and side is the same. -/
def Agrees (b b' : BlockState) : Prop :=
  ∀ midSide, { b with midSide } = { b' with midSide }

/-- The lengths of the blocks behind are the same for both. -/
structure Resuming (V : View) (b b' : BlockState) : Prop where
  resumes : b.Resumes b'
  supplies : b.Supplies V b'
  position : b.position = b'.position

variable {b b' : BlockState}

theorem Agrees.parts (h : b.Agrees b') :
    b.SameLengths b' ∧ b.position = b'.position ∧ b.length = b'.length := by
  obtain ⟨prevBits, bits, nextBits, reset, position, length, -⟩ := BlockState.mk.inj (h true)
  exact ⟨⟨prevBits, bits, nextBits, reset⟩, position, length⟩

theorem Resuming.refl (b : BlockState) : b.Resuming V b :=
  ⟨⟨rfl, fun _ => rfl, fun _ => rfl⟩, supplies_of_eq rfl, rfl⟩

/-- What a block states is the same from then on. The length is not known before it is worked out. -/
theorem related_readLengths (c : Config) :
    Related V (Supplies V) (Resuming V) (readLengths c) (readLengths c)
      fun _ _ b b' => ∀ length, Agrees { b with length } { b' with length } := by
  have next : Related V (Supplies V) (fun b b' : BlockState => b.Supplies V b' ∧
        ∀ nextBits length, Agrees { b with nextBits, length } { b' with nextBits, length }) (do
      let nextBits ← readBits c
      Parse.update fun b => { b with nextBits }) (do
      let nextBits ← readBits c
      Parse.update fun b => { b with nextBits })
      fun _ _ b b' => ∀ length, Agrees { b with length } { b' with length } :=
    .andThen (keeps_readBits (fun _ _ h => h.1) c) fun nextBits => .update fun b b' h => h.2 nextBits
  refine .ite Iff.rfl (fun _ => ?_) fun _ => .update fun b b' h length midSide => ?_
  · refine .bind (R := fun a a' b b' => (a.reset = a'.reset ∧ a = b) ∧ b.Resuming V b')
      (.state fun b b' h => ⟨⟨h.resumes.reset, rfl⟩, h⟩) fun a a' => ?_
    refine .of_fact (fun _ _ h => h.1.1) fun hreset => .ite (by rw [hreset]) (fun _ => ?_)
      fun hfalse => ?_
    · refine .bind (R := fun _ _ b b' => b.Supplies V b' ∧ ∀ nextBits length,
        Agrees { b with nextBits, length } { b' with nextBits, length }) ?_ fun _ _ => next
      refine .bind (R := fun _ _ b b' => b.Supplies V b' ∧ ∀ prevBits bits nextBits length,
        Agrees { b with prevBits, bits, nextBits, length } { b' with prevBits, bits, nextBits, length })
        (.update fun b b' h => ⟨?_, fun prevBits bits nextBits length midSide => ?_⟩) fun _ _ => ?_
      · exact h.2.supplies.imp_right fun h => { h with reset := rfl }
      · simp only [h.2.position]
      refine .andThen (keeps_readBits (fun _ _ h => h.1) c) fun prevBits => ?_
      refine .bind (R := fun _ _ b b' => b.Supplies V b' ∧ ∀ bits nextBits length,
        Agrees { b with bits, nextBits, length } { b' with bits, nextBits, length })
        (.update fun b b' h => ⟨?_, h.2 prevBits⟩) fun _ _ => ?_
      · exact h.1.imp_right fun h => { h with prevBits := rfl }
      refine .andThen (keeps_readBits (fun _ _ h => h.1) c) fun bits => .update fun b b' h =>
        ⟨?_, h.2 bits⟩
      exact h.1.imp_right fun h => { h with bits := rfl }
    · refine .bind (R := fun _ _ b b' => b.Supplies V b' ∧ ∀ nextBits length,
        Agrees { b with nextBits, length } { b' with nextBits, length })
        (.update fun b b' h => ⟨?_, fun nextBits length midSide => ?_⟩) fun _ _ => next
      · exact h.2.supplies.imp_right fun h => { h with prevBits := h.bits, bits := h.nextBits }
      · obtain ⟨⟨-, rfl⟩, hresumes, -, hposition⟩ := h
        have unset : a.reset = false := by simpa using hfalse
        unfold advance
        simp only [hresumes.reset, hresumes.bits unset, hresumes.nextBits unset, hposition]
  · simp only [h.resumes.reset, h.position]

theorem related_read_of_resuming (c : Config) :
    Related V (Supplies V) (Resuming V) (read c) (read c) fun _ _ => Agrees := by
  refine .bind (related_readLengths c) fun _ _ => ?_
  have same : ∀ {b b' : BlockState}, (∀ length, Agrees { b with length } { b' with length }) →
      b.SameLengths b' := fun h => { (h 0).parts.1 with }
  refine .bind (R := fun a a' b b' => a.bits = a'.bits ∧
    ∀ length, Agrees { b with length } { b' with length })
    (.state fun b b' h => ⟨(same h).bits, h⟩) fun a a' => ?_
  refine .of_fact (fun _ _ h => h.1) fun hbits => ?_
  rw [hbits]
  refine .pre (.andThen (Keeps.ofExcept (fun _ _ h => .inr (same h)) _) fun _ => ?_) fun _ _ h => h.2
  refine .bind (R := fun _ _ => Agrees) (.update fun b b' h => ?_) fun _ _ => ?_
  · have length : 2 ^ b.bits = 2 ^ b'.bits := congrArg (2 ^ ·) (same h).bits
    rw [length]
    exact h _
  refine .bind (R := fun a a' b b' => (a.position = a'.position ∧ a.length = a'.length) ∧ Agrees b b')
    (.state fun b b' h => ⟨h.parts.2, h⟩) fun a a' => .of_fact (fun _ _ h => h.1)
      fun ⟨position, length⟩ => ?_
  rw [position, length]
  exact Related.mono (Keeps.require fun _ _ (h : Agrees _ _) => .inr h.parts.1) (fun _ _ h => h.2)
    (fun _ _ _ _ h => h.2) fun _ _ h => h

end BlockState

/-! ### Frames -/

namespace Frame

open FrameState

variable {coded noise : Prop}

theorem tracks_readCoded {U : BlockState → Prop} (hU : ∀ b midSide, U b → U { b with midSide }) :
    Related V (Supplies V) (Tracks V c U BlockState.Agrees coded noise) (readCoded c) (readCoded c)
      fun _ _ => Tracks V c U Eq True False := by
  have rest : ∀ midSide : Bool, Related V (Supplies V) (Tracks V c U BlockState.Agrees coded noise) (do
      onBlock <| Parse.update fun b => { b with midSide }
      eachChannel fun _ => do
        let coded ← Parse.readBit
        Lane.onChannel <| Parse.update fun c => { c with coded }) (do
      onBlock <| Parse.update fun b => { b with midSide }
      eachChannel fun _ => do
        let coded ← Parse.readBit
        Lane.onChannel <| Parse.update fun c => { c with coded })
      fun _ _ => Tracks V c U Eq True False := by
    intro midSide
    refine .bind (R := fun _ _ => Tracks V c U Eq coded noise) ?_ fun _ _ => ?_
    · exact tracks_updateBlock (fun _ _ h => h midSide) fun _ h => hU _ _ h
    refine tracks_eachChannel (fun _ _ => BlockState.supplies_of_eq) fun place => ?_
    refine .andThen (Keeps.readBit fun _ _ h => h.channel.supplies) fun coded' => ?_
    have sound : Triple (Lane.Sound c) (Lane.Sound c)
        (Lane.onChannel <| Parse.update fun c => { c with coded := coded' })
        fun _ => Lane.Sound c :=
      Lane.triple_onChannel (I := Channel.Sound c) (Q := fun _ => Channel.Sound c)
        (.update fun _ h => { h with }) (fun _ h => h) (fun _ _ h => h) fun _ h => h
    refine Lane.tracks_of_sound (Lane.related_onChannel (J := Channel.Supplies V)
      (P := Channel.Tracks V coded noise) (Q := fun _ _ => Channel.Tracks V True False) ?_
      fun _ _ h => h.channel) sound sound
    exact .update fun _ _ h => ⟨h.supplies, fun _ => rfl, False.elim⟩
  refine .ite Iff.rfl (fun _ => ?_) fun _ => .andThen (.pure fun _ _ h => ⟨rfl, h⟩) rest
  exact .andThen (Keeps.readBit fun _ _ h => h.supplies fun _ _ h => .inr h.parts.1) rest

theorem tracks_readBlock (hs : s.Sound) :
    Related V (Supplies V) (Tracks V s.config (·.Sound s.config) (BlockState.Resuming V) coded noise)
      (readBlock s) (readBlock s) fun _ _ =>
        Tracks V s.config (·.Sound s.config) (BlockState.Resuming V) False False := by
  have ready : ∀ b : BlockState, b.Ready s.config → b.Sound s.config := fun _ h => h.toSound
  have sound : Triple (BlockState.Sound s.config) (BlockState.Sound s.config)
      (BlockState.read s.config) fun _ => BlockState.Ready s.config :=
    (BlockState.triple_read hs.config).mono (fun b h => ⟨h, Nat.le_add_left _ _⟩)
      (fun _ _ h => h.toReady) fun _ h => h
  refine .bind (R := fun _ _ => Tracks V s.config (BlockState.Ready s.config) BlockState.Agrees
    coded noise) (tracks_onBlock (BlockState.related_read_of_resuming _) sound) fun _ _ => ?_
  refine .bind (tracks_readCoded fun b midSide h => ?_) fun _ _ => ?_
  · exact { h with }
  have last : ∀ coded noise : Prop, Related V (Supplies V)
      (Tracks V s.config (BlockState.Ready s.config) Eq coded noise) (do
        FrameState.synthesize s.config
        onBlock <| Parse.update fun b => { b with position := b.position + b.length }) (do
        FrameState.synthesize s.config
        onBlock <| Parse.update fun b => { b with position := b.position + b.length })
        fun _ _ => Tracks V s.config (·.Sound s.config) (BlockState.Resuming V) False False := by
    intro coded noise
    refine .bind (tracks_synthesize hs.config) fun _ _ => tracks_updateBlock ?_ ?_
    · rintro b _ rfl
      exact .refl _
    · exact fun _ h => { h with }
  refine .bind (R := fun x y x' y' => PerChannel.Both (Channel.Tracks V True False)
      (Channel.Tracks V True False) x.channels y.channels ∧
    Tracks V s.config (BlockState.Ready s.config) Eq True False x' y')
    (.state fun _ _ h => ⟨h.channels, h⟩) fun x y => .of_fact (fun _ _ h => h.1) fun hboth => ?_
  rw [hboth.any_eq fun _ _ h => h.coded trivial]
  refine .pre (.ite Iff.rfl (fun _ => ?_) fun _ => last _ _) fun _ _ h => h.2
  exact .bind (tracks_readSpectra ready hs) fun _ _ => last _ _

theorem tracks_readBlocks (hs : s.Sound) : ∀ {coded noise : Prop} (limit : Nat), Related V (Supplies V)
    (Tracks V s.config (·.Sound s.config) (BlockState.Resuming V) coded noise) (readBlocks s limit)
    (readBlocks s limit) fun _ _ =>
      Tracks V s.config (·.Sound s.config) (BlockState.Resuming V) False False
  | _, _, 0 => .ofExcept (fun _ _ h => h.supplies fun _ _ h => h.supplies) fun _ _ _ => V.error_refl _
  | _, _, limit + 1 => by
    refine .bind (tracks_readBlock hs) fun _ _ => ?_
    refine .bind (R := fun x y x' y' => x.block.position = y.block.position ∧
      Tracks V s.config (·.Sound s.config) (BlockState.Resuming V) False False x' y')
      (.state fun _ _ h => ⟨h.block.position, h⟩) fun x y => .of_fact (fun _ _ h => h.1)
        fun hposition => ?_
    rw [hposition]
    refine .pre (.ite Iff.rfl (fun _ => tracks_readBlocks hs limit) fun _ => ?_) fun _ _ h => h.2
    exact .pure fun _ _ h => h

/-- A frame is read alike from both states, and as many values come of it. -/
theorem tracks_decode (hs : s.Sound) :
    Related V (Supplies V) (Tracks V s.config (·.Sound s.config)
        (fun b b' => b.Resumes b' ∧ b.Supplies V b') coded noise) (decode s) (decode s)
      fun values values' x y => values.size = values'.size ∧
        Tracks V s.config (·.Sound s.config) (fun b b' => b.Resumes b' ∧ b.Supplies V b') False False
          x y := by
  refine .bind (R := fun _ _ =>
      Tracks V s.config (·.Sound s.config) (BlockState.Resuming V) coded noise) ?_
    fun _ _ => .bind (tracks_readBlocks hs _) fun _ _ => ?_
  · refine tracks_updateBlock (fun b b' h => ⟨?_, ?_, rfl⟩) fun _ h => { h with }
    · exact { h.1 with }
    · exact h.2.imp_right fun h => { h with }
  refine .bind (R := fun x y x' y' => (x.Sound s.config ∧ y.Sound s.config) ∧
    Tracks V s.config (·.Sound s.config) (BlockState.Resuming V) False False x' y')
    (.state fun _ _ h => ⟨⟨h.first, h.second⟩, h⟩) fun x y => ?_
  refine .of_fact (fun _ _ h => h.1) fun ⟨hx, hy⟩ => ?_
  refine .bind (R := fun values values' x y => values.size = values'.size ∧
    Tracks V s.config (·.Sound s.config) (BlockState.Resuming V) False False x y)
    (.ofExcept (fun _ _ h => h.2.supplies fun _ _ h => h.supplies) fun _ _ h => ?_)
    fun values values' => .of_fact (fun _ _ h => h.1) fun hsize => ?_
  · exact (Alike.of_gives (gives_values hx) (gives_values hy)).mono fun _ _ hsizes =>
      ⟨hsizes.1.2.trans hsizes.2.2.symm, h.2⟩
  exact .bind (R := fun _ _ => Tracks V s.config (·.Sound s.config)
    (fun b b' => b.Resumes b' ∧ b.Supplies V b') False False)
    (.update fun x y h => h.2.shift fun _ _ h => ⟨h.resumes, h.supplies⟩) fun _ _ =>
      .pure fun _ _ h => ⟨hsize, h⟩

/-- What is a frame for one of two states is a frame of the same bits for the other, which has as many
values. -/
theorem follows_decode (hs : s.Sound) :
    Follows (Tracks .follow s.config (·.Sound s.config) BlockState.Resumes coded noise) (decode s)
      (decode s) fun values values' x y => values.size = values'.size ∧
        Tracks .follow s.config (·.Sound s.config) BlockState.Resumes False False x y :=
  (tracks_decode hs).mono (fun _ _ h => { h with block := ⟨h.block, .inl trivial⟩ })
    (fun _ _ _ _ h => ⟨h.1, { h.2 with block := h.2.block.1 }⟩) fun _ _ _ => trivial

end Frame

end Wma
