import Wma.Proofs.Frame.Scratch
import Wma.Proofs.Frame.Spectra
import Wma.Proofs.Parse.Follows

/-!
# What a channel needs of what came before

A channel is read alike from two states if it is coded in both or in neither, and if the same bands
hold noise (`Channel.Tracks`). It also needs an envelope. Where only the first of two runs matters, an
envelope too many does no harm to the second; otherwise both must have one, or neither
(`View.Implies`). So two sound lanes whose channels track each other are read alike, off the same bits
(`Lane.tracks_readEnvelope`, `Lane.tracks_readLevels`, …). The values are others.
-/

namespace Wma

open Parse

variable {V : View} {s : Stream} {c : Config} {bits : Nat} {bands : BlockBands}

/-! ### What is in common -/

/-- Values of the same layout, the first of which are as in `R` and the second as in `S`. -/
inductive PerChannel.Both {α : Type} (R S : α → α → Prop) : PerChannel α → PerChannel α → Prop
  | mono {a b : α} (h : R a b) : Both R S (.mono a) (.mono b)
  | stereo {a b a' b' : α} (h : R a b) (h' : S a' b') : Both R S (.stereo a a') (.stereo b b')

/-- Where `c` has an envelope, `d` has one that may be used in its place. -/
def Channel.Supplies (V : View) (c d : Channel) : Prop :=
  V.Implies c.hasEnvelope d.hasEnvelope

/-- What is asked of two channels that are read alike. As far as that is known by now, they are coded
or not alike, and the same of their bands hold noise. -/
structure Channel.Tracks (V : View) (coded noise : Prop) (c d : Channel) : Prop where
  supplies : c.Supplies V d
  coded : coded → c.coded = d.coded
  noiseBands : noise → c.coded = true → c.noiseBands = d.noiseBands

/-- Sound lanes whose channels are related. -/
structure Lane.Tracks (c : Config) (R : Channel → Channel → Prop) (l m : Lane) : Prop where
  first : l.Sound c
  second : m.Sound c
  channel : R l.channel m.channel

/-- What two lanes still have in common where a step has failed. -/
def Lane.Supplies (V : View) (l m : Lane) : Prop :=
  l.channel.Supplies V m.channel

namespace Channel.Tracks

variable {coded coded' noise noise' : Prop} {c d : Channel}

theorem mono (h : c.Tracks V coded noise d) (hcoded : coded' → coded) (hnoise : noise' → noise) :
    c.Tracks V coded' noise' d :=
  ⟨h.supplies, h.coded ∘ hcoded, h.noiseBands ∘ hnoise⟩

/-- A channel that may be read for the first may be read for the second. -/
theorem supplied (h : c.Tracks V True noise d) :
    V.Implies (!c.coded || c.hasEnvelope) (!d.coded || d.hasEnvelope) := by
  rw [← h.coded trivial]
  exact h.supplies.or _

end Channel.Tracks

namespace PerChannel.Both

variable {α : Type} {R S R' S' : α → α → Prop} {x y : PerChannel α} {a b : α}

theorem imp (h : Both R S x y) (hR : ∀ a b, R a b → R' a b) (hS : ∀ a b, S a b → S' a b) :
    Both R' S' x y := by
  cases h with
  | mono h => exact .mono (hR _ _ h)
  | stereo h h' => exact .stereo (hR _ _ h) (hS _ _ h')

theorem get_first (h : Both R S x y) : R (x.get .first) (y.get .first) := by
  cases h <;> assumption

theorem get_second (h : Both R S x y) (hx : x.layout = .stereo) :
    S (x.get .second) (y.get .second) := by
  cases h with
  | mono => cases hx
  | stereo _ h' => exact h'

theorem set_first (h : Both R S x y) (hab : R' a b) :
    Both R' S (x.set .first a) (y.set .first b) := by
  cases h with
  | mono => exact .mono hab
  | stereo _ h' => exact .stereo hab h'

/-- A single channel has no second value. -/
theorem of_single (h : Both R S x y) (hx : x.layout = .mono) : Both R S' x y := by
  cases h with
  | mono h => exact .mono h
  | stereo => cases hx

theorem set_second (h : Both R S x y) (hx : x.layout = .stereo) (hab : S' a b) :
    Both R S' (x.set .second a) (y.set .second b) := by
  cases h with
  | mono => cases hx
  | stereo h _ => exact .stereo h hab

theorem set (h : Both R R x y) (place : ChannelPlace) (hab : R a b) :
    Both R R (x.set place a) (y.set place b) := by
  cases h <;> cases place <;> constructor <;> assumption

theorem get (h : Both R R x y) (place : ChannelPlace) : R (x.get place) (y.get place) := by
  cases h <;> cases place <;> assumption

theorem of_get (hxy : x.layout = y.layout) (h : ∀ place, R (x.get place) (y.get place)) :
    Both R R x y := by
  cases x <;> cases y <;> cases hxy
  · exact .mono (h .first)
  · exact .stereo (h .first) (h .second)

theorem implies_all (h : Both R R x y) {f g : α → Bool} (hR : ∀ a b, R a b → V.Implies (f a) (g b)) :
    V.Implies (x.toList.all f) (y.toList.all g) := by
  have last : V.Implies true true := .inl rfl
  cases h with
  | mono h => exact (hR _ _ h).and last
  | stereo h h' => exact (hR _ _ h).and ((hR _ _ h').and last)

theorem any_eq (h : Both R R x y) {f : α → Bool} (hR : ∀ a b, R a b → f a = f b) :
    x.toList.any f = y.toList.any f := by
  cases h with
  | mono h => simp [toList, hR _ _ h]
  | stereo h h' => simp [toList, hR _ _ h, hR _ _ h']

end PerChannel.Both

theorem PerChannel.places_eq {α : Type} {x : PerChannel α} {l : ChannelLayout} (h : x.layout = l) :
    x.places = (replicate () l).places := by
  subst h
  cases x <;> rfl

/-! ### Steps on a channel -/

namespace NoiseBands

theorem related_readFlags (widths : List Nat) :
    Related V Eq (fun _ _ => True) (readFlags widths) (readFlags widths) fun _ _ => Eq :=
  .bind (R := fun _ _ => Eq) (.setState fun _ _ _ => rfl) fun _ _ =>
    Related.post (keeps_readFlagsOf _) fun _ _ _ _ h => h.2

end NoiseBands

namespace Levels

/-- Buffers of one size hold the same once levels have been read over them. -/
theorem related_read (book : RunLevelBook) (levelBits runBits count : Nat) :
    Related V Eq (fun a b => a.size = b.size) (read book levelBits runBits count)
      (read book levelBits runBits count) fun _ _ => Eq := by
  refine .bind (R := fun _ _ => Eq) (.update fun a b h => by rw [h]) fun _ _ => ?_
  refine .andThen (keeps_readFrom book levelBits runBits count count 0) fun position => ?_
  exact Related.post (Keeps.require fun _ _ h => h) fun _ _ _ _ h => h.2

end Levels

namespace Lane

variable {R R' : Channel → Channel → Prop} {noise : Prop}

/-- What is known of the channels, where each of the runs keeps its lane sound. -/
theorem tracks_of_sound {J : Lane → Lane → Prop} {p q : Parse Lane Unit}
    (h : Related V J (Tracks c R) p q fun _ _ l m => R' l.channel m.channel)
    (hp : Triple (Sound c) (Sound c) p fun _ => Sound c)
    (hq : Triple (Sound c) (Sound c) q fun _ => Sound c) :
    Related V J (Tracks c R) p q fun _ _ => Tracks c R' :=
  (h.keep hp hq fun _ _ h => ⟨h.first, h.second⟩).post fun _ _ _ _ h => ⟨h.1, h.2.1, h.2.2⟩

theorem related_onChannel {α : Type} {I : Lane → Lane → Prop} {J P : Channel → Channel → Prop}
    {p q : Parse Channel α} {Q : α → α → Channel → Channel → Prop} (h : Related V J P p q Q)
    (hP : ∀ l m, I l m → P l.channel m.channel) :
    Related V (fun l m => J l.channel m.channel) I (onChannel p) (onChannel q)
      fun a b l m => Q a b l.channel m.channel :=
  h.focus hP (fun _ _ _ _ _ _ _ h => h) fun _ _ _ _ _ h => h

theorem tracks_whenCoded {J : Lane → Lane → Prop} {p : Parse Lane Unit}
    (hcoded : ∀ c d, R c d → c.coded = d.coded) (hskip : ∀ c d, R c d → c.coded = false → R' c d)
    (h : Related V J (Tracks c fun c d => R c d ∧ c.coded = true) p p fun _ _ => Tracks c R') :
    Related V J (Tracks c R) (whenCoded p) (whenCoded p) fun _ _ => Tracks c R' := by
  refine .bind (R := fun l m l' m' => (l.channel.coded = m.channel.coded ∧ l = l') ∧
      Tracks c R l' m') (.state fun l m h => ⟨⟨hcoded _ _ h.channel, rfl⟩, h⟩) fun l m => ?_
  refine .of_fact (fun _ _ h => h.1.1) fun hsame => .ite (by rw [hsame]) (fun hc => ?_) fun hc => ?_
  · refine h.pre ?_
    rintro l' m' ⟨⟨-, rfl⟩, h⟩
    exact ⟨h.first, h.second, h.channel, hc⟩
  · refine .pure ?_
    rintro l' m' ⟨⟨-, rfl⟩, h⟩
    exact ⟨h.first, h.second, hskip _ _ h.channel (by simpa using hc)⟩

/-- A step of which only the outcome matters, and which leaves alone whether there is an envelope. -/
theorem tracks_updateM {f : Lane → Except Error Lane} (hf : ∀ l, l.Sound c → Gives (f l) (Sound c))
    (hkeep : ∀ l l', f l = .ok l' → l'.channel.hasEnvelope = l.channel.hasEnvelope)
    (hR : ∀ c d, R c d → c.Supplies V d) :
    Related V (Supplies V) (Tracks c R) (Parse.updateM f) (Parse.updateM f)
      fun _ _ => Tracks c (Channel.Tracks V False False) := by
  refine .updateM (fun _ _ h => hR _ _ h.channel) fun l m h => ?_
  refine (Alike.of_gives (hf l h.first) (hf m h.second)).mono ?_
  rintro l' m' ⟨⟨hl, soundl⟩, hm, soundm⟩
  refine ⟨soundl, soundm, ?_, False.elim, False.elim⟩
  unfold Channel.Supplies
  rw [hkeep l l' hl, hkeep m m' hm]
  exact hR _ _ h.channel

theorem tracks_readNoiseFlags (hb : bands.highBands.length ≤ NoiseBands.most) :
    Related V (Supplies V) (Tracks c (Channel.Tracks V True False)) (readNoiseFlags bands)
      (readNoiseFlags bands) fun _ _ => Tracks c (Channel.Tracks V True True) := by
  refine tracks_of_sound ?_ (triple_readNoiseFlags hb) (triple_readNoiseFlags hb)
  refine related_onChannel (J := Channel.Supplies V) (Q := fun _ _ => Channel.Tracks V True True) ?_
    fun _ _ h => h.channel
  refine (NoiseBands.related_readFlags _).focus (fun _ _ _ => trivial) ?_ fun _ _ _ _ h _ => h.supplies
  rintro _ _ c d n _ h rfl
  exact ⟨h.supplies, h.coded, fun _ _ => rfl⟩

theorem tracks_readNoiseGains (hs : s.Sound) :
    Related V (Supplies V) (Tracks s.config fun c d => Channel.Tracks V True True c d ∧ c.coded = true)
      (readNoiseGains s) (readNoiseGains s)
      fun _ _ => Tracks s.config (Channel.Tracks V True True) := by
  refine tracks_of_sound ?_ (triple_readNoiseGains hs) (triple_readNoiseGains hs)
  refine related_onChannel (J := Channel.Supplies V)
    (P := fun c d => Channel.Tracks V True True c d ∧ c.coded = true)
    (Q := fun _ _ => Channel.Tracks V True True) ?_ fun _ _ h => h.channel
  refine Related.focus (NoiseBands.keeps_readGains _) (fun _ _ h => h.1.noiseBands trivial h.2) ?_
    fun _ _ _ _ h _ => h.1.supplies
  rintro _ _ c d n _ h ⟨-, rfl⟩
  exact ⟨h.1.supplies, h.1.coded, fun _ _ => rfl⟩

/-- The ratios of an envelope may be others. -/
theorem tracks_readRatios (hs : s.Sound) (hb : bands ∈ s.layout.blocks)
    (hR : ∀ c d, R c d → c.Supplies V d) :
    Related V (Supplies V) (Tracks s.config R) (readRatios s bands) (readRatios s bands)
      fun _ _ l m => R l.channel m.channel := by
  have hJ : ∀ l m, Tracks s.config R l m → l.Supplies V m := fun _ _ h => hR _ _ h.channel
  refine .ite Iff.rfl (fun _ => ?_) fun hpairs => ?_
  · exact Related.post (SteppedEnvelope.keeps_read hJ _ _ _ _) fun _ _ _ _ h => h.2.channel
  refine .andThen (LinePairs.keeps_read hJ) fun pairs => ?_
  refine .bind (R := fun l m l' m' => WorkBuffers.Sized s.config l.work m.work ∧
    Tracks s.config R l' m') (.state fun l m h => ⟨⟨h.first.work, h.second.work⟩, h⟩) fun l m => ?_
  refine .of_fact (fun _ _ h => h.1) fun hsized => ?_
  have ratios := (Stream.hides_sized (V := V) hs.layout).ratios (by simpa using hpairs) bands hb
    pairs _ _ hsized
  refine .bind (R := fun _ _ l m => R l.channel m.channel)
    (.ofExcept (fun _ _ h => hJ _ _ h.2) fun l m h => ratios.mono fun _ _ _ => h.2.channel)
    fun x y => ?_
  exact .bind (R := fun _ _ l m => R l.channel m.channel) (.update fun _ _ h => h) fun _ _ =>
    .pure fun _ _ h => h

theorem tracks_readEnvelope (hs : s.Sound) {sizeIndex : Nat} (hi : sizeIndex < 32)
    (hb : bands ∈ s.layout.blocks) (hlength : bands.length ≤ s.config.frameLength) :
    Related V (Supplies V) (Tracks s.config (Channel.Tracks V True noise))
      (readEnvelope s sizeIndex bands) (readEnvelope s sizeIndex bands)
      fun _ _ => Tracks s.config (Channel.Tracks V True noise) := by
  have sound := triple_readEnvelope hs hi hlength
  refine tracks_of_sound ?_ sound sound
  refine .bind (R := fun l m l' m' => (l.Sound s.config ∧ m.Sound s.config) ∧
    Tracks s.config (Channel.Tracks V True noise) l' m') (.state fun _ _ h => ⟨⟨h.first, h.second⟩, h⟩)
    fun l m => .of_fact (fun _ _ h => h.1) fun ⟨hl, hm⟩ => ?_
  refine .bind (R := fun _ _ => Tracks s.config (Channel.Tracks V True noise))
    (.ofExcept (fun _ _ h => h.2.channel.supplies) fun _ _ h => ?_) fun _ _ => ?_
  · rw [Buffer.room, Buffer.room, hl.channel.envelope_size, hm.channel.envelope_size]
    exact .of_eq V.error_refl (fun _ => h.2) rfl
  refine .bind (tracks_readRatios hs hb fun _ _ h => h.supplies) fun ratios ratios' => ?_
  refine related_onChannel (J := Channel.Supplies V) (P := Channel.Tracks V True noise)
    (Q := fun _ _ => Channel.Tracks V True noise) ?_ fun _ _ h => h
  exact .update fun c d h => ⟨.inl rfl, h.coded, h.noiseBands⟩

/-- The number of levels depends on the noise bands only if there are any. -/
theorem levelCount_eq {n n' : NoiseBands} (h : s.config.noiseCoding = true → n = n') :
    levelCount s bands n = levelCount s bands n' := by
  unfold levelCount
  cases hnoise : s.config.noiseCoding with
  | false => rfl
  | true => rw [h hnoise]

theorem tracks_readLevels (hs : s.Sound) (hb : bands.Sound s.config bits)
    (hlength : bands.length ≤ s.config.frameLength) {book : RunLevelBook} (hbook : book.Sound)
    {levelBits : Nat} (hbits : levelBits ≤ 13) :
    Related V (Supplies V) (Tracks s.config fun c d =>
        Channel.Tracks V True (s.config.noiseCoding = true) c d ∧ c.coded = true)
      (readLevels s bands book levelBits) (readLevels s bands book levelBits)
      fun _ _ => Tracks s.config (Channel.Tracks V True False) := by
  have sound := triple_readLevels hs hb hlength hbook hbits
  refine tracks_of_sound ?_ sound sound
  refine related_onChannel (J := Channel.Supplies V)
    (P := fun c d => (c.Sound s.config ∧ d.Sound s.config) ∧
      Channel.Tracks V True (s.config.noiseCoding = true) c d ∧ c.coded = true)
    (Q := fun _ _ => Channel.Tracks V True False) ?_
    fun _ _ h => ⟨⟨h.first.channel, h.second.channel⟩, h.channel⟩
  have tracks : ∀ {c d : Channel},
      Channel.Tracks V True (s.config.noiseCoding = true) c d ∧ c.coded = true →
      Channel.Tracks V True False c d := fun h => h.1.mono id False.elim
  refine .bind (R := fun c d c' d' => (s.config.noiseCoding = true → c.noiseBands = d.noiseBands) ∧
      (c'.Sound s.config ∧ d'.Sound s.config) ∧ Channel.Tracks V True False c' d')
    (.state fun c d h => ⟨fun hn => h.2.1.noiseBands hn h.2.2, h.1, tracks h.2⟩) fun c d => ?_
  refine .of_fact (fun _ _ h => h.1) fun hnoise => ?_
  rw [levelCount_eq hnoise]
  refine .pre (P := fun c d => (c.Sound s.config ∧ d.Sound s.config) ∧
    Channel.Tracks V True False c d) ?_ fun _ _ h => h.2
  refine .andThen (Keeps.ofExcept (fun _ _ h => h.2.supplies) _) fun count => ?_
  refine .bind (R := fun c d c' d' => c.levels.size = d.levels.size ∧
    (c'.Sound s.config ∧ d'.Sound s.config) ∧ Channel.Tracks V True False c' d')
    (.state fun c d h => ⟨h.1.1.levels.size.trans h.1.2.levels.size.symm, h⟩) fun c d => ?_
  refine .of_fact (fun _ _ h => h.1) fun hsize => ?_
  refine .bind (R := fun _ _ c d => (c.Sound s.config ∧ d.Sound s.config) ∧
    Channel.Tracks V True False c d) (.ofExcept (fun _ _ h => h.2.2.supplies) fun _ _ h => ?_)
    fun _ _ => ?_
  · rw [Buffer.room, Buffer.room, hsize]
    exact .of_eq V.error_refl (fun _ => h.2) rfl
  refine (Levels.related_read book levelBits _ count).focus (fun c d h => ?_)
    (fun _ _ c d _ _ h _ => ⟨h.2.supplies, h.2.coded, False.elim⟩) fun _ _ _ _ h _ => h.2.supplies
  rw [(h.1.1.levels.extract hlength).size, (h.1.2.levels.extract hlength).size]

theorem hasEnvelope_of_dequantize {scaling : Scaling} {l l' : Lane} (h : (do
    let c := l.channel
    let (spectrum, noise) ←
      scaling.dequantize c.levels c.envelope c.envelopeSize c.noiseBands l.noise c.spectrum
    return { l with channel := { c with spectrum }, noise : Lane }) = .ok l') :
    l'.channel.hasEnvelope = l.channel.hasEnvelope := by
  obtain ⟨x, -, h⟩ := ok_of_bind h
  cases h
  rfl

theorem hasEnvelope_of_synthesize {b : BlockState} {frameLength : Nat} {place : ChannelPlace}
    {l l' : Lane} (h : l.synthesize frameLength b place = .ok l') :
    l'.channel.hasEnvelope = l.channel.hasEnvelope := by
  obtain ⟨work, -, h⟩ := ok_of_bind h
  obtain ⟨start, -, h⟩ := ok_of_bind h
  obtain ⟨overlap, -, h⟩ := ok_of_bind h
  cases h
  rfl

end Lane

end Wma
