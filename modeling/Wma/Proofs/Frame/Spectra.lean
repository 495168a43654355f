import Wma.Frame.Spectra
import Wma.Proofs.Code.BuiltIn
import Wma.Proofs.Envelope.Stepped
import Wma.Proofs.Frame.Sound

/-!
# Reading spectra keeps the invariant

Each kind of data of a block is read lane by lane, and each step keeps the lane sound. The block size
of the block has a band layout, so `FrameState.readSpectra` fails for damage only. It reads first,
which is `FrameState.readData`, and dequantizes then (`FrameState.readSpectra_eq`).
-/

namespace Wma

/-- A stream that was prepared from a sound configuration. -/
structure Stream.Sound (s : Stream) : Prop where
  config : s.config.Sound
  layout : s.layout = .ofConfig s.config
  books : s.books.Sound

theorem Stream.of_ofConfig {c : Config} {s : Stream} (h : ofConfig c = .ok s) :
    ∃ books, Books.builtIn = .ok books ∧ s = ⟨c, .ofConfig c, books⟩ := by
  obtain ⟨books, hbooks, h⟩ := ok_of_bind h
  obtain ⟨-, -, h⟩ := ok_of_bind h
  cases h
  exact ⟨books, hbooks, rfl⟩

theorem Stream.sound_of_ofConfig {c : Config} {s : Stream} (hc : c.Sound) (h : ofConfig c = .ok s) :
    s.Sound ∧ s.config = c := by
  obtain ⟨books, hbooks, rfl⟩ := of_ofConfig h
  exact ⟨⟨hc, rfl, Books.sound_of_builtIn hbooks⟩, rfl⟩

theorem checkBlocks_ok {c : Config} (hc : c.Sound) :
    (List.range c.sizeCount).forM (fun index => checkBlock (c.frameBits - index)) = .ok () := by
  have each : ∀ l : List Nat, (∀ k ∈ l, k < c.sizeCount) →
      l.forM (fun index => checkBlock (c.frameBits - index)) = .ok () := by
    intro l
    induction l with
    | nil => exact fun _ => rfl
    | cons k l ih =>
      intro hl
      have block : c.IsBlockBits (c.frameBits - k) := ⟨k, hl k (by simp), rfl⟩
      have check : checkBlock (c.frameBits - k) = .ok () :=
        if_pos ⟨block.minBlockBits_le hc, block.le_maxBlockBits hc⟩
      show (do
        checkBlock (c.frameBits - k)
        l.forM fun index => checkBlock (c.frameBits - index)) = _
      rw [check]
      exact ih fun k hk => hl k (by simp [hk])
  exact each _ fun k hk => List.mem_range.mp hk

/-- There is a transform for every block size of a sound configuration. -/
theorem Stream.exists_ofConfig {c : Config} (hc : c.Sound) : ∃ s, ofConfig c = .ok s := by
  obtain ⟨books, hbooks⟩ := Books.exists_builtIn
  refine ⟨⟨c, .ofConfig c, books⟩, ?_⟩
  unfold ofConfig
  rw [hbooks]
  show (do
    (List.range c.sizeCount).forM fun index => checkBlock (c.frameBits - index)
    pure (⟨c, .ofConfig c, books⟩ : Stream)) = _
  rw [checkBlocks_ok hc]
  rfl

/-- The bands of a block of `2 ^ bits` coefficients, and the index of its size. -/
structure Stream.BandsOf (s : Stream) (bits index : Nat) (bands : BlockBands) : Prop where
  index_eq : difference s.config.frameBits bits = .ok index
  index_lt : index < 32
  bits_le : bits ≤ maxBlockBits
  layout : s.layout.blocks[index]? = some bands
  sound : bands.Sound s.config bits
  length_le : bands.length ≤ s.config.frameLength
  high_le : bands.highBands.length ≤ NoiseBands.most

open Parse

variable {s : Stream} {bits : Nat} {bands : BlockBands}

/-- Blocks of any size that a stream has have bands. -/
theorem Stream.Sound.exists_bands (hs : s.Sound) (h : s.config.IsBlockBits bits) :
    ∃ index bands, s.BandsOf bits index bands := by
  obtain ⟨k, hk, rfl⟩ := h
  have sizes := hs.config.sizeCount_le
  have frame := hs.config.frameBits_le
  have bands := BandLayout.sound_block hs.config hk
  have most : s.config.frameLength ≤ NoiseBands.most := by
    have := hs.config.frameLength_eq_or
    unfold NoiseBands.most
    omega
  unfold maxBlockBits minBlockBits at *
  refine ⟨k, BandLayout.block s.config k, ?_, by omega, ?_, ?_, bands, ?_, ?_⟩
  · unfold difference
    rw [if_pos (Nat.sub_le _ _)]
    congr 1
    omega
  · exact Nat.le_trans (Nat.sub_le _ _) frame
  · rw [hs.layout]
    exact BandLayout.blocks_ofConfig hk
  · rw [bands.length_eq]
    exact Nat.pow_le_pow_right (by decide) (Nat.sub_le _ _)
  · exact Nat.le_trans bands.high_count most

theorem Stream.Sound.coefsStart_eq (hs : s.Sound) :
    s.layout.coefsStart = BandLayout.firstCoef s.config.version := by
  rw [hs.layout]; rfl

namespace Lane

theorem triple_readNoiseFlags {c : Config} (hb : bands.highBands.length ≤ NoiseBands.most) :
    Triple (Lane.Sound c) (Lane.Sound c) (readNoiseFlags bands) fun _ => Lane.Sound c := by
  refine triple_onChannel ((NoiseBands.triple_readFlags hb).focus (J := Channel.Sound c)
    (I := Channel.Sound c) (Q := fun _ => Channel.Sound c) (fun _ h => h.noiseBands) ?_ ?_)
    (fun _ h => h) (fun _ _ h => h) fun _ h => h
  · exact fun _ _ _ h hn => { h with noiseBands := hn }
  · exact fun _ _ h hn => { h with noiseBands := hn }

theorem triple_readNoiseGains (hs : s.Sound) :
    Triple (Lane.Sound s.config) (Lane.Sound s.config) (readNoiseGains s)
      fun _ => Lane.Sound s.config := by
  refine triple_onChannel ((NoiseBands.triple_readGains hs.books.noiseGain).focus
    (J := Channel.Sound s.config) (I := Channel.Sound s.config)
    (Q := fun _ => Channel.Sound s.config) (fun _ h => h.noiseBands) ?_ ?_)
    (fun _ h => h) (fun _ _ h => h) fun _ h => h
  · exact fun _ _ _ h hn => { h with noiseBands := hn }
  · exact fun _ _ h hn => { h with noiseBands := hn }

/-- The ratios of an envelope fill the block. -/
theorem triple_readRatios (hs : s.Sound) (hb : bands.length ≤ s.config.frameLength) :
    Triple (Lane.Sound s.config) (Lane.Sound s.config) (readRatios s bands) fun ratios l =>
      (ratios.size = bands.length ∧ ∀ e ∈ ratios, e.toNat < 2 ^ 31) ∧ l.Sound s.config := by
  refine .ite (fun _ => ?_) fun hstep => ?_
  · exact SteppedEnvelope.triple_read hs.books.envelope _ _ _
  have cosines : s.layout.lineCosines.size = s.config.frameLength := by
    rw [hs.layout]; exact BandLayout.size_lineCosines (by simpa using hstep)
  have unit : ∀ w ∈ s.layout.lineCosines, LinePairs.Unit28 w := by
    rw [hs.layout]; exact BandLayout.unit_lineCosines
  refine .bind LinePairs.triple_read fun pairs => .of_fact (fun _ h => h.1) fun hpairs => ?_
  refine .bind (R := fun l l' => l.Sound s.config ∧ l'.Sound s.config)
    (.state fun _ h => ⟨h.2, h.2⟩) fun l => .of_fact (fun _ h => h.1) fun hl => ?_
  have curve := hl.work.curve
  refine .bind (R := fun x l => ((x.1.size = bands.length ∧ ∀ e ∈ x.1, e.toNat < 2 ^ 31) ∧
    x.2.size = s.config.frameLength) ∧ l.Sound s.config) (.ofExcept fun l' hl' => ?_) fun x => ?_
  · refine (LinePairs.Gives.ratios unit hpairs.2 hpairs.1 (by omega) (by omega)).mono fun x hx => ?_
    exact ⟨⟨hx.1, hx.2.trans curve⟩, hl'.2⟩
  refine .of_fact (fun _ h => h.1) fun hx => ?_
  refine .bind (R := fun _ => Lane.Sound s.config) (.update fun l h => ?_) fun _ =>
    .pure fun _ h => ⟨hx.1, h⟩
  exact { h.2 with work := { h.2.work with curve := hx.2 } }

theorem triple_readEnvelope (hs : s.Sound) {sizeIndex : Nat} (hi : sizeIndex < 32)
    (hb : bands.length ≤ s.config.frameLength) :
    Triple (Lane.Sound s.config) (Lane.Sound s.config) (readEnvelope s sizeIndex bands)
      fun _ => Lane.Sound s.config := by
  refine .bind (R := fun l l' => l.Sound s.config ∧ l'.Sound s.config)
    (.state fun _ h => ⟨h, h⟩) fun l => .of_fact (fun _ h => h.1) fun hl => ?_
  have room := hl.channel.envelope_size
  refine .bind (R := fun _ => Lane.Sound s.config)
    (.ofExcept fun _ h => .room (by omega) h.2) fun _ => ?_
  refine .bind (triple_readRatios hs hb) fun ratios => .of_fact (fun _ h => h.1) fun hratios => ?_
  refine (triple_onChannel (I := Channel.Sound s.config) (.update fun ch h => ?_) (fun _ h => h)
    (Q := fun _ => Channel.Sound s.config) (fun _ _ h => h) fun _ h => h).pre fun _ h => h.2
  exact { h with
    envelope_size := by
      rw [Buffer.size_overlay (by rw [hratios.1, h.envelope_size]; exact hb), h.envelope_size]
    envelope := fun e he => (Buffer.mem_overlay he).elim (hratios.2 e) (h.envelope e)
    envelopeSize_lt := hi }

/-- There are at least as many coded coefficients as noise stands for. -/
theorem gives_levelCount (hs : s.Sound) (hb : bands.Sound s.config bits) (noise : NoiseBands) :
    Gives (levelCount s bands noise) fun _ => True := by
  have coded := hb.start_le_end
  rw [← hs.coefsStart_eq] at coded
  refine .bind (.difference (Q := fun n => n = bands.coefsEnd - s.layout.coefsStart) coded rfl)
    fun n hn => .ite (fun hnoise => .difference ?_ trivial) fun _ => .pure trivial
  have most := hb.high_le hnoise
  rw [← hs.coefsStart_eq] at most
  have := noise.substituted_le bands.highBands
  omega

theorem triple_readLevels (hs : s.Sound) (hb : bands.Sound s.config bits)
    (hlength : bands.length ≤ s.config.frameLength) {book : RunLevelBook} (hbook : book.Sound)
    {levelBits : Nat} (hbits : levelBits ≤ 13) :
    Triple (Lane.Sound s.config) (Lane.Sound s.config) (readLevels s bands book levelBits)
      fun _ => Lane.Sound s.config := by
  have positive : 0 < bands.length := by rw [hb.length_eq]; exact Nat.two_pow_pos bits
  refine triple_onChannel (J := Channel.Sound s.config) (I := Channel.Sound s.config)
    (Q := fun _ => Channel.Sound s.config) ?_ (fun _ h => h) (fun _ _ h => h) fun _ h => h
  refine .bind (R := fun _ => Channel.Sound s.config) (.state fun _ h => h) fun ch => ?_
  refine .bind (R := fun _ => Channel.Sound s.config)
    (.ofExcept fun _ h => (gives_levelCount hs hb _).mono fun _ _ => h) fun count => ?_
  refine .bind (R := fun ch ch' => ch.Sound s.config ∧ ch'.Sound s.config)
    (.state fun _ h => ⟨h, h⟩) fun ch => .of_fact (fun _ h => h.1) fun hch => ?_
  refine .bind (R := fun _ => Channel.Sound s.config)
    (.ofExcept fun _ h => .room (by rw [hch.levels.size]; exact hlength) h.2) fun _ => ?_
  refine (Levels.triple_read hbook hbits _ count positive).focus
    (fun _ h => h.levels.extract hlength) ?_ ?_
  · exact fun _ _ _ h hl => { h with levels := h.levels.overlay hl hlength }
  · exact fun _ _ h hl => { h with levels := h.levels.overlay hl hlength }

theorem gives_dequantize {c : Config} {scaling : Scaling} (hscaling : scaling.Sound c bits)
    (hlength : scaling.bands.length ≤ c.frameLength) {l : Lane} (hl : l.Sound c) :
    Gives (do
      let ch := l.channel
      let (spectrum, noise) ←
        scaling.dequantize ch.levels ch.envelope ch.envelopeSize ch.noiseBands l.noise ch.spectrum
      return { l with channel := { ch with spectrum }, noise : Lane }) (Lane.Sound c) := by
  have hch := hl.channel
  have size := hch.envelopeSize_lt
  refine (Scaling.Gives.dequantize hscaling hch.levels l.channel.envelope (by omega) hch.noiseBands
    hl.noise.sound (by rw [hch.spectrum]; exact hlength)).bind fun x hx => .pure ?_
  obtain ⟨⟨plan, sources, hx⟩, hnoise⟩ := hx
  have table : x.2.table = l.noise.table := by
    rw [hnoise]
    split <;> rfl
  exact { hl with
    channel := { hch with spectrum := hx.size.trans hch.spectrum }
    noise := table.trans hl.noise }

theorem triple_dequantize {c : Config} {scaling : Scaling} (hscaling : scaling.Sound c bits)
    (hlength : scaling.bands.length ≤ c.frameLength) :
    Triple (Lane.Sound c) (Lane.Sound c) (dequantize scaling) fun _ => Lane.Sound c :=
  .updateM fun _ hl => gives_dequantize hscaling hlength hl

end Lane

namespace FrameState

/-- Reads the data of the spectra of a block, and gives what their dequantization goes by. -/
def readData (s : Stream) : Parse FrameState Scaling := do
  let blockBits := (← Parse.state).block.bits
  let sizeIndex ← Parse.ofExcept (difference s.config.frameBits blockBits)
  let some bands := s.layout.blocks[sizeIndex]? | Parse.corrupt (.noBandLayout sizeIndex)
  let gain ← BlockGain.read
  if s.config.noiseCoding then
    eachChannel fun _ => Lane.whenCoded (Lane.readNoiseFlags bands)
    eachChannel fun _ => Lane.whenCoded (Lane.readNoiseGains s)
  readEnvelopes s sizeIndex bands
  readLevels s bands gain
  return scaling s blockBits sizeIndex bands gain

theorem readSpectra_eq (s : Stream) : readSpectra s = (do
    let scaling ← readData s
    eachChannel fun _ => Lane.whenCoded (Lane.dequantize scaling)
    Parse.updateM (undoMidSide scaling.bands.length)) := by
  unfold readSpectra readData
  simp only [bind_assoc]
  refine congrArg _ (funext fun st => congrArg _ (funext fun sizeIndex => ?_))
  cases s.layout.blocks[sizeIndex]? with
  | none => rfl
  | some bands =>
    simp only [bind_assoc]
    refine congrArg _ (funext fun gain => ?_)
    split <;> simp only [bind_assoc, pure_bind] <;> rfl

variable {B : BlockState → Prop} (hB : ∀ b, B b → b.Sound s.config)

include hB

theorem triple_eachCoded {p : ChannelPlace → Parse Lane Unit}
    (hp : ∀ place, Triple (Lane.Sound s.config) (Lane.Sound s.config) (p place)
      fun _ => Lane.Sound s.config) :
    Triple (Sound s.config) (SoundAt s.config B) (eachChannel fun place => Lane.whenCoded (p place))
      fun _ => SoundAt s.config B :=
  triple_eachChannel hB fun place => Lane.triple_whenCoded (hp place)

theorem triple_readEnvelopes (hs : s.Sound) {sizeIndex : Nat} (hi : sizeIndex < 32)
    (hb : bands.length ≤ s.config.frameLength) :
    Triple (Sound s.config) (SoundAt s.config B) (readEnvelopes s sizeIndex bands)
      fun _ => SoundAt s.config B := by
  have sound : ∀ st, SoundAt s.config B st → Sound s.config st := fun _ h => h.mono hB
  refine .bind (R := fun _ => SoundAt s.config B) ?_ fun bit => ?_
  · refine .bind (R := fun _ => SoundAt s.config B) (.state fun _ h => h) fun st => ?_
    exact .ite (fun _ => .pure fun _ h => h) fun _ => .readBit sound fun _ _ h => h
  have check : Triple (Sound s.config) (SoundAt s.config B) (do
      let channels := (← Parse.state).channels.toList
      Parse.require (channels.all fun c => !c.coded || c.hasEnvelope) .noEnvelope)
      fun _ => SoundAt s.config B :=
    .bind (R := fun _ => SoundAt s.config B) (.state fun _ h => h) fun st =>
      .require trivial sound fun _ _ h => h
  refine .ite (fun _ => ?_) fun _ => check
  exact .bind (triple_eachCoded hB fun _ => Lane.triple_readEnvelope hs hi hb) fun _ => check

omit hB in
theorem gives_levelBook (hs : s.Sound) (midSide : Bool) (place : ChannelPlace) :
    Gives (levelBook s midSide place) RunLevelBook.Sound := by
  have size := hs.books.levels_size
  have rate := hs.config.rateClass_lt
  refine .bind (.lookup (by omega) hs.books.levels) fun pair hpair => .pure ?_
  split
  · exact hpair.2
  · exact hpair.1

theorem triple_readLevels (hs : s.Sound) (hb : bands.Sound s.config bits)
    (hlength : bands.length ≤ s.config.frameLength) (gain : Int) :
    Triple (Sound s.config) (SoundAt s.config B) (readLevels s bands gain)
      fun _ => SoundAt s.config B := by
  refine .bind (R := fun _ => SoundAt s.config B) (.state fun _ h => h) fun st => ?_
  refine triple_eachChannel hB fun place => ?_
  refine .bind (R := fun _ => Lane.Sound s.config) (Lane.triple_whenCoded ?_) fun _ => ?_
  · refine .bind (R := fun book l => book.Sound ∧ l.Sound s.config)
      (.ofExcept fun _ h => (gives_levelBook hs _ place).mono fun _ hbook => ⟨hbook, h⟩)
      fun book => .of_fact (fun _ h => h.1) fun hbook => ?_
    exact (Lane.triple_readLevels hs hb hlength hbook (BlockGain.levelBits_le gain)).pre
      fun _ h => h.2
  · exact .ite (fun _ => .align fun _ h => h) fun _ => .pure fun _ h => h

omit hB in
theorem gives_separate {c : Config} {mid side : Channel} (hm : mid.Sound c) (hs : side.Sound c)
    {length : Nat} (hlength : length ≤ c.frameLength) :
    Gives (separate length mid side) fun (left, right) => left.Sound c ∧ right.Sound c := by
  have middle := hm.spectrum
  have sides := hs.spectrum
  refine .bind (.slice (Q := fun a => a.size = length) (by omega) ?_) fun a ha => ?_
  · rw [Array.size_extract]; omega
  refine .bind (.slice (Q := fun a => a.size = length) (by omega) ?_) fun b hb => .pure ⟨?_, ?_⟩
  · rw [Array.size_extract]; omega
  · refine { hm with spectrum := ?_ }
    rw [Buffer.size_overlay, middle]
    simp only [Array.size_append, Array.size_zipWith, Array.size_extract]
    split
    · omega
    · rw [Array.size_replicate]; omega
  · refine { hs with spectrum := ?_ }
    rw [Buffer.size_overlay, sides]
    simp only [Array.size_append, Array.size_zipWith, Array.size_extract]
    split
    · omega
    · rw [Array.size_replicate]; omega

omit hB in
theorem gives_undoMidSide {c : Config} {length : Nat} (hlength : length ≤ c.frameLength)
    {st : FrameState} (h : st.SoundAt c B) :
    Gives (undoMidSide length st) (SoundAt c B) := by
  unfold undoMidSide
  cases hch : st.channels with
  | mono _ => exact .ok h
  | stereo mid side =>
    have hmid := h.channels .first
    have hside := h.channels .second
    have layout := h.layout
    rw [hch] at hmid hside layout
    refine .ite (fun _ => ?_) fun _ => .ok h
    refine (gives_separate hmid hside hlength).bind fun x hx => .pure ?_
    refine { h with layout := layout, channels := fun place => ?_ }
    cases place with
    | first => exact hx.1
    | second => exact hx.2

omit hB in
theorem sound_scaling (hlayout : s.layout = .ofConfig s.config) (hb : bands.Sound s.config bits)
    {sizeIndex blockBits : Nat} (hi : sizeIndex < 32) (hbits : blockBits ≤ maxBlockBits) (gain : Int) :
    (scaling s blockBits sizeIndex bands gain).Sound s.config bits where
  bands := hb
  coefsStart_eq := congrArg BandLayout.coefsStart hlayout
  sizeIndex_lt := hi
  norm := BlockGain.within_blockNorm _ hbits
  noiseDivisor_lt := by
    show s.config.noiseDivisor < 2 ^ 64
    unfold Config.noiseDivisor
    split <;> decide

/-- What dequantization goes by is sound, if the data of a block can be read. -/
theorem triple_readData (hs : s.Sound) :
    Triple (Sound s.config) (SoundAt s.config B) (readData s) fun scaling st =>
      ((∃ bits, scaling.Sound s.config bits) ∧ scaling.bands.length ≤ s.config.frameLength) ∧
        SoundAt s.config B st := by
  have sound : ∀ st, SoundAt s.config B st → Sound s.config st := fun _ h => h.mono hB
  refine .bind (R := fun st st' => B st.block ∧ SoundAt s.config B st')
    (.state fun _ h => ⟨h.block, h⟩) fun st => .of_fact (fun _ h => h.1) fun hblock => ?_
  obtain ⟨k, bands, h⟩ := hs.exists_bands (hB _ hblock).bits
  refine .bind (R := fun i st => i = k ∧ SoundAt s.config B st)
    (.ofExcept fun _ hst => .of_eq h.index_eq ⟨rfl, hst.2⟩) fun i => ?_
  refine .of_fact (fun _ h => h.1) fun hi => ?_
  subst hi
  rw [h.layout]
  refine .bind ((BlockGain.triple_read (I := SoundAt s.config B)).mono (fun _ h => h.2)
    (fun _ _ h => h) sound) fun gain => ?_
  have scaled := sound_scaling hs.layout h.sound h.index_lt h.bits_le gain
  have finish : Triple (Sound s.config) (SoundAt s.config B) (do
      readEnvelopes s i bands
      readLevels s bands gain
      return scaling s st.block.bits i bands gain) fun scaling st =>
      ((∃ bits, scaling.Sound s.config bits) ∧ scaling.bands.length ≤ s.config.frameLength) ∧
        SoundAt s.config B st := by
    refine .bind (triple_readEnvelopes hB hs h.index_lt h.length_le) fun _ => ?_
    refine .bind (triple_readLevels hB hs h.sound h.length_le gain) fun _ => ?_
    exact .pure fun _ hst => ⟨⟨⟨_, scaled⟩, h.length_le⟩, hst⟩
  refine .ite (fun _ => ?_) fun _ => finish
  refine .bind (triple_eachCoded hB fun _ => Lane.triple_readNoiseFlags h.high_le) fun _ => ?_
  exact .bind (triple_eachCoded hB fun _ => Lane.triple_readNoiseGains hs) fun _ => finish

theorem triple_readSpectra (hs : s.Sound) :
    Triple (Sound s.config) (SoundAt s.config B) (readSpectra s)
      fun _ => SoundAt s.config B := by
  rw [readSpectra_eq]
  refine .bind (triple_readData hB hs) fun scaling => .of_fact (fun _ h => h.1) fun hscaling => ?_
  obtain ⟨⟨bits, scaled⟩, length⟩ := hscaling
  refine .bind (R := fun _ => SoundAt s.config B) ?_ fun _ => ?_
  · exact (triple_eachCoded hB fun _ => Lane.triple_dequantize scaled length).pre fun _ h => h.2
  · exact .updateM fun _ hst => gives_undoMidSide length hst

end FrameState

end Wma
