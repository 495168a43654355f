import Wma.Proofs.Frame.Envelope
import Wma.Proofs.Frame.Places
import Wma.Proofs.Frame.Silence
import Wma.Proofs.Spectrum.Written

/-!
# Blocks of one channel

What reading a block does where there is one channel, which is coded, and the block is as long as
its frame: it states no lengths, and one flag (`Frame.wp_readCoded_mono`); it has an envelope of its
own (`FrameState.wp_readEnvelopes_mono`), and levels that were written for it
(`FrameState.wp_readLevels_mono`). The frame is decoded if its data can be read
(`Frame.wp_decode_mono`); `Frame.hissingData` is such data, noise included.
-/

namespace Wma

open Parse

/-- A block that is as long as its frame, where frames are not split. -/
theorem BlockState.wp_read_of_whole {c : Config} {Q : Unit → Scan BlockState → Prop}
    {E : Error → Scan BlockState → Prop} {sc : Scan BlockState} (hc : c.Sound)
    (hwhole : c.variableBlocks = false) (hposition : sc.state.position = 0)
    (hQ : Q () ⟨sc.reader, { sc.state with
      prevBits := c.frameBits
      bits := c.frameBits
      nextBits := c.frameBits
      length := 2 ^ c.frameBits }⟩) : (read c).wp Q E sc := by
  have short := hc.frameBits_le
  unfold maxBlockBits at short
  have fits : sc.state.position + 2 ^ c.frameBits ≤ c.frameLength := by
    rw [hposition, Nat.zero_add]
    rfl
  refine wp_read_of_readLengths ?_
  unfold readLengths
  rw [if_neg (by simp [hwhole]), wp_update]
  dsimp only
  rw [if_pos fits]
  exact ⟨by omega, hQ⟩

namespace FrameState

variable {s : Stream} {E : Error → Scan FrameState → Prop} {Q : Unit → Scan FrameState → Prop}
  {sc : Scan FrameState} {ch : Channel} {bands : BlockBands}

/-- A single channel takes each step once. -/
theorem wp_eachChannel_mono {p : ChannelPlace → Parse Lane Unit}
    (hmono : sc.state.channels = .mono ch)
    (h : (p .first).wp (fun _ t => Q () ⟨t.reader, { sc.state with
        channels := .mono t.state.channel, noise := t.state.noise, work := t.state.work }⟩)
      (fun e t => E e ⟨t.reader, { sc.state with
        channels := .mono t.state.channel, noise := t.state.noise, work := t.state.work }⟩)
      ⟨sc.reader, ch, sc.state.noise, sc.state.work⟩) : (eachChannel p).wp Q E sc := by
  obtain ⟨reader, block, channels, noise, work⟩ := sc
  dsimp only at hmono
  subst hmono
  unfold eachChannel
  rw [wp_bind, wp_state]
  exact wp_forM_cons.2 (wp_focus.2 h)

/-- A step of a channel that is coded. -/
theorem wp_eachCoded_mono {p : Parse Lane Unit} (hmono : sc.state.channels = .mono ch)
    (hcoded : ch.coded = true)
    (h : p.wp (fun _ t => Q () ⟨t.reader, { sc.state with
        channels := .mono t.state.channel, noise := t.state.noise, work := t.state.work }⟩)
      (fun e t => E e ⟨t.reader, { sc.state with
        channels := .mono t.state.channel, noise := t.state.noise, work := t.state.work }⟩)
      ⟨sc.reader, ch, sc.state.noise, sc.state.work⟩) :
    (eachChannel fun _ => Lane.whenCoded p).wp Q E sc := by
  refine wp_eachChannel_mono hmono ?_
  unfold Lane.whenCoded
  rw [wp_bind, wp_state, if_pos hcoded]
  exact h

/-- The envelope of a channel, for a block that is as long as the frame. -/
theorem wp_readEnvelopes_mono {sizeIndex : Nat} {e : SteppedEnvelope.Coding} {rest : List Bool}
    (hcode : SteppedEnvelope.IsStepCode s.books.envelope)
    (hstepped : s.config.steppedEnvelope = true)
    (hwidths : bands.envelopeBands.length ≤ SteppedEnvelope.maxBands)
    (hsum : bands.envelopeBands.sum = bands.length) (hroom : bands.length ≤ ch.envelope.size)
    (hmono : sc.state.channels = .mono ch) (hcoded : ch.coded = true)
    (hblock : sc.state.block.bits = s.config.frameBits)
    (hcount : e.steps.length =
      SteppedEnvelope.stepCount s.config.version bands.envelopeBands bands.length)
    (hbits : sc.reader.remaining = e.bits s.config.version ++ rest)
    (hrange : ∀ l ∈ SteppedEnvelope.levelsFrom (e.start s.config.version) e.steps,
      SteppedEnvelope.InRange l)
    (hQ : ∀ q envelope, q.remaining = rest → Q () ⟨q, { sc.state with channels := .mono { ch with
      envelope
      envelopeSize := sizeIndex
      hasEnvelope := true } }⟩) :
    (readEnvelopes s sizeIndex bands).wp Q (fun _ _ => False) sc := by
  unfold readEnvelopes readEnvelopeBit
  rw [wp_bind, wp_bind, wp_state, if_pos hblock, wp_pure, if_pos rfl, wp_bind]
  refine wp_eachCoded_mono hmono hcoded ?_
  obtain ⟨t, ht, takes⟩ : ∃ t, Lane.readEnvelope s sizeIndex bands
      ⟨sc.reader, ch, sc.state.noise, sc.state.work⟩ = .ok () t ∧
      Lane.Takes s.config.version sizeIndex bands e
        ⟨sc.reader, ch, sc.state.noise, sc.state.work⟩ t :=
    Lane.exists_takes hcode hstepped hwidths hsum hroom hcount ⟨rest, hbits.symm⟩ hrange
  refine wp_of_ok ht ?_
  have left : t.reader.remaining = rest := by
    rw [takes.moved.remaining]
    exact hbits ▸ List.drop_left
  rw [takes.state, wp_bind, wp_state, wp_require, if_pos (by simp [PerChannel.toList])]
  exact hQ t.reader _ left

/-- The first channel has the plain book of the rate class. -/
theorem exists_levelBook_first (hbooks : Books.builtIn = .ok s.books)
    {l : RunLevelLayout × RunLevelLayout} (hl : Books.layouts[s.config.rateClass]? = some l) :
    ∃ plain, RunLevelBook.ofLayout l.1 = .ok plain ∧
      ∀ midSide, levelBook s midSide .first = .ok plain := by
  obtain ⟨plain, side, hpair, hplain, -⟩ := Books.exists_levels_of_builtIn hbooks hl
  have found : Buffer.lookup s.books.levels s.config.rateClass = .ok (plain, side) := by
    unfold Buffer.lookup
    rw [hpair]
  refine ⟨plain, hplain, fun midSide => ?_⟩
  unfold levelBook
  rw [found]
  exact congrArg Except.ok (if_neg (by simp))

/-- The levels of a channel, as they were written. -/
theorem wp_readLevels_mono {gain : Int} {layout : RunLevelLayout} {book : RunLevelBook}
    {count k : Nat} {items : List Levels.Item} {rest : List Bool}
    (hbook : RunLevelBook.ofLayout layout = .ok book) (hlengths : ∀ n ∈ layout.lengths, n ≠ 0)
    (hlevelBook : ∀ midSide, levelBook s midSide .first = .ok book)
    (hversion : s.config.version = .v2) (hc : s.config.Sound)
    (hmono : sc.state.channels = .mono ch) (hcoded : ch.coded = true)
    (hcount : Lane.levelCount s bands ch.noiseBands = .ok count) (hfew : count ≤ bands.length)
    (hlength : bands.length = 2 ^ k) (hroom : bands.length ≤ ch.levels.size)
    (hitems : ∀ x ∈ items, x.Writable layout (BlockGain.levelBits gain) s.config.frameBits)
    (hfit : (Levels.expand items).length ≤ count)
    (hbits : sc.reader.remaining = Levels.blockBits layout (BlockGain.levelBits gain)
      s.config.frameBits count items ++ rest) :
    (readLevels s bands gain).wp (fun _ t => t.reader.remaining = rest ∧
      ∃ ch', t.state.channels = .mono ch' ∧ ch'.coded = true) (fun _ _ => False) sc := by
  have short := hc.frameBits_le
  unfold maxBlockBits at short
  have wide := BlockGain.levelBits_le gain
  have room : Buffer.room ch.levels bands.length = .ok () := if_pos hroom
  unfold readLevels
  rw [wp_bind, wp_state]
  refine wp_eachChannel_mono hmono ?_
  unfold Lane.whenCoded
  rw [wp_bind, wp_bind, wp_state, if_pos hcoded, wp_bind, hlevelBook, wp_ofExcept_ok]
  unfold Lane.readLevels Lane.onChannel
  rw [wp_focus, wp_bind, wp_state, wp_bind, hcount, wp_ofExcept_ok, wp_bind, wp_state, wp_bind,
    room, wp_ofExcept_ok, wp_focus]
  have size : (ch.levels.extract 0 bands.length).size = 2 ^ k := by
    rw [Array.size_extract]
    omega
  refine wp_mono (Levels.wp_read_block hbook hlengths (by omega) (by omega) hitems
    (hlength ▸ hfew) size hfit hbits) (fun _ t ht => ?_) fun _ _ h => h
  rw [if_neg (by simp [hversion]), wp_pure]
  refine ⟨?_, _, rfl, hcoded⟩
  show t.reader.remaining = rest
  rw [ht.1.remaining, hbits, List.drop_left]

end FrameState

namespace Frame

open FrameState

variable {s : Stream} {sc : Scan FrameState} {ch : Channel} {rest : List Bool}

/-- One flag says whether the channel is coded. -/
theorem wp_readCoded_mono {c : Config} {E : Error → Scan FrameState → Prop}
    {Q : Unit → Scan FrameState → Prop} (hlayout : c.channels = .mono)
    (hmono : sc.state.channels = .mono ch) {coded : Bool}
    (hbits : sc.reader.remaining = coded :: rest)
    (hQ : ∀ q, q.remaining = rest → Q () ⟨q, { sc.state with
      block := { sc.state.block with midSide := false }
      channels := .mono { ch with coded } }⟩) : (readCoded c).wp Q E sc := by
  unfold readCoded
  rw [if_neg (by simp [hlayout]), wp_bind, wp_pure, wp_bind]
  unfold FrameState.onBlock
  rw [wp_focus, wp_update]
  refine wp_eachChannel_mono hmono ?_
  rw [wp_bind]
  refine wp_readBit_of_cons hbits fun q _ hq => ?_
  unfold Lane.onChannel
  rw [wp_focus, wp_update]
  exact hQ q hq

/-- A frame of one block that is coded is decoded if the data of the block can be read. -/
theorem wp_decode_mono {E : Error → Scan FrameState → Prop} (hs : s.Sound)
    (hwhole : s.config.variableBlocks = false) (hlayout : s.config.channels = .mono)
    (hmono : sc.state.channels = .mono ch) (h : sc.state.Sound s.config)
    (hbits : sc.reader.remaining = true :: rest) {P : Scaling → Scan FrameState → Prop}
    (hdata : ∀ u : Scan FrameState, u.state.channels = .mono { ch with coded := true } →
      u.state.block.bits = s.config.frameBits → u.reader.remaining = rest →
      (readData s).wp P E u) :
    (decode s).wp (fun _ t => (∃ scaling u, P scaling u ∧ t.reader = u.reader) ∧
      t.state.Sound s.config) E sc := by
  have frame := Config.IsBlockBits.frameBits hs.config
  have channel := h.channels .first
  rw [hmono] at channel
  obtain ⟨limit, hlimit⟩ : ∃ k, s.config.frameLength = k + 1 :=
    ⟨_, (Nat.succ_pred_eq_of_pos (Nat.two_pow_pos _)).symm⟩
  refine wp_decode_of_readBlocks ?_
  rw [hlimit, readBlocks, readBlock_eq, wp_bind, wp_bind, onBlock, wp_focus]
  refine BlockState.wp_read_of_whole hs.config hwhole rfl ?_
  rw [wp_bind]
  refine wp_readCoded_mono hlayout hmono hbits fun q hq => ?_
  refine wp_finishBlock_coded hs ?_ rfl (hdata _ rfl rfl hq) fun scaling t u hP hreader hu hblock => ?_
  · exact { h with
      block := ⟨⟨frame, frame, frame⟩, rfl, (Nat.zero_add _).le⟩
      layout := hlayout.symm
      channels := fun place => by cases place <;> exact { channel with } }
  · have complete : ¬u.state.block.position < s.config.frameLength := by
      rw [hblock]
      exact fun hlt => absurd hlt (Nat.not_lt.mpr (Nat.zero_add _).ge)
    rw [wp_bind, wp_state, if_neg complete]
    refine ⟨hu, fun values v hreader' _ hv => ⟨⟨scaling, t, hP, ?_⟩, hv⟩⟩
    rw [hreader', hreader]

/-! ### A frame with noise -/

/-- Two levels with zeros in front of them, the second one written in full. -/
def hissingLevels : List Levels.Item :=
  [⟨⟨2, 1⟩, true, false, by decide⟩, ⟨⟨3, 5⟩, false, true, by decide⟩]

/-- The data of a block of one channel: the least gain, noise in the first of four high bands and its
gain, an envelope of one level, and two levels. -/
def hissingData : List Bool :=
  CodeWord.bitsOf 0 7 ++ ([true, false, false, false] ++ (CodeWord.bitsOf 0 7 ++
    (List.replicate 18 false ++
      Levels.blockBits .highPlain (BlockGain.levelBits 1) 9 426 hissingLevels)))

theorem wp_readData_hissing {books : Books} (hbooks : Books.builtIn = .ok books)
    (hmono : sc.state.channels = .mono ch) (hcoded : ch.coded = true)
    (hblock : sc.state.block.bits = 9) (henvelope : ch.envelope.size = 512)
    (hlevels : ch.levels.size = 512) (hbits : sc.reader.remaining = hissingData ++ rest) :
    (readData (.hissing books)).wp (fun _ t => t.reader.remaining = rest ∧
      (t.state.channels.get .first).coded = true) (fun _ _ => False) sc := by
  have hc : (Stream.hissing books).config.Sound := Config.sound_of_ofParams Config.ofParams_hissing
  have bands : (Stream.hissing books).layout.blocks[0]? = some (BandLayout.block .hissing 0) :=
    BandLayout.blocks_ofConfig (by decide)
  have size : difference (Stream.hissing books).config.frameBits sc.state.block.bits = .ok 0 := by
    rw [hblock]
    rfl
  have noisy : (Stream.hissing books).config.noiseCoding = true := rfl
  have stepped : Config.hissing.steppedEnvelope = true := by decide +kernel
  have coded : (BandLayout.block .hissing 0).coefsEnd = 466 := by decide +kernel
  have high : (BandLayout.block .hissing 0).highBands = [40, 48, 60, 62] := by decide +kernel
  have length : (BandLayout.block .hissing 0).length = 512 := by decide +kernel
  have sum : (BandLayout.block .hissing 0).envelopeBands.sum = 512 := by decide +kernel
  have few : (BandLayout.block .hissing 0).envelopeBands.length ≤ SteppedEnvelope.maxBands := by
    decide +kernel
  have steps : (List.replicate 18 (60 : SteppedEnvelope.Step)).length =
      SteppedEnvelope.stepCount .v2 (BandLayout.block .hissing 0).envelopeBands 512 := by
    decide +kernel
  have flat : ∀ l ∈ SteppedEnvelope.levelsFrom SteppedEnvelope.seed
      (List.replicate 18 (60 : SteppedEnvelope.Step)), SteppedEnvelope.InRange l := by decide
  -- One band of 40 has no levels.
  have count : Lane.levelCount (.hissing books) (BandLayout.block .hissing 0)
      ⟨[true, false, false, false], [0, 0, 0, 0]⟩ = .ok 426 := by
    unfold Lane.levelCount
    rw [coded, high]
    rfl
  have writable : ∀ x ∈ hissingLevels, x.Writable .highPlain (BlockGain.levelBits 1) 9 := by decide
  obtain ⟨plain, hplain, book⟩ :=
    exists_levelBook_first (s := .hissing books) hbooks (l := (.highPlain, .highSide)) rfl
  unfold hissingData at hbits
  simp only [List.append_assoc] at hbits
  unfold readData
  rw [wp_bind, wp_state, wp_bind]
  dsimp only
  rw [size, wp_ofExcept_ok, bands]
  dsimp only
  rw [wp_bind]
  refine BlockGain.wp_read_of_bitsOf (by decide) hbits fun q hq => ?_
  rw [if_pos noisy, wp_bind]
  refine wp_eachCoded_mono hmono hcoded ?_
  unfold Lane.readNoiseFlags Lane.onChannel
  rw [wp_focus, wp_focus]
  refine NoiseBands.wp_readFlags_of_append (by rw [high]; rfl) hq fun q hq => ?_
  rw [wp_bind]
  refine wp_eachCoded_mono rfl hcoded ?_
  unfold Lane.readNoiseGains Lane.onChannel NoiseBands.readGains
  rw [wp_focus, wp_focus, wp_bind, wp_state]
  dsimp only
  rw [high]
  simp only [NoiseBands.readGainsOf, NoiseBands.readGain, wp_bind]
  refine wp_read_bitsOf (by decide) (by decide) hq fun q _ hq => ?_
  rw [wp_pure, wp_update, wp_pure]
  refine wp_readEnvelopes_mono (e := ⟨0, List.replicate 18 60⟩)
    (SteppedEnvelope.isStepCode_of_builtIn hbooks) stepped few (sum.trans length.symm)
    (by rw [length]; exact henvelope.ge) rfl hcoded hblock (by rw [length]; exact steps) hq
    flat fun q envelope hq => ?_
  refine wp_mono (wp_readLevels_mono hplain (by decide +kernel) book rfl hc rfl hcoded count
    (by rw [length]; decide) (k := 9) length (by rw [length]; exact hlevels.ge) writable (by decide)
    hq) (fun _ t ht => ?_) fun _ _ h => h
  obtain ⟨hrest, ch', hch', hcoded'⟩ := ht
  refine ⟨hrest, ?_⟩
  show (t.state.channels.get .first).coded = true
  rw [hch']
  exact hcoded'

theorem length_hissingData_lt : hissingData.length < 512 := by
  have wide := BlockGain.levelBits_le 1
  have words : ∀ symbol, (RunLevelBook.wordOf .highPlain symbol).length ≤ 22 := fun symbol =>
    (RunLevelBook.length_wordOf_le _ _).trans <| by
      rw [List.getD_eq_getElem?_getD]
      cases h : RunLevelLayout.highPlain.lengths[symbol]? with
      | none => exact Nat.zero_le _
      | some n =>
        have all : ∀ n ∈ RunLevelLayout.highPlain.lengths, n ≤ 22 := by decide
        exact all n (List.mem_of_getElem? h)
  have first := words (RunLevelBook.symbolOf .highPlain ⟨2, 1⟩)
  have escape := words RunLevelBook.escape
  have last := words RunLevelBook.endOfBlock
  have short : (Levels.expand hissingLevels).length ≠ 426 := by decide
  unfold hissingData Levels.blockBits
  rw [if_neg short]
  simp only [hissingLevels, Levels.Item.bits, Levels.Item.pairBits, List.flatMap_cons,
    List.flatMap_nil, Bool.false_eq_true, if_true, if_false, List.length_append, List.length_cons,
    List.length_nil, List.length_replicate, Bits.length_bitsOf]
  omega

theorem sound_hissing {books : Books} (hbooks : Books.builtIn = .ok books) :
    (Stream.hissing books).Sound :=
  ⟨Config.sound_of_ofParams Config.ofParams_hissing, rfl, Books.sound_of_builtIn hbooks⟩

theorem exists_decode_hissing {books : Books} (hbooks : Books.builtIn = .ok books)
    (h : sc.state.Sound (Stream.hissing books).config)
    (hbits : sc.reader.remaining = true :: (hissingData ++ rest)) :
    ∃ values t, decode (.hissing books) sc = .ok values t ∧ t.reader.remaining = rest ∧
      t.state.Sound (Stream.hissing books).config := by
  have layout := h.layout
  cases hchannels : sc.state.channels with
  | stereo _ _ =>
    rw [hchannels] at layout
    cases layout
  | mono ch =>
    have channel := h.channels .first
    rw [hchannels] at channel
    have envelope : ch.envelope.size = 512 := channel.envelope_size
    have levels : ch.levels.size = 512 := channel.levels.size
    have sound := sound_hissing hbooks
    have whole : (Stream.hissing books).config.variableBlocks = false := rfl
    have single : (Stream.hissing books).config.channels = .mono := rfl
    have data : ∀ u : Scan FrameState, u.state.channels = .mono { ch with coded := true } →
        u.state.block.bits = (Stream.hissing books).config.frameBits →
        u.reader.remaining = hissingData ++ rest →
        (readData (.hissing books)).wp (fun _ v => v.reader.remaining = rest)
          (fun _ _ => False) u :=
      fun u hu hblock hrest => wp_mono
        (wp_readData_hissing hbooks hu rfl hblock envelope levels hrest) (fun _ _ hv => hv.1)
        fun _ _ he => he
    -- Of what the stream is, no more than this is used.
    generalize Stream.hissing books = s at *
    obtain ⟨values, t, ht, ⟨_, u, hrest, hreader⟩, hsound⟩ :=
      exists_of_wp (wp_decode_mono sound whole single hchannels h hbits data)
    exact ⟨values, t, ht, hreader ▸ hrest, hsound⟩

end Frame

end Wma
