import Wma.Proofs.Bands.Regular
import Wma.Proofs.Frame.Given
import Wma.Proofs.Frame.Mono
import Wma.Proofs.Spectrum.Lookups

/-!
# Envelopes are looked up where they were read

The envelope of a block may have been read for an earlier block, of the same frame or of another
one, and for a block of another size. Whatever the two sizes are, the block looks up nothing but
what was read last for its channel (`Frame.looksUp_of_reachable`).
-/

namespace Wma

open Parse

/-- The coefficients below the noise take more of an envelope than a coefficient and an entry do. -/
theorem BandLayout.two_pow_add_two_pow_le {c : Config} (hc : c.Sound) {k envelopeSize : Nat}
    (hk : k < c.sizeCount) (he : envelopeSize < c.sizeCount) : 2 ^ k + 2 ^ envelopeSize ≤
      ((block c k).highStart - firstCoef c.version) * 2 ^ k := by
  have start := lt_highStart_add_one hc (k := k)
  have first := firstCoef_le c.version
  have least := le_length_block hc hk
  -- They are more than a quarter of the block, of which a coefficient and an entry are at most 1/128.
  have share : (block c k).length * 272 ≤ ((block c k).highStart - firstCoef c.version) * 1000 := by
    omega
  have scaled := Nat.mul_le_mul_right (2 ^ k) share
  rw [Nat.mul_right_comm, Nat.mul_right_comm _ 1000] at scaled
  have one : 128 * 2 ^ k ≤ (block c k).length * 2 ^ k := Nat.mul_le_mul_right _ least
  have entry : 128 * 2 ^ envelopeSize ≤ (block c envelopeSize).length * 2 ^ envelopeSize :=
    Nat.mul_le_mul_right _ (le_length_block hc he)
  rw [length_block_mul hc he, ← length_block_mul hc hk] at entry
  omega

namespace Channel

/-- The channel looks up what it has read: dequantization by `scaled` uses nothing of the envelope
but entries of the last one that the channel was given. -/
structure LooksUp (s : Stream) (scaled : Scaling) (c : Channel) : Prop where
  given : ∃ envelopes, c.Given s envelopes
  /-- The last envelope is as long as the blocks that it was read for, and is there unchanged. -/
  last : ∀ envelopes, c.Given s envelopes → ∃ ratios earlier,
    envelopes = (c.envelopeSize, ratios) :: earlier ∧
      ratios.size = s.config.frameLength / 2 ^ c.envelopeSize ∧
      c.envelope.extract 0 (s.config.frameLength / 2 ^ c.envelopeSize) = ratios
  inside : ∀ i ∈ scaled.lookups c.envelopeSize c.levels.size c.noiseBands,
    0 ≤ i ∧ i < (s.config.frameLength / 2 ^ c.envelopeSize : Nat)
  /-- It does not matter what is behind the last envelope. -/
  only : ∀ envelope : Array UInt32,
    envelope.extract 0 (s.config.frameLength / 2 ^ c.envelopeSize) =
      c.envelope.extract 0 (s.config.frameLength / 2 ^ c.envelopeSize) →
    ∀ samples buffer,
      scaled.dequantize c.levels envelope c.envelopeSize c.noiseBands samples buffer =
        scaled.dequantize c.levels c.envelope c.envelopeSize c.noiseBands samples buffer

end Channel

namespace FrameState

variable {s : Stream} {sc t : Scan FrameState} {scaled : Scaling} {k : Nat} {bands : BlockBands}

/-- Whatever size a block has, it looks up an envelope of any size within that. -/
theorem lookups_scaling_inside (hc : s.config.Sound) (hlayout : s.layout = .ofConfig s.config)
    (hbands : s.layout.blocks[k]? = some bands) {envelopeSize : Nat}
    (he : envelopeSize < s.config.sizeCount) (count : Nat) (noise : NoiseBands) (gain : Int) :
    ∀ i ∈ (scaling s (s.config.frameBits - k) k bands gain).lookups envelopeSize count noise,
      0 ≤ i ∧ i < (s.config.frameLength / 2 ^ envelopeSize : Nat) := by
  have sound := sound_scaling_of_blocks hc hlayout hbands gain
  have tiled := tiled_scaling hc hlayout hbands (s.config.frameBits - k) gain
  rw [hlayout] at hbands
  obtain ⟨hk, rfl⟩ := BandLayout.of_blocks_ofConfig hbands
  have whole : s.config.frameLength / 2 ^ envelopeSize * 2 ^ envelopeSize = s.config.frameLength :=
    BandLayout.length_block_mul hc he
  refine Scaling.lookups_inside ?_ ?_ tiled fun _ => ?_
  · exact (BandLayout.length_block_mul hc hk).trans whole.symm
  · rw [whole]
    exact Nat.lt_trans hc.frameLength_lt (by decide)
  · exact sound.coefsStart_eq ▸ BandLayout.two_pow_add_two_pow_le hc hk he

/-- No channel that is coded goes without an envelope. -/
def Enveloped (x : FrameState) : Prop :=
  ∀ place, (x.channels.get place).coded = true → (x.channels.get place).hasEnvelope = true

theorem enveloped_of_readEnvelopes (h : readEnvelopes s k bands sc = .ok () t) :
    t.state.Enveloped := by
  -- The check stands behind envelopes that are read and behind those that are kept.
  have check : ∀ u : Scan FrameState, (do
      let channels := (← Parse.state).channels.toList
      Parse.require (channels.all fun c => !c.coded || c.hasEnvelope) .noEnvelope
      : Parse FrameState Unit) u = .ok () t → t.state.Enveloped := by
    intro u hu
    obtain ⟨_, _, hstate, hu⟩ := ok_bind hu
    obtain ⟨rfl, rfl⟩ := ok_state hstate
    obtain ⟨hall, rfl⟩ := ok_require hu
    intro place hcoded
    cases hchannels : u.state.channels with
    | mono only => cases place <;> simp_all [PerChannel.toList, PerChannel.get]
    | stereo left right => cases place <;> simp_all [PerChannel.toList, PerChannel.get]
  obtain ⟨fresh, u, -, h⟩ := ok_bind h
  split at h
  · obtain ⟨_, v, -, h⟩ := ok_bind h
    exact check v h
  · exact check u h

theorem enveloped_of_readLevels {gain : Int} (h : readLevels s bands gain sc = .ok () t)
    (hsc : sc.state.Enveloped) : t.state.Enveloped := by
  have kept : Maintains (Each (fun _ c => c.coded = true → c.hasEnvelope = true) fun _ => True)
      (readLevels s bands gain) := maintains_readLevels (fun _ _ _ h => h) gain
  exact (wp_ok (kept sc ⟨hsc, trivial⟩) h).channel

/-- What the data of a block are read for. -/
theorem of_readData (h : readData s sc = .ok scaled t) : t.state.Enveloped ∧
    ∃ k bands gain, s.layout.blocks[k]? = some bands ∧
      scaled = scaling s (s.config.frameBits - k) k bands gain := by
  obtain ⟨st, _, hstate, h⟩ := ok_bind h
  obtain ⟨rfl, rfl⟩ := ok_state hstate
  obtain ⟨k, _, hk, h⟩ := ok_bind h
  obtain ⟨hk, rfl⟩ := ok_ofExcept hk
  cases hbands : s.layout.blocks[k]? with
  | none =>
    rw [hbands] at h
    cases h
  | some bands =>
    rw [hbands] at h
    obtain ⟨gain, u, -, h⟩ := ok_bind h
    -- With noise or without, the data end in the same way.
    have finish : ∀ v : Scan FrameState, (do
        readEnvelopes s k bands
        readLevels s bands gain
        return scaling s sc.state.block.bits k bands gain : Parse FrameState Scaling) v =
          .ok scaled t →
        t.state.Enveloped ∧ scaled = scaling s sc.state.block.bits k bands gain := by
      intro v hv
      obtain ⟨_, w, hw, hv⟩ := ok_bind hv
      obtain ⟨_, _, hlevels, hv⟩ := ok_bind hv
      cases hv
      exact ⟨enveloped_of_readLevels hlevels (enveloped_of_readEnvelopes hw), rfl⟩
    have bits : sc.state.block.bits = s.config.frameBits - k := by
      unfold difference at hk
      split at hk
      · cases hk
        omega
      · cases hk
    rw [bits] at finish h
    split at h
    · obtain ⟨_, v, -, h⟩ := ok_bind h
      obtain ⟨_, w, -, h⟩ := ok_bind h
      obtain ⟨enveloped, hscaled⟩ := finish w h
      exact ⟨enveloped, k, bands, gain, hbands, hscaled⟩
    · obtain ⟨enveloped, hscaled⟩ := finish u h
      exact ⟨enveloped, k, bands, gain, hbands, hscaled⟩

end FrameState

namespace Frame

open FrameState

/-- The next block has a spectrum, and its data have been read: it is to be dequantized by `scaled`,
in the state of `t`. -/
def Prepares (s : Stream) (sc : Scan FrameState) (scaled : Scaling) (t : Scan FrameState) : Prop :=
  ∃ u v, onBlock (BlockState.read s.config) sc = .ok () u ∧ readCoded s.config u = .ok () v ∧
    v.state.channels.toList.any (·.coded) = true ∧ readData s v = .ok scaled t

variable {s : Stream} {sc t : Scan FrameState} {scaled : Scaling}

/-- Dequantization is what is left of a block then. -/
theorem readBlock_of_prepares (h : Prepares s sc scaled t) : readBlock s sc = (do
    eachChannel fun _ => Lane.whenCoded (Lane.dequantize scaled)
    Parse.updateM (undoMidSide scaled.bands.length)
    synthesize s.config
    onBlock <| Parse.update fun b => { b with position := b.position + b.length }) t := by
  obtain ⟨u, v, hu, hv, hcoded, ht⟩ := h
  unfold readBlock
  rw [bind_of_ok hu, bind_of_ok hv, bind_of_ok (rfl : Parse.state v = .ok v.state v), if_pos hcoded,
    readSpectra_eq]
  simp only [bind_assoc]
  rw [bind_of_ok ht]

theorem Prepares.envelopes (h : Prepares s sc scaled t) (hx : sc.state.Envelopes s) :
    t.state.Envelopes s := by
  obtain ⟨u, v, hu, hv, -, ht⟩ := h
  have block := wp_ok (maintains_onBlock (.fact True) sc hx) hu
  have coded := wp_ok (maintains_readCoded s.config (fun _ => Channel.kept_given.coded)
    (fun _ _ h => h) u block) hv
  exact wp_ok (maintains_readData (fun _ => Channel.kept_given) v coded) ht

theorem looksUp_of_prepares (hc : s.config.Sound) (hlayout : s.layout = .ofConfig s.config)
    (hx : sc.state.Envelopes s) (h : Prepares s sc scaled t) (place : ChannelPlace)
    (hcoded : (t.state.channels.get place).coded = true) :
    (t.state.channels.get place).LooksUp s scaled := by
  obtain ⟨_, _, -, -, -, hdata⟩ := id h
  obtain ⟨enveloped, k, bands, gain, hbands, rfl⟩ := of_readData hdata
  have has := enveloped place hcoded
  obtain ⟨envelopes, given⟩ := (h.envelopes hx).channel place
  obtain ⟨he, -⟩ := given.exists_last hlayout has
  have sound := sound_scaling_of_blocks hc hlayout hbands gain
  have inside := fun count noise => lookups_scaling_inside hc hlayout hbands he count noise gain
  have sizes := hc.sizeCount_le_five
  refine ⟨⟨envelopes, given⟩, fun _ h => (h.exists_last hlayout has).2, inside _ _,
    fun envelope same samples buffer => ?_⟩
  refine Scaling.dequantize_congr sound (by omega) (fun i hi => ?_) samples buffer
  have near := inside _ _ i hi
  exact Scaling.entry_eq_of_extract same (by omega)

/-- A block of one coded channel that is as long as the frame, once its data can be read. -/
theorem exists_prepares_of_mono {P : Scaling → Scan FrameState → Prop} {ch : Channel}
    {rest : List Bool} (hc : s.config.Sound) (hwhole : s.config.variableBlocks = false)
    (hlayout : s.config.channels = .mono) (hmono : sc.state.channels = .mono ch)
    (hposition : sc.state.block.position = 0) (hbits : sc.reader.remaining = true :: rest)
    (h : ∀ u : Scan FrameState, u.state.channels = .mono { ch with coded := true } →
      u.state.block.bits = s.config.frameBits → u.reader.remaining = rest →
      (readData s).wp P (fun _ _ => False) u) :
    ∃ scaled t, Prepares s sc scaled t ∧ P scaled t := by
  have reads : (onBlock (BlockState.read s.config)).wp (fun _ u =>
      (readCoded s.config).wp (fun _ v => v.state.channels.toList.any (·.coded) = true ∧
        (readData s).wp P (fun _ _ => False) v) (fun _ _ => False) u) (fun _ _ => False) sc := by
    unfold onBlock
    rw [wp_focus]
    refine BlockState.wp_read_of_whole hc hwhole hposition ?_
    exact wp_readCoded_mono hlayout hmono hbits fun q hq => ⟨rfl, h _ rfl rfl hq⟩
  obtain ⟨_, u, hu, hreads⟩ := exists_of_wp reads
  obtain ⟨_, v, hv, hcoded, hreads⟩ := exists_of_wp hreads
  obtain ⟨scaled, t, ht, hP⟩ := exists_of_wp hreads
  exact ⟨scaled, t, ⟨u, v, hu, hv, hcoded, ht⟩, hP⟩

/-- From any state that frame decoding comes to, a frame may have some complete blocks and then one
with a spectrum, whether the rest of it is complete or not. Where a channel is coded in this block,
it looks up what was read last for it.

The channel has been given an envelope. The last one fills the blocks that it was read for, and all
of it is at the beginning of the buffer. Every place that is looked up, for the bins below the coded
ones, for the power of noise bands, for levels and the noise that stands for them, and for what is
behind these, is within it. So nothing else that the buffer holds has a part in the spectrum. -/
theorem looksUp_of_reachable {p : Params} (hconfig : Config.ofParams p = .ok s.config)
    (hlayout : s.layout = .ofConfig s.config) {x : FrameState} (hx : Reachable s x) {r : BitReader}
    {bs : List BlockState} (hrow : Row s (begin ⟨r, x⟩) bs sc) (h : Prepares s sc scaled t)
    {place : ChannelPlace} (hcoded : (t.state.channels.get place).coded = true) :
    (t.state.channels.get place).LooksUp s scaled :=
  looksUp_of_prepares (Config.sound_of_ofParams hconfig) hlayout
    (hrow.envelopes ⟨hx.envelopes.channel, trivial⟩) h place hcoded

/-- The first frame of a stream: noise in the first of four high bands, an envelope of one level and
two levels. -/
theorem looksUp_of_reachable_hissing : ∃ books, Books.builtIn = .ok books ∧ ∃ scaled t,
    Prepares (.hissing books) (begin ⟨.ofList 0 (true :: hissingData), .initial .hissing⟩) scaled t ∧
    (t.state.channels.get .first).coded = true ∧
    (t.state.channels.get .first).LooksUp (.hissing books) scaled := by
  obtain ⟨books, hbooks⟩ := Books.exists_builtIn
  have config : Config.ofParams .hissing = .ok (Stream.hissing books).config :=
    Config.ofParams_hissing
  have envelope : (Channel.initial Config.hissing.frameLength).envelope.size = 512 :=
    Array.size_replicate
  have levels : (Channel.initial Config.hissing.frameLength).levels.size = 512 :=
    Array.size_replicate
  obtain ⟨scaled, t, ht, -, hcoded⟩ : ∃ scaled t,
      Prepares (.hissing books) (begin ⟨.ofList 0 (true :: hissingData), .initial .hissing⟩)
        scaled t ∧ t.reader.remaining = [] ∧ (t.state.channels.get .first).coded = true :=
    exists_prepares_of_mono (Config.sound_of_ofParams config) rfl rfl rfl rfl
      (BitReader.remaining_ofList _ _)
      fun u hu hbits hrest => wp_readData_hissing hbooks hu rfl hbits envelope levels
        (hrest.trans (List.append_nil _).symm)
  exact ⟨books, hbooks, scaled, t, ht, hcoded,
    looksUp_of_reachable config rfl .initial .nil ht hcoded⟩

end Frame

end Wma
