import Wma.Proofs.Frame.Mono
import Wma.Proofs.Spectrum.Local

/-!
# A frame and the bits behind it

A frame depends on no bit but those that it takes: what comes behind them, or that nothing does, makes
no difference (`Frame.local_decode`). The first version of the format aligns the levels of two
channels, so there a frame depends on its place within a byte as well.
-/

namespace Wma

open Parse

variable {aligned : Prop}

/-! ### Block lengths -/

namespace BlockState

theorem local_readBits {σ : Type} (c : Config) : Local aligned (readBits c : Parse σ Nat) :=
  .bind (.read _) fun _ => .bind .require fun _ => .ofExcept _

theorem local_readReset (c : Config) : Local aligned (readReset c) := by
  refine .bind (.update _) fun _ => .bind (local_readBits c) fun prevBits => ?_
  refine .bind (.update _) fun _ => .bind (local_readBits c) fun bits => ?_
  exact .update _

theorem local_readLengths (c : Config) : Local aligned (readLengths c) := by
  refine .ite (fun _ => .bind .state fun b => ?_) fun _ => .update _
  have next : Local aligned (do
      let nextBits ← readBits c
      Parse.update fun b : BlockState => { b with nextBits }) :=
    .bind (local_readBits c) fun _ => .update _
  exact .ite (fun _ => .bind (local_readReset c) fun _ => next) fun _ =>
    .bind (.update _) fun _ => next

theorem local_read (c : Config) : Local aligned (read c) := by
  refine .bind (local_readLengths c) fun _ => .bind .state fun b => .bind (.ofExcept _) fun _ => ?_
  exact .bind (.update _) fun _ => .bind .state fun b => .require

end BlockState

/-! ### Spectra -/

namespace Lane

theorem local_onChannel {α : Type} {p : Parse Channel α} (h : Local aligned p) :
    Local aligned (onChannel p) :=
  .focus h

theorem local_whenCoded {p : Parse Lane Unit} (h : Local aligned p) : Local aligned (whenCoded p) :=
  .bind .state fun _ => .ite (fun _ => h) fun _ => .pure ()

theorem local_readNoiseFlags (bands : BlockBands) : Local aligned (readNoiseFlags bands) :=
  local_onChannel <| .focus <| NoiseBands.local_readFlags _

theorem local_readNoiseGains (s : Stream) : Local aligned (readNoiseGains s) :=
  local_onChannel <| .focus <| NoiseBands.local_readGains _

theorem local_readRatios (s : Stream) (bands : BlockBands) : Local aligned (readRatios s bands) := by
  refine .ite (fun _ => SteppedEnvelope.local_read _ _ _ _) fun _ => ?_
  refine .bind LinePairs.local_read fun pairs => .bind .state fun l => ?_
  refine .bind (.ofExcept _) fun ⟨ratios, curve⟩ => ?_
  exact .bind (.update _) fun _ => .pure _

theorem local_readEnvelope (s : Stream) (sizeIndex : Nat) (bands : BlockBands) :
    Local aligned (readEnvelope s sizeIndex bands) := by
  refine .bind .state fun l => .bind (.ofExcept _) fun _ => ?_
  exact .bind (local_readRatios s bands) fun ratios => local_onChannel (.update _)

theorem local_readLevels (s : Stream) (bands : BlockBands) (book : RunLevelBook) (levelBits : Nat) :
    Local aligned (readLevels s bands book levelBits) := by
  refine local_onChannel ?_
  refine .bind .state fun ch => .bind (.ofExcept _) fun count => ?_
  refine .bind .state fun ch => .bind (.ofExcept _) fun _ => ?_
  exact .focus (Levels.local_read book levelBits _ count)

end Lane

namespace FrameState

theorem local_eachChannel {p : ChannelPlace → Parse Lane Unit} (h : ∀ place, Local aligned (p place)) :
    Local aligned (eachChannel p) :=
  .bind .state fun _ => .forM _ fun place => .focus (h place)

theorem local_eachCoded {p : Parse Lane Unit} (h : Local aligned p) :
    Local aligned (eachChannel fun _ => Lane.whenCoded p) :=
  local_eachChannel fun _ => Lane.local_whenCoded h

theorem local_readEnvelopes (s : Stream) (sizeIndex : Nat) (bands : BlockBands) :
    Local aligned (readEnvelopes s sizeIndex bands) := by
  have last : Local aligned (do
      let channels := (← Parse.state).channels.toList
      Parse.require (channels.all fun c => !c.coded || c.hasEnvelope) .noEnvelope :
      Parse FrameState Unit) :=
    .bind .state fun _ => .require
  refine .bind ?_ fun fresh => .ite (fun _ => ?_) fun _ => last
  · exact .bind .state fun st => .ite (fun _ => .pure true) fun _ => .readBit
  · exact .bind (local_eachCoded (Lane.local_readEnvelope s sizeIndex bands)) fun _ => last

variable {s : Stream}

theorem local_readLevels (ha : s.config.version = .v1 ∧ s.config.channels = .stereo → aligned)
    (bands : BlockBands) (gain : Int) : Local aligned (readLevels s bands gain) := by
  refine .bind .state fun st => local_eachChannel fun place => ?_
  refine .bind (Lane.local_whenCoded ?_) fun _ => .ite (fun h => .align (ha h)) fun _ => .pure ()
  exact .bind (.ofExcept _) fun book => Lane.local_readLevels s bands book _

theorem local_readSpectra (ha : s.config.version = .v1 ∧ s.config.channels = .stereo → aligned) :
    Local aligned (readSpectra s) := by
  refine .bind .state fun st => .bind (.ofExcept _) fun sizeIndex => ?_
  split
  case h_2 => exact .throw _
  rename_i bands _
  refine .bind BlockGain.local_read fun gain => ?_
  have rest : Local aligned (do
      readEnvelopes s sizeIndex bands
      readLevels s bands gain
      eachChannel fun _ =>
        Lane.whenCoded (Lane.dequantize (scaling s st.block.bits sizeIndex bands gain))
      Parse.updateM (undoMidSide bands.length)) := by
    refine .bind (local_readEnvelopes s sizeIndex bands) fun _ => ?_
    refine .bind (local_readLevels ha bands gain) fun _ => ?_
    exact .bind (local_eachCoded (.updateM _)) fun _ => .updateM _
  refine .ite (fun _ => ?_) fun _ => rest
  refine .bind (local_eachCoded (Lane.local_readNoiseFlags bands)) fun _ => ?_
  exact .bind (local_eachCoded (Lane.local_readNoiseGains s)) fun _ => rest

theorem local_synthesize (c : Config) : Local aligned (synthesize c) :=
  .bind .state fun _ => .bind (.ofExcept _) fun _ => local_eachChannel fun _ => .updateM _

end FrameState

/-! ### Frames -/

namespace Frame

variable {s : Stream}

theorem local_readCoded (c : Config) : Local aligned (readCoded c) := by
  have rest : ∀ midSide : Bool, Local aligned (do
      FrameState.onBlock <| Parse.update fun b => { b with midSide }
      FrameState.eachChannel fun _ => do
        let coded ← Parse.readBit
        Lane.onChannel <| Parse.update fun c => { c with coded }) := by
    intro midSide
    refine .bind (.focus (.update _)) fun _ => FrameState.local_eachChannel fun _ => ?_
    exact .bind .readBit fun _ => .focus (.update _)
  exact .ite (fun _ => .bind .readBit rest) fun _ => .bind (.pure false) rest

theorem local_readBlock (ha : s.config.version = .v1 ∧ s.config.channels = .stereo → aligned) :
    Local aligned (readBlock s) := by
  have last : Local aligned (do
      FrameState.synthesize s.config
      FrameState.onBlock <| Parse.update fun b => { b with position := b.position + b.length }) :=
    .bind (FrameState.local_synthesize _) fun _ => .focus (.update _)
  refine .bind (.focus (BlockState.local_read _)) fun _ => .bind (local_readCoded _) fun _ => ?_
  refine .bind .state fun st => .ite (fun _ => ?_) fun _ => last
  exact .bind (FrameState.local_readSpectra ha) fun _ => last

theorem local_readBlocks (ha : s.config.version = .v1 ∧ s.config.channels = .stereo → aligned) :
    ∀ limit : Nat, Local aligned (readBlocks s limit)
  | 0 => .ofExcept _
  | limit + 1 => by
    refine .bind (local_readBlock ha) fun _ => .bind .state fun st => ?_
    exact .ite (fun _ => local_readBlocks ha limit) fun _ => .pure ()

theorem local_decode (ha : s.config.version = .v1 ∧ s.config.channels = .stereo → aligned) :
    Local aligned (decode s) := by
  refine .bind (.focus (.update _)) fun _ => .bind (local_readBlocks ha _) fun _ => ?_
  refine .bind .state fun st => .bind (.ofExcept _) fun values => ?_
  exact .bind (.update _) fun _ => .pure values

/-- A frame that takes the bits `bits` is the same wherever else they stand, whatever bits come behind
them and whether any do, and leaves the same state. In the first version of the format, where the
levels of two channels are aligned, they must stand at the same place of a byte, and the frame must
have been read off whole bytes. -/
theorem decode_of_prefix {f : FrameState} {r r' : BitReader} {bits : List Bool}
    {values : Array Int16} {t : Scan FrameState} (h : decode s ⟨r, f⟩ = .ok values t)
    (hbits : bits <+: r.remaining) (htaken : t.reader.position = r.position + bits.length)
    (hbits' : bits <+: r'.remaining)
    (hplace : s.config.version = .v1 ∧ s.config.channels = .stereo →
      r.position % 8 = r'.position % 8 ∧ r.bitLength % 8 = 0) :
    ∃ q', decode s ⟨r', f⟩ = .ok values ⟨q', t.state⟩ ∧ r'.Moved bits.length q' := by
  have whole : Local (s.config.version = .v1 ∧ s.config.channels = .stereo) (decode s) :=
    local_decode id
  obtain ⟨n, hm, hr⟩ := whole h
  have length : n = bits.length := by
    have := hm.position
    dsimp only at this
    omega
  subst length
  refine hr r' ⟨?_, hplace⟩
  rwa [← List.prefix_iff_eq_take.mp hbits]

/-- A frame with noise, an envelope and levels, in front of other bits and at the end of a reader. -/
theorem decode_of_prefix_hissing : ∃ books, Books.builtIn = .ok books ∧ ∃ values t q',
    decode (.hissing books)
        ⟨.ofList 0 (true :: (hissingData ++ [true, false, true])), .initial .hissing⟩ =
      .ok values t ∧
    t.reader.remaining = [true, false, true] ∧
    decode (.hissing books) ⟨.ofList 3 (true :: hissingData), .initial .hissing⟩ =
      .ok values ⟨q', t.state⟩ ∧
    q'.position = 3 + (true :: hissingData).length := by
  obtain ⟨books, hbooks⟩ := Books.exists_builtIn
  have sound : (FrameState.initial .hissing).Sound (Stream.hissing books).config :=
    FrameState.sound_initial (sound_hissing hbooks).config
  have before : (BitReader.ofList 0 (true :: (hissingData ++ [true, false, true]))).remaining =
      true :: hissingData ++ [true, false, true] := BitReader.remaining_ofList _ _
  obtain ⟨values, t, ht, hrest, -⟩ : ∃ values t, decode (.hissing books)
      ⟨.ofList 0 (true :: (hissingData ++ [true, false, true])), .initial .hissing⟩ =
        .ok values t ∧ _ :=
    exists_decode_hissing hbooks sound before
  -- What is left tells how far the frame goes.
  obtain ⟨n, hm, -⟩ := local_decode id ht
  have left := congrArg List.length hm.remaining
  rw [hrest, before] at left
  simp only [List.length_drop, List.length_append, List.length_cons, List.length_nil] at left
  have taken : t.reader.position = 0 + (true :: hissingData).length := by
    have place : t.reader.position = 0 + n := hm.position
    rw [place, List.length_cons]
    omega
  have first : true :: hissingData <+:
      (BitReader.ofList 0 (true :: (hissingData ++ [true, false, true]))).remaining := by
    rw [before]
    exact List.prefix_append ..
  have second : true :: hissingData <+: (BitReader.ofList 3 (true :: hissingData)).remaining := by
    rw [BitReader.remaining_ofList]
  obtain ⟨q', hq', hm'⟩ := decode_of_prefix ht first taken second (fun h => by cases h.1)
  exact ⟨books, hbooks, values, t, q', ht, hrest, hq', hm'.position⟩

end Frame

end Wma
