import Wma.Proofs.Frame.Runs
import Wma.Proofs.Frame.Spectra
import Wma.Proofs.Parse.Invariant
import Wma.Proofs.Parse.Success
import Wma.Proofs.Synthesis.Window

/-!
# What decoding writes to the channels

Decoding writes to a channel field by field, and what it writes comes from bits that may be damaged.
A property of channels that any such value keeps (`Channel.Kept`, `Channel.Overlapped`) is kept by
decoding as a whole, however it ends (`Frame.maintains_decode`); so one induction over the steps of
decoding serves for every property of channels. Only the steps that read lengths, and those that
count the samples of a frame, change the block (`FrameState.Each`).
-/

namespace Wma

open Parse

/-- The ratios are what some bits hold as the envelope of a block size. -/
def Stream.Ratios (s : Stream) (sizeIndex : Nat) (ratios : Array UInt32) : Prop :=
  ∃ bands, s.layout.blocks[sizeIndex]? = some bands ∧
    ∃ sc t, Lane.readRatios s bands sc = .ok ratios t

/-- The channel with the envelope of a block size, over the beginning of the one that it has. -/
def Channel.withEnvelope (c : Channel) (sizeIndex : Nat) (ratios : Array UInt32) : Channel :=
  { c with
    envelope := Buffer.overlay c.envelope ratios
    envelopeSize := sizeIndex
    hasEnvelope := true }

/-- What is read of a block keeps `I`. -/
structure Channel.Kept (s : Stream) (I : Channel → Prop) : Prop where
  coded : ∀ c coded, I c → I { c with coded }
  noiseBands : ∀ c noiseBands, I c → I { c with noiseBands }
  envelope : ∀ c sizeIndex ratios, s.Ratios sizeIndex ratios → I c →
    I (c.withEnvelope sizeIndex ratios)
  levels : ∀ c levels, I c → I { c with levels }
  spectrum : ∀ c spectrum, I c → I { c with spectrum }

/-- Samples that are overlapped with a channel keep `I`, and so do those that are dropped. -/
structure Channel.Overlapped (frameLength : Nat) (I : Channel → Prop) : Prop where
  overlap : ∀ c overlap, overlap.size = c.overlap.size → I c → I { c with overlap }
  shift : ∀ c, I c → I (c.shift frameLength)

variable {s : Stream} {bands : BlockBands} {sizeIndex : Nat} {I : Channel → Prop}

/-! ### Lanes -/

namespace Lane

theorem maintains_onChannel {α : Type} {p : Parse Channel α} (h : Maintains I p) :
    Maintains (fun l : Lane => I l.channel) (onChannel p) :=
  h.focus (fun _ h => h) fun _ _ _ h => h

theorem maintains_whenCoded {J : Lane → Prop} {p : Parse Lane Unit} (h : Maintains J p) :
    Maintains J (whenCoded p) :=
  .bind .state fun _ => .ite h (.pure ())

theorem maintains_readNoise (hI : Channel.Kept s I) {p : Parse NoiseBands Unit} :
    Maintains (fun l : Lane => I l.channel) (onChannel <| Parse.focus (·.noiseBands)
      (fun n c => { c with noiseBands := n }) p) :=
  maintains_onChannel (.focus_apart fun c n h => hI.noiseBands c n h)

/-- The ratios of an envelope are worked out beside the channel. -/
theorem maintains_readRatios : Maintains (fun l : Lane => I l.channel) (readRatios s bands) := by
  refine .ite (.of_keeps fun _ => SteppedEnvelope.keeps_read (fun _ _ h => h) _ _ _ _) ?_
  refine .bind (.of_keeps fun _ => LinePairs.keeps_read fun _ _ h => h) fun pairs => ?_
  refine .bind .state fun l => .bind (.ofExcept _) fun x => ?_
  exact .bind (.update fun _ h => h) fun _ => .pure x.1

theorem maintains_readEnvelope (hI : Channel.Kept s I)
    (hbands : s.layout.blocks[sizeIndex]? = some bands) :
    Maintains (fun l : Lane => I l.channel) (readEnvelope s sizeIndex bands) := by
  refine .bind .state fun l => .bind (.ofExcept _) fun _ => ?_
  refine .bind_of_ok maintains_readRatios fun ratios sc t ht => ?_
  have read : s.Ratios sizeIndex ratios := ⟨bands, hbands, sc, t, ht⟩
  exact maintains_onChannel (.update fun c h => hI.envelope c sizeIndex ratios read h)

theorem maintains_readLevels (hI : ∀ c levels, I c → I { c with levels }) (book : RunLevelBook)
    (levelBits : Nat) :
    Maintains (fun l : Lane => I l.channel) (readLevels s bands book levelBits) := by
  refine maintains_onChannel (.bind .state fun c => .bind (.ofExcept _) fun count => ?_)
  refine .bind .state fun c => .bind (.ofExcept _) fun _ => ?_
  exact .focus_apart fun c levels h => hI c _ h

theorem maintains_dequantize (hI : Channel.Kept s I) (scaling : Scaling) :
    Maintains (fun l : Lane => I l.channel) (dequantize scaling) := by
  refine .updateM fun l m hl hm => ?_
  obtain ⟨x, -, hm⟩ := ok_of_bind hm
  cases hm
  exact hI.spectrum _ _ hl

/-- Overlapped samples take the places of as many samples. -/
theorem maintains_synthesize {frameLength : Nat} (hI : Channel.Overlapped frameLength I)
    (block : BlockState) (place : ChannelPlace) : Maintains (fun l : Lane => I l.channel)
      (Parse.updateM (·.synthesize frameLength block place)) := by
  refine .updateM fun l m hl hm => ?_
  obtain ⟨work, -, hm⟩ := ok_of_bind hm
  obtain ⟨start, -, hm⟩ := ok_of_bind hm
  obtain ⟨overlap, hoverlap, hm⟩ := ok_of_bind hm
  cases hm
  exact hI.overlap _ _ (BlockShape.size_of_overlapAdd hoverlap) hl

end Lane

/-! ### States -/

namespace FrameState

/-- The channel at each place is as in `I`, and the block as in `B`. -/
structure Each (I : ChannelPlace → Channel → Prop) (B : BlockState → Prop) (x : FrameState) :
    Prop where
  channel : ∀ place, I place (x.channels.get place)
  block : B x.block

variable {I : ChannelPlace → Channel → Prop} {B : BlockState → Prop}

/-- A channel that is alone stands at both places. -/
theorem maintains_eachChannel {p : ChannelPlace → Parse Lane Unit}
    (h : ∀ place place', Maintains (fun l : Lane => I place' l.channel) (p place)) :
    Maintains (Each I B) (eachChannel p) := by
  refine .bind .state fun _ => .forM _ fun place sc hx => ?_
  have each : Maintains (fun l : Lane => ∀ place',
      I place' ((sc.state.channels.set place l.channel).get place')) (p place) := by
    refine .forall_ fun place' => ?_
    cases sc.state.channels with
    | mono only => exact h place place'
    | stereo left right =>
      cases place <;> cases place'
      · exact h .first .first
      · exact .fact (I .second right)
      · exact .fact (I .first left)
      · exact h .second .second
  have start : ∀ place', I place' ((sc.state.channels.set place
      (sc.state.channels.get place)).get place') := by
    intro place'
    rw [PerChannel.set_get]
    exact hx.channel place'
  rw [wp_focus]
  exact wp_mono (each ⟨sc.reader, sc.state.lane place⟩ start) (fun _ t ht => ⟨ht, hx.block⟩)
    fun _ t ht => ⟨ht, hx.block⟩

theorem maintains_readEnvelopes (hI : ∀ place, Channel.Kept s (I place))
    (hbands : s.layout.blocks[sizeIndex]? = some bands) :
    Maintains (Each I B) (readEnvelopes s sizeIndex bands) := by
  refine .bind (.bind .state fun st => .ite (.pure true) .readBit) fun fresh => ?_
  have check : Maintains (Each I B) (do
      let channels := (← Parse.state).channels.toList
      Parse.require (channels.all fun c => !c.coded || c.hasEnvelope) .noEnvelope) :=
    .bind .state fun st => .require
  refine .ite (.bind ?_ fun _ => check) check
  exact maintains_eachChannel fun place place' =>
    Lane.maintains_whenCoded (Lane.maintains_readEnvelope (hI place') hbands)

theorem maintains_readLevels (hI : ∀ place c levels, I place c → I place { c with levels })
    (gain : Int) :
    Maintains (Each I B) (readLevels s bands gain) := by
  refine .bind .state fun st => maintains_eachChannel fun place place' => ?_
  refine .bind (Lane.maintains_whenCoded ?_) fun _ => .ite .align (.pure ())
  exact .bind (.ofExcept _) fun book => Lane.maintains_readLevels (hI place') book _

theorem maintains_readData (hI : ∀ place, Channel.Kept s (I place)) :
    Maintains (Each I B) (readData s) := by
  refine .bind .state fun st => .bind (.ofExcept _) fun sizeIndex => ?_
  cases hbands : s.layout.blocks[sizeIndex]? with
  | none => exact .corrupt _
  | some bands =>
    refine .bind (.of_keeps fun _ => BlockGain.keeps_read fun _ _ h => h) fun gain => ?_
    have noise : ∀ p : Parse NoiseBands Unit, Maintains (Each I B) (eachChannel fun _ =>
        Lane.whenCoded <| Lane.onChannel <| Parse.focus (·.noiseBands)
          (fun n c => { c with noiseBands := n }) p) := fun p =>
      maintains_eachChannel fun place place' =>
        Lane.maintains_whenCoded (Lane.maintains_readNoise (hI place'))
    have finish : Maintains (Each I B) (do
        readEnvelopes s sizeIndex bands
        readLevels s bands gain
        return scaling s st.block.bits sizeIndex bands gain) :=
      .bind (maintains_readEnvelopes hI hbands) fun _ =>
        .bind (maintains_readLevels (fun place => (hI place).levels) gain) fun _ => .pure _
    exact .ite (.bind (noise _) fun _ => .bind (noise _) fun _ => finish) finish

theorem maintains_undoMidSide (hI : ∀ place, Channel.Kept s (I place)) (length : Nat) :
    Maintains (Each I B) (Parse.updateM (undoMidSide length)) := by
  refine .updateM fun y z hy hz => ?_
  obtain ⟨block, channels, noise, work⟩ := y
  cases channels with
  | mono only =>
    cases hz
    exact hy
  | stereo mid side =>
    have kept : ∀ spectrum, I .first { mid with spectrum, coded := true } := fun spectrum =>
      (hI .first).coded _ true ((hI .first).spectrum mid spectrum (hy.channel .first))
    unfold undoMidSide at hz
    dsimp only at hz
    split at hz
    · obtain ⟨⟨left, right⟩, hseparate, hz⟩ := ok_of_bind hz
      obtain ⟨middle, -, hseparate⟩ := ok_of_bind hseparate
      obtain ⟨sides, -, hseparate⟩ := ok_of_bind hseparate
      cases hseparate
      cases hz
      refine ⟨fun place => ?_, hy.block⟩
      cases place with
      | first => exact kept _
      | second => exact (hI .second).spectrum _ _ (hy.channel .second)
    · cases hz
      exact hy

theorem maintains_readSpectra (hI : ∀ place, Channel.Kept s (I place)) :
    Maintains (Each I B) (readSpectra s) := by
  rw [readSpectra_eq]
  refine .bind (maintains_readData hI) fun scaling => .bind ?_ fun _ => maintains_undoMidSide hI _
  exact maintains_eachChannel fun place place' =>
    Lane.maintains_whenCoded (Lane.maintains_dequantize (hI place') scaling)

theorem maintains_synthesize {c : Config}
    (hI : ∀ place, Channel.Overlapped c.frameLength (I place)) :
    Maintains (Each I B) (synthesize c) :=
  .bind .state fun st => .bind (.ofExcept _) fun _ =>
    maintains_eachChannel fun place place' => Lane.maintains_synthesize (hI place') st.block place

theorem maintains_onBlock {α : Type} {p : Parse BlockState α} (h : Maintains B p) :
    Maintains (Each I B) (onBlock p) :=
  h.focus (fun _ hx => hx.block) fun _ _ hx hb => ⟨hx.channel, hb⟩

theorem Each.shift {c : Config} {x : FrameState}
    (hI : ∀ place, Channel.Overlapped c.frameLength (I place)) (hx : Each I B x) :
    Each I B (x.shift c) where
  channel place := by
    simp only [FrameState.shift, PerChannel.get_map]
    exact (hI place).shift _ (hx.channel place)
  block := hx.block

end FrameState

/-! ### Frames -/

namespace Frame

open FrameState

variable {I : ChannelPlace → Channel → Prop} {B : BlockState → Prop}

/-- Which channels are coded is read, and whether they are mid and side. -/
theorem maintains_readCoded (c : Config)
    (hI : ∀ place ch coded, I place ch → I place { ch with coded })
    (hB : ∀ b midSide, B b → B { b with midSide }) : Maintains (Each I B) (readCoded c) := by
  have rest : ∀ midSide : Bool, Maintains (Each I B) (do
      onBlock <| Parse.update fun b => { b with midSide }
      eachChannel fun _ => do
        let coded ← Parse.readBit
        Lane.onChannel <| Parse.update fun c => { c with coded }) := by
    intro midSide
    refine .bind (maintains_onBlock (.update fun b hb => hB b midSide hb)) fun _ => ?_
    refine maintains_eachChannel fun place place' => .bind .readBit fun coded => ?_
    exact Lane.maintains_onChannel (.update fun c h => hI place' c coded h)
  exact .ite (.bind .readBit rest) (.bind (.pure false) rest)

/-- A block as in `B` is followed by one that, once its lengths are read, is as in `B'`, and as in
`B` again when it is complete. -/
structure Paces (c : Config) (B B' : BlockState → Prop) : Prop where
  start : ∀ b, B b → B { b with position := 0 }
  read : ∀ sc : Scan BlockState, B sc.state →
    (BlockState.read c).wp (fun _ t => B' t.state) (fun _ t => B t.state) sc
  midSide : ∀ b midSide, B' b → B' { b with midSide }
  weaken : ∀ b, B' b → B b
  complete : ∀ b, B' b → B { b with position := b.position + b.length }

theorem Paces.any (c : Config) : Paces c (fun _ => True) fun _ => True where
  start _ _ := trivial
  read _ _ := wp_of_result (fun _ _ _ => trivial) fun _ _ _ => trivial
  midSide _ _ _ := trivial
  weaken _ _ := trivial
  complete _ _ := trivial

variable {B' : BlockState → Prop}

/-- What reading the lengths of a block makes of it, the rest of the block leaves as it is. -/
theorem wp_readBlock_of_read (hI : ∀ place, Channel.Kept s (I place))
    (hO : ∀ place, Channel.Overlapped s.config.frameLength (I place)) {C D : BlockState → Prop}
    (hmid : ∀ b midSide, B' b → B' { b with midSide }) (hC : ∀ b, B' b → C b)
    (hD : ∀ b, B' b → D { b with position := b.position + b.length }) {sc : Scan FrameState}
    (hx : ∀ place, I place (sc.state.channels.get place))
    (hread : (BlockState.read s.config).wp (fun _ t => B' t.state) (fun _ t => C t.state)
      ⟨sc.reader, sc.state.block⟩) :
    (readBlock s).wp (fun _ t => Each I D t.state) (fun _ t => Each I C t.state) sc := by
  have finish : Maintains (Each I B') (synthesize s.config) := maintains_synthesize hO
  have spectra : Maintains (Each I B') (readSpectra s) := maintains_readSpectra hI
  have coded : Maintains (Each I B') (readCoded s.config) :=
    maintains_readCoded _ (fun place ch coded h => (hI place).coded ch coded h) hmid
  have failed : ∀ y, Each I B' y → Each I C y := fun y hy => ⟨hy.channel, hC _ hy.block⟩
  have last : ∀ u : Scan FrameState, Each I B' u.state → (do
      synthesize s.config
      onBlock <| Parse.update fun b => { b with position := b.position + b.length }
      : Parse FrameState Unit).wp (fun _ t => Each I D t.state)
        (fun _ t => Each I C t.state) u := by
    intro u hu
    rw [wp_bind]
    refine wp_mono (finish u hu) (fun _ v hv => ?_) fun _ v hv => failed _ hv
    exact ⟨hv.channel, hD _ hv.block⟩
  unfold readBlock onBlock
  rw [wp_bind, wp_focus]
  refine wp_mono hread (fun _ t ht => ?_) fun _ t ht => ⟨hx, ht⟩
  rw [wp_bind]
  refine wp_mono (coded _ ⟨hx, ht⟩) (fun _ u hu => ?_) fun _ u hu => failed _ hu
  rw [wp_bind, wp_state, wp_ite]
  split
  · rw [wp_bind]
    exact wp_mono (spectra u hu) (fun _ v hv => last v hv) fun _ v hv => failed _ hv
  · exact last u hu

theorem maintains_readBlock (hI : ∀ place, Channel.Kept s (I place))
    (hO : ∀ place, Channel.Overlapped s.config.frameLength (I place))
    (hB : Paces s.config B B') : Maintains (Each I B) (readBlock s) := fun sc hx =>
  wp_readBlock_of_read hI hO hB.midSide hB.weaken hB.complete hx.channel
    (hB.read ⟨sc.reader, sc.state.block⟩ hx.block)

theorem maintains_readBlocks (hI : ∀ place, Channel.Kept s (I place))
    (hO : ∀ place, Channel.Overlapped s.config.frameLength (I place))
    (hB : Paces s.config B B') (limit : Nat) : Maintains (Each I B) (readBlocks s limit) := by
  induction limit with
  | zero => exact .ofExcept _
  | succ limit ih =>
    exact .bind (maintains_readBlock hI hO hB) fun _ => .bind .state fun st => .ite ih (.pure ())

/-- Decoding a frame keeps what any values keep that it writes, however it ends. -/
theorem maintains_decode (hI : ∀ place, Channel.Kept s (I place))
    (hO : ∀ place, Channel.Overlapped s.config.frameLength (I place))
    (hB : Paces s.config B B') : Maintains (Each I B) (decode s) := by
  refine .bind (maintains_onBlock (.update hB.start)) fun _ => ?_
  refine .bind (maintains_readBlocks hI hO hB _) fun _ => ?_
  refine .bind .state fun st => .bind (.ofExcept _) fun values => ?_
  exact .bind (.update fun _ hx => hx.shift hO) fun _ => .pure values

end Frame

end Wma
