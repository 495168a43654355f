import Wma.Proofs.Frame.Decode

/-!
# What has been read is decoded

Decoding fails while it reads or not at all. Once the data of a block have been read, its spectra are
worked out (`FrameState.wp_readSpectra`), and its samples are added to those of the blocks before it
(`Frame.wp_finishBlock_coded`). A frame whose blocks are complete gives its values
(`Frame.wp_decode_of_readBlocks`).
-/

namespace Wma

namespace Parse

variable {σ : Type} {s : Scan σ} {E : Error → Scan σ → Prop}

theorem wp_forM_nil {ι : Type} {p : ι → Parse σ Unit} {Q : Unit → Scan σ → Prop} :
    (List.forM [] p).wp Q E s ↔ Q () s :=
  Iff.rfl

theorem wp_forM_cons {ι : Type} {p : ι → Parse σ Unit} {Q : Unit → Scan σ → Prop} {i : ι}
    {l : List ι} :
    ((i :: l).forM p).wp Q E s ↔ (p i).wp (fun _ t => (l.forM p).wp Q E t) E s :=
  wp_bind

theorem wp_forM {ι : Type} {I : Scan σ → Prop} {p : ι → Parse σ Unit} {l : List ι}
    (h : ∀ i s, I s → (p i).wp (fun _ => I) E s) (hs : I s) :
    (l.forM p).wp (fun _ => I) E s := by
  induction l generalizing s with
  | nil => exact hs
  | cons i l ih =>
    exact wp_forM_cons.2 (wp_mono (h i s hs) (fun _ _ ht => ih ht) fun _ _ he => he)

end Parse

open Parse

namespace FrameState

variable {c : Config} {s : Stream} {E : Error → Scan FrameState → Prop} {B : BlockState → Prop}
  {sc : Scan FrameState}

/-- A step for each channel that reads nothing and does not fail. -/
theorem wp_eachChannel {p : ChannelPlace → Parse Lane Unit}
    (hp : ∀ place (u : Scan Lane), u.state.Sound c →
      (p place).wp (fun _ t => t.reader = u.reader ∧ t.state.Sound c) (fun _ _ => False) u)
    (h : sc.state.SoundAt c B) :
    (eachChannel p).wp (fun _ t => t.reader = sc.reader ∧ t.state.SoundAt c B) E sc := by
  simp only [eachChannel, wp_bind, wp_state]
  refine wp_forM (I := fun t => t.reader = sc.reader ∧ t.state.SoundAt c B) (fun place t ht => ?_)
    ⟨rfl, h⟩
  obtain ⟨hreader, ht⟩ := ht
  rw [wp_focus]
  refine wp_mono (hp place _ (ht.lane place)) (fun _ u hu => ?_) fun _ _ he => he.elim
  exact ⟨hu.1.trans hreader, ht.setLane place hu.2⟩

/-- The samples of a block that is known are worked out. -/
theorem wp_synthesize (hc : c.Sound) (h : sc.state.SoundAt c B) (hb : sc.state.block.Ready c) :
    (synthesize c).wp (fun _ t => t.reader = sc.reader ∧ t.state.block = sc.state.block ∧
      t.state.SoundAt c B) E sc := by
  have check : checkBlock sc.state.block.bits = .ok () :=
    if_pos ⟨hb.bits.minBlockBits_le hc, hb.bits.le_maxBlockBits hc⟩
  have here : sc.state.SoundAt c fun b => B b ∧ b = sc.state.block :=
    { h with block := ⟨h.block, rfl⟩ }
  simp only [synthesize, wp_bind, wp_state, check, wp_ofExcept_ok]
  refine wp_mono (wp_eachChannel (fun place u hu => ?_) here) (fun _ t ht => ?_) fun _ _ he => he
  · obtain ⟨l, hl, hsound⟩ := Lane.gives_synthesize hc hb place hu
    rw [wp_updateM, hl]
    exact ⟨rfl, hsound⟩
  · exact ⟨ht.1, ht.2.block.2, ht.2.mono fun _ hb => hb.1⟩

theorem wp_dequantize {scaling : Scaling} {bits : Nat} (hscaling : scaling.Sound c bits)
    (hlength : scaling.bands.length ≤ c.frameLength) (h : sc.state.SoundAt c B) :
    (eachChannel fun _ => Lane.whenCoded (Lane.dequantize scaling)).wp
      (fun _ t => t.reader = sc.reader ∧ t.state.SoundAt c B) E sc := by
  refine wp_eachChannel (fun place u hu => ?_) h
  unfold Lane.whenCoded
  rw [wp_bind, wp_state, wp_ite]
  split
  · obtain ⟨l, hl, hsound⟩ := Lane.gives_dequantize hscaling hlength hu
    unfold Lane.dequantize
    rw [wp_updateM, hl]
    exact ⟨rfl, hsound⟩
  · exact ⟨rfl, hu⟩

/-- Spectra follow from the data of a block. -/
theorem wp_readSpectra (hs : s.Sound) (hB : ∀ b, B b → b.Sound s.config)
    (h : sc.state.SoundAt s.config B) {P : Scaling → Scan FrameState → Prop}
    (hdata : (readData s).wp P E sc) {Q : Unit → Scan FrameState → Prop}
    (hQ : ∀ scaling t u, P scaling t → u.reader = t.reader → u.state.SoundAt s.config B → Q () u) :
    (readSpectra s).wp Q E sc := by
  rw [readSpectra_eq, wp_bind]
  refine wp_mono (wp_and hdata (triple_readData hB hs sc h)) (fun scaling t ht => ?_)
    fun _ _ he => he.1
  obtain ⟨hP, -, ⟨⟨bits, scaled⟩, length⟩, sound⟩ := ht
  rw [wp_bind]
  refine wp_mono (wp_dequantize scaled length sound) (fun _ u hu => ?_) fun _ _ he => he
  obtain ⟨v, hv, separated⟩ := gives_undoMidSide length hu.2
  rw [wp_updateM, hv]
  exact hQ scaling t _ hP hu.1 separated

end FrameState

/-- A state goes to the beginning of a frame. -/
theorem FrameState.SoundAt.begin {c : Config} {x : FrameState} (h : x.Sound c) :
    FrameState.Sound c { x with block := { x.block with position := 0 } } :=
  h.setBlock { h.block with }

namespace Frame

open FrameState

variable {c : Config} {s : Stream} {E : Error → Scan FrameState → Prop} {sc : Scan FrameState}

/-- What is left of a block once it is known which channels are coded. -/
def finishBlock (s : Stream) : Parse FrameState Unit := do
  if (← Parse.state).channels.toList.any (·.coded) then
    readSpectra s
  synthesize s.config
  onBlock <| Parse.update fun b => { b with position := b.position + b.length }

theorem readBlock_eq (s : Stream) : readBlock s = (do
    onBlock (BlockState.read s.config)
    readCoded s.config
    finishBlock s) :=
  rfl

/-- The samples of a block are added to those of the blocks before it. -/
theorem wp_addBlock (hc : c.Sound) (h : sc.state.SoundAt c (·.Ready c))
    {Q : Unit → Scan FrameState → Prop} (hQ : ∀ u, u.reader = sc.reader → u.state.Sound c →
      u.state.block =
        { sc.state.block with position := sc.state.block.position + sc.state.block.length } →
      Q () u) :
    (do
      synthesize c
      onBlock <| Parse.update fun b => { b with position := b.position + b.length }).wp Q E sc := by
  rw [wp_bind]
  refine wp_mono (wp_synthesize hc h h.block) (fun _ u hu => ?_) fun _ _ he => he
  obtain ⟨hreader, hblock, sound⟩ := hu
  have hb := sound.block
  unfold onBlock
  rw [wp_focus, wp_update]
  exact hQ _ hreader (sound.setBlock { hb with }) (by rw [hblock])

theorem wp_finishBlock_silent (hc : s.config.Sound) (h : sc.state.SoundAt s.config (·.Ready s.config))
    (hsilent : sc.state.channels.toList.any (·.coded) = false) {Q : Unit → Scan FrameState → Prop}
    (hQ : ∀ u, u.reader = sc.reader → u.state.Sound s.config → u.state.block =
        { sc.state.block with position := sc.state.block.position + sc.state.block.length } →
      Q () u) :
    (finishBlock s).wp Q E sc := by
  unfold finishBlock
  rw [wp_bind, wp_state, hsilent, if_neg (by decide)]
  exact wp_addBlock hc h hQ

/-- A block that is coded fails only while its data are read. -/
theorem wp_finishBlock_coded (hs : s.Sound) (h : sc.state.SoundAt s.config (·.Ready s.config))
    (hcoded : sc.state.channels.toList.any (·.coded) = true)
    {P : Scaling → Scan FrameState → Prop} (hdata : (readData s).wp P E sc)
    {Q : Unit → Scan FrameState → Prop}
    (hQ : ∀ scaling t u, P scaling t → u.reader = t.reader → u.state.Sound s.config →
      u.state.block =
        { sc.state.block with position := sc.state.block.position + sc.state.block.length } →
      Q () u) :
    (finishBlock s).wp Q E sc := by
  have here : sc.state.SoundAt s.config fun b => b.Ready s.config ∧ b = sc.state.block :=
    { h with block := ⟨h.block, rfl⟩ }
  unfold finishBlock
  rw [wp_bind, wp_state, hcoded, if_pos rfl, wp_bind]
  refine wp_readSpectra hs (fun _ hb => hb.1.toSound) here hdata fun scaling t u hP hreader hu => ?_
  refine wp_addBlock hs.config (hu.mono fun _ hb => hb.1) fun v hreader' hv hblock => ?_
  exact hQ scaling t v hP (hreader'.trans hreader) hv (hu.block.2 ▸ hblock)

/-- A frame that has all its blocks gives its values. -/
theorem wp_decode_of_readBlocks {Q : Array Int16 → Scan FrameState → Prop}
    (h : (readBlocks s s.config.frameLength).wp (fun _ t => t.state.Sound s.config ∧
      ∀ values u, u.reader = t.reader → u.state.block = t.state.block → u.state.Sound s.config →
        Q values u) E ⟨sc.reader, { sc.state with block := { sc.state.block with position := 0 } }⟩) :
    (decode s).wp Q E sc := by
  simp only [decode, onBlock, wp_bind, wp_focus, wp_update]
  refine wp_mono h (fun _ t ht => ?_) fun _ _ he => he
  obtain ⟨sound, hQ⟩ := ht
  obtain ⟨values, hvalues, -⟩ := gives_values sound
  simp only [wp_state, hvalues, wp_ofExcept_ok, wp_pure]
  exact hQ values _ rfl rfl sound.shift

end Frame

end Wma
