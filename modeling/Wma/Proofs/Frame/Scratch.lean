import Wma.Proofs.Frame.Runs
import Wma.Proofs.Frame.Sound
import Wma.Proofs.Synthesis.Window
import Wma.Proofs.Transform.Scratch

/-!
# What work buffers held before does not matter

Work buffers of the right sizes are written over before they are read: an envelope takes up all of
the curve that it divides, a transform takes up its points and all samples of a block, and a second
channel that has no samples of its own takes over those of the first. So two runs of frame decoding
that begin with the same but for what the work buffers hold stay the same but for that
(`Stream.hides_sized`).
-/

namespace Wma

open Parse

namespace WorkBuffers

/-- Both have the sizes for the stream. -/
structure Sized (c : Config) (w w' : WorkBuffers) : Prop where
  first : w.Sound c
  second : w'.Sound c

/-- The first `n` samples are the same. -/
structure Share (c : Config) (n : Nat) (w w' : WorkBuffers) : Prop extends Sized c w w' where
  samples : w.samples.extract 0 n = w'.samples.extract 0 n

/-- Samples that are written over the beginning are shared from then on. -/
theorem Sized.share {c : Config} {w w' : WorkBuffers} (h : Sized c w w') {x : Array Int32} {n : Nat}
    (hx : x.size = n) (hroom : n ≤ w.samples.size) {p p' : Array (Phasor Int32)}
    (hp : p.size = w.points.size) (hp' : p'.size = w.points.size) :
    Share c n { w with samples := Buffer.overlay w.samples x, points := p }
      { w' with samples := Buffer.overlay w'.samples x, points := p' } := by
  have same := h.first.samples.trans h.second.samples.symm
  refine ⟨⟨{ h.first with samples := ?_, points := hp.trans h.first.points },
    { h.second with samples := ?_, points := hp'.trans h.first.points }⟩, ?_⟩
  · exact (Buffer.size_overlay (by omega)).trans h.first.samples
  · exact (Buffer.size_overlay (by omega)).trans h.second.samples
  · rw [Buffer.extract_overlay hx, Buffer.extract_overlay hx]

end WorkBuffers

open WorkBuffers (Sized Share)

variable {V : View} {c : Config}

/-! ### Envelopes -/

namespace LinePairs

/-- A curve takes up all of a buffer that has no more room than there are frequencies. -/
theorem curve_eq {cosines : Array Int} (pairs : List Int) {buffer buffer' : Array Gain}
    (hsize : buffer.size = buffer'.size) (hroom : buffer.size ≤ cosines.size) :
    curve cosines pairs buffer = curve cosines pairs buffer' := by
  unfold curve
  rw [← hsize]
  cases hvalues : (cosines.extract 0 buffer.size).mapM (response pairs) with
  | error e => rfl
  | ok values =>
    have size := size_of_mapM hvalues
    rw [Array.size_extract] at size
    show Except.ok (_, Buffer.overlay buffer values) = Except.ok (_, Buffer.overlay buffer' values)
    rw [Buffer.overlay_of_size_le (by omega), Buffer.overlay_of_size_le (by omega)]

theorem alike_ratios {E : Error → Error → Prop} (hE : ∀ e, E e e) {cosines : Array Int}
    (pairs : List Int) {buffer buffer' : Array Gain} {length : Nat}
    (hsize : buffer.size = buffer'.size) (hbuffer : length ≤ buffer.size)
    (hroom : length ≤ cosines.size) :
    Alike (fun x y => x.1 = y.1 ∧ x.2.size = buffer.size ∧ y.2.size = buffer.size) E
      (ratios cosines pairs buffer length) (ratios cosines pairs buffer' length) := by
  have size : (buffer.extract 0 (0 + length)).size = length := by
    rw [Array.size_extract]
    omega
  have size' : (buffer'.extract 0 (0 + length)).size = length := by
    rw [Array.size_extract]
    omega
  have slice : Buffer.slice buffer 0 length = .ok (buffer.extract 0 (0 + length)) :=
    if_pos (by omega)
  have slice' : Buffer.slice buffer' 0 length = .ok (buffer'.extract 0 (0 + length)) :=
    if_pos (by omega)
  unfold ratios
  rw [slice, slice']
  show Alike _ E (curve cosines pairs (buffer.extract 0 (0 + length)) >>= _)
    (curve cosines pairs (buffer'.extract 0 (0 + length)) >>= _)
  rw [← curve_eq pairs (size.trans size'.symm) (by omega)]
  refine .bind (R := fun x y => x = y ∧ x.2.size = length) ?_ ?_
  · cases hcurve : curve cosines pairs (buffer.extract 0 (0 + length)) with
    | error e => exact hE e
    | ok x => exact ⟨rfl, (size_of_curve hcurve).trans size⟩
  rintro ⟨peak, part⟩ _ ⟨rfl, whole⟩
  dsimp only at whole
  refine .bind (R := Eq) (.of_eq hE (fun _ => rfl) rfl) ?_
  rintro recip _ rfl
  refine .bind (R := Eq) (.of_eq hE (fun _ => rfl) rfl) ?_
  rintro out _ rfl
  exact ⟨rfl, Buffer.size_overlay (by omega), (Buffer.size_overlay (by omega)).trans hsize.symm⟩

end LinePairs

theorem BandLayout.length_le_of_mem {c : Config} {bands : BlockBands}
    (h : bands ∈ (ofConfig c).blocks) : bands.length ≤ c.frameLength := by
  simp only [ofConfig, List.mem_toArray, List.mem_map] at h
  obtain ⟨k, -, rfl⟩ := h
  exact Nat.div_le_self _ _

/-! ### Samples -/

namespace Lane

variable {b : BlockState} {place : ChannelPlace} {l m : Lane}

/-- The samples of a block come to be the same, if those that a second channel takes over are. -/
theorem alike_transform (hb : minBlockBits ≤ b.bits) (hm : b.Measured)
    (h : l.Like (Sized c) m)
    (hshare : place = .second → Share c (2 * b.length) l.work m.work) :
    Alike (Share c (2 * b.length)) V.error (l.transform b place) (m.transform b place) := by
  have same : l.work.samples.size = m.work.samples.size :=
    h.work.first.samples.trans h.work.second.samples.symm
  unfold transform Buffer.room
  rw [← same, ← h.channel]
  by_cases room : 2 * b.length ≤ l.work.samples.size
  swap
  · rw [if_neg room]
    exact V.error_refl _
  rw [if_pos room]
  have samples : b.length = 2 ^ b.bits := hm
  have count : 2 ^ (b.bits - 1 + 2) = 2 * b.length := by
    rw [samples, ← Nat.pow_succ']
    congr 1
    unfold minBlockBits at hb
    omega
  have points : l.work.points.size = m.work.points.size :=
    h.work.first.points.trans h.work.second.points.symm
  show Alike _ _ (if l.channel.coded then _ else _) (if l.channel.coded then _ else _)
  split
  · refine (Imdct.alike_ofSpectrum V.error_refl (b.bits - 1) l.channel.spectrum points).bind ?_
    rintro ⟨x, p⟩ ⟨x', p'⟩ ⟨hx, hsize, hp, hp'⟩
    dsimp only at hx
    subst hx
    exact h.work.share (hsize.trans count) room hp hp'
  · split
    · rename_i taken
      exact hshare taken.2
    · exact h.work.share (Array.size_replicate ..) room rfl points.symm

theorem alike_synthesize (hb : minBlockBits ≤ b.bits) (hm : b.Measured) (h : l.Like (Sized c) m)
    (hshare : place = .second → Share c (2 * b.length) l.work m.work) :
    Alike (Like (Share c (2 * b.length))) V.error (l.synthesize c.frameLength b place)
      (m.synthesize c.frameLength b place) := by
  refine (alike_transform hb hm h hshare).bind fun work work' hwork => ?_
  refine .bind (R := Eq) (.of_eq V.error_refl (fun _ => rfl) rfl) ?_
  rintro start _ rfl
  have samples : b.shape.samples = 2 * b.length := congrArg (2 * ·) hm.symm
  have input : Buffer.slice work.samples 0 b.shape.samples =
      Buffer.slice work'.samples 0 b.shape.samples := by
    unfold Buffer.slice
    rw [hwork.first.samples, hwork.second.samples, samples, Nat.zero_add, hwork.samples]
  have overlap : b.shape.overlapAdd l.channel.overlap start work.samples =
      b.shape.overlapAdd m.channel.overlap start work'.samples := by
    rw [h.channel]
    exact BlockShape.overlapAdd_congr input
  refine .bind (R := Eq) (.of_eq V.error_refl (fun _ => rfl) overlap) ?_
  rintro o _ rfl
  exact ⟨by dsimp only; rw [h.channel], h.noise, hwork⟩

end Lane

namespace FrameState

variable {W W' W'' : WorkBuffers → WorkBuffers → Prop} {B : BlockState → Prop}

theorem related_lane {place : ChannelPlace} {p : Parse Lane Unit}
    (h : Related V (Lane.Like W) (Lane.Like W') p p fun _ _ => Lane.Like W'') :
    Related V (LikeAny W) (Like W' B) (Parse.focus (lane place) (setLane place) p)
      (Parse.focus (lane place) (setLane place) p) fun _ _ => Like W'' B :=
  h.focus (fun _ _ h => h.lane place) (fun _ _ _ _ _ _ h hl => h.setLane place hl)
    fun _ _ _ _ h hl => (h.setLane place hl).any

/-- A step on each channel, of which the first makes the work buffers ready for the second. -/
theorem keeps_eachChannel_of_first {p : ChannelPlace → Parse Lane Unit}
    (hW : ∀ w w', W' w w' → W w w')
    (hfirst : Related V (Lane.Like W) (Lane.Like W) (p .first) (p .first) fun _ _ => Lane.Like W')
    (hsecond : Related V (Lane.Like W) (Lane.Like W') (p .second) (p .second)
      fun _ _ => Lane.Like W') :
    Keeps V (LikeAny W) (Like W B) (eachChannel p) := by
  refine Related.bind (R := fun s t s' t' => s.channels = t.channels ∧ Like W B s' t')
    (.state fun _ _ h => ⟨h.channels, h⟩) fun s t => .of_fact (fun _ _ h => h.1) fun hch => ?_
  rw [← hch]
  have done : Related V (LikeAny W) (Like W' B) (pure ()) (pure ())
      fun a b s t => a = b ∧ Like W B s t :=
    .pure fun _ _ h => ⟨rfl, { h with work := hW _ _ h.work }⟩
  refine .mono (P := Like W B) ?_ (fun _ _ h => h.2) (fun _ _ _ _ h => h) fun _ _ h => h
  cases s.channels with
  | mono only => exact .bind (related_lane hfirst) fun _ _ => done
  | stereo left right =>
    exact .bind (related_lane hfirst) fun _ _ => .bind (related_lane hsecond) fun _ _ => done

/-- The first channel of a block leaves the same samples in the work buffers, so that a second one
finds the same. -/
theorem keeps_synthesize :
    Keeps V (LikeAny (Sized c)) (Like (Sized c) BlockState.Measured) (synthesize c) := by
  refine Related.bind (R := fun s t s' t' => (s.block = t.block ∧ s.block.Measured) ∧
    Like (Sized c) BlockState.Measured s' t') (.state fun s t h => ⟨⟨h.block, h.holds⟩, h⟩)
    fun s t => .of_fact (fun _ _ h => h.1) fun ⟨hblock, hm⟩ => ?_
  rw [← hblock]
  refine .bind (R := fun _ _ s' t' => minBlockBits ≤ s.block.bits ∧
    Like (Sized c) BlockState.Measured s' t') ?_ fun _ _ => .of_fact (fun _ _ h => h.1) fun hb => ?_
  · refine .ofExcept (fun _ _ h => h.2.any) fun _ _ h => ?_
    unfold checkBlock
    split
    · rename_i range
      exact ⟨range.1, h.2⟩
    · exact V.error_refl _
  have each := keeps_eachChannel_of_first (V := V) (W := Sized c)
    (B := BlockState.Measured) (p := fun place => Parse.updateM
      (·.synthesize c.frameLength s.block place)) (fun _ _ h => h.toSized)
    (.updateM (fun _ _ h => h) fun l m h => Lane.alike_synthesize hb hm h nofun)
    (.updateM (fun _ _ h => { h with work := h.work.toSized }) fun l m h =>
      Lane.alike_synthesize hb hm { h with work := h.work.toSized } fun _ => h.work)
  exact Related.mono each (fun _ _ h => h.2) (fun _ _ _ _ h => h) fun _ _ h => h

end FrameState

/-- Work buffers of the right sizes give the same, whatever they hold. -/
theorem Stream.hides_sized {s : Stream} (hlayout : s.layout = .ofConfig s.config) :
    s.Hides V (Sized s.config) where
  ratios hpairs bands hb pairs w w' h := by
    rw [hlayout] at hb ⊢
    have length := BandLayout.length_le_of_mem hb
    have first := h.first.curve
    have second := h.second.curve
    have cosines := BandLayout.size_lineCosines hpairs
    refine (LinePairs.alike_ratios V.error_refl pairs (first.trans second.symm) (by omega)
      (by omega)).mono fun x y hxy => ⟨hxy.1, ?_⟩
    exact ⟨{ h.first with curve := hxy.2.1.trans first },
      { h.second with curve := hxy.2.2.trans first }⟩
  synthesize := FrameState.keeps_synthesize

end Wma
