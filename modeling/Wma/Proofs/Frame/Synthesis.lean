import Wma.Proofs.Frame.Rows
import Wma.Proofs.Synthesis.Overlap
import Wma.Proofs.Transform.Scratch

/-!
# What a block adds to its channels

The channels of a stream and the blocks of a channel share their work buffers. Of what these held,
nothing comes into the samples of a block: a transform gives what it gives with clean points
(`Imdct.exists_ofSpectrum`), and silence is written out. What one channel leaves for the other is
left on purpose, and only a side channel without a spectrum takes it. So each channel is given the
samples of its own block, or those of the mid channel (`FrameState.blockSamples`), and its overlap
buffer stays as it was outside the block (`FrameState.synthesize_adds_blockSamples`).
-/

namespace Wma

open Parse

/-! ### The samples of a block -/

namespace Imdct

/-- The samples of the coefficients at the beginning of a spectrum, worked out on clean points. -/
def samples (bits : Nat) (spectrum : Array Int32) : Array Int32 :=
  (full fixedPoint bits (Vector.ofFn fun k => spectrum.getD k 0)
    (Vector.replicate (2 ^ bits) ⟨0, 0⟩)).toArray

end Imdct

/-- The samples of a channel's block. Without a spectrum, the block is silent; but a side channel
takes over the samples `taken` of the mid channel. -/
def Channel.samples (b : BlockState) (place : ChannelPlace) (taken : Array Int32) (c : Channel) :
    Array Int32 :=
  if c.coded then Imdct.samples (b.bits - 1) c.spectrum
  else if b.midSide ∧ place = .second then taken
  else Array.replicate (2 * b.length) 0

theorem Channel.samples_first (b : BlockState) (taken taken' : Array Int32) (c : Channel) :
    c.samples b .first taken = c.samples b .first taken' := by
  simp [samples]

/-- The samples that a block has for each channel. -/
def FrameState.blockSamples (f : FrameState) : ChannelPlace → Array Int32
  | .first => (f.channels.get .first).samples f.block .first #[]
  | .second =>
    let mid := (f.channels.get .first).samples f.block .first #[]
    (f.channels.get .second).samples f.block .second mid

/-- A side channel without a spectrum sounds like the mid channel. -/
theorem FrameState.blockSamples_second {f : FrameState} (hms : f.block.midSide = true)
    (hside : (f.channels.get .second).coded = false) :
    f.blockSamples .second = f.blockSamples .first :=
  (if_neg (by rw [hside]; exact Bool.false_ne_true)).trans (if_pos ⟨hms, rfl⟩)

/-- There is a transform for the block, and the block lies within its frame. -/
structure BlockState.Fits (c : Config) (b : BlockState) : Prop where
  bits : minBlockBits ≤ b.bits ∧ b.bits ≤ maxBlockBits
  measured : b.Measured
  inside : b.position + b.length ≤ c.frameLength

namespace BlockState.Fits

variable {c : Config} {b : BlockState}

theorem bits_le (h : b.Fits c) : b.bits ≤ c.frameBits := by
  have inside := h.inside
  rw [h.measured] at inside
  exact (Nat.pow_le_pow_iff_right (by decide)).mp (Nat.le_trans (Nat.le_add_left _ _) inside)

theorem frameLength_even (h : b.Fits c) : c.frameLength % 2 = 0 := by
  have low := h.bits.1
  have high := h.bits_le
  unfold minBlockBits at low
  unfold Config.frameLength
  rw [show c.frameBits = c.frameBits - 1 + 1 by omega, Nat.pow_succ, Nat.mul_mod_left]

/-- A block has half as many points as coefficients, and twice as many samples. -/
theorem two_pow_eq (h : b.Fits c) :
    2 ^ (b.bits - 1 + 1) = b.length ∧ 2 * 2 ^ (b.bits - 1) = b.length ∧
      2 ^ (b.bits - 1 + 2) = 2 * b.length := by
  have low := h.bits.1
  unfold minBlockBits at low
  have length : 2 ^ (b.bits - 1 + 1) = b.length := by
    rw [Nat.sub_add_cancel (by omega), h.measured]
  refine ⟨length, ?_, ?_⟩
  · rw [← length, Nat.pow_succ, Nat.mul_comm]
  · rw [← length, ← Nat.pow_succ']

end BlockState.Fits

/-- The buffers of a lane have their sizes, whatever they hold. -/
structure Lane.Roomy (c : Config) (l : Lane) : Prop where
  spectrum : l.channel.spectrum.size = c.frameLength
  overlap : l.channel.Roomy c.frameLength
  samples : l.work.samples.size = 2 * c.frameLength
  points : l.work.points.size = c.frameLength / 2

/-- The buffers of all channels have their sizes, whatever they hold. -/
def FrameState.Roomy (c : Config) (f : FrameState) : Prop :=
  ∀ place, (f.lane place).Roomy c

/-- Every block that has been read fits. -/
theorem BlockState.Ready.fits {c : Config} {b : BlockState} (hc : c.Sound) (h : b.Ready c) :
    b.Fits c :=
  ⟨⟨h.bits.minBlockBits_le hc, h.bits.le_maxBlockBits hc⟩, h.length_eq, h.inside⟩

/-- Every state that decoding comes to is roomy. -/
theorem FrameState.SoundAt.roomy {c : Config} {B : BlockState → Prop} {f : FrameState}
    (h : f.SoundAt c B) : f.Roomy c :=
  fun place => ⟨(h.channels place).spectrum, (h.channels place).overlap, h.work.samples,
    h.work.points⟩

/-- A block whose samples are `y` has been overlapped with a channel from `start` on. -/
structure Channel.Added (b : BlockState) (start : Nat) (y : Array Int32) (ch ch' : Channel) :
    Prop where
  overlap : b.shape.overlapAdd ch.overlap start y = .ok ch'.overlap
  size : ch'.overlap.size = ch.overlap.size
  outside : ∀ i, i < start ∨ start + 2 * b.length ≤ i → ch'.overlap[i]? = ch.overlap[i]?
  /-- Nothing but the overlap buffer is another one. -/
  kept : ch' = { ch with overlap := ch'.overlap }

/-! ### The transform of a channel -/

theorem BlockShape.overlapAdd_extract {s : BlockShape} {buffer input : Array Int32} {start : Nat}
    (h : s.samples ≤ input.size) :
    s.overlapAdd buffer start (input.extract 0 s.samples) = s.overlapAdd buffer start input := by
  have slice : ∀ a : Array Int32, s.samples ≤ a.size →
      Buffer.slice a 0 s.samples = .ok (a.extract 0 s.samples) := fun a ha => by
    unfold Buffer.slice
    rw [if_pos (by omega), Nat.zero_add]
  refine overlapAdd_congr ?_
  rw [slice input h, slice _ (by rw [Array.size_extract]; omega), Array.extract_extract, Nat.add_zero,
    Nat.zero_add, Nat.min_self]

/-- Buffers of one size that read the same at a place are the same there. -/
theorem Buffer.getElem?_eq_of_getD {α : Type} {a b : Array α} {i : Nat} {d : α}
    (hsize : a.size = b.size) (h : a.getD i d = b.getD i d) : a[i]? = b[i]? := by
  by_cases hi : i < a.size
  · rw [← Array.getElem_eq_getD (h := hi), ← Array.getElem_eq_getD (h := hsize ▸ hi)] at h
    rw [Array.getElem?_eq_getElem hi, Array.getElem?_eq_getElem (hsize ▸ hi), h]
  · rw [Array.getElem?_eq_none (by omega), Array.getElem?_eq_none (by omega)]

theorem Buffer.head_eq_ofFn {α : Type} {a : Array α} {n : Nat} (d : α) (h : n ≤ a.size) :
    head a n = .ok (Vector.ofFn fun k => a.getD k d) := by
  unfold head
  rw [dif_pos h]
  refine congrArg Except.ok (Vector.ext fun i hi => ?_)
  rw [Vector.getElem_mk, Array.getElem_extract, Vector.getElem_ofFn, Array.getElem_eq_getD d]
  simp

/-- What the points held before a transform does not come into its samples. -/
theorem Imdct.exists_ofSpectrum {bits : Nat} {spectrum : Array Int32}
    {scratch : Array (Phasor Int32)} (hspectrum : 2 ^ (bits + 1) ≤ spectrum.size)
    (hscratch : 2 ^ bits ≤ scratch.size) :
    ∃ points, ofSpectrum bits spectrum scratch = .ok (samples bits spectrum, points) ∧
      points.size = scratch.size := by
  obtain ⟨clean, hclean⟩ : ∃ clean : Vector (Phasor Int32) (2 ^ bits),
    Vector.replicate (2 ^ bits) ⟨0, 0⟩ = clean := ⟨_, rfl⟩
  obtain ⟨input, hinput⟩ : ∃ input : Vector Int32 (2 ^ (bits + 1)),
    (Vector.ofFn fun k => spectrum.getD k 0) = input := ⟨_, rfl⟩
  refine ⟨Buffer.overlay scratch (middle fixedPoint bits input clean).toArray, ?_, ?_⟩
  · unfold ofSpectrum samples full
    rw [Buffer.head_eq_ofFn 0 hspectrum, Buffer.head_eq_ofFn ⟨0, 0⟩ hscratch, hinput, hclean,
      middle_eq fixedPoint bits input clean (Vector.ofFn fun k => scratch.getD k ⟨0, 0⟩)]
    rfl
  · exact Buffer.size_overlay (by rwa [Vector.size_toArray])

theorem Imdct.size_samples (bits : Nat) (spectrum : Array Int32) :
    (samples bits spectrum).size = 2 ^ (bits + 2) :=
  Vector.size_toArray _

namespace Lane

variable {c : Config} {b : BlockState} {l : Lane}

/-- The transform of a channel leaves its samples at the beginning of the work buffers. What stood
there is taken over by a side channel without a spectrum, and written over otherwise. -/
theorem exists_transform (hb : b.Fits c) (place : ChannelPlace) (hl : l.Roomy c) :
    ∃ work, l.transform b place = .ok work ∧
      work.samples.extract 0 (2 * b.length) =
        l.channel.samples b place (l.work.samples.extract 0 (2 * b.length)) ∧
      Roomy c { l with work } := by
  obtain ⟨hlength, hhalf, hcount⟩ := hb.two_pow_eq
  have inside := hb.inside
  have samples := hl.samples
  have points := hl.points
  have spectrum := hl.spectrum
  have room : Buffer.room l.work.samples (2 * b.length) = .ok () := if_pos (by omega)
  -- the samples `x` and the points `p` are written to the work buffers
  have written : ∀ {x : Array Int32} {p : Array (Phasor Int32)}, x.size = 2 * b.length →
      p.size = l.work.points.size →
      (Buffer.overlay l.work.samples x).extract 0 (2 * b.length) = x ∧
        Roomy c { l with work := { l.work with
          samples := Buffer.overlay l.work.samples x, points := p } } := fun hx hp =>
    ⟨Buffer.extract_overlay hx, { hl with
      samples := (Buffer.size_overlay (by omega)).trans samples
      points := hp.trans points }⟩
  unfold transform Channel.samples
  rw [room]
  by_cases coded : l.channel.coded
  · have coefficients : 2 ^ (b.bits - 1 + 1) ≤ l.channel.spectrum.size := by omega
    have places : 2 ^ (b.bits - 1) ≤ l.work.points.size := by omega
    obtain ⟨p, hrun, hp⟩ := Imdct.exists_ofSpectrum coefficients places
    obtain ⟨first, roomy⟩ := written ((Imdct.size_samples _ l.channel.spectrum).trans hcount) hp
    rw [if_pos coded, if_pos coded, hrun]
    exact ⟨_, rfl, first, roomy⟩
  rw [if_neg coded, if_neg coded]
  by_cases taken : b.midSide ∧ place = .second
  · rw [if_pos taken, if_pos taken]
    exact ⟨_, rfl, rfl, hl⟩
  · obtain ⟨first, roomy⟩ := written (x := Array.replicate (2 * b.length) 0) (p := l.work.points)
      Array.size_replicate rfl
    rw [if_neg taken, if_neg taken]
    exact ⟨_, rfl, first, roomy⟩

/-- One channel of a block. -/
theorem exists_synthesize (hb : b.Fits c) (place : ChannelPlace) (hl : l.Roomy c) {start : Nat}
    (hstart : start + b.length / 2 = c.frameLength / 2 + b.position) :
    ∃ m y, l.synthesize c.frameLength b place = .ok m ∧
      l.channel.samples b place (l.work.samples.extract 0 (2 * b.length)) = y ∧
      l.channel.Added b start y m.channel ∧ m.noise = l.noise ∧
      m.work.samples.extract 0 (2 * b.length) = y ∧ m.Roomy c := by
  obtain ⟨work, htransform, hsamples, hwork⟩ := exists_transform hb place hl
  have inside := hb.inside
  have even := hb.frameLength_even
  have overlap : l.channel.overlap.size = 2 * c.frameLength := hl.overlap
  have samples : b.shape.samples = 2 * b.length := congrArg (2 * ·) hb.measured.symm
  have enough : work.samples.size = 2 * c.frameLength := hwork.samples
  have place : difference (c.frameLength / 2 + b.position) (b.length / 2) = .ok start := by
    unfold difference
    rw [if_pos (by omega), ← hstart, Nat.add_sub_cancel]
  have room : start + b.shape.samples ≤ l.channel.overlap.size := by omega
  have whole : b.shape.samples ≤ work.samples.size := by omega
  obtain ⟨overlap', hadd, hsize, hvalues⟩ := BlockShape.exists_overlapAdd hb.bits.2 room whole
  refine ⟨{ l with channel := { l.channel with overlap := overlap' }, work }, _, ?_, rfl,
    ⟨?_, hsize, fun i hi => ?_, rfl⟩, rfl, hsamples, { hwork with overlap := hsize.trans overlap }⟩
  · unfold synthesize
    rw [htransform, place]
    show (b.shape.overlapAdd l.channel.overlap start work.samples >>= _) = _
    rw [hadd]
    rfl
  · rw [← hsamples, ← hadd, ← samples]
    exact BlockShape.overlapAdd_extract whole
  · refine Buffer.getElem?_eq_of_getD hsize ((hvalues i).trans (if_neg ?_))
    omega

end Lane

/-! ### The channels of a block -/

namespace FrameState

variable {c : Config} {f : FrameState}

/-- Synthesis of one channel within the state. -/
theorem focus_synthesize {block : BlockState} {place : ChannelPlace} {m : Lane}
    (h : (f.lane place).synthesize c.frameLength block place = .ok m) (r : BitReader) :
    Parse.focus (lane place) (setLane place)
      (Parse.updateM (·.synthesize c.frameLength block place)) ⟨r, f⟩ =
        .ok () ⟨r, f.setLane place m⟩ := by
  simp only [Parse.focus, Parse.updateM, h]

theorem synthesize_eq_forM (h : checkBlock f.block.bits = .ok ()) (r : BitReader) :
    synthesize c ⟨r, f⟩ = f.channels.places.forM (fun place =>
      Parse.focus (lane place) (setLane place)
        (Parse.updateM (·.synthesize c.frameLength f.block place))) ⟨r, f⟩ := by
  show (Parse.ofExcept (checkBlock f.block.bits) >>= _ : Parse FrameState Unit) ⟨r, f⟩ = _
  rw [h]
  rfl

/-- Whatever the work buffers held, a block is added to the overlap buffer of each channel, and
nothing else in a channel changes. Its samples are those of the channel's own spectrum on clean
buffers, and silence if there is none, but a side channel without a spectrum has those of the mid
channel. -/
theorem synthesize_adds_blockSamples (hb : f.block.Fits c) (hf : f.Roomy c) (r : BitReader) :
    ∃ g start, synthesize c ⟨r, f⟩ = .ok () ⟨r, g⟩ ∧
      start + f.block.length / 2 = c.frameLength / 2 + f.block.position ∧
      (∀ place ∈ f.channels.places, (f.channels.get place).Added f.block start
        (f.blockSamples place) (g.channels.get place)) ∧
      g.block = f.block ∧ g.channels.places = f.channels.places ∧ g.noise = f.noise ∧
      g.Roomy c := by
  have inside := hb.inside
  have even := hb.frameLength_even
  obtain ⟨start, hstart⟩ : ∃ start,
      start + f.block.length / 2 = c.frameLength / 2 + f.block.position :=
    ⟨c.frameLength / 2 + f.block.position - f.block.length / 2, by omega⟩
  rw [synthesize_eq_forM (if_pos hb.bits)]
  obtain ⟨m, y, hm, hy, added, hnoise, hleft, roomy⟩ :=
    Lane.exists_synthesize hb .first (hf .first) hstart
  rw [Channel.samples_first _ _ #[]] at hy
  have first := focus_synthesize hm r
  obtain ⟨block, channels, noise, work⟩ := f
  cases channels with
  | mono only =>
    refine ⟨_, start, bind_of_ok first _, hstart, fun place hplace => ?_, rfl, rfl, hnoise,
      fun place => ?_⟩
    · obtain rfl : place = .first := List.mem_singleton.mp hplace
      subst hy
      exact added
    · cases place <;> exact roomy
  | stereo left right =>
    have waiting : Lane.Roomy c ⟨right, m.noise, m.work⟩ :=
      { hf .second with samples := roomy.samples, points := roomy.points }
    obtain ⟨n, z, hn, hz, added', hnoise', -, roomy'⟩ :=
      Lane.exists_synthesize hb .second waiting hstart
    rw [hleft] at hz
    have second := focus_synthesize (f := setLane .first m ⟨block, .stereo left right, noise, work⟩) hn r
    refine ⟨_, start, (bind_of_ok first _).trans (bind_of_ok second _), hstart, fun place _ => ?_,
      rfl, rfl, hnoise'.trans hnoise, fun place => ?_⟩
    · subst hz hy
      cases place with
      | first => exact added
      | second => exact added'
    · cases place with
      | first => exact { roomy with samples := roomy'.samples, points := roomy'.points }
      | second => exact roomy'

/-- A block of mid and side in the second half of a frame. The side channel has no spectrum, and the
work buffers are full of what other blocks have left. -/
def halfSilent : FrameState where
  block := ⟨11, 10, 10, false, 1024, 1024, true⟩
  channels := .stereo
    { Channel.initial 2048 with spectrum := Array.replicate 2048 1000, coded := true }
    (Channel.initial 2048)
  noise := .ofDivisor Config.tiny.noiseDivisor
  work := ⟨Array.replicate 4096 7, Array.replicate 1024 ⟨3, -3⟩, Array.replicate 2048 .zero⟩

theorem sound_halfSilent : halfSilent.SoundAt .tiny (·.Ready .tiny) where
  block := ⟨⟨⟨0, by decide, rfl⟩, ⟨1, by decide, rfl⟩, ⟨1, by decide, rfl⟩⟩, rfl, by decide⟩
  layout := rfl
  channels place := by
    have initial : (Channel.initial 2048).Sound .tiny := Channel.sound_initial .tiny
    cases place with
    | first => exact { initial with spectrum := Array.size_replicate }
    | second => exact initial
  noise := rfl
  work := ⟨Array.size_replicate, Array.size_replicate, Array.size_replicate⟩

/-- Both channels come out the same. -/
theorem synthesize_adds_blockSamples_halfSilent :
    halfSilent.block.Fits .tiny ∧ halfSilent.Roomy .tiny ∧ ∃ g,
      synthesize .tiny ⟨.ofList 0 [], halfSilent⟩ = .ok () ⟨.ofList 0 [], g⟩ ∧
      (g.channels.get .second).overlap = (g.channels.get .first).overlap := by
  have fits := sound_halfSilent.block.fits (Config.sound_of_ofParams Config.ofParams_tiny)
  have roomy := sound_halfSilent.roomy
  obtain ⟨g, start, run, -, added, -⟩ := synthesize_adds_blockSamples fits roomy (.ofList 0 [])
  have mid := (added .first (by decide)).overlap
  have side := (added .second (by decide)).overlap
  rw [blockSamples_second (f := halfSilent) rfl rfl] at side
  exact ⟨fits, roomy, g, run, Except.ok.inj (side.symm.trans mid)⟩

end FrameState

end Wma
