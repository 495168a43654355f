import Wma.Frame.State
import Wma.Proofs.Spectrum.Dequantize

/-!
# The invariant of frame decoding

`FrameState.SoundAt c B s` says that the buffers of the state `s` have the sizes that the stream `c`
asks for, that what they hold is small, and that the block state is as in `B`. It holds at the start
of a stream (`FrameState.sound_initial`), and a step that keeps it for a lane keeps it for the whole
state (`FrameState.triple_eachChannel`).
-/

namespace Wma

/-- A binary logarithm of a block length of the stream. -/
def Config.IsBlockBits (c : Config) (bits : Nat) : Prop :=
  ∃ k, k < c.sizeCount ∧ bits = c.frameBits - k

namespace Config.IsBlockBits

variable {c : Config} {bits : Nat}

theorem frameBits (hc : c.Sound) : c.IsBlockBits c.frameBits :=
  ⟨0, hc.sizeCount_pos, rfl⟩

theorem minBlockBits_le (hc : c.Sound) (h : c.IsBlockBits bits) : minBlockBits ≤ bits := by
  obtain ⟨k, hk, rfl⟩ := h
  have := hc.sizeCount_le
  omega

theorem le_frameBits (h : c.IsBlockBits bits) : bits ≤ c.frameBits := by
  obtain ⟨k, -, rfl⟩ := h
  omega

theorem le_maxBlockBits (hc : c.Sound) (h : c.IsBlockBits bits) : bits ≤ maxBlockBits :=
  Nat.le_trans h.le_frameBits hc.frameBits_le

theorem length_le (h : c.IsBlockBits bits) : 2 ^ bits ≤ c.frameLength :=
  Nat.pow_le_pow_right (by decide) h.le_frameBits

end Config.IsBlockBits

/-- Binary logarithms of block lengths are those of the stream. -/
structure BlockState.Sound (c : Config) (b : BlockState) : Prop where
  prevBits : c.IsBlockBits b.prevBits
  bits : c.IsBlockBits b.bits
  nextBits : c.IsBlockBits b.nextBits

/-- The block is known, and lies within the frame. -/
structure BlockState.Ready (c : Config) (b : BlockState) : Prop extends b.Sound c where
  length_eq : b.length = 2 ^ b.bits
  inside : b.position + b.length ≤ c.frameLength

/-- The buffers of a channel have their sizes and hold small numbers. -/
structure Channel.Sound (c : Config) (ch : Channel) : Prop where
  levels : Levels.Small c.frameLength ch.levels
  spectrum : ch.spectrum.size = c.frameLength
  envelope_size : ch.envelope.size = c.frameLength
  envelope : ∀ e ∈ ch.envelope, e.toNat < 2 ^ 31
  envelopeSize_lt : ch.envelopeSize < 32
  noiseBands : ch.noiseBands.Sound
  overlap : ch.overlap.size = 2 * c.frameLength

/-- The work buffers have their sizes. -/
structure WorkBuffers.Sound (c : Config) (w : WorkBuffers) : Prop where
  samples : w.samples.size = 2 * c.frameLength
  points : w.points.size = c.frameLength / 2
  curve : w.curve.size = c.frameLength

/-- What one channel works on is sound. -/
structure Lane.Sound (c : Config) (l : Lane) : Prop where
  channel : l.channel.Sound c
  noise : l.noise.IsOf c.noiseDivisor
  work : l.work.Sound c

/-- The layout of the channels that have values. -/
def PerChannel.layout {α : Type} : PerChannel α → ChannelLayout
  | .mono _ => .mono
  | .stereo .. => .stereo

/-- The state is sound, and its block is as in `B`. -/
structure FrameState.SoundAt (c : Config) (B : BlockState → Prop) (s : FrameState) : Prop where
  block : B s.block
  layout : s.channels.layout = c.channels
  channels : ∀ place, (s.channels.get place).Sound c
  noise : s.noise.IsOf c.noiseDivisor
  work : s.work.Sound c

/-- The state is sound. -/
abbrev FrameState.Sound (c : Config) : FrameState → Prop :=
  FrameState.SoundAt c (·.Sound c)

theorem Channel.sound_initial (c : Config) :
    (Channel.initial c.frameLength).Sound c where
  levels := Levels.Small.replicate _
  spectrum := by simp [initial]
  envelope_size := by simp [initial]
  envelope e he := by
    rw [(Array.mem_replicate.mp he).2]
    decide
  envelopeSize_lt := by show 0 < 32; decide
  noiseBands := NoiseBands.sound_none
  overlap := by simp [initial]

theorem BlockState.sound_initial {c : Config} (hc : c.Sound) :
    (BlockState.initial c.frameBits).Sound c :=
  ⟨.frameBits hc, .frameBits hc, .frameBits hc⟩

namespace PerChannel

variable {α : Type}

@[simp] theorem layout_replicate (a : α) (l : ChannelLayout) : (replicate a l).layout = l := by
  cases l <;> rfl

@[simp] theorem layout_set (x : PerChannel α) (place : ChannelPlace) (a : α) :
    (x.set place a).layout = x.layout := by
  cases x <;> cases place <;> rfl

@[simp] theorem layout_map {β : Type} (f : α → β) (x : PerChannel α) :
    (x.map f).layout = x.layout := by
  cases x <;> rfl

@[simp] theorem get_replicate (a : α) (l : ChannelLayout) (place : ChannelPlace) :
    (replicate a l).get place = a := by
  cases l <;> cases place <;> rfl

@[simp] theorem get_map {β : Type} (f : α → β) (x : PerChannel α) (place : ChannelPlace) :
    (x.map f).get place = f (x.get place) := by
  cases x <;> cases place <;> rfl

theorem map_const_eq {x : PerChannel α} {l : ChannelLayout} (h : x.layout = l) (a : α) :
    x.map (fun _ => a) = replicate a l := by
  subst h
  cases x <;> rfl

theorem set_get (x : PerChannel α) (place : ChannelPlace) : x.set place (x.get place) = x := by
  cases x <;> cases place <;> rfl

theorem get_set (x : PerChannel α) (place place' : ChannelPlace) (a : α) :
    (x.set place a).get place' = a ∨ (x.set place a).get place' = x.get place' := by
  cases x <;> cases place <;> cases place' <;> simp [set, get]

end PerChannel

namespace FrameState

variable {c : Config} {B : BlockState → Prop} {s : FrameState}

theorem sound_initial (hc : c.Sound) : (initial c).Sound c where
  block := BlockState.sound_initial hc
  layout := by simp [initial]
  channels place := by
    simp only [initial, PerChannel.get_replicate]
    exact Channel.sound_initial c
  noise := rfl
  work := ⟨by simp [initial, WorkBuffers.initial], by simp [initial, WorkBuffers.initial],
    by simp [initial, WorkBuffers.initial]⟩

namespace SoundAt

theorem mono {B' : BlockState → Prop} (h : s.SoundAt c B) (hB : ∀ b, B b → B' b) :
    s.SoundAt c B' :=
  { h with block := hB _ h.block }

theorem lane (h : s.SoundAt c B) (place : ChannelPlace) : (s.lane place).Sound c :=
  ⟨h.channels place, h.noise, h.work⟩

theorem setLane (h : s.SoundAt c B) (place : ChannelPlace) {l : Lane} (hl : l.Sound c) :
    (s.setLane place l).SoundAt c B where
  block := h.block
  layout := by simp [FrameState.setLane, h.layout]
  channels place' := by
    rcases s.channels.get_set place place' l.channel with h' | h'
    · simp only [FrameState.setLane, h']; exact hl.channel
    · simp only [FrameState.setLane, h']; exact h.channels place'
  noise := hl.noise
  work := hl.work

theorem setBlock (h : s.SoundAt c B) {B' : BlockState → Prop} {b : BlockState} (hb : B' b) :
    SoundAt c B' { s with block := b } :=
  { h with block := hb }

theorem resetLengths (h : s.Sound c) : s.resetLengths.Sound c :=
  { h with block := { h.block with } }

theorem restart (hc : c.Sound) (h : s.Sound c) : (s.restart c).Sound c where
  block := BlockState.sound_initial hc
  layout := by simp [FrameState.restart, h.layout]
  channels place := by
    simp only [FrameState.restart, PerChannel.get_map]
    exact Channel.sound_initial c
  noise := h.noise
  work := h.work

end SoundAt

open Parse

variable {α : Type}

theorem triple_onBlock {J I : BlockState → Prop} {Q : α → BlockState → Prop}
    {p : Parse BlockState α} (h : Triple J I p Q) :
    Triple (SoundAt c J) (SoundAt c I) (onBlock p) fun a => SoundAt c (Q a) :=
  h.focus (fun _ hs => hs.block) (fun _ _ _ hs ht => hs.setBlock ht) fun _ _ hs ht => hs.setBlock ht

/-- A step that keeps every lane sound keeps the whole state sound. -/
theorem triple_eachChannel {B' : BlockState → Prop} (hB : ∀ b, B b → B' b)
    {p : ChannelPlace → Parse Lane Unit}
    (h : ∀ place, Triple (Lane.Sound c) (Lane.Sound c) (p place) fun _ => Lane.Sound c) :
    Triple (SoundAt c B') (SoundAt c B) (eachChannel p) fun _ => SoundAt c B := by
  refine .bind (R := fun _ => SoundAt c B) (.state fun _ hs => hs) fun s => ?_
  refine .forM _ fun place _ => (h place).focus (fun _ hs => hs.lane place) ?_ ?_
  · exact fun _ _ _ hs hl => hs.setLane place hl
  · exact fun _ _ hs hl => (hs.setLane place hl).mono hB

end FrameState

namespace Lane

variable {c : Config}

open Parse

theorem triple_onChannel {α : Type} {J I : Channel → Prop} {Q : α → Channel → Prop}
    {p : Parse Channel α} (h : Triple J I p Q) (hI : ∀ ch, ch.Sound c → I ch)
    (hQ : ∀ a ch, Q a ch → ch.Sound c) (hJ : ∀ ch, J ch → ch.Sound c) :
    Triple (Lane.Sound c) (Lane.Sound c) (onChannel p) fun _ => Lane.Sound c :=
  h.focus (fun _ hl => hI _ hl.channel) (fun a _ _ hl h => { hl with channel := hQ a _ h })
    fun _ _ hl h => { hl with channel := hJ _ h }

theorem triple_whenCoded {p : Parse Lane Unit}
    (h : Triple (Lane.Sound c) (Lane.Sound c) p fun _ => Lane.Sound c) :
    Triple (Lane.Sound c) (Lane.Sound c) (whenCoded p) fun _ => Lane.Sound c :=
  .bind (R := fun _ => Lane.Sound c) (.state fun _ hl => hl) fun _ =>
    .ite (fun _ => h) fun _ => .pure fun _ hl => hl

end Lane

end Wma
