import Wma.Proofs.Frame.Decode
import Wma.Proofs.Frame.Fields

/-!
# States that frame decoding comes to

The state of frame decoding begins with that of a new stream. From then on it is whatever frames
leave that are decoded off any readers, those that fail included, and it may be set back to the
start of a stream or be told to expect a block that states all lengths. What holds of a new stream,
and is kept by whatever is written to the channels, holds of every such state
(`FrameState.Reachable.each`).
-/

namespace Wma

namespace FrameState

/-- The state of frame decoding after some frames of a stream. -/
inductive Reachable (s : Stream) : FrameState → Prop
  | initial : Reachable s (.initial s.config)
  | decoded {x : FrameState} {r : BitReader} {values : Array Int16} {t : Scan FrameState} :
    Reachable s x → Frame.decode s ⟨r, x⟩ = .ok values t → Reachable s t.state
  | failed {x : FrameState} {r : BitReader} {e : Error} {t : Scan FrameState} :
    Reachable s x → Frame.decode s ⟨r, x⟩ = .error e t → Reachable s t.state
  | restart {x : FrameState} : Reachable s x → Reachable s (x.restart s.config)
  | resetLengths {x : FrameState} : Reachable s x → Reachable s x.resetLengths

variable {s : Stream} {I : ChannelPlace → Channel → Prop} {B B' : BlockState → Prop}
  {x : FrameState}

theorem Reachable.sound (hs : s.Sound) (hx : Reachable s x) : x.Sound s.config := by
  induction hx with
  | initial => exact sound_initial hs.config
  | decoded _ h ih => exact (Parse.wp_ok (Frame.triple_decode hs _ ih) h).2.2
  | failed _ h ih => exact (Parse.wp_error (Frame.triple_decode hs _ ih) h).2.2
  | restart _ ih => exact ih.restart hs.config
  | resetLengths _ ih => exact ih.resetLengths

/-- What a new stream has, and decoding keeps, every reachable state has. -/
theorem Reachable.each (hI : ∀ place, Channel.Kept s (I place))
    (hO : ∀ place, Channel.Overlapped s.config.frameLength (I place))
    (hB : Frame.Paces s.config B B')
    (hnew : ∀ place, I place (.initial s.config.frameLength))
    (hstart : B (.initial s.config.frameBits)) (hreset : ∀ b, B b → B { b with reset := true })
    (hx : Reachable s x) : Each I B x := by
  induction hx with
  | initial =>
    refine ⟨fun place => ?_, hstart⟩
    simp only [FrameState.initial, PerChannel.get_replicate]
    exact hnew place
  | decoded _ h ih => exact Parse.wp_ok (Frame.maintains_decode hI hO hB _ ih) h
  | failed _ h ih => exact Parse.wp_error (Frame.maintains_decode hI hO hB _ ih) h
  | restart _ _ =>
    refine ⟨fun place => ?_, hstart⟩
    simp only [FrameState.restart, PerChannel.get_map]
    exact hnew place
  | resetLengths _ ih => exact ⟨ih.channel, hreset _ ih.block⟩

end FrameState

end Wma
