import Wma.Proofs.Packet.Refinement

/-!
# What a packet writes

A packet that is decoded writes the values of its frames over the beginning of the buffer and nothing
behind them, and its header counts few frames (`Session.kept_of_decodeSuperframe`).
-/

namespace Wma

open Parse

namespace Buffer

variable {α : Type} {a b c : Array α} {m n : Nat}

/-- At most the first `n` elements of `a` are others in `b`. -/
structure KeptFrom (n : Nat) (a b : Array α) : Prop where
  size : b.size = a.size
  behind : ∀ i, n ≤ i → b[i]? = a[i]?

namespace KeptFrom

theorem refl (n : Nat) (a : Array α) : KeptFrom n a a :=
  ⟨rfl, fun _ _ => rfl⟩

theorem mono (h : KeptFrom m a b) (hmn : m ≤ n) : KeptFrom n a b :=
  ⟨h.size, fun i hi => h.behind i (Nat.le_trans hmn hi)⟩

theorem trans (h : KeptFrom n a b) (h' : KeptFrom n b c) : KeptFrom n a c :=
  ⟨h'.size.trans h.size, fun i hi => (h'.behind i hi).trans (h.behind i hi)⟩

end KeptFrom

theorem kept_of_splice {start : Nat} (h : splice a start b = .ok c) :
    KeptFrom (start + b.size) a c := by
  refine ⟨size_of_splice h, fun i hi => ?_⟩
  unfold splice at h
  split at h
  case isFalse => cases h
  rename_i hroom
  cases h
  have front : (a.extract 0 start ++ b).size = start + b.size := by
    rw [Array.size_append, Array.size_extract]
    omega
  rw [Array.getElem?_append_right (by omega), front, Array.getElem?_extract]
  split
  · congr 1
    omega
  · rw [Array.getElem?_eq_none (by omega)]

end Buffer

open Buffer (KeptFrom)

/-- A frame gives as many values as it should, whatever it is decoded from. -/
theorem Frame.size_of_decode {s : Stream} {sc t : Scan FrameState} {values : Array Int16}
    (h : Frame.decode s sc = .ok values t) : values.size = s.config.frameSamples := by
  obtain ⟨_, _, -, h⟩ := ok_bind h
  obtain ⟨_, _, -, h⟩ := ok_bind h
  obtain ⟨st, _, -, h⟩ := ok_bind h
  obtain ⟨values', _, hvalues, h⟩ := ok_bind h
  obtain ⟨_, _, -, h⟩ := ok_bind h
  cases h
  obtain ⟨hvalues, -⟩ := ok_ofExcept hvalues
  obtain ⟨left, hleft, hvalues⟩ := ok_of_bind hvalues
  obtain ⟨right, hright, hvalues⟩ := ok_of_bind hvalues
  cases hvalues
  rw [FrameState.size_interleave, Buffer.size_of_slice hleft, Buffer.size_of_slice hright,
    Nat.min_self]
  rfl

namespace Session

variable {s : Stream}

theorem kept_of_decodeFrame {index : Nat} {sc t : Scan Session} {a : Unit}
    (h : decodeFrame s index sc = .ok a t) :
    KeptFrom ((index + 1) * s.config.frameSamples) sc.state.pcm t.state.pcm := by
  obtain ⟨values, u, hframe, hwrite⟩ := ok_bind h
  obtain ⟨v, hdecode, rfl⟩ := ok_focus hframe
  obtain ⟨hupdate, -⟩ := ok_updateM hwrite
  obtain ⟨pcm, hpcm, hupdate⟩ := ok_of_bind hupdate
  have kept := Buffer.kept_of_splice hpcm
  rw [Frame.size_of_decode hdecode] at kept
  rw [← Except.ok.inj hupdate, Nat.add_mul, Nat.one_mul]
  exact kept

theorem kept_of_decodeFrames : ∀ {count index : Nat} {sc t : Scan Session} {a : Unit},
    decodeFrames s count index sc = .ok a t →
    KeptFrom ((index + count) * s.config.frameSamples) sc.state.pcm t.state.pcm
  | 0, _, _, _, _, h => by
    cases h
    exact .refl _ _
  | count + 1, index, sc, t, _, h => by
    obtain ⟨_, u, hfirst, hrest⟩ := ok_bind h
    have first := (kept_of_decodeFrame hfirst).mono
      (Nat.mul_le_mul_right s.config.frameSamples (Nat.add_le_add_left (Nat.le_add_left 1 count) index))
    have rest := kept_of_decodeFrames hrest
    rw [Nat.add_right_comm, Nat.add_assoc] at rest
    exact first.trans rest

/-- The reservoir is no part of the buffer. -/
theorem pcm_onReservoir {α : Type} {p : Parse Reservoir α} {sc t : Scan Session} {a : α}
    (h : onReservoir p sc = .ok a t) : t.state.pcm = sc.state.pcm := by
  obtain ⟨u, -, rfl⟩ := ok_focus h
  rfl

theorem kept_of_decodeCarried {bitOffset : Nat} {sc t : Scan Session} {a : Unit}
    (h : decodeCarried s bitOffset sc = .ok a t) :
    KeptFrom s.config.frameSamples sc.state.pcm t.state.pcm := by
  obtain ⟨_, _, hstate, h⟩ := ok_bind h
  cases hstate
  obtain ⟨_, u, happend, h⟩ := ok_bind h
  obtain ⟨_, _, hstate, h⟩ := ok_bind h
  cases hstate
  obtain ⟨v, hinside, rfl⟩ := ok_elsewhere h
  obtain ⟨_, w, hskip, hframe⟩ := ok_bind hinside
  obtain ⟨-, -, hw⟩ := ok_skip hskip
  have kept := kept_of_decodeFrame hframe
  rwa [hw, pcm_onReservoir happend, Nat.zero_add, Nat.one_mul] at kept

theorem kept_of_decodeWhole {packet : Array UInt8} {start count index : Nat} {sc t : Scan Session}
    {a : Unit} (h : decodeWhole s packet start count index sc = .ok a t) :
    KeptFrom ((index + count) * s.config.frameSamples) sc.state.pcm t.state.pcm := by
  obtain ⟨body, _, hbody, h⟩ := ok_bind h
  obtain ⟨-, rfl⟩ := ok_ofExcept hbody
  obtain ⟨u, hinside, rfl⟩ := ok_elsewhere h
  obtain ⟨_, v, hfresh, htail⟩ := ok_bind hinside
  obtain ⟨_, w, hskip, hfresh⟩ := ok_bind hfresh
  obtain ⟨-, -, hw⟩ := ok_skip hskip
  obtain ⟨_, x, hreset, hframes⟩ := ok_bind hfresh
  cases hreset
  have kept := kept_of_decodeFrames hframes
  dsimp only at kept
  rw [hw] at kept
  rwa [(of_keepTail htail).2]

theorem eq_of_requireRoom {count : Nat} {sc t : Scan Session} {a : Unit}
    (h : requireRoom s count sc = .ok a t) : sc = t := by
  obtain ⟨_, _, hstate, h⟩ := ok_bind h
  cases hstate
  dsimp only at h
  split at h
  · cases h
  · cases h
    rfl

theorem kept_of_decodeBody {packet : Array UInt8} {carried : Bool} {h : SuperframeHeader}
    {sc t : Scan Session} {count : Nat} (hbody : decodeBody s packet carried h sc = .ok count t) :
    count = h.frameCount carried ∧
      KeptFrom (count * s.config.frameSamples) sc.state.pcm t.state.pcm := by
  unfold decodeBody at hbody
  split at hbody
  · obtain ⟨payload, _, hpayload, hrest⟩ := ok_bind hbody
    obtain ⟨-, rfl⟩ := ok_ofExcept hpayload
    obtain ⟨_, u, hextend, hdone⟩ := ok_bind hrest
    cases hdone
    rw [pcm_onReservoir hextend]
    exact ⟨rfl, .refl _ _⟩
  rename_i hsome
  obtain ⟨_, u, hrequire, hrest⟩ := ok_bind hbody
  obtain rfl := eq_of_requireRoom hrequire
  split at hrest
  · obtain ⟨_, v, hfirst, hrest⟩ := ok_bind hrest
    obtain ⟨_, w, hothers, hdone⟩ := ok_bind hrest
    cases hdone
    have one : s.config.frameSamples ≤ h.frameCount carried * s.config.frameSamples :=
      Nat.le_mul_of_pos_left _ (Nat.pos_of_ne_zero hsome)
    have others := kept_of_decodeWhole hothers
    rw [Nat.add_sub_cancel' (Nat.pos_of_ne_zero hsome)] at others
    exact ⟨rfl, ((kept_of_decodeCarried hfirst).mono one).trans others⟩
  · obtain ⟨_, v, hothers, hdone⟩ := ok_bind hrest
    cases hdone
    have others := kept_of_decodeWhole hothers
    rw [Nat.zero_add] at others
    exact ⟨rfl, others⟩

/-- A packet writes the values of as many frames as it counts, and a header counts few. -/
theorem kept_of_decodeSuperframe {packet : Array UInt8} {x : Session} {t : Scan Session}
    {count : Nat} (h : decodeSuperframe s packet ⟨.ofBytes packet, x⟩ = .ok count t) :
    count ≤ maxFrames ∧ KeptFrom (count * s.config.frameSamples) x.pcm t.state.pcm := by
  obtain ⟨_, _, hstate, h⟩ := ok_bind h
  cases hstate
  obtain ⟨header, u, hheader, hbody⟩ := ok_bind h
  obtain ⟨-, few, -, hu⟩ := wp_ok (SuperframeHeader.wp_read _ _) hheader
  obtain ⟨rfl, kept⟩ := kept_of_decodeBody hbody
  rw [hu] at kept
  refine ⟨?_, kept⟩
  unfold SuperframeHeader.frameCount maxFrames
  omega

theorem kept_of_decodeSingle {sc t : Scan Session} {count : Nat}
    (h : decodeSingle s sc = .ok count t) :
    count = 1 ∧ KeptFrom (count * s.config.frameSamples) sc.state.pcm t.state.pcm := by
  obtain ⟨_, u, hrequire, h⟩ := ok_bind h
  obtain rfl := eq_of_requireRoom hrequire
  obtain ⟨_, v, hframe, h⟩ := ok_bind h
  cases h
  have kept := kept_of_decodeFrame hframe
  rw [Nat.zero_add] at kept
  exact ⟨rfl, kept⟩

end Session

end Wma
