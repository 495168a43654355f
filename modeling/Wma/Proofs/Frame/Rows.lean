import Wma.Proofs.Frame.Blocks
import Wma.Proofs.Frame.Reachable
import Wma.Proofs.Frame.Silence

/-!
# Rows of blocks

A frame is a row of complete blocks (`Frame.Row`), each of which takes the length that the one
before it has announced. None is shorter than the shortest of the stream, so a frame has few of
them. It is complete just if they fill it (`Frame.exists_row_of_decode_eq_ok`,
`Frame.exists_decode_of_row`); where it fails, the block behind a row fails.
-/

namespace Wma

open Parse

/-- The overlap buffer of a channel has room for two frames. -/
def Channel.Roomy (frameLength : Nat) (c : Channel) : Prop :=
  c.overlap.size = 2 * frameLength

variable {s : Stream}

theorem Channel.kept_roomy (frameLength : Nat) : Channel.Kept s (Roomy frameLength) where
  coded _ _ h := h
  noiseBands _ _ h := h
  envelope _ _ _ _ h := h
  levels _ _ h := h
  spectrum _ _ h := h

theorem Channel.overlapped_roomy (frameLength : Nat) :
    Channel.Overlapped frameLength (Roomy frameLength) where
  overlap _ _ hsize h := hsize.trans h
  shift c h := by
    unfold Roomy at h ⊢
    simp only [shift, Array.size_append, Array.size_extract, Array.size_replicate]
    omega

namespace FrameState

/-- The lengths that are known are those of the stream, the block lies within its frame, and there
is room for the samples of a frame and those that reach into the next. -/
abbrev Regular (c : Config) : FrameState → Prop :=
  Each (fun _ => Channel.Roomy c.frameLength) fun b => b.Sound c ∧ b.position ≤ c.frameLength

theorem Reachable.regular (hc : s.config.Sound) {x : FrameState} (hx : Reachable s x) :
    x.Regular s.config := by
  refine hx.each (fun _ => Channel.kept_roomy _) (fun _ => Channel.overlapped_roomy _)
    (BlockState.paces hc) (fun _ => ?_) ⟨BlockState.sound_initial hc, Nat.zero_le _⟩ fun b h => ?_
  · exact Array.size_replicate
  · exact ⟨{ h.1 with }, h.2⟩

theorem Regular.begin {c : Config} {x : FrameState} (hx : x.Regular c) :
    Regular c { x with block := { x.block with position := 0 } } :=
  ⟨hx.channel, { hx.block.1 with }, Nat.zero_le _⟩

/-- There are samples for all values of a frame. -/
theorem Regular.exists_values {c : Config} {x : FrameState} (hx : x.Regular c) :
    ∃ values, x.values c = .ok values := by
  have room : ∀ place, ∃ a,
      Buffer.slice (x.channels.get place).overlap 0 c.frameLength = .ok a := by
    intro place
    have size : (x.channels.get place).overlap.size = 2 * c.frameLength := hx.channel place
    exact ⟨_, if_pos (by omega)⟩
  obtain ⟨left, hleft⟩ := room .first
  obtain ⟨right, hright⟩ := room .second
  refine ⟨Pcm.interleave left right, ?_⟩
  unfold values
  rw [hleft, hright]
  rfl

end FrameState

namespace Frame

open BlockState FrameState

/-- A row of complete blocks, each with what is known of it then. -/
inductive Row (s : Stream) : Scan FrameState → List BlockState → Scan FrameState → Prop
  | nil {sc : Scan FrameState} : Row s sc [] sc
  | cons {sc t u : Scan FrameState} {bs : List BlockState} : readBlock s sc = .ok () t →
    Row s t bs u → Row s sc (t.state.block :: bs) u

variable {sc t u : Scan FrameState} {bs : List BlockState}

/-- A block that is complete comes after the one before it. -/
theorem wp_readBlock_succeeds (hc : s.config.Sound) (hx : sc.state.Regular s.config) :
    (readBlock s).wp (fun _ t => Succeeds s.config sc.state.block t.state.block ∧
      t.state.Regular s.config) (fun _ _ => True) sc := by
  have block := wp_readBlock_of_read (fun _ => Channel.kept_roomy _)
    (fun _ => Channel.overlapped_roomy _) (C := fun _ => True)
    (D := Succeeds s.config sc.state.block)
    (fun b midSide (h : Begun s.config sc.state.block b) => { h with }) (fun _ _ => trivial)
    (fun _ h => h.succeeds) hx.channel (wp_read_begun hc hx.block.1)
  refine wp_mono block (fun _ t ht => ?_) fun _ _ _ => trivial
  exact ⟨ht.block, ht.channel, ht.block.toSound, ht.block.inside⟩

/-- No block fits behind a frame that is full. -/
theorem position_lt_of_readBlock (hc : s.config.Sound) (hx : sc.state.Regular s.config)
    (h : readBlock s sc = .ok () t) : sc.state.block.position < s.config.frameLength := by
  obtain ⟨first, -⟩ := wp_ok (wp_readBlock_succeeds hc hx) h
  have position := first.position
  have inside := first.inside
  have positive := Nat.two_pow_pos t.state.block.bits
  omega

namespace Row

/-- What blocks keep, a row of them does. -/
theorem each {I : ChannelPlace → Channel → Prop} {B B' : BlockState → Prop}
    (hI : ∀ place, Channel.Kept s (I place))
    (hO : ∀ place, Channel.Overlapped s.config.frameLength (I place)) (hB : Paces s.config B B')
    (h : Row s sc bs u) (hx : Each I B sc.state) : Each I B u.state := by
  induction h with
  | nil => exact hx
  | cons hread _ ih => exact ih (wp_ok (maintains_readBlock hI hO hB _ hx) hread)

theorem regular (hc : s.config.Sound) (h : Row s sc bs u) (hx : sc.state.Regular s.config) :
    u.state.Regular s.config :=
  h.each (fun _ => Channel.kept_roomy _) (fun _ => Channel.overlapped_roomy _) (paces hc) hx

/-- Each block of a row comes after the one before it. -/
theorem isChain (hc : s.config.Sound) (h : Row s sc bs u) (hx : sc.state.Regular s.config) :
    List.IsChain (Succeeds s.config) (sc.state.block :: bs) := by
  induction h with
  | nil => exact .singleton _
  | cons hread _ ih =>
    obtain ⟨first, regular⟩ := wp_ok (wp_readBlock_succeeds hc hx) hread
    exact List.isChain_cons_cons.mpr ⟨first, ih regular⟩

/-- A row of blocks goes on by their lengths. -/
theorem position_eq (hc : s.config.Sound) (h : Row s sc bs u) (hx : sc.state.Regular s.config) :
    u.state.block.position =
      sc.state.block.position + (bs.map fun b => 2 ^ b.bits).sum := by
  induction h with
  | nil => simp
  | cons hread _ ih =>
    obtain ⟨first, regular⟩ := wp_ok (wp_readBlock_succeeds hc hx) hread
    rw [ih regular, first.position, List.map_cons, List.sum_cons, Nat.add_assoc]

/-- No block is shorter than the shortest of the stream. -/
theorem length_mul_le (hc : s.config.Sound) (h : Row s sc bs u) (hx : sc.state.Regular s.config) :
    bs.length * 2 ^ (s.config.frameBits - (s.config.sizeCount - 1)) ≤
      (bs.map fun b => 2 ^ b.bits).sum := by
  induction h with
  | nil => simp
  | cons hread _ ih =>
    obtain ⟨first, regular⟩ := wp_ok (wp_readBlock_succeeds hc hx) hread
    have least := Nat.pow_le_pow_right (n := 2) (by decide) first.bits.range.1
    have rest := ih regular
    rw [List.length_cons, Nat.add_mul, List.map_cons, List.sum_cons]
    omega

/-- There are few blocks in a frame. -/
theorem length_le (hc : s.config.Sound) (h : Row s sc bs u) (hx : sc.state.Regular s.config)
    (hstart : sc.state.block.position = 0) : bs.length ≤ 2 ^ (s.config.sizeCount - 1) ∧
      (u.state.block.position < s.config.frameLength →
        bs.length < 2 ^ (s.config.sizeCount - 1)) := by
  have sizes := hc.sizeCount_le
  have sum := h.position_eq hc hx
  have least := h.length_mul_le hc hx
  have inside := (h.regular hc hx).block.2
  have parts : s.config.frameLength = 2 ^ (s.config.sizeCount - 1) *
      2 ^ (s.config.frameBits - (s.config.sizeCount - 1)) := by
    rw [← Nat.pow_add, Nat.add_sub_cancel' (by omega)]
    rfl
  rw [hstart, Nat.zero_add] at sum
  rw [← sum] at least
  constructor
  · rw [parts] at inside
    exact Nat.le_of_mul_le_mul_right (Nat.le_trans least inside) (Nat.two_pow_pos _)
  · intro hlacks
    rw [parts] at hlacks
    exact Nat.lt_of_mul_lt_mul_right (Nat.lt_of_le_of_lt least hlacks)

/-- There is one row of blocks that fills a frame. -/
theorem unique (hc : s.config.Sound) (h : Row s sc bs u) (hx : sc.state.Regular s.config)
    (hfull : s.config.frameLength ≤ u.state.block.position) {bs' : List BlockState}
    {u' : Scan FrameState} (h' : Row s sc bs' u')
    (hfull' : s.config.frameLength ≤ u'.state.block.position) : bs = bs' ∧ u = u' := by
  induction h generalizing bs' with
  | nil =>
    cases h' with
    | nil => exact ⟨rfl, rfl⟩
    | cons hread _ => exact absurd (position_lt_of_readBlock hc hx hread) (Nat.not_lt.mpr hfull)
  | cons hread row ih =>
    cases h' with
    | nil => exact absurd (position_lt_of_readBlock hc hx hread) (Nat.not_lt.mpr hfull')
    | cons hread' row' =>
      cases hread.symm.trans hread'
      obtain ⟨-, regular⟩ := wp_ok (wp_readBlock_succeeds hc hx) hread
      obtain ⟨rfl, rfl⟩ := ih regular hfull row'
      exact ⟨rfl, rfl⟩

end Row

/-! ### Frames as rows -/

theorem exists_row_of_readBlocks_eq_ok : ∀ {limit : Nat} {sc t : Scan FrameState},
    readBlocks s limit sc = .ok () t →
    ∃ bs, Row s sc bs t ∧ s.config.frameLength ≤ t.state.block.position
  | 0, _, _, h => by cases h
  | limit + 1, sc, t, h => by
    unfold readBlocks at h
    obtain ⟨_, u, hu, h⟩ := ok_bind h
    obtain ⟨_, _, hstate, h⟩ := ok_bind h
    obtain ⟨rfl, rfl⟩ := ok_state hstate
    split at h
    · obtain ⟨bs, row, full⟩ := exists_row_of_readBlocks_eq_ok h
      exact ⟨_, .cons hu row, full⟩
    · cases h
      exact ⟨_, .cons hu .nil, by omega⟩

/-- Blocks are never read without end. -/
theorem exists_row_of_readBlocks_eq_error (hc : s.config.Sound) : ∀ {limit : Nat}
    {sc t : Scan FrameState} {e : Error}, sc.state.Regular s.config →
    sc.state.block.position < s.config.frameLength →
    s.config.frameLength ≤ sc.state.block.position + limit → readBlocks s limit sc = .error e t →
    ∃ bs u, Row s sc bs u ∧ u.state.block.position < s.config.frameLength ∧
      readBlock s u = .error e t
  -- The limit counts the samples that are still lacking, and no block is without samples.
  | 0, _, _, _, _, hp, hlimit, _ => by omega
  | limit + 1, sc, t, e, hx, hp, hlimit, h => by
    unfold readBlocks at h
    rcases error_bind h with h | ⟨_, u, hu, h⟩
    · exact ⟨[], sc, .nil, hp, h⟩
    obtain ⟨first, regular⟩ := wp_ok (wp_readBlock_succeeds hc hx) hu
    rcases error_bind h with h | ⟨_, _, hstate, h⟩
    · cases h
    obtain ⟨rfl, rfl⟩ := ok_state hstate
    split at h
    · rename_i lacks
      have positive := Nat.two_pow_pos u.state.block.bits
      have position := first.position
      obtain ⟨bs, v, row, hv, fails⟩ :=
        exists_row_of_readBlocks_eq_error hc regular lacks (by omega) h
      exact ⟨_, v, .cons hu row, hv, fails⟩
    · cases h

/-- A block that fails behind a row of blocks is where the frame fails. -/
theorem wp_readBlocks_of_row (hc : s.config.Sound) {P : Error → Prop} (h : Row s sc bs u)
    (hx : sc.state.Regular s.config) (hlacks : u.state.block.position < s.config.frameLength)
    (hfail : (readBlock s).wp (fun _ _ => False) (fun e _ => P e) u) :
    ∀ {limit : Nat}, s.config.frameLength ≤ sc.state.block.position + limit →
      (readBlocks s limit).wp (fun _ _ => False) (fun e _ => P e) sc := by
  induction h with
  | nil =>
    intro limit hlimit
    obtain ⟨limit, rfl⟩ : ∃ n, limit = n + 1 := ⟨limit - 1, by omega⟩
    unfold readBlocks
    rw [wp_bind]
    exact wp_mono hfail (fun _ _ h => h.elim) fun _ _ h => h
  | @cons sc t u bs hread row ih =>
    intro limit hlimit
    obtain ⟨first, regular⟩ := wp_ok (wp_readBlock_succeeds hc hx) hread
    have position := first.position
    have further := row.position_eq hc regular
    have positive := Nat.two_pow_pos t.state.block.bits
    obtain ⟨limit, rfl⟩ : ∃ n, limit = n + 1 := ⟨limit - 1, by omega⟩
    unfold readBlocks
    rw [wp_bind]
    refine wp_of_ok hread ?_
    rw [wp_bind, wp_state, if_pos (by omega)]
    exact ih regular hlacks hfail (by omega)

/-- The state at the beginning of a frame. -/
def begin (sc : Scan FrameState) : Scan FrameState :=
  ⟨sc.reader, { sc.state with block := { sc.state.block with position := 0 } }⟩

theorem wp_readBlocks_of_full (hc : s.config.Sound) {Q : Unit → Scan FrameState → Prop}
    {E : Error → Scan FrameState → Prop} (h : Row s sc bs u) (hx : sc.state.Regular s.config)
    (hlacks : sc.state.block.position < s.config.frameLength)
    (hfull : s.config.frameLength ≤ u.state.block.position) (hQ : Q () u) :
    ∀ {limit : Nat}, s.config.frameLength ≤ sc.state.block.position + limit →
      (readBlocks s limit).wp Q E sc := by
  induction h with
  | nil => omega
  | @cons sc t u bs hread row ih =>
    intro limit hlimit
    obtain ⟨first, regular⟩ := wp_ok (wp_readBlock_succeeds hc hx) hread
    have position := first.position
    have positive := Nat.two_pow_pos t.state.block.bits
    obtain ⟨limit, rfl⟩ : ∃ n, limit = n + 1 := ⟨limit - 1, by omega⟩
    unfold readBlocks
    rw [wp_bind]
    refine wp_of_ok hread ?_
    rw [wp_bind, wp_state, wp_ite]
    split
    · exact ih regular ‹_› hfull hQ (by omega)
    · cases row with
      | nil => exact hQ
      | cons hread' _ => exact absurd (position_lt_of_readBlock hc regular hread') ‹_›

/-- A frame that is complete is a row of blocks. -/
theorem exists_row_of_decode_eq_ok {values : Array Int16} (h : decode s sc = .ok values t) :
    ∃ bs u, Row s (begin sc) bs u ∧ s.config.frameLength ≤ u.state.block.position ∧
      u.state.values s.config = .ok values ∧ t = ⟨u.reader, u.state.shift s.config⟩ := by
  obtain ⟨_, v, hv, h⟩ := ok_bind h
  cases hv
  obtain ⟨_, u, hu, h⟩ := ok_bind h
  obtain ⟨bs, row, full⟩ := exists_row_of_readBlocks_eq_ok hu
  obtain ⟨_, _, hstate, h⟩ := ok_bind h
  obtain ⟨rfl, rfl⟩ := ok_state hstate
  obtain ⟨values', _, hvalues, h⟩ := ok_bind h
  obtain ⟨given, rfl⟩ := ok_ofExcept hvalues
  cases h
  exact ⟨bs, u, row, full, given, rfl⟩

/-- A row of blocks that fills a frame is a frame. -/
theorem exists_decode_of_row (hc : s.config.Sound) (hx : sc.state.Regular s.config)
    (h : Row s (begin sc) bs u) (hfull : s.config.frameLength ≤ u.state.block.position) :
    ∃ values, decode s sc = .ok values ⟨u.reader, u.state.shift s.config⟩ := by
  obtain ⟨values, hvalues⟩ := (h.regular hc hx.begin).exists_values
  have complete : (decode s).wp (fun v t => v = values ∧ t = ⟨u.reader, u.state.shift s.config⟩)
      (fun _ _ => False) sc := by
    simp only [decode, onBlock, wp_bind, wp_focus, wp_update]
    refine wp_readBlocks_of_full hc h hx.begin (Nat.two_pow_pos _) hfull ?_ (Nat.le_add_left _ _)
    simp only [wp_state, hvalues, wp_ofExcept_ok, wp_pure, and_self]
  obtain ⟨_, _, hdecode, rfl, rfl⟩ := exists_of_wp complete
  exact ⟨_, hdecode⟩

/-- A frame that fails is a row of blocks with one that fails behind it. -/
theorem exists_row_of_decode_eq_error (hc : s.config.Sound) (hx : sc.state.Regular s.config)
    {e : Error} (h : decode s sc = .error e t) :
    ∃ bs u, Row s (begin sc) bs u ∧ u.state.block.position < s.config.frameLength ∧
      readBlock s u = .error e t := by
  rcases error_bind h with h | ⟨_, v, hv, h⟩
  · cases h
  cases hv
  rcases error_bind h with h | ⟨_, u, hu, h⟩
  · exact exists_row_of_readBlocks_eq_error hc hx.begin (Nat.two_pow_pos _) (Nat.le_add_left _ _) h
  obtain ⟨bs, row, full⟩ := exists_row_of_readBlocks_eq_ok hu
  obtain ⟨values, hvalues⟩ := (row.regular hc hx.begin).exists_values
  rcases error_bind h with h | ⟨_, _, hstate, h⟩
  · cases h
  obtain ⟨rfl, rfl⟩ := ok_state hstate
  rw [hvalues] at h
  cases h

theorem wp_decode_of_row (hc : s.config.Sound) {P : Error → Prop} (hx : sc.state.Regular s.config)
    (h : Row s (begin sc) bs u) (hlacks : u.state.block.position < s.config.frameLength)
    (hfail : (readBlock s).wp (fun _ _ => False) (fun e _ => P e) u) :
    (decode s).wp (fun _ _ => False) (fun e _ => P e) sc := by
  simp only [decode, onBlock, wp_bind, wp_focus, wp_update]
  refine wp_mono (wp_readBlocks_of_row hc h hx.begin hlacks hfail (Nat.le_add_left _ _))
    (fun _ _ h => h.elim) fun _ _ h => h

end Frame

end Wma
