import Wma.Proofs.Frame.Rows

/-!
# Frames end in time

From any state that frame decoding comes to, a frame has no more blocks than the shortest ones that
fill it, and a complete frame is filled exactly (`Frame.endsInTime_of_reachable`). Lengths that no
block of the stream has, and blocks that do not fit their frame, are damage wherever they stand.
-/

namespace Wma

open Parse

namespace BlockState

variable {c : Config} {r : BitReader} {b : BlockState} {s : Scan BlockState} {k : Nat}

/-- The stream is damaged: a length is not one of those that blocks have. -/
def BadSelector (c : Config) (e : Error) : Prop :=
  ∃ index, c.sizeCount ≤ index ∧ e = .corrupt (.blockSizeIndex index c.sizeCount)

/-- If a bad selector is ahead, it is read now or later. -/
theorem wp_readBits_of_bad (hc : c.Sound) (hleft : (k + 1) * c.selectorBits ≤ r.left)
    (hbad : c.sizeCount ≤ c.selector r k) {Q : Nat → Scan BlockState → Prop}
    (hlater : ∀ k', k = k' + 1 → ∀ bits q, (k' + 1) * c.selectorBits ≤ q.left →
      c.sizeCount ≤ c.selector q k' → Q bits ⟨q, b⟩) :
    (readBits c).wp Q (fun e _ => BadSelector c e) ⟨r, b⟩ := by
  have narrow := hc.selectorBits_le
  have room : c.selectorBits ≤ r.left := by
    rw [Nat.add_mul, Nat.one_mul] at hleft
    omega
  rcases Nat.lt_or_ge (c.selector r 0) c.sizeCount with good | bad
  · refine wp_readBits hc (by omega) room good fun q hm => ?_
    cases k with
    | zero => omega
    | succ k =>
      have left : q.left + c.selectorBits = r.left := hm.left
      refine hlater k rfl _ q ?_ (by rw [c.selector_moved hm]; exact hbad)
      rw [Nat.add_mul, Nat.one_mul] at hleft
      omega
  · have value : Bits.value (r.remaining.take c.selectorBits) = c.selector r 0 := by
      unfold Config.selector
      rw [Nat.zero_mul, List.drop_zero]
    unfold readBits
    simp only [wp_bind, wp_require]
    refine wp_read_of_le (by omega) room fun q _ => ?_
    dsimp only
    rw [value, if_neg (Nat.not_lt.mpr bad)]
    exact ⟨_, bad, rfl⟩

theorem wp_readLengths_of_bad (hc : c.Sound) (hvar : c.variableBlocks = true)
    (hk : k < if s.state.reset then 3 else 1) (hleft : (k + 1) * c.selectorBits ≤ s.reader.left)
    (hbad : c.sizeCount ≤ c.selector s.reader k) :
    (readLengths c).wp (fun _ _ => False) (fun e _ => BadSelector c e) s := by
  unfold readLengths
  rw [if_pos hvar, wp_bind, wp_state]
  by_cases hreset : s.state.reset = true
  · rw [if_pos hreset] at hk ⊢
    simp only [readReset, wp_bind, wp_update]
    refine wp_readBits_of_bad hc hleft hbad fun k₁ hk₁ prevBits q hleft hbad => ?_
    refine wp_readBits_of_bad hc hleft hbad fun k₂ hk₂ bits q hleft hbad => ?_
    exact wp_readBits_of_bad hc hleft hbad fun k₃ hk₃ => by omega
  · rw [if_neg hreset] at hk ⊢
    simp only [wp_bind, wp_update]
    exact wp_readBits_of_bad hc hleft hbad fun k₁ hk₁ => by omega

/-- A block that does not fit is refused. -/
theorem wp_read_of_overrun (hc : c.Sound) (hs : s.state.Sound c) {t : Scan BlockState}
    (h : readLengths c s = .ok () t) (hover : c.frameLength < t.state.position + 2 ^ t.state.bits) :
    (read c).wp (fun _ _ => False)
      (fun e _ => e = .corrupt (.blockOverrun (2 ^ t.state.bits) t.state.position)) s := by
  have sound := wp_ok (maintains_readLengths (lengthened_sound hc) s hs) h
  have short := sound.bits.le_maxBlockBits hc
  unfold maxBlockBits at short
  refine wp_read_of_readLengths (wp_of_ok h ⟨by omega, ?_⟩)
  dsimp only
  rw [if_neg (Nat.not_le.mpr hover)]

end BlockState

namespace Frame

open BlockState FrameState

/-- How a frame ends: its blocks begin with the one that follows the block state of `sc`. -/
structure EndsInTime (s : Stream) (sc : Scan FrameState) : Prop where
  /-- The blocks of a complete frame follow each other and fill it. -/
  complete : ∀ values t, decode s sc = .ok values t → ∃ bs u, Row s (begin sc) bs u ∧
    t = ⟨u.reader, u.state.shift s.config⟩ ∧
    List.IsChain (Succeeds s.config) ((begin sc).state.block :: bs) ∧
    (bs.map fun b => 2 ^ b.bits).sum = s.config.frameLength ∧
    bs.length ≤ 2 ^ (s.config.sizeCount - 1)
  /-- Where a frame fails, one of its blocks does. -/
  failed : ∀ e t, decode s sc = .error e t → ∃ bs u, Row s (begin sc) bs u ∧
    List.IsChain (Succeeds s.config) ((begin sc).state.block :: bs) ∧
    readBlock s u = .error e t ∧ bs.length + 1 ≤ 2 ^ (s.config.sizeCount - 1)
  /-- A selector without a block size is damage, in any block. -/
  selector : ∀ bs u, Row s (begin sc) bs u → u.state.block.position < s.config.frameLength →
    s.config.variableBlocks = true → ∀ k < (if u.state.block.reset then 3 else 1),
    (k + 1) * s.config.selectorBits ≤ u.reader.left →
    s.config.sizeCount ≤ s.config.selector u.reader k →
    ∃ index t, s.config.sizeCount ≤ index ∧
      decode s sc = .error (.corrupt (.blockSizeIndex index s.config.sizeCount)) t
  /-- So is a block that goes beyond the frame. -/
  overrun : ∀ bs u, Row s (begin sc) bs u → u.state.block.position < s.config.frameLength →
    ∀ v, readLengths s.config ⟨u.reader, u.state.block⟩ = .ok () v →
    s.config.frameLength < v.state.position + 2 ^ v.state.bits →
    ∃ t, decode s sc = .error (.corrupt (.blockOverrun (2 ^ v.state.bits) v.state.position)) t

variable {s : Stream} {sc : Scan FrameState}

theorem wp_readBlock_of_bad {P : Error → Prop}
    (h : (BlockState.read s.config).wp (fun _ _ => False) (fun e _ => P e)
      ⟨sc.reader, sc.state.block⟩) :
    (readBlock s).wp (fun _ _ => False) (fun e _ => P e) sc := by
  unfold readBlock onBlock
  rw [wp_bind, wp_focus]
  exact wp_mono h (fun _ _ h => h.elim) fun _ _ h => h

theorem endsInTime (hc : s.config.Sound) (hx : sc.state.Regular s.config) : EndsInTime s sc where
  complete values t h := by
    obtain ⟨bs, u, row, full, -, ht⟩ := exists_row_of_decode_eq_ok h
    have sum := row.position_eq hc hx.begin
    have inside := (row.regular hc hx.begin).block.2
    refine ⟨bs, u, row, ht, row.isChain hc hx.begin, ?_, (row.length_le hc hx.begin rfl).1⟩
    show _ = _
    have start : (begin sc).state.block.position = 0 := rfl
    omega
  failed e t h := by
    obtain ⟨bs, u, row, lacks, fails⟩ := exists_row_of_decode_eq_error hc hx h
    exact ⟨bs, u, row, row.isChain hc hx.begin, fails, (row.length_le hc hx.begin rfl).2 lacks⟩
  selector bs u row lacks hvar k hk hleft hbad := by
    have refused : (BlockState.read s.config).wp (fun _ _ => False)
        (fun e _ => BadSelector s.config e) ⟨u.reader, u.state.block⟩ := by
      unfold BlockState.read
      rw [wp_bind]
      exact wp_mono (wp_readLengths_of_bad hc hvar hk hleft hbad) (fun _ _ h => h.elim)
        fun _ _ h => h
    obtain ⟨e, t, ht, index, hindex, rfl⟩ :=
      exists_error_of_wp (wp_decode_of_row hc hx row lacks (wp_readBlock_of_bad refused))
    exact ⟨index, t, hindex, ht⟩
  overrun bs u row lacks v hv hover := by
    have sound := (row.regular hc hx.begin).block.1
    obtain ⟨e, t, ht, rfl⟩ := exists_error_of_wp (wp_decode_of_row hc hx row lacks
      (wp_readBlock_of_bad (wp_read_of_overrun hc sound hv hover)))
    exact ⟨t, ht⟩

/-- The lengths of blocks, in every state that frame decoding comes to: after frames that were
complete and frames that failed, after a restart, and after the lengths have been reset.

The three lengths that are known are in the range of the stream, and no block begins behind its
frame. The next frame, off any reader, has at most as many blocks as the shortest ones that fill it.
If it is complete, its blocks add up to the frame, and in a stream whose frames are split each has
the length that the block before announced, the first one that of the state, unless the lengths were
reset. If it fails, one block behind the complete ones does. -/
theorem endsInTime_of_reachable {p : Params} (hconfig : Config.ofParams p = .ok s.config)
    {x : FrameState} (hx : Reachable s x) :
    x.block.InRange s.config ∧ ∀ r : BitReader, EndsInTime s ⟨r, x⟩ := by
  have hc := Config.sound_of_ofParams hconfig
  have regular := hx.regular hc
  exact ⟨regular.block.1.inRange regular.block.2, fun r => endsInTime hc regular⟩

/-- Two blocks of silence. The first announces one of half a frame, the second one of a whole frame. -/
def silentHalves : List Bool :=
  [false, false, true] ++ List.replicate 9 false

/-- A frame of silence that announces a block of half a frame. -/
theorem exists_announced (hs : s.Sound) (hc : s.config = .tiny) : ∃ x, Reachable s x ∧
    x.Sound s.config ∧ x.block.reset = false ∧ x.block.nextBits = 10 := by
  have width : s.config.selectorBits = 3 := by rw [hc, Config.selectorBits_tiny]
  let bits : List Bool := List.replicate 8 false ++ [true, false, false, false]
  have remaining : (BitReader.ofList 0 bits).remaining = bits := BitReader.remaining_ofList _ _
  have selector : ∀ k < 3, s.config.selector (.ofList 0 bits) k = if k = 2 then 1 else 0 := by
    intro k hk
    rw [Config.selector, width, remaining]
    revert k
    decide
  obtain ⟨values, t, ht, -, sound, fixed, -, next⟩ : ∃ values t,
      decode s ⟨.ofList 0 bits, .initial s.config⟩ = .ok values t ∧ _ :=
    exists_of_wp <| wp_decode_silent hs (by rw [hc]; rfl) (by rw [hc]; rfl) (by omega)
      (FrameState.sound_initial hs.config) rfl
      (fun k hk => by rw [selector k hk, hc]; show _ < 5; split <;> omega) (selector 1 (by decide))
      (by rw [width, remaining]; rfl)
  exact ⟨t.state, .decoded .initial ht, sound, fixed, by rw [next, selector 2 (by decide), hc]; rfl⟩

/-- A block of silence whose length was announced, and what it announces itself. -/
theorem exists_readBlock (hs : s.Sound) (hc : s.config = .tiny) (hx : sc.state.Sound s.config)
    (hreset : sc.state.block.reset = false)
    (hfit : sc.state.block.position + 2 ^ sc.state.block.nextBits ≤ 2048) (field bits : List Bool)
    (hbits : sc.reader.remaining = field ++ false :: false :: false :: bits)
    (hwidth : field.length = 3) (hfield : Bits.value field < 5) :
    ∃ t, readBlock s sc = .ok () t ∧ t.reader.remaining = bits ∧ t.state.Sound s.config ∧
      t.state.block.reset = false ∧ t.state.block.nextBits = 11 - Bits.value field ∧
      t.state.block.position = sc.state.block.position + 2 ^ sc.state.block.nextBits := by
  have width : s.config.selectorBits = 3 := by rw [hc, Config.selectorBits_tiny]
  have selector : s.config.selector sc.reader 0 = Bits.value field := by
    rw [Config.selector, width, hbits, ← hwidth, Nat.zero_mul, List.drop_zero, List.take_left]
  have block : (readBlock s).wp (fun _ t => t.reader.remaining = bits ∧ t.state.Sound s.config ∧
      t.state.block.reset = false ∧ t.state.block.nextBits = 11 - Bits.value field ∧
      t.state.block.position = sc.state.block.position + 2 ^ sc.state.block.nextBits)
      (fun _ _ => False) sc := by
    refine wp_readBlock_of_advance hs (by rw [hc]; rfl) (by rw [hc]; rfl) (by omega) hx hreset
      (by rw [hc]; exact hfit) (by rw [selector, hc]; exact hfield) bits
      (by rw [width, hbits, ← hwidth, List.drop_left]) fun t hrest ht hreset' hnext hposition => ?_
    rw [selector, hc] at hnext
    exact ⟨hrest, ht, hreset', hnext, hposition⟩
  obtain ⟨_, t, ht, known⟩ := exists_of_wp block
  exact ⟨t, ht, known⟩

/-- Behind a frame that has announced a block of half a frame, two halves make a frame: the first has
the length that was announced before it, and it announces the second. -/
theorem endsInTime_of_reachable_halves : ∃ s x, s.config = .tiny ∧ Reachable s x ∧
    x.block.nextBits = 10 ∧ x.block.InRange .tiny ∧ ∃ values t,
    decode s ⟨.ofList 0 silentHalves, x⟩ = .ok values t ∧ ∃ bs : List BlockState,
    List.IsChain (Succeeds .tiny) ({ x.block with position := 0 } :: bs) ∧
    bs.map (fun b => 2 ^ b.bits) = [1024, 1024] := by
  obtain ⟨s, hs, hc⟩ := Stream.exists_tiny
  have config : Config.ofParams .tiny = .ok s.config := by rw [hc]; exact Config.ofParams_tiny
  have full : s.config.frameLength = 2048 := by rw [hc]; rfl
  obtain ⟨x, hx, sound, fixed, next⟩ := exists_announced hs hc
  have regular := hx.regular hs.config
  obtain ⟨t, ht, hrest, sound₁, fixed₁, next₁, position₁⟩ : ∃ t,
      readBlock s (begin ⟨.ofList 0 silentHalves, x⟩) = .ok () t ∧ _ :=
    exists_readBlock hs hc sound.begin fixed
      (by show 0 + 2 ^ x.block.nextBits ≤ _; rw [next]; decide)
      [false, false, true] (List.replicate 6 false) (BitReader.remaining_ofList _ _) rfl (by decide)
  have half : t.state.block.position = 1024 := by
    rw [position₁]
    show 0 + 2 ^ x.block.nextBits = _
    rw [next]
  obtain ⟨u, hu, -, -, -, -, position₂⟩ :=
    exists_readBlock hs hc sound₁ fixed₁ (by rw [half, next₁]; decide)
      [false, false, false] [] hrest rfl (by decide)
  have whole : u.state.block.position = 2048 := by
    rw [position₂, half, next₁]
    rfl
  have row : Row s (begin ⟨.ofList 0 silentHalves, x⟩) [t.state.block, u.state.block] u :=
    .cons ht (.cons hu .nil)
  obtain ⟨values, hdecode⟩ := exists_decode_of_row hs.config regular row (by omega)
  obtain ⟨range, ends⟩ := endsInTime_of_reachable config hx
  obtain ⟨bs, v, row', -, chain, sum, -⟩ := (ends _).complete values _ hdecode
  have filled : v.state.block.position = 0 + (bs.map fun b => 2 ^ b.bits).sum :=
    row'.position_eq hs.config regular.begin
  obtain ⟨rfl, rfl⟩ := row'.unique hs.config regular.begin (by omega) row (by omega)
  rw [hc] at range chain
  obtain ⟨first, second⟩ := List.isChain_cons_cons.mp chain
  have lengths₁ : t.state.block.position = 0 + 2 ^ t.state.block.bits := first.position
  have lengths₂ := (List.isChain_cons_cons.mp second).1.position
  refine ⟨s, x, hc, hx, next, range, values, _, hdecode, _, chain, ?_⟩
  rw [List.map_cons, List.map_cons, List.map_nil, show 2 ^ t.state.block.bits = 1024 by omega,
    show 2 ^ v.state.block.bits = 1024 by omega]

end Frame

end Wma
