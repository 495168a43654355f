import Wma.Proofs.Packet.Queue
import Wma.Proofs.Packet.Safety
import Wma.Proofs.Parse.Success

/-!
# The reservoir is a queue of bits

The bytes of a reservoir from its bit offset on are the bits that wait in a `BitQueue`
(`Session.queue`). Each operation of a packet that succeeds is then one of the queue: the reservoir
grows by the bits that are read, the frame in it ends where the header says, and what comes behind
the last frame waits for the next packet (`Session.step_of_decodeSuperframe`).
-/

namespace Wma

open Parse

/-! ### The reservoir -/

namespace Reservoir

/-- The bits that wait. -/
def pending (r : Reservoir) : List Bool :=
  (Bits.ofBytes r.bytes).drop r.bitOffset

theorem pending_append {r : Reservoir} (hr : r.Sound) (bytes : Array UInt8) :
    pending { r with bytes := r.bytes ++ bytes } = r.pending ++ Bits.ofBytes bytes := by
  have skipped := hr.bitOffset_le
  unfold pending
  dsimp only
  rw [Bits.ofBytes_append, List.drop_append_of_le_length (by simpa using skipped)]

theorem isEmpty_pending {r : Reservoir} (hr : r.Sound) : r.pending.isEmpty = r.isEmpty := by
  have skipped := hr.bitOffset_le
  have phase := hr.bitOffset_lt
  have length : r.pending.length = 8 * r.bytes.size - r.bitOffset := by simp [pending]
  rw [Bool.eq_iff_iff, List.isEmpty_iff_length_eq_zero, isEmpty, Array.isEmpty_iff_size_eq_zero]
  omega

/-- What a reservoir has become once `bits` have been appended and its last byte has been filled. -/
structure Grown (r : Reservoir) (bits : List Bool) (r' : Reservoir) : Prop where
  bitOffset : r'.bitOffset = r.bitOffset
  bytes : ∃ m < 8, Bits.ofBytes r'.bytes =
    Bits.ofBytes r.bytes ++ bits ++ List.replicate m false

theorem ofBytes_push (bytes : Array UInt8) {bits : List Bool} (h : bits.length = 8) :
    Bits.ofBytes (bytes.push (UInt8.ofNat (Bits.value bits))) = Bits.ofBytes bytes ++ bits := by
  rw [Array.push_eq_append, Bits.ofBytes_append, Bits.ofBytes_byte h]

theorem of_appendBytes : ∀ {count : Nat} {s t : Scan Reservoir} {a : Unit},
    appendBytes count s = .ok a t →
    8 * count ≤ s.reader.left ∧ s.reader.Moved (8 * count) t.reader ∧
      t.state.bitOffset = s.state.bitOffset ∧
      Bits.ofBytes t.state.bytes =
        Bits.ofBytes s.state.bytes ++ s.reader.remaining.take (8 * count)
  | 0, _, _, _, h => by
    cases h
    exact ⟨Nat.zero_le _, ⟨rfl, rfl, rfl⟩, rfl, by simp⟩
  | count + 1, s, t, _, h => by
    obtain ⟨byte, u, hbyte, h⟩ := ok_bind h
    obtain ⟨hleft, rfl, hm, hstate⟩ := ok_read hbyte
    obtain ⟨_, v, hpush, h⟩ := ok_bind h
    cases hpush
    obtain ⟨hleft', hm', hoffset, hbytes⟩ := of_appendBytes h
    have left := hm.left
    have width : (s.reader.remaining.take 8).length = 8 := by simp; omega
    dsimp only at hleft' hm' hoffset hbytes
    rw [hstate] at hoffset hbytes
    rw [ofBytes_push _ width, hm.remaining, List.append_assoc] at hbytes
    refine ⟨by omega, ?_, hoffset, ?_⟩
    · rw [show 8 * (count + 1) = 8 + 8 * count by omega]
      exact hm.trans hm'
    · rw [hbytes, show 8 * (count + 1) = 8 + 8 * count by omega, List.take_add]

/-- The last bits are followed by zeros up to the end of their byte. -/
theorem of_appendBits {count : Nat} {s t : Scan Reservoir} {a : Unit}
    (h : appendBits count s = .ok a t) :
    count ≤ s.reader.left ∧ s.reader.Moved count t.reader ∧
      s.state.Grown (s.reader.remaining.take count) t.state := by
  obtain ⟨_, _, hstate, hrequire⟩ := ok_bind h
  obtain ⟨rfl, rfl⟩ := ok_state hstate
  obtain ⟨_, _, hroom, happend⟩ := ok_bind hrequire
  obtain ⟨-, rfl⟩ := ok_require hroom
  obtain ⟨_, u, hwhole, hlast⟩ := ok_bind happend
  obtain ⟨hleft, hm, hoffset, hbytes⟩ := of_appendBytes hwhole
  have left := hm.left
  split at hlast
  · obtain ⟨value, v, hread, hpush⟩ := ok_bind hlast
    obtain ⟨hleft', rfl, hm', hv⟩ := ok_read hread
    cases hpush
    have width : (u.reader.remaining.take (count % 8)).length = count % 8 := by simp; omega
    have full : (u.reader.remaining.take (count % 8) ++
        List.replicate (8 - count % 8) false).length = 8 := by
      rw [List.length_append, width, List.length_replicate]; omega
    have whole : 8 * (count / 8) + count % 8 = count := by omega
    refine ⟨by omega, ?_, ⟨?_, 8 - count % 8, by omega, ?_⟩⟩
    · have := hm.trans hm'
      rwa [whole] at this
    · show v.state.bitOffset = _
      rw [hv, hoffset]
    · show Bits.ofBytes (v.state.bytes.push _) = _
      rw [hv, ← Bits.value_append_zeros, ofBytes_push _ full, hbytes, hm.remaining,
        List.append_assoc, List.append_assoc, ← List.append_assoc (List.take _ _), ← List.take_add,
        whole]
  · cases hlast
    have whole : 8 * (count / 8) = count := by omega
    rw [whole] at hleft hm hbytes
    exact ⟨hleft, hm, hoffset, 0, by decide, by simpa using hbytes⟩

theorem of_extend {bytes : Array UInt8} {s t : Scan Reservoir} {a : Unit}
    (h : extend bytes s = .ok a t) : t.state = { s.state with bytes := s.state.bytes ++ bytes } := by
  obtain ⟨_, _, hstate, hrequire⟩ := ok_bind h
  obtain ⟨rfl, rfl⟩ := ok_state hstate
  obtain ⟨_, _, hroom, hupdate⟩ := ok_bind hrequire
  obtain ⟨-, rfl⟩ := ok_require hroom
  cases hupdate
  rfl

/-- A reader of what a reservoir held and of the bits that were appended, behind the bits that do not
belong to the frame. -/
theorem Grown.remaining {r r' : Reservoir} {bits : List Bool} (h : r.Grown bits r')
    (hr : r.Sound) {q : BitReader}
    (hq : (BitReader.ofBits r'.bytes (8 * r.size + bits.length)).Moved r'.bitOffset q) :
    q.remaining = r.pending ++ bits := by
  have skipped := hr.bitOffset_le
  obtain ⟨m, -, hm⟩ := h.bytes
  have inside := congrArg List.length hm
  simp only [Bits.length_ofBytes, List.length_append, List.length_replicate] at inside
  have cut : min (8 * r.size + bits.length) (8 * r'.bytes.size) =
      (Bits.ofBytes r.bytes ++ bits).length := by
    rw [List.length_append, Bits.length_ofBytes]
    unfold size
    omega
  rw [hq.remaining, h.bitOffset]
  show (((Bits.ofBytes r'.bytes).take (min (8 * r.size + bits.length) _)).drop 0).drop _ = _
  rw [cut, hm, List.take_left, List.drop_zero, List.drop_append_of_le_length (by simpa using skipped)]
  rfl

end Reservoir

/-! ### The header -/

namespace SuperframeHeader

theorem of_read {σ : Type} {offsetBits : Nat} {carried : Bool} {s t : Scan σ}
    {h : SuperframeHeader} (hs : s.reader.position = 0)
    (hread : read offsetBits carried s = .ok h t) :
    h = ofBits offsetBits carried s.reader.remaining ∧ s.reader.Moved h.width t.reader ∧
      t.state = s.state ∧ h.bitOffset ≤ t.reader.left ∧
      (h.frameCount carried = 0 → h.width = 8) := by
  obtain ⟨_, u, hskip, hrest⟩ := ok_bind hread
  obtain ⟨-, hm, hu⟩ := ok_skip hskip
  obtain ⟨count, v, hcount, hrest⟩ := ok_bind hrest
  obtain ⟨-, hvalue, hm', hv⟩ := ok_read hcount
  obtain ⟨_, _, hrequire, hrest⟩ := ok_bind hrest
  obtain ⟨hsome, rfl⟩ := ok_require hrequire
  have moved := hm.trans hm'
  have place := moved.position
  rw [hm.remaining] at hvalue
  unfold ofBits
  rw [← hvalue]
  dsimp only
  split at hrest
  · rename_i hidle
    obtain ⟨_, _, hreader, hrest⟩ := ok_bind hrest
    cases hreader
    obtain ⟨_, _, hrequire, hrest⟩ := ok_bind hrest
    obtain ⟨-, rfl⟩ := ok_require hrequire
    cases hrest
    have width : t.reader.position = 8 := by omega
    rw [if_pos hidle, width]
    exact ⟨rfl, moved, hv.trans hu, Nat.zero_le _, fun _ => rfl⟩
  · rename_i hidle
    obtain ⟨bitOffset, w, hoffset, hrest⟩ := ok_bind hrest
    obtain ⟨-, hvalue', hm'', hw⟩ := ok_read hoffset
    obtain ⟨_, _, hreader, hrest⟩ := ok_bind hrest
    cases hreader
    obtain ⟨_, _, hrequire, hrest⟩ := ok_bind hrest
    obtain ⟨hinside, rfl⟩ := ok_require hrequire
    cases hrest
    have moved' := moved.trans hm''
    have width : t.reader.position = 8 + (offsetBits + 3) := by
      have := moved'.position
      omega
    rw [moved.remaining] at hvalue'
    rw [if_neg hidle, width, ← hvalue']
    refine ⟨rfl, moved', hw.trans (hv.trans hu), hinside, fun hzero => absurd hzero ?_⟩
    unfold frameCount idleCount at *
    cases carried <;> simp at hsome hidle ⊢ <;> omega

end SuperframeHeader

/-! ### Frames -/

theorem Buffer.eq_of_rest {α : Type} {a b : Array α} {start : Nat} (h : rest a start = .ok b) :
    b = a.extract start a.size := by
  unfold rest at h
  split at h <;> cases h
  rfl

@[simp] theorem Buffer.overlay_empty {α : Type} (a : Array α) : overlay a #[] = a := by
  simp [overlay]

/-- What is written behind the beginning of a buffer makes the beginning longer. -/
theorem Buffer.splice_overlay {α : Type} {a b out c : Array α}
    (h : splice (overlay a out) out.size b = .ok c) : c = overlay a (out ++ b) := by
  unfold splice at h
  split at h
  · cases h
    have beyond : out.toList.drop (out.size + b.size) = [] :=
      List.drop_eq_nil_of_le (by simp)
    have whole : min (out.size + (a.size - out.size)) a.size = a.size := by omega
    apply Array.toList_inj.mp
    simp [overlay, beyond, whole]
  · cases h

namespace Session

open BitQueue (join)

variable {s : Stream} {n : Nat} {x : Session}

/-- The queue that a session stands for. -/
def queue (x : Session) : BitQueue :=
  ⟨x.frames, x.reservoir.pending, x.reservoir.bitOffset⟩

theorem of_decodeFrame (hs : s.Sound) {index : Nat} {sc t : Scan Session} {a : Unit}
    (hx : sc.state.Sound s n) (h : decodeFrame s index sc = .ok a t) :
    ∃ values k,
      Frame.decodeBits s (sc.reader.position % 8) sc.reader.remaining sc.state.frames =
        some (values, t.state.frames, k) ∧
      sc.reader.Moved k t.reader ∧ values.size = s.config.frameSamples ∧
      t.state.reservoir = sc.state.reservoir ∧
      Buffer.splice sc.state.pcm (index * s.config.frameSamples) values = .ok t.state.pcm := by
  obtain ⟨values, u, hframe, hwrite⟩ := ok_bind h
  obtain ⟨v, hdecode, rfl⟩ := ok_focus hframe
  have sound := wp_ok (Frame.triple_decode hs ⟨sc.reader, sc.state.frames⟩ hx.frames) hdecode
  obtain ⟨k, hbits, hm⟩ := Frame.decodeBits_of_ok hdecode
  obtain ⟨reader, state⟩ := t
  obtain ⟨hupdate, rfl⟩ := ok_updateM hwrite
  obtain ⟨pcm, hpcm, hupdate⟩ := ok_of_bind hupdate
  cases hupdate
  exact ⟨values, k, hbits, hm, sound.2.1, rfl, hpcm⟩

/-- Frames in a row, behind `out.size` values of the buffer that are written already. -/
theorem of_decodeFrames (hs : s.Sound) {bits : List Bool} {pcm : Array Int16} :
    ∀ {count index : Nat} (start : Nat) {out : Array Int16} {sc t : Scan Session} {a : Unit},
    decodeFrames s count index sc = .ok a t → (index + count) * s.config.frameSamples ≤ pcm.size →
    sc.state.Sound s pcm.size → sc.reader.remaining = bits.drop start →
    sc.reader.position % 8 = start % 8 → out.size = index * s.config.frameSamples →
    sc.state.pcm = Buffer.overlay pcm out →
    ∃ row k, FrameRow.decode s bits count start sc.state.frames = some row ∧
      row.stop = start + k ∧ sc.reader.Moved k t.reader ∧ t.state.frames = row.frames ∧
      t.state.reservoir = sc.state.reservoir ∧
      row.values.length = count ∧ t.state.pcm = Buffer.overlay pcm (out ++ join row.values)
  | 0, _, start, out, _, _, _, h, _, _, _, _, _, hpcm => by
    cases h
    exact ⟨⟨[], [], _, start⟩, 0, rfl, rfl, ⟨rfl, rfl, rfl⟩, rfl, rfl, rfl, by simp [join, hpcm]⟩
  | count + 1, index, start, out, sc, t, _, h, hroom, hx, hbits, hphase, hout, hpcm => by
    obtain ⟨_, u, hfirst, hrest⟩ := ok_bind h
    have one : (index + 1) * s.config.frameSamples ≤ pcm.size :=
      Nat.le_trans (Nat.mul_le_mul_right _ (by omega)) hroom
    have hsound := (wp_ok (triple_decodeFrame hs one sc hx) hfirst).2
    obtain ⟨values, k, hframe, hm, hsize, hreservoir, hwrite⟩ := of_decodeFrame hs hx hfirst
    have written : u.state.pcm = Buffer.overlay pcm (out ++ values) := by
      rw [hpcm, ← hout] at hwrite
      exact Buffer.splice_overlay hwrite
    have phase := hm.position
    obtain ⟨row, k', hrow, hstop, hm', hframes, hreservoir', hlength, hjoined⟩ :=
      of_decodeFrames hs (start + k) hrest (by rwa [Nat.add_right_comm, Nat.add_assoc])
        hsound (by rw [hm.remaining, hbits, List.drop_drop]) (by omega)
        (by rw [Array.size_append, hout, hsize, Nat.add_mul, Nat.one_mul]) written
    refine ⟨{ row with
      values := values :: row.values
      taken := (bits.drop start).take k :: row.taken }, k + k', ?_, ?_, hm.trans hm', hframes,
      hreservoir'.trans hreservoir, by simp [hlength], ?_⟩
    · unfold FrameRow.decode
      rw [hbits, hphase] at hframe
      rw [hframe]
      show (FrameRow.decode s bits count (start + k) u.state.frames).bind _ = _
      rw [hrow]
      rfl
    · rw [← Nat.add_assoc]
      exact hstop
    · rw [hjoined, Array.append_assoc]
      rfl

/-- The frame that is pending goes on for `bitOffset` bits. -/
theorem of_decodeCarried (hs : s.Sound) {bitOffset : Nat} {sc t : Scan Session} {a : Unit}
    (hx : sc.state.Sound s n) (hwaits : sc.state.queue.pending.isEmpty = false)
    (h : decodeCarried s bitOffset sc = .ok a t) :
    ∃ values, sc.state.queue.complete s
        (sc.state.queue.pending ++ sc.reader.remaining.take bitOffset) =
          some ([values], t.state.frames) ∧
      values.size = s.config.frameSamples ∧
      t.state.pcm = Buffer.overlay sc.state.pcm values := by
  obtain ⟨_, _, hstate, hrest⟩ := ok_bind h
  obtain ⟨rfl, rfl⟩ := ok_state hstate
  obtain ⟨_, u, happend, hrest⟩ := ok_bind hrest
  obtain ⟨v, hbits, rfl⟩ := ok_focus happend
  obtain ⟨hleft, -, hgrown⟩ := Reservoir.of_appendBits hbits
  obtain ⟨_, _, hstate', hrest⟩ := ok_bind hrest
  obtain ⟨rfl, rfl⟩ := ok_state hstate'
  obtain ⟨w, hinside, rfl⟩ := ok_elsewhere hrest
  obtain ⟨_, y, hskip, hframe⟩ := ok_bind hinside
  obtain ⟨-, hm, hy⟩ := ok_skip hskip
  have width : (sc.reader.remaining.take bitOffset).length = bitOffset := by simp; omega
  have sound := (wp_ok (Reservoir.triple_appendBits bitOffset _ hx.reservoir) hbits).2
  have remaining := hgrown.remaining hx.reservoir (q := y.reader) (by rw [width]; exact hm)
  have phase : y.reader.position % 8 = sc.state.reservoir.bitOffset := by
    have := hm.position
    have := hx.reservoir.bitOffset_lt
    have := hgrown.bitOffset
    simp only [BitReader.ofBits] at *
    omega
  have hys : y.state.Sound s n := hy ▸ { hx with reservoir := sound }
  obtain ⟨values, k, hframe, -, hsize, -, hwrite⟩ := of_decodeFrame hs hys hframe
  rw [phase, remaining, hy] at hframe
  rw [hy, Nat.zero_mul] at hwrite
  refine ⟨values, ?_, hsize, ?_⟩
  · unfold BitQueue.complete
    rw [hwaits]
    exact congrArg (Option.map _) hframe
  · rw [← Buffer.overlay_empty sc.state.pcm] at hwrite
    simpa using Buffer.splice_overlay hwrite

/-- Where no frame ends, the bits wait behind those that wait already. -/
theorem of_extend {bytes : Array UInt8} {sc t : Scan Session} {a : Unit}
    (hx : sc.state.Sound s n) (h : onReservoir (Reservoir.extend bytes) sc = .ok a t) :
    t.state.queue = { sc.state.queue with
      pending := sc.state.queue.pending ++ Bits.ofBytes bytes } ∧ t.state.pcm = sc.state.pcm := by
  obtain ⟨v, hgrow, rfl⟩ := ok_focus h
  refine ⟨?_, rfl⟩
  simp only [queue, Reservoir.of_extend hgrow]
  rw [Reservoir.pending_append hx.reservoir]

/-- What comes behind the cursor is what waits. -/
theorem of_keepTail {packet : Array UInt8} {base : Nat} {sc t : Scan Session} {a : Unit}
    (h : keepTail packet base sc = .ok a t) :
    t.state.queue = ⟨sc.state.frames, (Bits.ofBytes packet).drop (sc.reader.position + 8 * base),
      (sc.reader.position + 8 * base) % 8⟩ ∧ t.state.pcm = sc.state.pcm := by
  obtain ⟨_, _, hreader, htail⟩ := ok_bind h
  cases hreader
  obtain ⟨tail, _, hkeep, hstore⟩ := ok_bind htail
  obtain ⟨hbytes, rfl⟩ := ok_ofExcept hkeep
  obtain ⟨z, hkept, rfl⟩ := ok_focus hstore
  obtain ⟨_, _, hrequire, hset⟩ := ok_bind hkept
  obtain ⟨-, rfl⟩ := ok_require hrequire
  cases hset
  obtain ⟨stop, hstop⟩ : ∃ stop, sc.reader.position + 8 * base = stop := ⟨_, rfl⟩
  rw [hstop] at hbytes ⊢
  have waiting : Reservoir.pending ⟨tail, stop % 8⟩ = (Bits.ofBytes packet).drop stop := by
    unfold Reservoir.pending
    dsimp only
    rw [Buffer.eq_of_rest hbytes, Bits.ofBytes_rest, List.drop_drop]
    congr 1
    omega
  refine ⟨?_, rfl⟩
  simp only [queue, waiting]

/-- The frames behind bit `start` of the packet, and what waits behind them. -/
theorem of_decodeWhole (hs : s.Sound) {packet : Array UInt8} (pcm out : Array Int16)
    {count index start : Nat} {sc t : Scan Session} {a : Unit}
    (hroom : (index + count) * s.config.frameSamples ≤ pcm.size) (hx : sc.state.Sound s pcm.size)
    (hout : out.size = index * s.config.frameSamples) (hpcm : sc.state.pcm = Buffer.overlay pcm out)
    (h : decodeWhole s packet start count index sc = .ok a t) :
    ∃ row, FrameRow.decode s (Bits.ofBytes packet) count start
        sc.state.frames.resetLengths = some row ∧
      t.state.queue = ⟨row.frames, (Bits.ofBytes packet).drop row.stop, row.stop % 8⟩ ∧
      row.values.length = count ∧ t.state.pcm = Buffer.overlay pcm (out ++ join row.values) := by
  obtain ⟨body, _, hbody, hrest⟩ := ok_bind h
  obtain ⟨hpart, rfl⟩ := ok_ofExcept hbody
  have body_eq := Buffer.eq_of_rest hpart
  obtain ⟨u, hinside, rfl⟩ := ok_elsewhere hrest
  obtain ⟨_, v, hfresh, htail⟩ := ok_bind hinside
  obtain ⟨_, w, hskip, hfresh⟩ := ok_bind hfresh
  obtain ⟨-, hm, hw⟩ := ok_skip hskip
  obtain ⟨_, y, hreset, hframes⟩ := ok_bind hfresh
  cases hreset
  have remaining : w.reader.remaining = (Bits.ofBytes packet).drop start := by
    rw [hm.remaining, BitReader.remaining_ofBytes, body_eq, Bits.ofBytes_rest, List.drop_drop]
    congr 1
    omega
  have place : w.reader.position = start % 8 := by
    rw [hm.position]
    exact Nat.zero_add _
  have sound := hx.resetLengths
  rw [← hw] at sound
  obtain ⟨row, k, hrow, hstop, hm', hstate, hreservoir, hlength, hjoined⟩ :=
    of_decodeFrames hs start hframes hroom sound remaining (by rw [place, Nat.mod_mod]) hout
      (by rw [← hpcm, hw])
  rw [hw] at hrow
  have stop : v.reader.position + 8 * (start / 8) = row.stop := by
    have := hm'.position
    dsimp only at this
    omega
  obtain ⟨hqueue, hkept⟩ := of_keepTail htail
  rw [stop, hstate] at hqueue
  exact ⟨row, hrow, hqueue, hlength, hkept.trans hjoined⟩

/-- The frames of a packet that follow the one that was pending, of which `values` are the values if
there was one, make up a step of the queue. -/
theorem step_of_decodeWhole (hs : s.Sound) {packet : Array UInt8} {q : BitQueue}
    {h : SuperframeHeader}
    (hh : h = .ofBits s.config.offsetBits (!q.pending.isEmpty) (Bits.ofBytes packet))
    {count : Nat} (hcount : h.frameCount (!q.pending.isEmpty) = count) (hsome : count ≠ 0)
    {values : List (Array Int16)} {sc t : Scan Session} {a : Unit} {pcm : Array Int16}
    (hcomplete : q.complete s (q.pending ++ ((Bits.ofBytes packet).drop h.width).take h.bitOffset) =
      some (values, sc.state.frames)) (hfew : values.length ≤ count)
    (hroom : count * s.config.frameSamples ≤ pcm.size) (hx : sc.state.Sound s pcm.size)
    (hsize : (join values).size = values.length * s.config.frameSamples)
    (hpcm : sc.state.pcm = Buffer.overlay pcm (join values))
    (hwhole : decodeWhole s packet (h.width + h.bitOffset) (count - values.length) values.length sc =
      .ok a t) :
    ∃ st, q.step s (Bits.ofBytes packet) = some st ∧ st.next = t.state.queue ∧
      st.values.length = count ∧ t.state.pcm = Buffer.overlay pcm (join st.values) := by
  obtain ⟨row, hrow, hqueue, hlength, hjoined⟩ := of_decodeWhole hs pcm (join values)
    (by rwa [Nat.add_sub_cancel' hfew]) hx hsize hpcm hwhole
  subst hcount
  refine ⟨_, BitQueue.step_of_row hh hsome hcomplete hrow, hqueue.symm, ?_, ?_⟩
  · rw [List.length_append, hlength]
    omega
  · rw [hjoined, BitQueue.join_append]

/-- A packet behind its header is a step of the queue. -/
theorem step_of_decodeBody (hs : s.Sound) {packet : Array UInt8} {carried : Bool}
    {h : SuperframeHeader} {sc t : Scan Session} {count : Nat}
    (hcarried : carried = !sc.state.reservoir.isEmpty)
    (hh : h = .ofBits s.config.offsetBits carried (Bits.ofBytes packet))
    (hm : (BitReader.ofBytes packet).Moved h.width sc.reader)
    (hidle : h.frameCount carried = 0 → h.width = 8) (hx : sc.state.Sound s sc.state.pcm.size)
    (hbody : decodeBody s packet carried h sc = .ok count t) :
    ∃ st, sc.state.queue.step s (Bits.ofBytes packet) = some st ∧ st.next = t.state.queue ∧
      st.values.length = count ∧ t.state.pcm = Buffer.overlay sc.state.pcm (join st.values) := by
  obtain rfl : (!sc.state.queue.pending.isEmpty) = carried := by
    rw [hcarried]
    exact congrArg _ (Reservoir.isEmpty_pending hx.reservoir)
  unfold decodeBody at hbody
  split at hbody
  · rename_i hzero
    obtain ⟨payload, _, hpayload, hrest⟩ := ok_bind hbody
    obtain ⟨hbytes, rfl⟩ := ok_ofExcept hpayload
    obtain ⟨_, u, hextend, hdone⟩ := ok_bind hrest
    cases hdone
    obtain ⟨hqueue, hpcm⟩ := of_extend hx hextend
    rw [Buffer.eq_of_rest hbytes, hidle hzero, Bits.ofBytes_rest] at hqueue
    exact ⟨_, BitQueue.step_of_idle (hh ▸ hzero), hqueue.symm, hzero.symm,
      hpcm.trans (Buffer.overlay_empty _).symm⟩
  rename_i hsome
  obtain ⟨_, u, hrequire, hrest⟩ := ok_bind hbody
  obtain ⟨same, hroom⟩ := wp_ok (wp_requireRoom hx) hrequire
  rw [same] at hrest
  have payload := hm.remaining
  rw [BitReader.remaining_ofBytes] at payload
  split at hrest
  · rename_i hwaits
    rw [Bool.not_eq_true'] at hwaits
    obtain ⟨_, v, hfirst, hrest⟩ := ok_bind hrest
    obtain ⟨_, w, hothers, hdone⟩ := ok_bind hrest
    cases hdone
    have fits : s.config.frameSamples ≤ sc.state.pcm.size :=
      Nat.le_trans (Nat.le_mul_of_pos_left _ (Nat.pos_of_ne_zero hsome)) hroom
    have sound := (wp_ok (triple_decodeCarried hs fits _ _ hx) hfirst).2
    obtain ⟨values, hcomplete, hsize, hwritten⟩ := of_decodeCarried hs hx hwaits hfirst
    rw [payload] at hcomplete
    exact step_of_decodeWhole hs hh rfl hsome hcomplete (Nat.pos_of_ne_zero hsome) hroom sound
      (by simpa [join] using hsize) (by simpa [join] using hwritten) hothers
  · rename_i hnone
    rw [Bool.not_eq_true', Bool.not_eq_false] at hnone
    obtain ⟨_, v, hothers, hdone⟩ := ok_bind hrest
    cases hdone
    have complete : sc.state.queue.complete s (sc.state.queue.pending ++
        ((Bits.ofBytes packet).drop h.width).take h.bitOffset) = some ([], sc.state.frames) :=
      if_pos hnone
    exact step_of_decodeWhole hs hh rfl hsome complete (Nat.zero_le _) hroom hx (by simp [join])
      (Buffer.overlay_empty _).symm hothers

/-- A packet that is decoded is a step of the queue, and its values are those of the step. -/
theorem step_of_decodeSuperframe (hs : s.Sound) {packet : Array UInt8} {x : Session}
    (hx : x.Sound s x.pcm.size) {t : Scan Session} {count : Nat}
    (h : decodeSuperframe s packet ⟨.ofBytes packet, x⟩ = .ok count t) :
    ∃ st, x.queue.step s (Bits.ofBytes packet) = some st ∧ st.next = t.state.queue ∧
      st.values.length = count ∧ t.state.pcm = Buffer.overlay x.pcm (join st.values) := by
  obtain ⟨_, _, hstate, hrest⟩ := ok_bind h
  cases hstate
  obtain ⟨header, u, hheader, hbody⟩ := ok_bind hrest
  obtain ⟨hh, hm, hu, -, hidle⟩ := SuperframeHeader.of_read rfl hheader
  rw [BitReader.remaining_ofBytes] at hh
  obtain ⟨reader, state⟩ := u
  cases hu
  refine step_of_decodeBody hs ?_ hh hm hidle ?_ hbody
  · rfl
  · exact hx

end Session

end Wma
