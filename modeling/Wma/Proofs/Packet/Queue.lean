import Wma.Packet.Superframe
import Wma.Proofs.Bits.Same
import Wma.Proofs.Frame.Runs

/-!
# A queue of bits

Between two packets, a `BitQueue` holds the bits of a frame that is not complete. `BitQueue.step`
takes the bits of a packet and knows nothing of bytes but the place within a byte at which a frame
begins. Every bit leaves the queue in the order in which it came (`BitQueue.append_of_run`).

What a frame gives depends on its bits and on that place alone (`Frame.decodeBits_of_ok`).
-/

namespace Wma

open Parse

namespace Frame

/-- Decodes a frame off a list of bits that begins `phase` bits behind the beginning of a byte. Gives
the values of the frame and the number of bits that it takes as well. -/
def decodeBits (s : Stream) (phase : Nat) (bits : List Bool) (f : FrameState) :
    Option (Array Int16 × FrameState × Nat) :=
  match decode s ⟨.ofList phase bits, f⟩ with
  | .ok values t => some (values, t.state, bits.length - t.reader.left)
  | .error _ _ => none

end Frame

/-- Frames that stand back to back. -/
structure FrameRow where
  values : List (Array Int16)
  /-- The bits of each frame. -/
  taken : List (List Bool)
  /-- The state after the frames. -/
  frames : FrameState
  /-- The place of the bit behind the frames. -/
  stop : Nat

/-- Decodes `count` frames off the bits of a packet, the first of them from bit `start` on. -/
def FrameRow.decode (s : Stream) (bits : List Bool) :
    (count start : Nat) → FrameState → Option FrameRow
  | 0, start, f => some ⟨[], [], f, start⟩
  | count + 1, start, f => do
    let (values, f, n) ← Frame.decodeBits s (start % 8) (bits.drop start) f
    let row ← decode s bits count (start + n) f
    return { row with
      values := values :: row.values
      taken := (bits.drop start).take n :: row.taken }

/-- The header that the bits of a packet begin with. -/
def SuperframeHeader.ofBits (offsetBits : Nat) (carried : Bool) (bits : List Bool) :
    SuperframeHeader :=
  let framesEnding := Bits.value ((bits.drop 4).take 4)
  if framesEnding = idleCount carried then
    ⟨framesEnding, 0, 8⟩
  else
    ⟨framesEnding, Bits.value ((bits.drop 8).take (offsetBits + 3)), 8 + (offsetBits + 3)⟩

/-- What waits between two packets. -/
structure BitQueue where
  frames : FrameState
  /-- The bits of a frame that is not complete. -/
  pending : List Bool
  /-- The place of the first of them within its byte. -/
  phase : Nat

namespace BitQueue

/-- What a packet does to a queue. -/
structure Step where
  next : BitQueue
  /-- The values of the frames that end in the packet. -/
  values : List (Array Int16)
  /-- The bits of the packet behind its header. -/
  payload : List Bool
  /-- The rows of bits that leave the queue: what belongs to a frame begun earlier, and the bits of
  each frame that begins and ends in the packet. -/
  taken : List (List Bool)

/-- The values of frames in a row. -/
def join (values : List (Array Int16)) : Array Int16 :=
  values.foldr (· ++ ·) #[]

theorem join_append (values others : List (Array Int16)) :
    join (values ++ others) = join values ++ join others := by
  induction values with
  | nil => exact Array.empty_append.symm
  | cons first values ih =>
    show first ++ join (values ++ others) = first ++ join values ++ join others
    rw [ih, Array.append_assoc]

/-- Completes the frame that is pending, if there is one. -/
def complete (s : Stream) (q : BitQueue) (bits : List Bool) :
    Option (List (Array Int16) × FrameState) :=
  if q.pending.isEmpty then
    some ([], q.frames)
  else
    (Frame.decodeBits s q.phase bits q.frames).map fun (values, f, _) => ([values], f)

/-- Takes the bits of a packet. If no frame ends in it, they all wait; otherwise the frame that is
pending goes on for as many bits as the header says, and the other frames follow. -/
def step (s : Stream) (q : BitQueue) (bits : List Bool) : Option Step :=
  let carried := !q.pending.isEmpty
  let h := SuperframeHeader.ofBits s.config.offsetBits carried bits
  let count := h.frameCount carried
  if count = 0 then
    let payload := bits.drop 8
    some ⟨{ q with pending := q.pending ++ payload }, [], payload, []⟩
  else do
    let payload := bits.drop h.width
    let first := q.pending ++ payload.take h.bitOffset
    let (values, f) ← q.complete s first
    let row ← FrameRow.decode s bits (count - values.length) (h.width + h.bitOffset) f.resetLengths
    return ⟨⟨row.frames, bits.drop row.stop, row.stop % 8⟩, values ++ row.values, payload,
      first :: row.taken⟩

/-- Where no frame ends, all the bits behind the header wait. -/
theorem step_of_idle {s : Stream} {q : BitQueue} {bits : List Bool}
    (h : (SuperframeHeader.ofBits s.config.offsetBits (!q.pending.isEmpty) bits).frameCount
      (!q.pending.isEmpty) = 0) :
    q.step s bits =
      some ⟨{ q with pending := q.pending ++ bits.drop 8 }, [], bits.drop 8, []⟩ :=
  if_pos h

/-- Where frames end, the one that is pending is completed first, and what follows the others
waits. -/
theorem step_of_row {s : Stream} {q : BitQueue} {bits : List Bool} {h : SuperframeHeader}
    (hh : h = .ofBits s.config.offsetBits (!q.pending.isEmpty) bits)
    (hsome : h.frameCount (!q.pending.isEmpty) ≠ 0) {values : List (Array Int16)} {f : FrameState}
    (hcomplete : q.complete s (q.pending ++ (bits.drop h.width).take h.bitOffset) =
      some (values, f)) {row : FrameRow}
    (hrow : FrameRow.decode s bits (h.frameCount (!q.pending.isEmpty) - values.length)
      (h.width + h.bitOffset) f.resetLengths = some row) :
    q.step s bits = some ⟨⟨row.frames, bits.drop row.stop, row.stop % 8⟩, values ++ row.values,
      bits.drop h.width, (q.pending ++ (bits.drop h.width).take h.bitOffset) :: row.taken⟩ := by
  unfold step
  dsimp only
  rw [← hh, if_neg hsome, hcomplete]
  show (FrameRow.decode s _ _ _ _).bind _ = _
  rw [hrow]
  rfl

/-- Takes packets one after the other. -/
def run (s : Stream) (q : BitQueue) : List (List Bool) → Option (BitQueue × List Step)
  | [] => some (q, [])
  | bits :: packets => do
    let first ← q.step s bits
    let (last, steps) ← run s first.next packets
    return (last, first :: steps)

end BitQueue

/-! ### Every bit leaves in its turn -/

theorem FrameRow.append_of_decode {s : Stream} {bits : List Bool} :
    ∀ {count start : Nat} {f : FrameState} {row : FrameRow},
    FrameRow.decode s bits count start f = some row →
    bits.drop start = row.taken.flatten ++ bits.drop row.stop
  | 0, _, _, _, h => by
    cases h
    rfl
  | count + 1, start, f, row, h => by
    obtain ⟨⟨values, f', n⟩, -, h⟩ := Option.bind_eq_some_iff.mp h
    obtain ⟨rest, hrest, h⟩ := Option.bind_eq_some_iff.mp h
    cases h
    have tail := append_of_decode hrest
    rw [List.flatten_cons, List.append_assoc, ← tail, ← List.drop_drop, List.take_append_drop]

namespace BitQueue

theorem append_of_step {s : Stream} {q : BitQueue} {bits : List Bool} {st : Step}
    (h : q.step s bits = some st) : q.pending ++ st.payload = st.taken.flatten ++ st.next.pending := by
  unfold step at h
  dsimp only at h
  split at h
  · cases h
    rfl
  · obtain ⟨⟨values, f⟩, -, h⟩ := Option.bind_eq_some_iff.mp h
    obtain ⟨row, hrow, h⟩ := Option.bind_eq_some_iff.mp h
    cases h
    have tail := FrameRow.append_of_decode hrow
    rw [← List.drop_drop] at tail
    rw [List.flatten_cons, List.append_assoc, List.append_assoc, ← tail, List.take_append_drop]

/-- Over any number of packets, the bits that came are the bits that left and those that wait. -/
theorem append_of_run {s : Stream} {q q' : BitQueue} {packets : List (List Bool)}
    {steps : List Step} (h : q.run s packets = some (q', steps)) :
    q.pending ++ (steps.map Step.payload).flatten =
      (steps.map fun st => st.taken.flatten).flatten ++ q'.pending := by
  induction packets generalizing q steps with
  | nil =>
    cases h
    simp
  | cons bits packets ih =>
    obtain ⟨first, hfirst, h⟩ := Option.bind_eq_some_iff.mp h
    obtain ⟨⟨last, rest⟩, hrest, h⟩ := Option.bind_eq_some_iff.mp h
    cases h
    simp only [List.map_cons, List.flatten_cons]
    rw [← List.append_assoc, append_of_step hfirst, List.append_assoc, ih hrest, List.append_assoc]

end BitQueue

/-! ### Frames of a list of bits -/

namespace Stream

/-- Work buffers that are equal give the same. -/
theorem hides_eq (V : View) (s : Stream) : s.Hides V Eq where
  ratios _ _ _ _ _ _ h := h ▸ .of_eq V.error_refl (fun _ => ⟨rfl, rfl⟩) rfl
  synthesize := by
    refine .state (fun _ _ h => by simp only [h.block]) fun st => ?_
    refine .bind (.ofExcept (fun _ _ h => h.any) _) fun _ => ?_
    refine FrameState.keeps_eachChannel fun place => Related.updateM (fun _ _ h => h) ?_
    rintro ⟨channel, noise, work⟩ ⟨_, _, _⟩ ⟨rfl, rfl, rfl⟩
    exact .of_eq V.error_refl (fun _ => ⟨rfl, rfl, rfl, rfl⟩) rfl

end Stream

/-- A frame takes some of the bits in front of a reader, and decodes as it does off their list. -/
theorem Frame.decodeBits_of_ok {s : Stream} {r : BitReader} {f : FrameState} {values : Array Int16}
    {t : Scan FrameState} (h : Frame.decode s ⟨r, f⟩ = .ok values t) :
    ∃ n, Frame.decodeBits s (r.position % 8) r.remaining f = some (values, t.state, n) ∧
      r.Moved n t.reader := by
  have hr := r.same_ofList
  have runs := Frame.keeps_decode (Stream.hides_eq (.along hr) s) ⟨r, f⟩
    ⟨.ofList (r.position % 8) r.remaining, f⟩
    ⟨0, ⟨rfl, rfl, rfl⟩, ⟨rfl, rfl, rfl⟩⟩ ⟨rfl, trivial, rfl, rfl, rfl⟩
  rw [h] at runs
  obtain ⟨_, t', ht, ⟨n, hm, hm'⟩, rfl, hstate⟩ := runs.exists_ok
  have same : t.state = t'.state := by
    obtain ⟨reader, ⟨block, channels, noise, work⟩⟩ := t
    obtain ⟨reader', ⟨block', channels', noise', work'⟩⟩ := t'
    obtain ⟨rfl, -, rfl, rfl, rfl⟩ := hstate
    rfl
  have length := hm'.left
  rw [← BitReader.length_remaining (BitReader.ofList _ _), BitReader.remaining_ofList] at length
  unfold decodeBits
  rw [ht, same]
  refine ⟨n, ?_, hm⟩
  dsimp only
  congr 3
  omega

end Wma
