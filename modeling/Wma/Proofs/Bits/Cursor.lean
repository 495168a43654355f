import Wma.Proofs.Bits.Numbers

/-!
# A reader is a cursor

A `BitCursor` is a place in a list of bits. It looks ahead as if zeros went on behind the last bit,
and it moves only as far as there are bits. Calls on a reader, whether they succeed or fail, are
answered as by the cursor over the bits in front of the cut (`BitReader.trace_eq_cursor`), wherever
the cut is. So fields that are written one after the other are read back one after the other.
-/

namespace Wma

/-- A place in a list of bits. -/
structure BitCursor where
  bits : List Bool
  position : Nat
deriving DecidableEq, Repr

/-- What a reader may be asked for. -/
inductive ReaderCall
  | peek (count : Fin 33)
  | read (count : Nat)
  | readBit
  | skip (count : Nat)
  | align
deriving DecidableEq, Repr

inductive ReaderAnswer
  | number (n : Nat)
  | flag (b : Bool)
  | done
deriving DecidableEq, Repr

/-- A number and the width of the field that it is written to. -/
structure BitField where
  width : Nat
  value : Nat
  width_le : width ≤ 32
  value_lt : value < 2 ^ width

def BitField.bits (f : BitField) : List Bool :=
  CodeWord.bitsOf f.value f.width

namespace ReaderCall

/-- The call as a step of parsing. -/
def run {σ : Type} : ReaderCall → Parse σ ReaderAnswer
  | peek count => return .number ((← Parse.reader).peek count)
  | read count => return .number (← Parse.read count)
  | readBit => return .flag (← Parse.readBit)
  | skip count => do
    Parse.skip count
    return .done
  | align => do
    Parse.align
    return .done

/-- The answers to calls in a row, each with what it leaves. A call that fails is followed by the
next one all the same. -/
def trace {ρ : Type} (answer : ρ → ReaderCall → Except Error ReaderAnswer × ρ) :
    List ReaderCall → ρ → List (Except Error ReaderAnswer × ρ)
  | [], _ => []
  | call :: calls, r => answer r call :: trace answer calls (answer r call).2

variable {ρ τ : Type} {answer : ρ → ReaderCall → Except Error ReaderAnswer × ρ}

/-- A map that takes each answer to an answer takes a trace to a trace. -/
theorem trace_map {answer' : τ → ReaderCall → Except Error ReaderAnswer × τ} {f : ρ → τ}
    (h : ∀ r call, answer' (f r) call = (answer r call).map id f) :
    ∀ (calls : List ReaderCall) (r : ρ),
      trace answer' calls (f r) = (trace answer calls r).map (Prod.map id f)
  | [], _ => rfl
  | call :: calls, r => by
    rw [trace, trace, List.map_cons, h]
    exact congrArg _ (trace_map h calls _)

/-- What no call takes back is in order along a trace, and what each call keeps holds to its end. -/
theorem trace_ordered {I : ρ → Prop} {measure : ρ → Nat}
    (h : ∀ r call, I r → I (answer r call).2 ∧ measure r ≤ measure (answer r call).2) :
    ∀ (calls : List ReaderCall) (r : ρ), I r →
      (∀ x ∈ trace answer calls r, I x.2) ∧
        (measure r :: (trace answer calls r).map fun x => measure x.2).Pairwise (· ≤ ·)
  | [], _, _ => ⟨by simp [trace], by simp [trace]⟩
  | call :: calls, r, hr => by
    obtain ⟨kept, moved⟩ := h r call hr
    obtain ⟨all, ordered⟩ := trace_ordered h calls _ kept
    refine ⟨fun x hx => ?_, ?_⟩
    · rcases List.mem_cons.mp hx with rfl | hx
      · exact kept
      · exact all x hx
    · refine List.pairwise_cons.mpr ⟨fun p hp => ?_, ordered⟩
      rcases List.mem_cons.mp hp with rfl | hp
      · exact moved
      · exact moved.trans (List.rel_of_pairwise_cons ordered hp)

end ReaderCall

namespace BitCursor

def left (c : BitCursor) : Nat :=
  c.bits.length - c.position

/-- The next `count` bits; zeros behind the last one. -/
def ahead (c : BitCursor) (count : Nat) : List Bool :=
  (c.bits.drop c.position ++ List.replicate count false).take count

/-- Moves the cursor, if there are as many bits. -/
def advance (c : BitCursor) (count : Nat) (a : ReaderAnswer) :
    Except Error ReaderAnswer × BitCursor :=
  if count ≤ c.left then (.ok a, { c with position := c.position + count })
  else (.error (.corrupt (.overrun count c.position c.bits.length)), c)

def answer (c : BitCursor) : ReaderCall → Except Error ReaderAnswer × BitCursor
  | .peek count => (.ok (.number (Bits.value (c.ahead count))), c)
  | .read count =>
    if 32 < count then (.error (.corrupt (.fieldTooWide count)), c)
    else c.advance count (.number (Bits.value (c.ahead count)))
  | .readBit => c.advance 1 (.flag (c.ahead 1 == [true]))
  | .skip count => c.advance count .done
  | .align =>
    (.ok .done, { c with position := min ((c.position + 7) / 8 * 8) c.bits.length })

def trace (c : BitCursor) (calls : List ReaderCall) :
    List (Except Error ReaderAnswer × BitCursor) :=
  ReaderCall.trace answer calls c

variable {c : BitCursor}

/-- A call moves the cursor on, if at all, and not past the last bit. -/
theorem moves_on (call : ReaderCall) (h : c.position ≤ c.bits.length) :
    (c.answer call).2.bits = c.bits ∧ c.position ≤ (c.answer call).2.position ∧
      (c.answer call).2.position ≤ c.bits.length := by
  have advance (count : Nat) (a : ReaderAnswer) : (c.advance count a).2.bits = c.bits ∧
      c.position ≤ (c.advance count a).2.position ∧
        (c.advance count a).2.position ≤ c.bits.length := by
    unfold advance left
    split
    · exact ⟨rfl, Nat.le_add_right _ _, by dsimp only; omega⟩
    · exact ⟨rfl, le_rfl, h⟩
  cases call with
  | peek count => exact ⟨rfl, le_rfl, h⟩
  | read count =>
    rw [answer]
    split
    · exact ⟨rfl, le_rfl, h⟩
    · exact advance count _
  | readBit => exact advance 1 _
  | skip count => exact advance count _
  | align => exact ⟨rfl, by simp only [answer]; omega, Nat.min_le_right _ _⟩

theorem ahead_of_append {l rest : List Bool} (h : c.bits.drop c.position = l ++ rest) :
    c.ahead l.length = l := by
  rw [ahead, h, List.append_assoc, List.take_left' rfl]

/-- Fields that are ahead are read one after the other. -/
theorem trace_fields : ∀ {fields : List BitField} {c : BitCursor} {rest : List Bool},
    c.bits.drop c.position = fields.flatMap (·.bits) ++ rest →
      (c.trace (fields.map fun f => .read f.width)).map Prod.fst =
        fields.map fun f => .ok (.number f.value)
  | [], _, _, _ => rfl
  | f :: fields, c, rest, h => by
    rw [List.flatMap_cons, List.append_assoc] at h
    have length : f.bits.length = f.width := Bits.length_bitsOf f.value f.width
    have field : c.ahead f.width = f.bits := length ▸ ahead_of_append h
    have room : f.width ≤ c.left := by
      have total := congrArg List.length h
      rw [List.length_drop, List.length_append, length] at total
      unfold left
      omega
    have first : c.answer (.read f.width) =
        (.ok (.number f.value), { c with position := c.position + f.width }) := by
      have value : Bits.value f.bits = f.value := Bits.value_bitsOf f.value_lt
      rw [answer, if_neg (Nat.not_lt.mpr f.width_le), advance, if_pos room, field, value]
    have behind : c.bits.drop (c.position + f.width) = fields.flatMap (·.bits) ++ rest := by
      rw [← List.drop_drop, h, List.drop_left' length]
    show (ReaderCall.trace answer (_ :: _) c).map Prod.fst = _
    rw [ReaderCall.trace, first]
    exact congrArg _ (trace_fields (c := { c with position := c.position + f.width }) behind)

end BitCursor

namespace BitReader

/-- The cursor over the bits in front of the cut. -/
def cursor (r : BitReader) : BitCursor :=
  ⟨(Bits.ofBytes r.bytes).take r.bitLength, r.position⟩

/-- What a step gives, and the reader that it leaves. -/
def outcome (r : BitReader) (p : Parse Unit ReaderAnswer) : Except Error ReaderAnswer × BitReader :=
  match p ⟨r, ()⟩ with
  | .ok a s => (.ok a, s.reader)
  | .error e s => (.error e, s.reader)

def answer (r : BitReader) (call : ReaderCall) : Except Error ReaderAnswer × BitReader :=
  r.outcome call.run

def trace (r : BitReader) (calls : List ReaderCall) : List (Except Error ReaderAnswer × BitReader) :=
  ReaderCall.trace answer calls r

variable {r : BitReader} {n : Nat}

theorem outcome_ofReader {α : Type} (f : BitReader → Except Error (α × BitReader))
    (g : α → ReaderAnswer) : r.outcome (do return g (← Parse.ofReader f)) =
      match f r with
      | .ok (a, r') => (.ok (g a), r')
      | .error e => (.error e, r) := by
  have run : (do return g (← Parse.ofReader f) : Parse Unit ReaderAnswer) ⟨r, ()⟩ =
      EStateM.bind (Parse.ofReader f) (fun a => pure (g a)) ⟨r, ()⟩ := rfl
  unfold outcome
  rw [run]
  unfold EStateM.bind Parse.ofReader
  dsimp only
  cases f r <;> rfl

theorem length_cursor (r : BitReader) : r.cursor.bits.length = r.bitLength := by
  have := r.bitLength_le
  simp only [cursor, List.length_take, Bits.length_ofBytes]
  omega

theorem left_cursor (r : BitReader) : r.cursor.left = r.left := by
  rw [BitCursor.left, length_cursor]
  rfl

/-- The bits ahead are those of the cursor. -/
theorem map_bit_eq_ahead (r : BitReader) (n : Nat) :
    (List.range n).map r.bit = r.cursor.ahead n := by
  have front : r.cursor.bits.drop r.cursor.position = r.remaining := rfl
  unfold BitCursor.ahead
  rw [front]
  refine List.ext_getElem (by simp) fun i hi hi' => ?_
  rw [List.getElem_map, List.getElem_range, List.getElem_take, bit_eq, List.getElem_append]
  split
  · exact (List.getElem_eq_getD false).symm
  · rename_i behind
    rw [List.getElem_replicate, List.getD_eq_getElem?_getD,
      List.getElem?_eq_none (Nat.not_lt.mp behind)]
    rfl

/-- A skip moves the cursor if there are enough bits, and is refused otherwise. -/
theorem advance_cursor (r : BitReader) (n : Nat) (a : ReaderAnswer) :
    r.cursor.advance n a =
      match r.skip n with
      | .ok r' => (.ok a, r'.cursor)
      | .error e => (.error e, r.cursor) := by
  unfold BitCursor.advance
  rw [left_cursor, length_cursor]
  rcases r.skip_cases n with ⟨r', hskip, hm⟩ | ⟨few, hskip⟩
  · have left := hm.left
    have moved : r'.cursor = { r.cursor with position := r.cursor.position + n } := by
      simp only [cursor, hm.bytes, hm.bitLength, hm.position]
    rw [hskip, if_pos (by omega)]
    dsimp only
    rw [moved]
  · rw [hskip, if_neg (by omega)]
    rfl

/-- A field is the value of the bits ahead, if it is narrow enough and there are as many bits. -/
theorem read_eq (r : BitReader) (n : Nat) : r.read n =
    if 32 < n then .error (.corrupt (.fieldTooWide n))
    else (r.skip n).map fun r' => (Bits.value (r.cursor.ahead n), r') := by
  unfold read
  by_cases zero : n = 0
  · subst n
    obtain ⟨r', hskip, hm⟩ := exists_skip (Nat.zero_le r.left)
    rw [if_pos rfl, if_neg (by decide), hskip, hm.eq_of_zero]
    rfl
  rw [if_neg zero]
  split
  · rfl
  · rw [peek_eq r (by omega), map_bit_eq_ahead]

/-- What a reader answers to a call, the cursor answers as well. -/
theorem answer_cursor (r : BitReader) (call : ReaderCall) :
    r.cursor.answer call = (r.answer call).map id cursor := by
  cases call with
  | peek count =>
    have value := peek_eq r (Nat.lt_succ_iff.mp count.isLt)
    rw [map_bit_eq_ahead] at value
    rw [BitCursor.answer, ← value]
    rfl
  | read count =>
    have answer : r.answer (.read count) = _ := outcome_ofReader (·.read count) .number
    rw [answer, read_eq, BitCursor.answer]
    split
    · rfl
    · rw [advance_cursor]
      cases r.skip count <;> rfl
  | readBit =>
    have answer : r.answer .readBit = _ := outcome_ofReader readBit .flag
    have bit : r.readBit = (r.skip 1).map fun r' => (r.cursor.ahead 1 == [true], r') := by
      have value : (Bits.value (r.cursor.ahead 1) != 0) = (r.cursor.ahead 1 == [true]) := by
        rw [← map_bit_eq_ahead]
        show (Bits.value [r.bit 0] != 0) = ([r.bit 0] == [true])
        cases r.bit 0 <;> rfl
      unfold readBit
      rw [read_eq, if_neg (by decide), ← value]
      cases r.skip 1 <;> rfl
    rw [answer, bit, BitCursor.answer, advance_cursor]
    cases r.skip 1 <;> rfl
  | skip count =>
    have answer : r.answer (.skip count) = _ :=
      outcome_ofReader (fun r => (r.skip count).map ((), ·)) fun _ => .done
    rw [answer, BitCursor.answer, advance_cursor]
    cases r.skip count <;> rfl
  | align =>
    show BitCursor.answer r.cursor .align = (.ok .done, r.align.cursor)
    rw [BitCursor.answer, length_cursor]
    rfl

theorem trace_cursor (r : BitReader) (calls : List ReaderCall) :
    r.cursor.trace calls = (r.trace calls).map (Prod.map id cursor) :=
  ReaderCall.trace_map answer_cursor calls r

theorem cursor_ofBits (bytes : Array UInt8) (limit : Nat) :
    (ofBits bytes limit).cursor = ⟨(Bits.ofBytes bytes).take limit, 0⟩ := by
  have cut : (Bits.ofBytes bytes).take (min limit (8 * bytes.size)) =
      (Bits.ofBytes bytes).take limit := by
    rw [← Bits.length_ofBytes, ← List.take_eq_take_min]
  exact congrArg (BitCursor.mk · 0) cut

/-- Fields that are packed behind other bits are read back. -/
theorem trace_pack (start rest : List Bool) (fields : List BitField) :
    let bits := start ++ fields.flatMap (·.bits) ++ rest
    ((ofBits (Bits.pack bits) bits.length).trace
        (.skip start.length :: fields.map fun f => .read f.width)).map Prod.fst =
      .ok .done :: fields.map fun f => .ok (.number f.value) := by
  intro bits
  have packed : (ofBits (Bits.pack bits) bits.length).cursor = ⟨bits, 0⟩ := by
    rw [cursor_ofBits, Bits.take_ofBytes_pack]
  have room : start.length ≤ BitCursor.left ⟨bits, 0⟩ := by
    show start.length ≤ (start ++ fields.flatMap (·.bits) ++ rest).length - 0
    simp only [List.length_append]
    omega
  have skipped : BitCursor.answer ⟨bits, 0⟩ (.skip start.length) =
      (.ok .done, ⟨bits, 0 + start.length⟩) := by
    rw [BitCursor.answer, BitCursor.advance, if_pos room]
  have ahead : bits.drop (0 + start.length) = fields.flatMap (·.bits) ++ rest := by
    show (start ++ fields.flatMap (·.bits) ++ rest).drop (0 + start.length) = _
    rw [Nat.zero_add, List.append_assoc, List.drop_left' rfl]
  have answers := congrArg (List.map Prod.fst) (trace_cursor
    (ofBits (Bits.pack bits) bits.length) (.skip start.length :: fields.map fun f => .read f.width))
  rw [packed, List.map_map, BitCursor.trace, ReaderCall.trace, skipped] at answers
  exact answers.symm.trans (congrArg (List.cons _) (BitCursor.trace_fields ahead))

/-- A reader over the first `limit` bits of `bytes` is a cursor over these bits: it answers calls as
the cursor does, in every order and whether they succeed or fail. Its place does not go back and
stays in front of the cut, and fields that are packed into its bits are read back, wherever they
begin and however wide they are. -/
theorem trace_eq_cursor (bytes : Array UInt8) (limit : Nat) (calls : List ReaderCall) :
    ((ofBits bytes limit).trace calls).map (Prod.map id cursor) =
        BitCursor.trace ⟨(Bits.ofBytes bytes).take limit, 0⟩ calls ∧
      (0 :: ((ofBits bytes limit).trace calls).map (·.2.position)).Pairwise (· ≤ ·) ∧
      (∀ x ∈ (ofBits bytes limit).trace calls, x.2.position ≤ min limit (8 * bytes.size)) ∧
      ∀ (start rest : List Bool) (fields : List BitField),
        let bits := start ++ fields.flatMap (·.bits) ++ rest
        ((ofBits (Bits.pack bits) bits.length).trace
            (.skip start.length :: fields.map fun f => .read f.width)).map Prod.fst =
          .ok .done :: fields.map fun f => .ok (.number f.value) := by
  have same := trace_cursor (ofBits bytes limit) calls
  rw [cursor_ofBits, BitCursor.trace] at same
  let I (c : BitCursor) := c.bits = (Bits.ofBytes bytes).take limit ∧ c.position ≤ c.bits.length
  have kept (c : BitCursor) (call : ReaderCall) (h : I c) :
      I (c.answer call).2 ∧ c.position ≤ (c.answer call).2.position := by
    obtain ⟨bits, on, front⟩ := BitCursor.moves_on call h.2
    exact ⟨⟨bits.trans h.1, bits ▸ front⟩, on⟩
  obtain ⟨inside, ordered⟩ := ReaderCall.trace_ordered kept calls
    ⟨(Bits.ofBytes bytes).take limit, 0⟩ ⟨rfl, Nat.zero_le _⟩
  refine ⟨same.symm, ?_, fun x hx => ?_, trace_pack⟩
  · have places := congrArg (List.map fun x => x.2.position) same
    rw [List.map_map] at places
    exact places ▸ ordered
  · have place := inside (Prod.map id cursor x) (same ▸ List.mem_map_of_mem hx)
    have length := congrArg List.length place.1
    rw [List.length_take, Bits.length_ofBytes] at length
    exact length ▸ place.2

end BitReader

end Wma
