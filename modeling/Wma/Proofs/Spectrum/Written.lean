import Mathlib.Data.List.Permutation
import Wma.Proofs.Code.PrefixCode
import Wma.Proofs.Code.RunLevel
import Wma.Spectrum.Levels

/-!
# Levels that are written out

An encoder writes levels as a row of `Item`s, each with the word of its pair or in full, and ends the
block by a symbol of its own unless the last item fills it. Reading such a block gives back the levels
that the items `expand` to, whatever the buffer held (`Levels.read_written`).

While a block is read, the buffer holds the levels read so far, and zeros behind them (`Holds`). This
goes on as long as the runs stay within the block; a store that goes beyond it falls on some place
inside the buffer, but then the block is refused.
-/

namespace Wma

namespace Levels

open RunLevelBook

/-- A coefficient as an encoder writes it: a run of zeros and a level with its sign, either by the
word of the pair or in full. -/
structure Item extends RunLevel where
  positive : Bool
  escaped : Bool
  level_lt : level < 2 ^ 31

namespace Item

def value (x : Item) : Int :=
  if x.positive then x.level else -x.level

/-- The coefficients that an item stands for. -/
def expand (x : Item) : List Int :=
  List.replicate x.run 0 ++ [x.value]

/-- Whether the item can be written: the layout has its pair, or the fields hold its numbers. -/
def Writable (layout : RunLevelLayout) (levelBits runBits : Nat) (x : Item) : Prop :=
  if x.escaped then x.level < 2 ^ levelBits ∧ x.run < 2 ^ runBits else Lists layout x.toRunLevel

instance (layout : RunLevelLayout) (levelBits runBits : Nat) (x : Item) :
    Decidable (x.Writable layout levelBits runBits) :=
  inferInstanceAs (Decidable (ite ..))

/-- The bits of a pair. One that is written out has its level first. -/
def pairBits (layout : RunLevelLayout) (levelBits runBits : Nat) (x : Item) : List Bool :=
  if x.escaped then
    wordOf layout escape ++ (CodeWord.bitsOf x.level levelBits ++ CodeWord.bitsOf x.run runBits)
  else
    wordOf layout (symbolOf layout x.toRunLevel)

def bits (layout : RunLevelLayout) (levelBits runBits : Nat) (x : Item) : List Bool :=
  x.pairBits layout levelBits runBits ++ [x.positive]

@[simp] theorem length_expand (x : Item) : x.expand.length = x.run + 1 := by
  simp [expand]

/-- The level with its sign is a word, since a level of 31 bits has a negation. -/
theorem exists_signed (x : Item) : ∃ y : Int32,
    (if x.positive then .ok (Int32.ofNat x.level) else negate (Int32.ofNat x.level)) = .ok y ∧
      y.toInt = x.value := by
  have small := x.level_lt
  have level : (Int32.ofNat x.level).toInt = x.level := Int32.toInt_ofNat_of_lt (by omega)
  have least : Int32.minValue.toInt = -2 ^ 31 := rfl
  unfold Item.value
  split
  · exact ⟨_, rfl, level⟩
  · refine ⟨_, if_neg fun h => ?_, ?_⟩
    · rw [h] at level
      omega
    · rw [Int32.toInt_neg, level]
      exact Int.bmod_eq_of_le (by omega) (by omega)

end Item

/-- The coefficients that a row of items stands for. -/
def expand (items : List Item) : List Int :=
  items.flatMap Item.expand

/-- The bits of a block of `count` coefficients. -/
def blockBits (layout : RunLevelLayout) (levelBits runBits count : Nat) (items : List Item) :
    List Bool :=
  items.flatMap (Item.bits layout levelBits runBits) ++
    if (expand items).length = count then [] else wordOf layout endOfBlock

@[simp] theorem expand_nil : expand [] = [] := rfl

@[simp] theorem expand_cons (x : Item) (items : List Item) :
    expand (x :: items) = x.expand ++ expand items := rfl

/-! ### What the buffer holds -/

/-- A buffer of size `n` begins with the given levels and is zero behind them. -/
structure Holds (n : Nat) (levels : List Int) (a : Array Int32) : Prop where
  le : levels.length ≤ n
  eq : a.toList.map Int32.toInt = levels ++ List.replicate (n - levels.length) 0

namespace Holds

variable {n : Nat} {levels : List Int} {a : Array Int32}

theorem size (h : Holds n levels a) : a.size = n := by
  have length := congrArg List.length h.eq
  have := h.le
  simp only [List.length_map, Array.length_toList, List.length_append, List.length_replicate]
    at length
  omega

theorem clear (n : Nat) : Holds n [] (Array.replicate n 0) where
  le := Nat.zero_le n
  eq := by simp

/-- Levels go in behind those that are there, with zeros between. -/
theorem place (h : Holds n levels a) {run : Nat} (hrun : levels.length + run < n) (x : Int32) :
    Holds n (levels ++ (List.replicate run 0 ++ [x.toInt]))
      (a.setIfInBounds (levels.length + run) x) where
  le := by simp; omega
  eq := by
    have rest : n - (levels.length + (run + 1)) = n - levels.length - (run + 1) := by omega
    have inside : run < (List.replicate (n - levels.length) (0 : Int)).length := by
      rw [List.length_replicate]; omega
    rw [Array.toList_setIfInBounds, List.map_set, h.eq, List.set_append_right _ _ (by omega),
      Nat.add_sub_cancel_left, List.set_eq_take_append_cons_drop, if_pos inside]
    simp [rest, Nat.min_eq_left (show run ≤ n - levels.length by omega)]

/-- Behind the levels the buffer is zero. -/
theorem getElem?_eq (h : Holds n levels a) {i : Nat} (hi : levels.length ≤ i) (hn : i < n) :
    a[i]? = some 0 := by
  have inside : i < a.size := by rw [h.size]; exact hn
  have value := congrArg (·[i]?) h.eq
  simp only [List.getElem?_map, List.getElem?_append_right hi, List.getElem?_replicate,
    Array.getElem?_toList, Array.getElem?_eq_getElem inside, Option.map_some,
    show i - levels.length < n - levels.length by omega, ↓reduceIte, Option.some.injEq] at value
  rw [Array.getElem?_eq_getElem inside, Int32.toInt_inj.mp (value.trans Int32.toInt_zero.symm)]

end Holds

/-- What a buffer of `n` levels holds after `position` places, as long as these stay within the first
`count` of them. -/
def Filled (n count position : Nat) (a : Array Int32) : Prop :=
  a.size = n ∧ (position ≤ count → ∃ levels, levels.length = position ∧ Holds n levels a)

theorem Filled.place {n count position : Nat} {a : Array Int32} (h : Filled n count position a)
    (hn : count ≤ n) (hposition : position < count) (run : Nat) (x : Int32) :
    Filled n count (position + run + 1) (a.setIfInBounds ((position + run) % n) x) := by
  refine ⟨by rw [Array.size_setIfInBounds, h.1], fun hfit => ?_⟩
  obtain ⟨levels, rfl, held⟩ := h.2 (by omega)
  rw [Nat.mod_eq_of_lt (by omega)]
  exact ⟨_, by simp; omega, held.place (by omega) x⟩

/-! ### Steps of reading -/

section Reading

variable {layout : RunLevelLayout} {book : RunLevelBook} {levelBits runBits count k limit : Nat}
  {position : Nat} {s : Scan (Array Int32)} {E : Error → Scan (Array Int32) → Prop} {x : Item}
  {items : List Item} {rest : List Bool}

theorem wp_place {Q : Unit → Scan (Array Int32) → Prop} (hs : s.state.size = 2 ^ k) (level : Int32)
    (hQ : Q () ⟨s.reader, s.state.setIfInBounds (position % 2 ^ k) level⟩) :
    (place position level).wp Q E s := by
  have room := Nat.two_pow_pos k
  have mask : difference s.state.size 1 = .ok (2 ^ k - 1) := by
    rw [hs]
    exact if_pos room
  unfold place
  simp only [Parse.wp_bind, Parse.wp_state, mask, Parse.wp_ofExcept_ok, Parse.wp_ite,
    Nat.and_two_pow_sub_one_eq_mod]
  rw [if_pos (hs.symm ▸ Nat.mod_lt _ room)]
  exact hQ

/-- Once the block is full, nothing more is read. -/
theorem wp_readFrom_of_le {Q : Nat → Scan (Array Int32) → Prop} (h : count ≤ position)
    (hQ : Q position s) : (readFrom book levelBits runBits count limit position).wp Q E s := by
  cases limit with
  | zero => exact hQ
  | succ limit =>
    unfold readFrom
    rw [Parse.wp_ite, if_pos h]
    exact hQ

theorem wp_read {Q : Unit → Scan (Array Int32) → Prop}
    (h : (readFrom book levelBits runBits count count 0).wp
      (fun p t => if p ≤ count then Q () t else E (.corrupt (.runOverflow p count)) t) E
      ⟨s.reader, Array.replicate s.state.size 0⟩) : (read book levelBits runBits count).wp Q E s := by
  unfold read
  simp only [Parse.wp_bind, Parse.wp_update, Parse.wp_require]
  exact h

variable (hbook : ofLayout layout = .ok book) (hlengths : ∀ n ∈ layout.lengths, n ≠ 0)
include hbook hlengths

theorem wp_next_symbol {Q : Nat → Scan (Array Int32) → Prop} {symbol : Nat}
    (hsymbol : symbol < (pairsOf layout).length)
    (hs : s.reader.remaining = wordOf layout symbol ++ rest)
    (hQ : ∀ q, s.reader.Moved (wordOf layout symbol).length q → q.remaining = rest →
      Q symbol ⟨q, s.state⟩) : book.code.next.wp Q E s :=
  (reads_wordOf hbook hlengths ((ofLayout_eq_ok hbook).2.1 ▸ hsymbol)).wp_next hs hQ

theorem wp_readFrom_endOfBlock {Q : Nat → Scan (Array Int32) → Prop} (hposition : position < count)
    (hs : s.reader.remaining = wordOf layout endOfBlock ++ rest)
    (hQ : ∀ q, s.reader.Moved (wordOf layout endOfBlock).length q → Q position ⟨q, s.state⟩) :
    (readFrom book levelBits runBits count (limit + 1) position).wp Q E s := by
  unfold readFrom
  rw [Parse.wp_ite, if_neg (by omega), Parse.wp_bind]
  refine wp_next_symbol hbook hlengths (by simp [pairsOf, endOfBlock]) hs fun q hm _ => ?_
  rw [Parse.wp_ite, if_pos rfl]
  exact hQ q hm

variable (hlevel : levelBits ≤ 31) (hrun : runBits ≤ 31)
include hlevel hrun

/-- The pair of an item is read back. -/
theorem wp_readPair {Q : RunLevel → Scan (Array Int32) → Prop}
    (hx : x.Writable layout levelBits runBits)
    (hs : s.reader.remaining = x.pairBits layout levelBits runBits ++ rest)
    (hQ : ∀ q, s.reader.Moved (x.pairBits layout levelBits runBits).length q → q.remaining = rest →
      Q x.toRunLevel ⟨q, s.state⟩) :
    book.code.next.wp (fun symbol t => symbol ≠ endOfBlock ∧
      (readPair book levelBits runBits symbol).wp Q E t) E s := by
  unfold Item.Writable at hx
  unfold Item.pairBits at hs hQ
  by_cases escaped : x.escaped = true
  · rw [if_pos escaped] at hx hs
    rw [if_pos escaped] at hQ
    rw [List.append_assoc, List.append_assoc] at hs
    refine wp_next_symbol hbook hlengths (by simp [pairsOf, escape]) hs fun q hq hs => ?_
    refine ⟨by decide, ?_⟩
    unfold readPair
    simp only [↓reduceIte, Parse.wp_bind]
    refine Parse.wp_read_bitsOf (by omega) hx.1 hs fun q' hq' hs => ?_
    refine Parse.wp_read_bitsOf (by omega) hx.2 hs fun q'' hq'' hs => hQ q'' ?_ hs
    simpa [Nat.add_assoc] using (hq.trans hq').trans hq''
  · rw [if_neg escaped] at hx hs
    rw [if_neg escaped] at hQ
    have found := getElem?_symbolOf hx
    have two := two_le_symbolOf hx
    refine wp_next_symbol hbook hlengths (List.getElem?_eq_some_iff.mp found).1 hs fun q hq hs => ?_
    refine ⟨fun h => ?_, ?_⟩
    · rw [h] at two
      exact absurd two (by decide)
    · have pair : Buffer.lookup book.pairs (symbolOf layout x.toRunLevel) = .ok x.toRunLevel := by
        unfold Buffer.lookup
        rw [(ofLayout_eq_ok hbook).1, List.getElem?_toArray, found]
      unfold readPair
      rw [if_neg (by unfold escape; omega), pair]
      exact hQ q hq hs

theorem wp_readFrom_item {Q : Nat → Scan (Array Int32) → Prop}
    (hx : x.Writable layout levelBits runBits) (hposition : position < count)
    (hsize : s.state.size = 2 ^ k)
    (hs : s.reader.remaining = x.bits layout levelBits runBits ++ rest)
    (hQ : ∀ q level, s.reader.Moved (x.bits layout levelBits runBits).length q →
      q.remaining = rest → level.toInt = x.value →
      (readFrom book levelBits runBits count limit (position + x.run + 1)).wp Q E
        ⟨q, s.state.setIfInBounds ((position + x.run) % 2 ^ k) level⟩) :
    (readFrom book levelBits runBits count (limit + 1) position).wp Q E s := by
  unfold Item.bits at hs hQ
  rw [List.append_assoc] at hs
  unfold readFrom
  rw [Parse.wp_ite, if_neg (by omega), Parse.wp_bind]
  refine Parse.wp_mono (wp_readPair hbook hlengths hlevel hrun hx hs
    (Q := fun pair t => pair = x.toRunLevel ∧
      s.reader.Moved (x.pairBits layout levelBits runBits).length t.reader ∧
      t.reader.remaining = x.positive :: rest ∧ t.state = s.state) fun q hm hs => ?_)
    (fun symbol t h => ?_) fun _ _ he => he
  · exact ⟨rfl, hm, hs, rfl⟩
  rw [Parse.wp_ite, if_neg h.1, Parse.wp_bind]
  refine Parse.wp_mono h.2 (fun pair t ht => ?_) fun _ _ he => he
  obtain ⟨rfl, hm, hs, hstate⟩ := ht
  rw [Parse.wp_bind]
  refine Parse.wp_readBit_of_cons hs fun q hq hs => ?_
  have moved := hm.trans hq
  obtain ⟨signed, hsigned, hvalue⟩ := x.exists_signed
  simp only [hsigned, Parse.wp_bind, Parse.wp_ofExcept_ok]
  refine wp_place (k := k) (by rw [hstate, hsize]) signed ?_
  rw [hstate]
  exact hQ q signed (by simpa using moved) hs hvalue

/-- Items that stay within the block are read one after the other. -/
theorem wp_readFrom_items {Q : Nat → Scan (Array Int32) → Prop} (done : List Int)
    (hx : ∀ x ∈ items, x.Writable layout levelBits runBits) (hk : count ≤ 2 ^ k)
    (hfit : (done ++ expand items).length ≤ count) (hlimit : count ≤ done.length + limit)
    (hdone : Holds (2 ^ k) done s.state)
    (hs : s.reader.remaining = items.flatMap (Item.bits layout levelBits runBits) ++ rest)
    (hQ : ∀ q a limit, s.reader.Moved (items.flatMap (Item.bits layout levelBits runBits)).length q →
      q.remaining = rest → Holds (2 ^ k) (done ++ expand items) a →
      count ≤ (done ++ expand items).length + limit →
      (readFrom book levelBits runBits count limit (done ++ expand items).length).wp Q E ⟨q, a⟩) :
    (readFrom book levelBits runBits count limit done.length).wp Q E s := by
  induction items generalizing done limit s with
  | nil => simpa using hQ s.reader s.state limit ⟨rfl, rfl, rfl⟩ hs (by simpa using hdone) (by simpa)
  | cons x items ih =>
    rw [List.flatMap_cons, List.append_assoc] at hs
    rw [List.flatMap_cons] at hQ
    simp only [expand_cons, List.length_append, Item.length_expand] at hfit
    obtain ⟨limit, rfl⟩ : ∃ l, limit = l + 1 := ⟨limit - 1, by omega⟩
    refine wp_readFrom_item hbook hlengths hlevel hrun (hx x List.mem_cons_self) (by omega)
      hdone.size hs fun q level hm hs hlevel => ?_
    have held := hdone.place (show done.length + x.run < 2 ^ k by omega) level
    rw [hlevel, ← Item.expand] at held
    rw [Nat.mod_eq_of_lt (by omega)]
    have position : done.length + x.run + 1 = (done ++ x.expand).length := by
      rw [List.length_append, Item.length_expand, Nat.add_assoc]
    rw [position]
    refine ih _ (fun x hx' => hx x (List.mem_cons_of_mem _ hx')) (by simp; omega) (by simp; omega) held
      hs fun q' a limit' hm' hs' held' hlimit' => ?_
    rw [List.append_assoc] at held' hlimit' ⊢
    refine hQ q' a limit' ?_ hs' held' hlimit'
    simpa using hm.trans hm'

/-- A block that has been written is read back. -/
theorem wp_read_block (hx : ∀ x ∈ items, x.Writable layout levelBits runBits)
    (hk : count ≤ 2 ^ k) (hsize : s.state.size = 2 ^ k) (hfit : (expand items).length ≤ count)
    (hs : s.reader.remaining = blockBits layout levelBits runBits count items ++ rest) :
    (read book levelBits runBits count).wp (fun _ t =>
      s.reader.Moved (blockBits layout levelBits runBits count items).length t.reader ∧
        Holds (2 ^ k) (expand items) t.state) (fun _ _ => False) s := by
  refine wp_read ?_
  unfold blockBits at hs ⊢
  rw [List.append_assoc] at hs
  refine wp_readFrom_items hbook hlengths hlevel hrun [] hx hk hfit (by simp)
    (hsize ▸ Holds.clear _) hs fun q a limit hm hs held hlimit => ?_
  rw [List.nil_append] at held hlimit ⊢
  by_cases full : (expand items).length = count
  · rw [if_pos full, List.append_nil]
    refine wp_readFrom_of_le (by omega) ?_
    rw [if_pos hfit]
    exact ⟨hm, held⟩
  · rw [if_neg full] at hs ⊢
    obtain ⟨limit, rfl⟩ : ∃ l, limit = l + 1 := ⟨limit - 1, by omega⟩
    refine wp_readFrom_endOfBlock hbook hlengths (by omega) hs fun q' hm' => ?_
    rw [if_pos hfit, List.length_append]
    exact ⟨hm.trans hm', held⟩

end Reading

end Levels

end Wma
