import Wma.Proofs.Code.Symbols
import Wma.Spectrum.Levels

/-!
# Levels stay within their buffer

A level has at most 13 bits, and its place is taken modulo the size of the buffer, so reading levels
never leaves the buffer and keeps its size (`Levels.Small`).
-/

namespace Wma

namespace Levels

/-- A buffer of `n` levels of 13 bits. -/
structure Small (n : Nat) (a : Array Int32) : Prop where
  size : a.size = n
  bounded : ∀ x ∈ a, -2 ^ 13 < x.toInt ∧ x.toInt < 2 ^ 13

namespace Small

variable {n : Nat} {a : Array Int32}

theorem replicate (n : Nat) : Small n (Array.replicate n 0) := by
  refine ⟨by simp, fun x hx => ?_⟩
  rw [(Array.mem_replicate.mp hx).2]
  decide

theorem extract (h : Small n a) {m : Nat} (hm : m ≤ n) : Small m (a.extract 0 m) := by
  refine ⟨?_, fun x hx => h.bounded x (Buffer.mem_extract hx)⟩
  rw [Array.size_extract, h.size]
  omega

theorem overlay (h : Small n a) {m : Nat} {b : Array Int32} (hb : Small m b) (hm : m ≤ n) :
    Small n (Buffer.overlay a b) := by
  refine ⟨?_, fun x hx => ?_⟩
  · rw [Buffer.size_overlay (by rw [h.size, hb.size]; exact hm), h.size]
  · rcases Buffer.mem_overlay hx with hx | hx
    · exact hb.bounded x hx
    · exact h.bounded x hx

theorem set (h : Small n a) {i : Nat} {x : Int32} (hx : -2 ^ 13 < x.toInt ∧ x.toInt < 2 ^ 13) :
    Small n (a.setIfInBounds i x) := by
  refine ⟨by rw [Array.size_setIfInBounds, h.size], fun y hy => ?_⟩
  rcases Array.mem_or_eq_of_mem_setIfInBounds hy with hy | rfl
  · exact h.bounded y hy
  · exact hx

theorem natAbs_getD_le (h : Small n a) (i : Nat) : (a.getD i 0).toInt.natAbs ≤ 2 ^ 13 := by
  rcases Nat.lt_or_ge i a.size with hi | hi
  · rw [← Array.getElem_eq_getD (h := hi)]
    have := h.bounded _ (Array.getElem_mem hi)
    omega
  · rw [Array.getD_eq_getD_getElem?, Array.getElem?_eq_none hi]
    decide

end Small

theorem level_toInt {level : Nat} (h : level < 2 ^ 13) : (Int32.ofNat level).toInt = level :=
  Int32.toInt_ofNat_of_lt (by omega)

variable {n : Nat}

theorem triple_readPair {book : RunLevelBook} (hb : book.Sound) {levelBits : Nat}
    (hbits : levelBits ≤ 13) (runBits : Nat) {symbol : Nat} (hs : symbol < book.pairs.size) :
    Parse.Triple (Small n) (Small n) (readPair book levelBits runBits symbol) fun pair a =>
      pair.level < 2 ^ 13 ∧ Small n a := by
  refine .ite (fun _ => ?_) fun _ => ?_
  · refine .bind (.read (Q := fun level a => level < 2 ^ 13 ∧ Small n a) (fun _ h => h)
      fun level _ h ha => ⟨Nat.lt_of_lt_of_le h (Nat.pow_le_pow_right (by decide) hbits), ha⟩)
      fun level => ?_
    refine .of_fact (fun _ h => h.1) fun hlevel => ?_
    exact .bind (.read (Q := fun _ => Small n) (fun _ h => h.2) fun _ _ _ h => h.2)
      fun run => .pure fun _ h => ⟨hlevel, h⟩
  · exact .ofExcept fun _ h => .lookup hs fun p hp => ⟨hb.level p hp, h⟩

theorem triple_place (hn : 0 < n) (position : Nat) {level : Int32}
    (hl : -2 ^ 13 < level.toInt ∧ level.toInt < 2 ^ 13) :
    Parse.Triple (Small n) (Small n) (place position level) fun _ => Small n := by
  refine .bind (R := fun a b => Small n a ∧ Small n b) (.state fun _ h => ⟨h, h⟩) fun a => ?_
  refine .of_fact (fun _ h => h.1) fun ha => ?_
  have size := ha.size
  refine .bind (R := fun mask b => mask = n - 1 ∧ Small n b)
    (.ofExcept fun _ h => .difference (by omega) ⟨by rw [size], h.2⟩) fun mask => ?_
  refine .of_fact (fun _ h => h.1) fun hmask => ?_
  have inside : position &&& mask ≤ mask := Nat.and_le_right
  refine .ite (fun _ => .update fun b h => h.2.set hl) fun h => absurd ?_ h
  omega

theorem triple_readFrom {book : RunLevelBook} (hb : book.Sound) {levelBits : Nat}
    (hbits : levelBits ≤ 13) (runBits count : Nat) (hn : 0 < n) : ∀ limit position : Nat,
    Parse.Triple (Small n) (Small n) (readFrom book levelBits runBits count limit position)
      fun _ => Small n
  | 0, _ => .pure fun _ h => h
  | limit + 1, position => by
    unfold readFrom
    refine .ite (fun _ => .pure fun _ h => h) fun _ => ?_
    refine .bind (.next hb.below (Q := fun symbol a => symbol < book.pairs.size ∧ Small n a)
      (fun _ h => h) fun _ _ h ha => ⟨h, ha⟩) fun symbol => ?_
    refine .of_fact (fun _ h => h.1) fun hsymbol => .ite (fun _ => .pure fun _ h => h.2) fun _ => ?_
    refine .bind ((triple_readPair hb hbits runBits hsymbol).pre fun _ h => h.2) fun pair => ?_
    refine .of_fact (fun _ h => h.1) fun hpair => ?_
    refine .bind (.readBit (Q := fun _ => Small n) (fun _ h => h.2) fun _ _ h => h.2)
      fun positive => ?_
    have level := level_toInt hpair
    have least : Int32.minValue.toInt = -2 ^ 31 := rfl
    refine .bind (R := fun x a => (-2 ^ 13 < x.toInt ∧ x.toInt < 2 ^ 13) ∧ Small n a)
      (.ofExcept fun a ha => .ite (fun _ => .ok ⟨by omega, ha⟩) fun _ => .negate ?_ ⟨?_, ha⟩)
      fun x => ?_
    · intro h
      rw [h] at level
      omega
    · have opposite : (-Int32.ofNat pair.level).toInt = -pair.level := by
        rw [Int32.toInt_neg, level]
        exact Int.bmod_eq_of_le (by omega) (by omega)
      omega
    refine .of_fact (fun _ h => h.1) fun hx => ?_
    refine .bind ((triple_place hn (position + pair.run) hx).pre fun _ h => h.2) fun _ => ?_
    exact triple_readFrom hb hbits runBits count hn limit _

theorem triple_read {book : RunLevelBook} (hb : book.Sound) {levelBits : Nat}
    (hbits : levelBits ≤ 13) (runBits count : Nat) (hn : 0 < n) :
    Parse.Triple (Small n) (Small n) (read book levelBits runBits count) fun _ => Small n := by
  refine .bind (R := fun _ => Small n) (.update fun a ha => ?_) fun _ => ?_
  · rw [ha.size]; exact Small.replicate n
  refine .bind (triple_readFrom hb hbits runBits count hn count 0) fun position => ?_
  exact .require trivial (fun _ h => h) fun _ _ h => h

end Levels

end Wma
