import Wma.Proofs.Code.Table
import Wma.Proofs.Parse.Success

/-!
# What a look-up finds

The table of a code holds its words (`CodeTable.Holds`). A look-up finds the word that the bits ahead
of a reader begin with, zeros standing for those behind the cut (`BitReader.Shows`), and no other
(`PrefixCode.decode_of_holds`). No index is out of the table, and where no word is found that is
reported as damage.

There is one exception. A window of 16 bits leaves room for so many words that the last part of the
table begins at the place `2 ^ 32` (`CodeTable.of_two_pow_le_partStart`), which the entry that leads
there holds as zero. The words of that part are not found (`PrefixCode.Missed`).
-/

namespace Wma

namespace BitReader

open CodeWord

variable {r a b : BitReader} {p q : List Bool} {n m : Nat}

theorem Moved.unique (ha : r.Moved n a) (hb : r.Moved n b) : a = b := by
  have step : a.Moved 0 b :=
    ⟨hb.bytes.trans ha.bytes.symm, hb.bitLength.trans ha.bitLength.symm, by
      rw [hb.position, ha.position, Nat.add_zero]⟩
  exact step.eq_of_zero.symm

/-- The reader shows `p`: these are the bits ahead, those behind the cut being zero. -/
def Shows (r : BitReader) (p : List Bool) : Prop :=
  (List.range p.length).map r.bit = p

/-- What is left to a reader is what it shows up to the cut. -/
theorem prefix_remaining_iff : p <+: r.remaining ↔ r.Shows p ∧ p.length ≤ r.left := by
  unfold Shows
  constructor
  · intro h
    have hle := h.length_le
    rw [length_remaining] at hle
    rw [map_bit_range hle]
    exact ⟨(List.prefix_iff_eq_take.mp h).symm, hle⟩
  · rintro ⟨h, hle⟩
    rw [map_bit_range hle] at h
    exact h ▸ List.take_prefix ..

theorem bitsOf_peek (r : BitReader) (hn : n ≤ 32) :
    bitsOf (r.peek n) n = (List.range n).map r.bit := by
  have whole := Bits.bitsOf_value ((List.range n).map r.bit)
  rwa [List.length_map, List.length_range, ← peek_eq r hn] at whole

theorem shows_iff (hp : p.length ≤ n) (hn : n ≤ 32) :
    r.Shows p ↔ p <+: bitsOf (r.peek n) n := by
  rw [bitsOf_peek r hn, List.prefix_iff_eq_take, ← List.map_take, List.take_range,
    Nat.min_eq_left hp]
  exact eq_comm

theorem Shows.prefix_of_le (hp : r.Shows p) (hq : r.Shows q) (h : p.length ≤ q.length) :
    p <+: q := by
  have taken := List.take_prefix p.length ((List.range q.length).map r.bit)
  rwa [← List.map_take, List.take_range, Nat.min_eq_left h, hp, hq] at taken

/-- Of two rows of bits that a reader shows one begins the other. -/
theorem Shows.not_apart (hp : r.Shows p) (hq : r.Shows q) : ¬Apart p q := by
  rw [not_apart_iff]
  exact (Nat.le_total p.length q.length).imp (hp.prefix_of_le hq) (hq.prefix_of_le hp)

/-- The first bits of a field. -/
theorem peek_add_div (r : BitReader) (h : n + m ≤ 32) : r.peek (n + m) / 2 ^ m = r.peek n := by
  have first : r.peek (n + m) / 2 ^ m < 2 ^ n := by
    refine Nat.div_lt_of_lt_mul ?_
    rw [← Nat.pow_add, Nat.add_comm m]
    exact r.peek_lt _
  have parts := Bits.bitsOf_add (r.peek (n + m)) n m
  rw [bitsOf_peek r h, List.range_add, List.map_append] at parts
  refine bitsOf_inj first (r.peek_lt n) ?_
  rw [bitsOf_peek r (by omega)]
  exact (List.append_inj_left parts (by simp)).symm

variable {w : CodeWord} {window : Nat}

theorem begins_peek_iff (hw : w.Fits n) (hn : n ≤ 32) :
    w.Begins n (r.peek n) ↔ r.Shows w.path := by
  rw [begins_iff hw.bits_lt (r.peek_lt n), shows_iff (by simpa using hw.length_le) hn]

theorem Shows.head_eq (h : r.Shows w.path) (hw : w.Fits 32) (hn : n ≤ w.length) :
    w.head n = r.peek n := by
  have short := hw.length_le
  obtain ⟨m, hm⟩ := Nat.exists_eq_add_of_le hn
  unfold Shows at h
  rw [length_path, hm, List.range_add, List.map_append, path_eq_append hn] at h
  refine bitsOf_inj (head_lt hw.bits_lt hn) (r.peek_lt n) ?_
  rw [bitsOf_peek r (by omega)]
  exact (List.append_inj_left h (by simp)).symm

/-- Where the first bits of a word are shown, the rest of it decides. -/
theorem begins_tail_iff (hhead : w.head n = r.peek n) (hw : w.Fits (n + m)) (hn : n ≤ w.length)
    (hm : n + m ≤ 32) : (w.tail n).Begins m (r.peek (n + m) % 2 ^ m) ↔ r.Shows w.path := by
  rw [begins_iff (fits_tail hw).bits_lt (Nat.mod_lt _ (Nat.two_pow_pos m)),
    shows_iff (by simpa using hw.length_le) hm, path_eq_append hn, Bits.bitsOf_add, peek_add_div r hm,
    hhead, List.prefix_append_right_inj]

end BitReader

/-! ### Places that do not fit -/

namespace PrefixCode

/-- The part of the table where the rest of the word is looked up begins at the place `2 ^ 32`: in
front of it are the window and a part of `2 ^ 16` places for each other pattern of the window. -/
structure Missed (window : Nat) (ws : List CodeWord) (w : CodeWord) : Prop where
  window : window = 16
  long : 16 < w.length
  head : w.head 16 = 65535
  crowded : ∀ q < 65535, ∃ v ∈ ws, v.length = 32 ∧ v.head 16 = q

theorem Missed.congr {window : Nat} {ws ws' : List CodeWord} {w : CodeWord}
    (h : ∀ v, v ∈ ws ↔ v ∈ ws') : Missed window ws w ↔ Missed window ws' w := by
  have half : ∀ {ws ws' : List CodeWord}, (∀ v, v ∈ ws → v ∈ ws') → Missed window ws w →
      Missed window ws' w := fun {ws ws'} h hm =>
    ⟨hm.window, hm.long, hm.head, fun q hq => (hm.crowded q hq).imp fun v hv => ⟨h v hv.1, hv.2⟩⟩
  exact ⟨half fun v => (h v).mp, half fun v => (h v).mpr⟩

end PrefixCode

namespace CodeTable

open PrefixCode

variable {window q : Nat} {ws : List CodeWord} {w : CodeWord}

theorem partBits_le (window : Nat) (hfits : ∀ w ∈ ws, w.Fits 32) (q : Nat) :
    partBits window ws q ≤ 32 - window := by
  by_cases hne : partBits window ws q = 0
  · omega
  · obtain ⟨w, hw, -, -, hbits⟩ := exists_partBits_eq hne
    have := (hfits w hw).length_le
    omega

/-- Parts take no more room than the longest words can ask for. -/
theorem partStart_le (window : Nat) (hfits : ∀ w ∈ ws, w.Fits 32) {p : Nat} (hle : p ≤ q) :
    partStart window ws q ≤ partStart window ws p + (q - p) * 2 ^ (32 - window) := by
  induction q, hle using Nat.le_induction with
  | base => exact Nat.le_add_right ..
  | succ q hle ih =>
    have width := Nat.pow_le_pow_right (n := 2) (by decide) (partBits_le window hfits q)
    have room := Nat.two_pow_pos (32 - window)
    rw [partStart_succ, Nat.succ_sub hle, Nat.succ_mul]
    split
    · omega
    · omega

theorem partStart_zero (window : Nat) (ws : List CodeWord) : partStart window ws 0 = 2 ^ window :=
  rfl

/-- Only the last part of a table may begin at a place that takes more than 32 bits, and then all the
others are as large as can be. -/
theorem of_two_pow_le_partStart (hfits : ∀ w ∈ ws, w.Fits 32) (hwindow : window ≤ 16)
    (hq : q < 2 ^ window) (h : 2 ^ 32 ≤ partStart window ws q) :
    window = 16 ∧ q = 65535 ∧ partStart window ws q = 2 ^ 32 ∧
      ∀ p < 65535, partBits window ws p = 16 := by
  have most := partStart_le window hfits (Nat.zero_le q)
  rw [partStart_zero, Nat.sub_zero] at most
  have split : 2 ^ window * 2 ^ (32 - window) = 2 ^ 32 := by
    rw [← Nat.pow_add, Nat.add_sub_cancel' (by omega)]
  have wide : window = 16 := by
    by_contra narrow
    have small : 2 ^ window < 2 ^ (32 - window) := Nat.pow_lt_pow_right (by decide) (by omega)
    have last : (q + 1) * 2 ^ (32 - window) ≤ 2 ^ window * 2 ^ (32 - window) :=
      Nat.mul_le_mul_right _ hq
    rw [Nat.succ_mul] at last
    omega
  subst wide
  have last : q = 65535 := by omega
  subst last
  refine ⟨rfl, rfl, by omega, fun p hp => ?_⟩
  -- A narrower part would leave the last one below.
  have before := partStart_le 16 hfits (Nat.zero_le p)
  have behind := partStart_le 16 hfits (Nat.succ_le_of_lt hp)
  rw [Nat.succ_eq_add_one, partStart_succ 16 ws p] at behind
  rw [partStart_zero] at before
  by_contra narrow
  have width : partBits 16 ws p ≤ 15 := by
    have := partBits_le 16 hfits p
    omega
  have room := Nat.pow_le_pow_right (n := 2) (by decide) width
  split at behind <;> omega

/-- The part of a longer word begins at the place `2 ^ 32` or behind just if the word is missed. -/
theorem two_pow_le_partStart_iff (hfits : ∀ w ∈ ws, w.Fits 32) (hwindow : window ≤ 16) (hw : w ∈ ws)
    (hlong : window < w.length) :
    2 ^ 32 ≤ partStart window ws (w.head window) ↔ Missed window ws w := by
  constructor
  · intro h
    obtain ⟨rfl, hhead, -, hfull⟩ := of_two_pow_le_partStart hfits hwindow
      (CodeWord.head_lt (hfits w hw).bits_lt hlong.le) h
    refine ⟨rfl, hlong, hhead, fun q hq => ?_⟩
    obtain ⟨v, hv, hlong, hhead, hbits⟩ := exists_partBits_eq (q := q) (by rw [hfull q hq]; decide)
    rw [hfull q hq] at hbits
    exact ⟨v, hv, by omega, hhead⟩
  · rintro ⟨rfl, -, hhead, hcrowded⟩
    have hfull : ∀ q ≤ 65535, 2 ^ 16 + q * 2 ^ 16 ≤ partStart 16 ws q := fun q => by
      induction q with
      | zero => exact fun _ => Nat.le_refl _
      | succ q ih =>
        intro hq
        obtain ⟨v, hv, hlength, rfl⟩ := hcrowded q hq
        have width := le_partBits hv (show 16 < v.length by omega)
        rw [hlength] at width
        have room : 2 ^ 16 ≤ 2 ^ partBits 16 ws (v.head 16) := Nat.pow_le_pow_right (by decide) width
        have before := ih (by omega)
        rw [partStart_succ, if_neg (by omega), Nat.succ_mul, ← Nat.add_assoc]
        exact Nat.add_le_add before room
    have last := hfull 65535 (Nat.le_refl _)
    rw [hhead]
    omega

/-! ### What is found -/

namespace Holds

variable {t : CodeTable} {r : BitReader}

theorem entry_of_short (h : Holds window ws t) (hwindow : window ≤ 32) (hw : w ∈ ws)
    (hfits : w.Fits window) (hshow : r.Shows w.path) :
    t.entry (r.peek window) = .word w.symbol w.length :=
  (h.word_iff _ (r.peek_lt window) _ _).mpr
    ⟨w, hw, (BitReader.begins_peek_iff hfits hwindow).mpr hshow, rfl, rfl⟩

theorem entry_of_long (h : Holds window ws t) (hw : w ∈ ws) (hfits : w.Fits 32)
    (hlong : window < w.length) (hshow : r.Shows w.path) :
    t.entry (r.peek window) = .part (partStart window ws (r.peek window) % 2 ^ 32)
      (partBits window ws (r.peek window)) :=
  (h.part_iff _ (r.peek_lt window) _ _).mpr
    ⟨partBits_ne_zero_iff.mpr ⟨w, hw, hlong, hshow.head_eq hfits hlong.le⟩, rfl, rfl⟩

/-- The words that are found in a part. -/
theorem entry_part_iff (h : Holds window ws t) (hfits : ∀ w ∈ ws, w.Fits 32)
    (hne : partBits window ws (r.peek window) ≠ 0) {x n : Nat} :
    t.entry (partStart window ws (r.peek window) +
        r.peek (window + partBits window ws (r.peek window)) %
          2 ^ partBits window ws (r.peek window)) = .word x n ↔
      ∃ w ∈ ws, window < w.length ∧ r.Shows w.path ∧ w.symbol = x ∧ w.length - window = n := by
  have wide := partBits_le window hfits (r.peek window)
  rw [(h.part _ (r.peek_lt window) hne).entry_iff _ (Nat.mod_lt _ (Nat.two_pow_pos _)) (.word x n)
    nofun]
  -- A longer word that is shown begins with the pattern of the window.
  have tail : ∀ w ∈ ws, window < w.length → w.head window = r.peek window →
      ((w.tail window).Begins (partBits window ws (r.peek window))
        (r.peek (window + partBits window ws (r.peek window)) %
          2 ^ partBits window ws (r.peek window)) ↔ r.Shows w.path) := fun w hw hlong hhead => by
    have width := le_partBits hw hlong
    rw [hhead] at width
    exact BitReader.begins_tail_iff hhead ⟨by omega, (hfits w hw).bits_lt⟩ hlong.le (by omega)
  constructor
  · rintro ⟨v, hv, hbegins, hsame⟩
    obtain ⟨w, hw, rfl⟩ := List.mem_map.mp hv
    obtain ⟨hw, hlong, hhead⟩ := mem_longWords.mp hw
    cases hsame
    exact ⟨w, hw, hlong, (tail w hw hlong hhead).mp hbegins, rfl, rfl⟩
  · rintro ⟨w, hw, hlong, hshow, rfl, rfl⟩
    have hhead := hshow.head_eq (hfits w hw) hlong.le
    exact ⟨_, List.mem_map_of_mem (mem_longWords.mpr ⟨hw, hlong, hhead⟩),
      (tail w hw hlong hhead).mpr hshow, rfl⟩

end Holds

end CodeTable

namespace PrefixCode

open CodeTable

variable {c : PrefixCode} {ws : List CodeWord} {r : BitReader} {x n : Nat}

theorem decode_of_word (inside : r.peek c.window < c.table.size)
    (h : c.table.entry (r.peek c.window) = .word x n) : c.decode r = (r.skip n).map (x, ·) := by
  unfold decode
  dsimp only
  rw [lookup_eq_ok inside, h]
  rfl

theorem decode_of_empty (inside : r.peek c.window < c.table.size)
    (h : c.table.entry (r.peek c.window) = .empty) :
    c.decode r = .error (invalidCode (r.peek c.window) c.window) := by
  unfold decode
  dsimp only
  rw [lookup_eq_ok inside, h]
  rfl

section part

variable {start bits : Nat} (inside : r.peek c.window < c.table.size)
  (h : c.table.entry (r.peek c.window) = .part start bits)
  (within : start + r.peek (c.window + bits) % 2 ^ bits < c.table.size)

include inside h within

theorem decode_of_part_word
    (hnext : c.table.entry (start + r.peek (c.window + bits) % 2 ^ bits) = .word x n) :
    c.decode r = (r.skip (c.window + n)).map (x, ·) := by
  unfold decode
  dsimp only
  rw [lookup_eq_ok inside, h]
  dsimp only [bind, Except.bind]
  rw [lookup_eq_ok within, hnext]

theorem decode_of_part
    (hnext : ∀ x n, c.table.entry (start + r.peek (c.window + bits) % 2 ^ bits) ≠ .word x n) :
    c.decode r = .error (invalidCode (r.peek (c.window + bits)) (c.window + bits)) := by
  unfold decode
  dsimp only
  rw [lookup_eq_ok inside, h]
  dsimp only [bind, Except.bind]
  rw [lookup_eq_ok within]
  cases hentry : c.table.entry (start + r.peek (c.window + bits) % 2 ^ bits) with
  | empty => rfl
  | part a b => rfl
  | word x n => exact absurd hentry (hnext x n)

end part

section holds

variable (h : Holds c.window ws c.table) (hfits : ∀ w ∈ ws, w.Fits 32)

include h hfits

/-- A longer word that is shown is found in its part, if the place of that part is kept in full. -/
theorem decode_of_fit (hne : partBits c.window ws (r.peek c.window) ≠ 0)
    (fit : partStart c.window ws (r.peek c.window) < 2 ^ 32) :
    (∃ w ∈ ws, c.window < w.length ∧ r.Shows w.path ∧
      c.decode r = (r.skip w.length).map (w.symbol, ·)) ∨
    (∀ w ∈ ws, c.window < w.length → ¬r.Shows w.path) ∧
      ∃ e, c.decode r = .error e ∧ e.IsDamage := by
  have index := r.peek_lt c.window
  have inside := Nat.lt_of_lt_of_le index h.pow_le_size
  have hentry := (h.part_iff _ index _ _).mpr ⟨hne, rfl, rfl⟩
  rw [Nat.mod_eq_of_lt fit] at hentry
  have within : partStart c.window ws (r.peek c.window) +
      r.peek (c.window + partBits c.window ws (r.peek c.window)) %
        2 ^ partBits c.window ws (r.peek c.window) < c.table.size :=
    Nat.lt_of_lt_of_le (Nat.add_lt_add_left (Nat.mod_lt _ (Nat.two_pow_pos _)) _)
      (h.part _ index hne).inside
  by_cases hword : ∃ x n, c.table.entry (partStart c.window ws (r.peek c.window) +
      r.peek (c.window + partBits c.window ws (r.peek c.window)) %
        2 ^ partBits c.window ws (r.peek c.window)) = .word x n
  · obtain ⟨x, n, hnext⟩ := hword
    obtain ⟨w, hw, hlong, hshow, rfl, rfl⟩ := (h.entry_part_iff hfits hne).mp hnext
    refine .inl ⟨w, hw, hlong, hshow, ?_⟩
    rw [decode_of_part_word inside hentry within hnext, Nat.add_sub_cancel' hlong.le]
  · refine .inr ⟨fun w hw hlong hshow => hword ⟨w.symbol, w.length - c.window, ?_⟩, _,
      decode_of_part inside hentry within fun x n hnext => hword ⟨x, n, hnext⟩, trivial⟩
    exact (h.entry_part_iff hfits hne).mpr ⟨w, hw, hlong, hshow, rfl, rfl⟩

/-- A place that takes more than 32 bits is cut to zero. So the search goes on at the front of the
table, where each entry is a part. -/
theorem decode_of_unfit (unfit : 2 ^ 32 ≤ partStart c.window ws (r.peek c.window))
    (hne : partBits c.window ws (r.peek c.window) ≠ 0) :
    ∃ e, c.decode r = .error e ∧ e.IsDamage := by
  have index := r.peek_lt c.window
  have front := h.pow_le_size
  have inside := Nat.lt_of_lt_of_le index front
  obtain ⟨hwindow, hindex, hplace, hfull⟩ := of_two_pow_le_partStart hfits c.window_le index unfit
  have hentry := (h.part_iff _ index _ _).mpr ⟨hne, rfl, rfl⟩
  rw [hplace, Nat.mod_self] at hentry
  have width := partBits_le c.window hfits (r.peek c.window)
  have near : 0 + r.peek (c.window + partBits c.window ws (r.peek c.window)) %
      2 ^ partBits c.window ws (r.peek c.window) < 2 ^ c.window := by
    rw [Nat.zero_add]
    exact Nat.lt_of_lt_of_le (Nat.mod_lt _ (Nat.two_pow_pos _))
      (Nat.pow_le_pow_right (by decide) (by omega))
  have parts : ∀ i < 2 ^ c.window, partBits c.window ws i ≠ 0 := fun i hi => by
    rcases Nat.lt_or_ge i 65535 with hlt | hge
    · rw [hfull i hlt]
      decide
    · rw [hwindow] at hi
      rwa [show i = r.peek c.window by omega]
  refine ⟨_, decode_of_part inside hentry (Nat.lt_of_lt_of_le near front) fun x n hnext => ?_,
    trivial⟩
  have other := (h.part_iff _ near _ _).mpr ⟨parts _ near, rfl, rfl⟩
  exact absurd (hnext.symm.trans other) nofun

/-- A word that the reader shows is found, unless it is missed; nothing else is. -/
theorem decode_of_holds (r : BitReader) :
    (∃ w ∈ ws, r.Shows w.path ∧ ¬Missed c.window ws w ∧
      c.decode r = (r.skip w.length).map (w.symbol, ·)) ∨
    (∀ w ∈ ws, r.Shows w.path → Missed c.window ws w) ∧
      ∃ e, c.decode r = .error e ∧ e.IsDamage := by
  have window := c.window_le
  have index := r.peek_lt c.window
  have inside := Nat.lt_of_lt_of_le index h.pow_le_size
  have short : ∀ w ∈ ws, w.length ≤ c.window → r.Shows w.path →
      c.table.entry (r.peek c.window) = .word w.symbol w.length := fun w hw hlength =>
    h.entry_of_short (by omega) hw ⟨hlength, (hfits w hw).bits_lt⟩
  have long : ∀ w ∈ ws, c.window < w.length → r.Shows w.path →
      c.table.entry (r.peek c.window) = .part (partStart c.window ws (r.peek c.window) % 2 ^ 32)
        (partBits c.window ws (r.peek c.window)) := fun w hw =>
    h.entry_of_long hw (hfits w hw)
  cases hentry : c.table.entry (r.peek c.window) with
  | empty =>
    refine .inr ⟨fun w hw hshow => ?_, _, decode_of_empty inside hentry, trivial⟩
    rcases Nat.lt_or_ge c.window w.length with hlong | hshort
    · exact absurd (hentry.symm.trans (long w hw hlong hshow)) nofun
    · exact absurd (hentry.symm.trans (short w hw hshort hshow)) nofun
  | word x n =>
    obtain ⟨w, hw, hbegins, rfl, rfl⟩ := (h.word_iff _ index x n).mp hentry
    refine .inl ⟨w, hw, ?_, fun missed => ?_, decode_of_word inside hentry⟩
    · exact (BitReader.begins_peek_iff ⟨hbegins.1, (hfits w hw).bits_lt⟩ (by omega)).mp hbegins
    · have := hbegins.1
      have := missed.long
      omega
  | part start bits =>
    obtain ⟨hne, -, -⟩ := (h.part_iff _ index start bits).mp hentry
    have all_long : ∀ w ∈ ws, r.Shows w.path → c.window < w.length := fun w hw hshow => by
      by_contra hshort
      exact absurd (hentry.symm.trans (short w hw (by omega) hshow)) nofun
    -- Whether a shown word is missed depends on where its part begins.
    have missed_iff : ∀ w ∈ ws, r.Shows w.path →
        (2 ^ 32 ≤ partStart c.window ws (r.peek c.window) ↔ Missed c.window ws w) :=
      fun w hw hshow => by
        have hlong := all_long w hw hshow
        rw [← two_pow_le_partStart_iff hfits window hw hlong,
          hshow.head_eq (hfits w hw) hlong.le]
    rcases Nat.lt_or_ge (partStart c.window ws (r.peek c.window)) (2 ^ 32) with fit | unfit
    · refine (decode_of_fit h hfits hne fit).imp ?_ ?_
      · rintro ⟨w, hw, -, hshow, hdecode⟩
        exact ⟨w, hw, hshow, fun missed => Nat.not_le_of_lt fit ((missed_iff w hw hshow).mpr missed),
          hdecode⟩
      · rintro ⟨none, herror⟩
        exact ⟨fun w hw hshow => absurd hshow (none w hw (all_long w hw hshow)), herror⟩
    · exact .inr ⟨fun w hw hshow => (missed_iff w hw hshow).mp unfit,
        decode_of_unfit h hfits unfit hne⟩

end holds

end PrefixCode

end Wma
