import Wma.Proofs.Code.Lookup

/-!
# Reading a prefix code

Exactly the prefix codes can be built (`PrefixCode.exists_ofWords_iff`). What a code does is said
without its table: `PrefixCode.Reads` are the rows of bits that are read wherever they come. A code
reads the one that is in front of a reader, and fails without a trace if there is none
(`PrefixCode.decode_cases`); so words written one after the other are read back (`exists_mapM_next`).
If the words take all patterns, any bits begin with one of them or end within one (`Lists.full`).

Every word that the code has been built from is read but for those that are missed, and nothing else
is (`Lists.reads_iff`). With this `ofWords_prefixFree` says which codes can be built and what they
read.
-/

namespace Wma

theorem Error.IsDamage.exists_cause {e : Error} (h : e.IsDamage) : ∃ cause, e = .corrupt cause := by
  cases e with
  | corrupt cause => exact ⟨cause, rfl⟩
  | _ => exact h.elim

namespace PrefixCode

open CodeTable

variable {σ : Type} {c : PrefixCode} {ws : List CodeWord} {r q : BitReader} {s t : Scan σ} {x y : Nat}
  {p p' : List Bool} {w : CodeWord}

/-! ### What is read -/

/-- The table of the code has been filled with the words. -/
structure Lists (c : PrefixCode) (ws : List CodeWord) : Prop where
  checked : ws.forM check = .ok ()
  filled : CodeTable.ofWords c.window ws = .ok c.table

/-- Wherever the bits `p` are in front of a reader, they are read as the symbol `x`. -/
def Reads (c : PrefixCode) (x : Nat) (p : List Bool) : Prop :=
  ∀ r : BitReader, p <+: r.remaining → ∃ q, r.Moved p.length q ∧ c.decode r = .ok (x, q)

theorem exists_lists (c : PrefixCode) : ∃ ws, c.Lists ws :=
  c.filled.imp fun _ h => ⟨h.1, h.2⟩

namespace Lists

theorem check_eq (h : c.Lists ws) (hw : w ∈ ws) : w.symbol < 65536 ∧ w.Fits 32 :=
  check_eq_ok_iff.mp (forM_check_eq_ok_iff.mp h.checked w hw)

theorem fits (h : c.Lists ws) (hw : w ∈ ws) : w.Fits 32 :=
  (h.check_eq hw).2

theorem exists_holds (h : c.Lists ws) : ∃ l, l.Perm ws ∧ Holds c.window l c.table := by
  rcases ofWords_cases c.window fun w => h.fits with ⟨t, l, ht, hperm, hholds⟩ | ⟨-, err, herr, -⟩
  · rw [h.filled] at ht
    cases ht
    exact ⟨l, hperm, hholds⟩
  · rw [h.filled] at herr
    cases herr

theorem unlike (h : c.Lists ws) : ws.Pairwise Unlike := by
  obtain ⟨l, hperm, hholds⟩ := h.exists_holds
  exact (hperm.pairwise_iff Apart.symm).mp hholds.unlike

theorem eq_of_shows {v : CodeWord} (h : c.Lists ws) (hv : v ∈ ws) (hw : w ∈ ws)
    (hsv : r.Shows v.path) (hsw : r.Shows w.path) : v = w := by
  by_contra hne
  exact hsv.not_apart hsw (h.unlike.forall hv hw hne)

/-- The word in front of a reader is read, unless it is missed; nothing else is. -/
theorem decode_cases (h : c.Lists ws) (r : BitReader) :
    (∃ w ∈ ws, w.path <+: r.remaining ∧ ¬Missed c.window ws w ∧
      ∃ q, r.Moved w.length q ∧ c.decode r = .ok (w.symbol, q)) ∨
    (∀ w ∈ ws, w.path <+: r.remaining → Missed c.window ws w) ∧
      ∃ e, c.decode r = .error e ∧ e.IsDamage := by
  obtain ⟨l, hperm, hholds⟩ := h.exists_holds
  have missed : ∀ w, Missed c.window l w ↔ Missed c.window ws w := fun w =>
    Missed.congr fun v => hperm.mem_iff
  rcases decode_of_holds hholds (fun w hw => h.fits (hperm.mem_iff.mp hw)) r with
    ⟨w, hw, hshow, hfound, hdecode⟩ | ⟨none, herror⟩
  · rw [hperm.mem_iff] at hw
    rw [missed] at hfound
    rw [hdecode]
    rcases r.skip_cases w.length with ⟨q, hq, hm⟩ | ⟨hshort, hq⟩
    · have left := hm.left
      refine .inl ⟨w, hw, ?_, hfound, q, hm, by rw [hq]; rfl⟩
      exact BitReader.prefix_remaining_iff.mpr ⟨hshow, by rw [CodeWord.length_path]; omega⟩
    · -- The bits end within the word, so no other word is there in full.
      refine .inr ⟨fun v hv hpre => ?_, .corrupt (.overrun w.length r.position r.bitLength),
        by rw [hq]; rfl, trivial⟩
      obtain ⟨hshown, hlength⟩ := BitReader.prefix_remaining_iff.mp hpre
      rw [CodeWord.length_path, h.eq_of_shows hv hw hshown hshow] at hlength
      omega
  · refine .inr ⟨fun w hw hpre => (missed w).mp ?_, herror⟩
    exact none w (hperm.mem_iff.mpr hw) (BitReader.prefix_remaining_iff.mp hpre).1

theorem reads (h : c.Lists ws) (hw : w ∈ ws) (hfound : ¬Missed c.window ws w) :
    c.Reads w.symbol w.path := by
  intro r hpre
  rcases h.decode_cases r with ⟨v, hv, hvpre, -, q, hm, hdecode⟩ | ⟨none, -⟩
  · have same := h.eq_of_shows hv hw (BitReader.prefix_remaining_iff.mp hvpre).1
      (BitReader.prefix_remaining_iff.mp hpre).1
    rw [same] at hm hdecode
    exact ⟨q, by rwa [CodeWord.length_path], hdecode⟩
  · exact absurd (none w hw hpre) hfound

/-- What is read are the words that are not missed. -/
theorem reads_iff (h : c.Lists ws) :
    c.Reads x p ↔ ∃ w ∈ ws, w.symbol = x ∧ w.path = p ∧ ¬Missed c.window ws w := by
  constructor
  · intro hreads
    obtain ⟨q, hm, hdecode⟩ := hreads (.ofList 0 p) (by simp)
    rcases h.decode_cases (.ofList 0 p) with ⟨w, hw, hpre, hfound, q', hm', hdecode'⟩ |
      ⟨-, e, herror, -⟩
    · rw [hdecode] at hdecode'
      cases hdecode'
      rw [BitReader.remaining_ofList] at hpre
      have far := hm.position.symm.trans hm'.position
      exact ⟨w, hw, rfl, hpre.eq_of_length (by rw [CodeWord.length_path]; omega), hfound⟩
    · rw [hdecode] at herror
      cases herror
  · rintro ⟨w, hw, rfl, rfl, hfound⟩
    exact h.reads hw hfound

end Lists

/-- A code reads what is in front of the reader, or fails. -/
theorem decode_cases (c : PrefixCode) (r : BitReader) :
    (∃ x p q, c.Reads x p ∧ p <+: r.remaining ∧ r.Moved p.length q ∧ c.decode r = .ok (x, q)) ∨
    (∀ x p, c.Reads x p → ¬p <+: r.remaining) ∧ ∃ e, c.decode r = .error e ∧ e.IsDamage := by
  obtain ⟨ws, h⟩ := c.exists_lists
  rcases h.decode_cases r with ⟨w, hw, hpre, hfound, q, hm, hdecode⟩ | ⟨-, e, herror, hdamage⟩
  · rw [← w.length_path] at hm
    exact .inl ⟨_, _, q, h.reads hw hfound, hpre, hm, hdecode⟩
  · refine .inr ⟨fun x p hreads hpre => ?_, e, herror, hdamage⟩
    obtain ⟨q, -, hdecode⟩ := hreads r hpre
    rw [hdecode] at herror
    cases herror

theorem decode_eq_ok_iff : c.decode r = .ok (x, q) ↔
    ∃ p, c.Reads x p ∧ p <+: r.remaining ∧ r.Moved p.length q := by
  constructor
  · intro h
    rcases c.decode_cases r with ⟨y, p, q', hreads, hpre, hm, hdecode⟩ | ⟨-, e, herror, -⟩
    · rw [h] at hdecode
      cases hdecode
      exact ⟨p, hreads, hpre, hm⟩
    · rw [h] at herror
      cases herror
  · rintro ⟨p, hreads, hpre, hm⟩
    obtain ⟨q', hm', hdecode⟩ := hreads r hpre
    rw [hdecode, hm'.unique hm]

/-- No row of bits that is read begins another. -/
theorem Reads.eq_of_prefix (hp : c.Reads x p) (hp' : c.Reads y p') (h : p <+: p') :
    x = y ∧ p = p' := by
  obtain ⟨q, hm, hdecode⟩ := hp (.ofList 0 p') (by simpa using h)
  obtain ⟨q', hm', hdecode'⟩ := hp' (.ofList 0 p') (by simp)
  rw [hdecode] at hdecode'
  cases hdecode'
  have far := hm.position.symm.trans hm'.position
  exact ⟨rfl, h.eq_of_length (by omega)⟩

/-- Any bits begin with something that the code reads, or end within it. -/
def Full (c : PrefixCode) : Prop :=
  ∀ l : List Bool, ∃ x p, c.Reads x p ∧ (p <+: l ∨ l <+: p ∧ l.length < p.length)

/-- A code is full if its words take all patterns. -/
theorem Lists.full (h : c.Lists ws) (hfound : ∀ w ∈ ws, ¬Missed c.window ws w)
    (hsum : (ws.map fun w => 2 ^ (32 - w.length)).sum = 2 ^ 32) : c.Full := by
  intro l
  obtain ⟨w, hw, hbegins⟩ := exists_begins (fun w => h.fits) h.unlike hsum
    ((BitReader.ofList 0 l).peek_lt 32)
  have shows := (BitReader.begins_peek_iff (h.fits hw) (Nat.le_refl 32)).mp hbegins
  obtain ⟨whole, -⟩ := BitReader.prefix_remaining_iff.mp
    (List.prefix_refl (BitReader.ofList 0 l).remaining)
  rw [BitReader.remaining_ofList] at whole
  refine ⟨w.symbol, w.path, h.reads hw (hfound w hw), ?_⟩
  rcases Nat.lt_or_ge l.length w.path.length with hlt | hge
  · exact .inr ⟨whole.prefix_of_le shows hlt.le, hlt⟩
  · exact .inl (shows.prefix_of_le whole hge)

/-! ### Steps -/

theorem next_of_ok (h : c.decode s.reader = .ok (x, q)) : c.next s = .ok x ⟨q, s.state⟩ := by
  unfold next Parse.ofReader
  rw [h]

theorem next_of_error {e : Error} (h : c.decode s.reader = .error e) : c.next s = .error e s := by
  unfold next Parse.ofReader
  rw [h]

theorem Reads.exists_next (h : c.Reads x p) (hp : p <+: s.reader.remaining) :
    ∃ r, s.reader.Moved p.length r ∧ c.next s = .ok x ⟨r, s.state⟩ :=
  (h s.reader hp).imp fun _ hr => ⟨hr.1, next_of_ok hr.2⟩

/-- What has been written is read back. -/
theorem Reads.wp_next {Q : Nat → Scan σ → Prop} {E : Error → Scan σ → Prop} {rest : List Bool}
    (h : c.Reads x p) (hs : s.reader.remaining = p ++ rest)
    (hQ : ∀ q, s.reader.Moved p.length q → q.remaining = rest → Q x ⟨q, s.state⟩) :
    c.next.wp Q E s := by
  obtain ⟨q, hm, hq⟩ := h.exists_next (s := s) (hs ▸ List.prefix_append ..)
  exact Parse.wp_of_ok hq (hQ q hm (by rw [hm.remaining, hs, List.drop_left]))

/-- If nothing that is read is in front of the reader, nothing is done. -/
theorem exists_next_eq_error (h : ∀ x p, c.Reads x p → ¬p <+: s.reader.remaining) :
    ∃ cause, c.next s = .error (.corrupt cause) s := by
  rcases c.decode_cases s.reader with ⟨x, p, q, hreads, hpre, -⟩ | ⟨-, e, herror, hdamage⟩
  · exact absurd hpre (h x p hreads)
  · obtain ⟨cause, rfl⟩ := hdamage.exists_cause
    exact ⟨cause, next_of_error herror⟩

theorem next_eq_ok_iff : c.next s = .ok x t ↔
    ∃ p, c.Reads x p ∧ p <+: s.reader.remaining ∧ s.reader.Moved p.length t.reader ∧
      t.state = s.state := by
  constructor
  · intro h
    obtain ⟨hdecode, hstate⟩ := Parse.ok_ofReader h
    obtain ⟨p, hreads, hpre, hm⟩ := decode_eq_ok_iff.mp hdecode
    exact ⟨p, hreads, hpre, hm, hstate⟩
  · rintro ⟨p, hreads, hpre, hm, hstate⟩
    rw [next_of_ok (decode_eq_ok_iff.mpr ⟨p, hreads, hpre, hm⟩), ← hstate]

/-- Words written one after the other are read back. -/
theorem exists_mapM_next {ws : List CodeWord} (h : ∀ w ∈ ws, c.Reads w.symbol w.path)
    {rest : List Bool} (hs : s.reader.remaining = ws.flatMap CodeWord.path ++ rest) :
    ∃ r, r.remaining = rest ∧
      (ws.mapM fun _ => c.next) s = .ok (ws.map CodeWord.symbol) ⟨r, s.state⟩ := by
  induction ws generalizing s with
  | nil => exact ⟨s.reader, hs, rfl⟩
  | cons w ws ih =>
    rw [List.flatMap_cons, List.append_assoc] at hs
    obtain ⟨r, hm, hr⟩ := (h w List.mem_cons_self).exists_next (s := s) (hs ▸ List.prefix_append ..)
    have behind : r.remaining = ws.flatMap CodeWord.path ++ rest := by
      rw [hm.remaining, hs, List.drop_left]
    obtain ⟨q, hq, hrest⟩ :=
      ih (s := ⟨r, s.state⟩) (fun w hw => h w (List.mem_cons_of_mem _ hw)) behind
    refine ⟨q, hq, ?_⟩
    rw [List.mapM_cons, Parse.bind_of_ok hr, Parse.bind_of_ok hrest]
    rfl

/-! ### Codes that can be built -/

variable {words lengths : List Nat} {window : Nat}

theorem of_ofWords (h : ofWords words lengths window = .ok c) :
    c.window = window ∧ c.Lists (wordsOf words lengths) := by
  unfold ofWords at h
  split at h
  · cases h
  split at h
  · cases h
  split at h
  · cases h
  rename_i checked
  split at h
  · cases h
  rename_i filled
  cases h
  exact ⟨rfl, checked, filled⟩

/-- A code is built if its words pass the checks and the table can be filled with them. -/
theorem exists_ofWords (hcount : words.length = lengths.length) (hlow : 1 ≤ window)
    (hhigh : window ≤ 16) (checked : (wordsOf words lengths).forM check = .ok ())
    {t : CodeTable} (filled : CodeTable.ofWords window (wordsOf words lengths) = .ok t) :
    ∃ c, ofWords words lengths window = .ok c := by
  unfold ofWords
  rw [if_neg (not_not.mpr hcount), dif_neg (by omega)]
  split
  · rename_i err
    rw [checked] at err
    cases err
  split
  · rename_i err
    rw [filled] at err
    cases err
  · exact ⟨_, rfl⟩

theorem forM_check_wordsOf_iff {u : Unit} : (wordsOf words lengths).forM check = .ok u ↔
    ∀ w, IsWord words lengths w → w.symbol < 65536 ∧ w.length ≤ 32 ∧ w.bits < 2 ^ w.length := by
  simp only [forM_check_eq_ok_iff, check_eq_ok_iff, mem_wordsOf]
  exact forall₂_congr fun w _ => and_congr_right fun _ =>
    ⟨fun h => ⟨h.length_le, h.bits_lt⟩, fun h => ⟨h.1, h.2⟩⟩

/-- A code can be built just if its words fit and none begins another. -/
theorem exists_ofWords_iff : (∃ c, ofWords words lengths window = .ok c) ↔
    words.length = lengths.length ∧ 1 ≤ window ∧ window ≤ 16 ∧
      (∀ w, IsWord words lengths w → w.symbol < 65536 ∧ w.length ≤ 32 ∧ w.bits < 2 ^ w.length) ∧
      ∀ v w, IsWord words lengths v → IsWord words lengths w → v.symbol ≠ w.symbol →
        ¬v.path <+: w.path := by
  rw [← forM_check_wordsOf_iff (u := ()), ← pairwise_unlike_iff]
  constructor
  · rintro ⟨c, h⟩
    obtain ⟨rfl, hlists⟩ := of_ofWords h
    refine ⟨?_, c.window_pos, c.window_le, hlists.checked, hlists.unlike⟩
    by_contra hcount
    unfold ofWords at h
    rw [if_pos hcount] at h
    cases h
  · rintro ⟨hcount, hlow, hhigh, checked, unlike⟩
    rcases ofWords_cases window fun w hw =>
        (check_eq_ok_iff.mp (forM_check_eq_ok_iff.mp checked w hw)).2 with
      ⟨t, -, ht, -⟩ | ⟨meet, -⟩
    · exact exists_ofWords hcount hlow hhigh checked ht
    · exact absurd unlike meet

/-- Whether words can be built into a code can be seen from their numbers. -/
theorem exists_ofWords_of_pairwise (hcount : words.length = lengths.length) (hlow : 1 ≤ window)
    (hhigh : window ≤ 16)
    (fit : ∀ w ∈ wordsOf words lengths, w.symbol < 65536 ∧ w.length ≤ 32 ∧ w.bits < 2 ^ w.length)
    (meet : (wordsOf words lengths).Pairwise fun v w =>
      ¬v.Begins w.length w.bits ∧ ¬w.Begins v.length v.bits) :
    ∃ c, ofWords words lengths window = .ok c := by
  have fits : ∀ w ∈ wordsOf words lengths, w.Fits 32 := fun w hw =>
    ⟨(fit w hw).2.1, (fit w hw).2.2⟩
  refine exists_ofWords_iff.mpr ⟨hcount, hlow, hhigh, fun w hw => fit w (mem_wordsOf.mpr hw), ?_⟩
  exact pairwise_unlike_iff.mp (meet.imp_of_mem fun hv hw h =>
    (unlike_iff (fits _ hv) (fits _ hw)).mpr h)

/-- A code reads the words that it is built from, but for those that are missed. -/
theorem reads_of_ofWords (h : ofWords words lengths window = .ok c) : c.Reads x p ↔
    ∃ w, IsWord words lengths w ∧ w.symbol = x ∧ w.path = p ∧
      ¬Missed window (wordsOf words lengths) w := by
  obtain ⟨rfl, hlists⟩ := of_ofWords h
  simp only [hlists.reads_iff, mem_wordsOf]

/-- Where the window is narrower than 16 bits, no word is missed. -/
theorem reads_of_ofWords_of_lt (h : ofWords words lengths window = .ok c) (hwindow : window < 16) :
    c.Reads x p ↔ ∃ w, IsWord words lengths w ∧ w.symbol = x ∧ w.path = p := by
  have found : ∀ w, ¬Missed window (wordsOf words lengths) w := fun w missed => by
    have := missed.window
    omega
  simp only [reads_of_ofWords h, found, not_false_eq_true, and_true]

/-- Exactly the prefix codes can be built, and what is built reads their words, but for those that
are missed.

The tables must be of one length, the window from 1 to 16 bits wide, each word must fit its length,
each length must fit 32 bits and each symbol 16 bits, and no word may begin another. A step gives the
symbol of the word in front of the reader, moves by its length and leaves the rest of the state
alone; if there is no such word, even because the bits end in the middle of it, it reports damage
and leaves everything alone, and so it does in front of a word that is missed. A row of words that
are not missed is read back, whatever comes behind it. -/
theorem ofWords_prefixFree (words lengths : List Nat) (window : Nat) :
    ((∃ c, ofWords words lengths window = .ok c) ↔
      words.length = lengths.length ∧ 1 ≤ window ∧ window ≤ 16 ∧
        (∀ w, IsWord words lengths w →
          w.symbol < 65536 ∧ w.length ≤ 32 ∧ w.bits < 2 ^ w.length) ∧
        ∀ v w, IsWord words lengths v → IsWord words lengths w → v.symbol ≠ w.symbol →
          ¬v.path <+: w.path) ∧
    ∀ c, ofWords words lengths window = .ok c → ∀ {σ : Type},
      (∀ (s t : Scan σ) (x : Nat), c.next s = .ok x t ↔
        ∃ w, IsWord words lengths w ∧ w.symbol = x ∧ w.path <+: s.reader.remaining ∧
          ¬Missed window (wordsOf words lengths) w ∧
          s.reader.Moved w.length t.reader ∧ t.state = s.state) ∧
      (∀ s : Scan σ, (∀ w, IsWord words lengths w → w.path <+: s.reader.remaining →
          Missed window (wordsOf words lengths) w) →
        ∃ cause, c.next s = .error (.corrupt cause) s) ∧
      ∀ (ws : List CodeWord),
        (∀ w ∈ ws, IsWord words lengths w ∧ ¬Missed window (wordsOf words lengths) w) →
        ∀ (s : Scan σ) (rest : List Bool),
          s.reader.remaining = ws.flatMap CodeWord.path ++ rest →
          ∃ r, r.remaining = rest ∧
            (ws.mapM fun _ => c.next) s = .ok (ws.map CodeWord.symbol) ⟨r, s.state⟩ := by
  refine ⟨exists_ofWords_iff, fun c hc σ =>
    ⟨fun s t x => ?_, fun s none => ?_, fun ws hws s rest hs => ?_⟩⟩
  · rw [next_eq_ok_iff]
    constructor
    · rintro ⟨p, hreads, hpre, hm, hstate⟩
      obtain ⟨w, hw, hsymbol, rfl, hfound⟩ := (reads_of_ofWords hc).mp hreads
      rw [w.length_path] at hm
      exact ⟨w, hw, hsymbol, hpre, hfound, hm, hstate⟩
    · rintro ⟨w, hw, hsymbol, hpre, hfound, hm, hstate⟩
      rw [← w.length_path] at hm
      exact ⟨w.path, (reads_of_ofWords hc).mpr ⟨w, hw, hsymbol, rfl, hfound⟩, hpre, hm, hstate⟩
  · refine exists_next_eq_error fun x p hreads hpre => ?_
    obtain ⟨w, hw, -, rfl, hfound⟩ := (reads_of_ofWords hc).mp hreads
    exact hfound (none w hw hpre)
  · refine exists_mapM_next (fun w hw => ?_) hs
    exact (reads_of_ofWords hc).mpr ⟨w, (hws w hw).1, rfl, rfl, (hws w hw).2⟩

theorem isWord_range_iff {n m : Nat} (hm : m ≠ 0) :
    IsWord ((List.range n).map (· * n)) (List.replicate n m) w ↔
      w.symbol < n ∧ w.bits = w.symbol * n ∧ w.length = m := by
  constructor
  · rintro ⟨hbits, hlength, -⟩
    obtain ⟨inside, hlength⟩ := List.getElem?_eq_some_iff.mp hlength
    rw [List.length_replicate] at inside
    rw [List.getElem_replicate] at hlength
    rw [List.getElem?_map, List.getElem?_range inside] at hbits
    exact ⟨inside, (Option.some.inj hbits).symm, hlength.symm⟩
  · rintro ⟨inside, hbits, hlength⟩
    refine ⟨?_, ?_, by omega⟩
    · rw [List.getElem?_map, List.getElem?_range inside, hbits]
      rfl
    · rw [List.getElem?_replicate, if_pos inside, hlength]

/-- One word of 32 bits for each pattern of a window of 16 bits: the last of them is not read. -/
theorem ofWords_prefixFree_crowded :
    ∃ c, ofWords ((List.range 65536).map (· * 65536)) (List.replicate 65536 32) 16 = .ok c ∧
      ∃ cause, c.next (⟨.ofBytes #[255, 255, 0, 0], ()⟩ : Scan Unit) =
        .error (.corrupt cause) ⟨.ofBytes #[255, 255, 0, 0], ()⟩ := by
  obtain ⟨exists_iff, reading⟩ :=
    ofWords_prefixFree ((List.range 65536).map (· * 65536)) (List.replicate 65536 32) 16
  have isWord : ∀ w, IsWord ((List.range 65536).map (· * 65536)) (List.replicate 65536 32) w ↔
      w.symbol < 65536 ∧ w.bits = w.symbol * 65536 ∧ w.length = 32 :=
    fun w => isWord_range_iff (by decide)
  have head : ∀ q, CodeWord.head ⟨q, q * 65536, 32⟩ 16 = q := fun q =>
    Nat.mul_div_cancel q (by decide)
  have missed : Missed 16 (wordsOf ((List.range 65536).map (· * 65536)) (List.replicate 65536 32))
      ⟨65535, 65535 * 65536, 32⟩ :=
    ⟨rfl, by decide, head 65535, fun q hq => ⟨⟨q, q * 65536, 32⟩, mem_wordsOf.mpr
      ((isWord _).mpr ⟨Nat.lt_of_lt_of_le hq (by decide), rfl, rfl⟩), rfl, head q⟩⟩
  -- A word of 32 bits begins no other row of 32 bits.
  have begins : ∀ w i, IsWord ((List.range 65536).map (· * 65536)) (List.replicate 65536 32) w →
      i < 65536 → w.path <+: CodeWord.bitsOf (i * 65536) 32 → w.symbol = i := fun w i hw hi hpre => by
    obtain ⟨hsymbol, hbits, hlength⟩ := (isWord w).mp hw
    rw [← CodeWord.begins_iff (by rw [hlength]; omega) (by omega), CodeWord.Begins,
      hlength] at hpre
    have := hpre.2
    omega
  obtain ⟨c, hc⟩ : ∃ c, ofWords ((List.range 65536).map (· * 65536)) (List.replicate 65536 32) 16 =
      .ok c := by
    refine exists_iff.mpr ⟨?_, by decide, by decide, fun w hw => ?_, fun v w hv hw hne hpre => ?_⟩
    · rw [List.length_map, List.length_range, List.length_replicate]
    · obtain ⟨hsymbol, hbits, hlength⟩ := (isWord w).mp hw
      rw [hlength]
      omega
    · obtain ⟨hsymbol, hbits, hlength⟩ := (isWord w).mp hw
      rw [show w.path = CodeWord.bitsOf (w.symbol * 65536) 32 by
        rw [CodeWord.path, hbits, hlength]] at hpre
      exact hne (begins v w.symbol hv hsymbol hpre)
  refine ⟨c, hc, (reading c hc).2.1 _ fun w hw hpre => ?_⟩
  have ahead : Bits.ofBytes #[255, 255, 0, 0] = CodeWord.bitsOf (65535 * 65536) 32 := by decide
  rw [BitReader.remaining_ofBytes, ahead] at hpre
  have last := begins w 65535 hw (by decide) hpre
  obtain ⟨-, hbits, hlength⟩ := (isWord w).mp hw
  have same : w = ⟨65535, 65535 * 65536, 32⟩ := by
    obtain ⟨symbol, bits, length⟩ := w
    dsimp only at last hbits hlength
    rw [last] at hbits
    rw [last, hbits, hlength]
  rw [same]
  exact missed

end PrefixCode

end Wma
