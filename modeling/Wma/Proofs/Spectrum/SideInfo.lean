import Wma.Proofs.Bits.Numbers
import Wma.Proofs.Code.Symbols
import Wma.Spectrum.SideInfo

/-!
# Gains and noise bands stay within their words

The gain of a block is read in chunks of seven bits, so a packet does not hold enough of them to leave
the word. The gains of noise bands change by less than 36 from band to band, and there are at most
`NoiseBands.most` bands.
-/

namespace Wma

namespace BlockGain

variable {σ : Type}

/-- A short reader comes to its end before `limit` chunks are read or leave the word. -/
theorem wp_readFrom : ∀ (limit : Nat) (total : Int) {s : Scan σ},
    (readFrom limit total).wp
      (fun _ t => t.reader.bitLength = s.reader.bitLength ∧ t.state = s.state)
      (fun e t => (s.reader.left < 7 * limit → 0 ≤ total → total + 127 * limit < 2 ^ 31 →
        e.IsDamage) ∧ t.reader.bitLength = s.reader.bitLength ∧ t.state = s.state) s
  | 0, _, s => ⟨fun hleft => by omega, rfl, rfl⟩
  | limit + 1, total, s => by
    simp only [readFrom, Parse.wp_bind]
    refine Parse.wp_read (fun chunk r hchunk hm => ?_) fun e he => ⟨fun _ _ _ => he, rfl, rfl⟩
    have moved := hm.left
    unfold int32
    by_cases fits : FitsInt32 (total + chunk)
    · rw [if_pos fits, Parse.wp_ofExcept_ok, Parse.wp_ite]
      split
      · refine Parse.wp_mono (wp_readFrom limit (total + chunk) (s := ⟨r, s.state⟩)) ?_ ?_
        · exact fun _ t ht => ⟨ht.1.trans hm.bitLength, ht.2⟩
        · refine fun e t ht => ⟨fun hleft hlow hhigh => ?_, ht.2.1.trans hm.bitLength, ht.2.2⟩
          exact ht.1 (by dsimp only; omega) (by omega) (by omega)
      · exact ⟨hm.bitLength, rfl⟩
    · rw [if_neg fits]
      refine ⟨fun hleft hlow hhigh => absurd ?_ fits, hm.bitLength, rfl⟩
      unfold FitsInt32
      omega

theorem triple_read {I : σ → Prop} : Parse.Triple I I read fun _ s => I s := by
  intro s hi
  have left := s.reader.left_eq
  simp only [read, Parse.wp_bind, Parse.wp_reader]
  refine Parse.wp_mono (wp_readFrom _ _) ?_ ?_
  · rintro _ t ⟨ht, hst⟩
    exact ⟨Nat.le_of_eq ht, hst ▸ hi⟩
  · rintro _ t ⟨he, ht, hst⟩
    refine ⟨fun hs => he (by omega) (by decide) ?_, Nat.le_of_eq ht, hst ▸ hi⟩
    have short : s.reader.bitLength ≤ 131072 := hs
    omega

/-- A gain that is written as one chunk. -/
theorem wp_read_of_bitsOf {Q : Int → Scan σ → Prop} {E : Error → Scan σ → Prop} {s : Scan σ}
    {chunk : Nat} (hchunk : chunk < 127) {rest : List Bool}
    (hs : s.reader.remaining = CodeWord.bitsOf chunk 7 ++ rest)
    (hQ : ∀ q, q.remaining = rest → Q (1 + chunk) ⟨q, s.state⟩) : read.wp Q E s := by
  have within : FitsInt32 (1 + (chunk : Int)) := by unfold FitsInt32; omega
  have fits : int32 (1 + chunk) = .ok (1 + (chunk : Int)) := if_pos within
  unfold read
  rw [Parse.wp_bind, Parse.wp_reader, readFrom, Parse.wp_bind]
  refine Parse.wp_read_bitsOf (by decide) (by omega) hs fun q _ hq => ?_
  rw [Parse.wp_bind, fits, Parse.wp_ofExcept_ok, Parse.wp_ite, if_neg (by omega)]
  exact hQ q hq

theorem levelBits_le (gain : Int) : levelBits gain ≤ 13 := by
  unfold levelBits
  repeat' split
  all_goals decide

end BlockGain

namespace NoiseBands

/-- The most high bands of a block. -/
def most : Nat := 2048

/-- Every band that has a flag has a gain. -/
structure Sound (b : NoiseBands) : Prop where
  flags_le : b.flags.length ≤ b.gains.length
  gains_le : b.gains.length ≤ most

theorem sound_none : none.Sound :=
  ⟨by decide, by decide⟩

theorem Sound.lt_gains {b : NoiseBands} (hb : b.Sound) {j : Nat} (h : b.holds j = true) :
    j < b.gains.length := by
  rcases Nat.lt_or_ge j b.flags.length with hj | hj
  · exact Nat.lt_of_lt_of_le hj hb.flags_le
  · simp [holds, List.getD_eq_getElem?_getD, List.getElem?_eq_none hj] at h

theorem substituted_le (b : NoiseBands) (widths : List Nat) : b.substituted widths ≤ widths.sum := by
  unfold substituted
  generalize b.flags = flags
  induction widths generalizing flags with
  | nil => simp
  | cons width widths ih =>
    cases flags with
    | nil => simp
    | cons flag flags =>
      have := ih flags
      rw [List.zip_cons_cons, List.map_cons, List.sum_cons, List.sum_cons]
      dsimp only at this ⊢
      split <;> omega

theorem wp_readFlagsOf_of_append {Q : Unit → Scan NoiseBands → Prop}
    {E : Error → Scan NoiseBands → Prop} {rest : List Bool} : ∀ {flags : List Bool}
    {s : Scan NoiseBands}, s.reader.remaining = flags ++ rest →
    (∀ q, q.remaining = rest → Q () ⟨q, { s.state with flags := s.state.flags ++ flags }⟩) →
    (readFlagsOf flags.length).wp Q E s
  | [], s, hs, hQ => by
    have done := hQ s.reader hs
    rw [List.append_nil] at done
    exact done
  | flag :: flags, s, hs, hQ => by
    rw [List.length_cons, readFlagsOf, Parse.wp_bind]
    refine Parse.wp_readBit_of_cons hs fun q _ hq => ?_
    rw [Parse.wp_bind, Parse.wp_update]
    refine wp_readFlagsOf_of_append hq fun q' hq' => ?_
    have done := hQ q' hq'
    rw [List.append_cons] at done
    exact done

/-- Flags of high bands that are written one by one. -/
theorem wp_readFlags_of_append {Q : Unit → Scan NoiseBands → Prop}
    {E : Error → Scan NoiseBands → Prop} {widths : List Nat} {flags rest : List Bool}
    (hlength : flags.length = widths.length) {s : Scan NoiseBands}
    (hs : s.reader.remaining = flags ++ rest)
    (hQ : ∀ q, q.remaining = rest → Q () ⟨q, flags, List.replicate widths.length 0⟩) :
    (readFlags widths).wp Q E s := by
  unfold readFlags
  rw [Parse.wp_bind, Parse.wp_setState, ← hlength]
  exact wp_readFlagsOf_of_append hs fun q hq => hlength ▸ hQ q hq

theorem triple_readFlagsOf : ∀ count : Nat,
    Parse.Triple Sound (fun b => b.Sound ∧ b.flags.length + count ≤ b.gains.length)
      (readFlagsOf count) fun _ => Sound
  | 0 => .pure fun _ h => h.1
  | count + 1 => by
    refine .bind (.readBit (fun _ h => h.1) fun _ _ h => h) fun flag => ?_
    refine .bind (.update fun b h => ?_) fun _ => triple_readFlagsOf count
    have := h.2
    refine ⟨⟨?_, h.1.gains_le⟩, ?_⟩
    · rw [List.length_append, List.length_singleton]; dsimp only; omega
    · rw [List.length_append, List.length_singleton]; dsimp only; omega

theorem triple_readFlags {widths : List Nat} (h : widths.length ≤ most) :
    Parse.Triple Sound Sound (readFlags widths) fun _ => Sound := by
  refine .bind (.setState fun _ _ => ?_) fun _ => triple_readFlagsOf _
  refine ⟨⟨by simp, by simpa using h⟩, by simp⟩

theorem triple_readGain {code : PrefixCode} (hcode : code.Below 37) {last : Option Int} {n : Nat}
    (hlast : ∀ v, last = some v → v.natAbs ≤ n) (hfirst : 128 ≤ n) (hn : n + 36 < 2 ^ 31) :
    Parse.Triple Sound Sound (readGain code last) fun gain b => gain.natAbs ≤ n + 36 ∧ b.Sound := by
  cases last with
  | none =>
    refine .bind (.read (Q := fun v b => v < 2 ^ 7 ∧ b.Sound) (fun _ h => h)
      fun _ _ hv h => ⟨hv, h⟩) fun v => .pure fun b h => ⟨?_, h.2⟩
    have := h.1
    omega
  | some v =>
    have := hlast v rfl
    refine .bind (.next hcode (Q := fun symbol b => symbol < 37 ∧ b.Sound) (fun _ h => h)
      fun _ _ h hb => ⟨h, hb⟩) fun symbol => .of_fact (fun _ h => h.1) fun hsymbol => ?_
    refine .bind (R := fun sum b => sum = v + symbol ∧ b.Sound)
      (.ofExcept fun _ h => .int32 ?_ ⟨rfl, h.2⟩) fun sum => ?_
    · unfold FitsInt32; omega
    refine .of_fact (fun _ h => h.1) fun hsum => .ofExcept fun _ h => .int32 ?_ ⟨?_, h.2⟩
    · unfold FitsInt32 Books.noiseGainBias; omega
    · unfold Books.noiseGainBias; omega

theorem triple_readGainsOf {code : PrefixCode} (hcode : code.Below 37) : ∀ (flags : List Bool)
    (j : Nat) {last : Option Int} {n : Nat}, (∀ v, last = some v → v.natAbs ≤ n) → 128 ≤ n →
    n + 36 * flags.length < 2 ^ 31 →
    Parse.Triple Sound Sound (readGainsOf code flags j last) fun _ => Sound
  | [], _, _, _, _, _, _ => .pure fun _ h => h
  | false :: flags, j, last, n, hlast, hfirst, hn => by
    rw [List.length_cons] at hn
    exact triple_readGainsOf hcode flags (j + 1) hlast hfirst (by omega)
  | true :: flags, j, last, n, hlast, hfirst, hn => by
    rw [List.length_cons] at hn
    refine .bind (triple_readGain hcode hlast hfirst (by omega)) fun gain => ?_
    refine .of_fact (fun _ h => h.1) fun hgain => ?_
    refine .bind (R := fun _ => Sound) (.update fun b h => ?_) fun _ => ?_
    · exact ⟨by simpa using h.2.flags_le, by simpa using h.2.gains_le⟩
    · refine triple_readGainsOf hcode flags (j + 1) (n := n + 36) ?_ (by omega) (by omega)
      intro v hv
      cases hv
      exact hgain

theorem triple_readGains {code : PrefixCode} (hcode : code.Below 37) :
    Parse.Triple Sound Sound (readGains code) fun _ => Sound := by
  refine .bind (R := fun b b' => b.Sound ∧ b'.Sound) (.state fun _ h => ⟨h, h⟩) fun b => ?_
  refine .of_fact (fun _ h => h.1) fun hb => ?_
  have := hb.flags_le
  have := hb.gains_le
  unfold most at this
  exact (triple_readGainsOf hcode b.flags 0 (n := 128) (by simp) (by decide) (by omega)).pre
    fun _ h => h.2

end NoiseBands

end Wma
