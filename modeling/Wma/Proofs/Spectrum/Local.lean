import Wma.Envelope.LinePairs
import Wma.Envelope.Stepped
import Wma.Proofs.Parse.Local
import Wma.Spectrum.Levels
import Wma.Spectrum.SideInfo

/-!
# The data of a block and the bits behind it

Gains, noise bands, envelopes and levels depend on no bit but those that they take. The bound on the
chunks of a gain comes from the number of bits that are left, but a gain that has an end is the same
under any bound that it keeps (`BlockGain.exists_readFrom`).
-/

namespace Wma

open Parse

variable {σ : Type} {aligned : Prop}

namespace BlockGain

theorem local_readFrom : ∀ (limit : Nat) (total : Int),
    Local aligned (readFrom limit total : Parse σ Int)
  | 0, _ => .ofExcept _
  | limit + 1, total => by
    refine .bind (.read 7) fun chunk => .bind (.ofExcept _) fun total => ?_
    exact .ite (fun _ => local_readFrom limit total) fun _ => .pure _

theorem exists_readFrom : ∀ {limit : Nat} {total : Int} {s t : Scan σ} {a : Int},
    readFrom limit total s = .ok a t → ∃ n, s.reader.Moved n t.reader ∧
      ∀ limit', n ≤ 7 * limit' → readFrom limit' total s = .ok a t
  | 0, _, _, _, _, h => by
    obtain ⟨h, -⟩ := ok_ofExcept h
    cases h
  | limit + 1, total, s, t, a, h => by
    obtain ⟨chunk, u, hchunk, hrest⟩ := ok_bind h
    obtain ⟨-, -, hm, -⟩ := ok_read hchunk
    obtain ⟨total', v, htotal, hrest⟩ := ok_bind hrest
    obtain ⟨-, rfl⟩ := ok_ofExcept htotal
    -- Either bound allows the chunk at hand, and what comes behind it allows one less.
    have step : ∀ limit', readFrom (limit' + 1) total s =
        (if chunk = 127 then readFrom limit' total' else pure total' : Parse σ Int) u := by
      intro limit'
      exact (bind_of_ok hchunk _).trans (bind_of_ok htotal _)
    by_cases hfull : chunk = 127
    · rw [if_pos hfull] at hrest
      obtain ⟨n, hn, hlimit⟩ := exists_readFrom hrest
      refine ⟨7 + n, hm.trans hn, fun limit' hle => ?_⟩
      obtain ⟨limit', rfl⟩ : ∃ k, limit' = k + 1 := ⟨limit' - 1, by omega⟩
      rw [step, if_pos hfull]
      exact hlimit limit' (by omega)
    · rw [if_neg hfull] at hrest
      cases hrest
      refine ⟨7, hm, fun limit' hle => ?_⟩
      obtain ⟨limit', rfl⟩ : ∃ k, limit' = k + 1 := ⟨limit' - 1, by omega⟩
      rw [step, if_neg hfull]
      rfl

theorem local_read : Local aligned (read : Parse σ Int) := by
  intro s t a h
  obtain ⟨_, _, hreader, h⟩ := ok_bind h
  cases hreader
  have chunks : Local aligned (readFrom (s.reader.left / 7 + 1) 1 : Parse σ Int) :=
    local_readFrom _ _
  obtain ⟨n, hm, hr⟩ := chunks h
  refine ⟨n, hm, fun r' hr' => ?_⟩
  obtain ⟨q', hq', hm'⟩ := hr r' hr'
  refine ⟨q', ?_, hm'⟩
  obtain ⟨n', hn', hlimit⟩ := exists_readFrom hq'
  have := hm'.position
  have := hn'.position
  have := hm'.left
  exact hlimit (r'.left / 7 + 1) (by dsimp only at *; omega)

end BlockGain

namespace NoiseBands

theorem local_readFlagsOf : ∀ count : Nat, Local aligned (readFlagsOf count)
  | 0 => .pure ()
  | count + 1 => .bind .readBit fun _ => .bind (.update _) fun _ => local_readFlagsOf count

theorem local_readFlags (widths : List Nat) : Local aligned (readFlags widths) :=
  .bind (.setState _) fun _ => local_readFlagsOf _

theorem local_readGain (code : PrefixCode) (last : Option Int) :
    Local aligned (readGain code last) := by
  cases last with
  | none => exact .bind (.read 7) fun _ => .pure _
  | some last => exact .bind (.next code) fun _ => .bind (.ofExcept _) fun _ => .ofExcept _

theorem local_readGainsOf (code : PrefixCode) : ∀ (flags : List Bool) (j : Nat) (last : Option Int),
    Local aligned (readGainsOf code flags j last)
  | [], _, _ => .pure ()
  | false :: flags, j, last => local_readGainsOf code flags (j + 1) last
  | true :: flags, j, last => by
    refine .bind (local_readGain code last) fun gain => .bind (.update _) fun _ => ?_
    exact local_readGainsOf code flags (j + 1) _

theorem local_readGains (code : PrefixCode) : Local aligned (readGains code) :=
  .bind .state fun _ => local_readGainsOf code _ 0 _

end NoiseBands

namespace SteppedEnvelope

theorem local_readFrom (code : PrefixCode) (length : Nat) :
    ∀ (widths : List Nat) (start : Nat) (last : Int),
    Local aligned (readFrom code length widths start last : Parse σ (List Int))
  | [], _, _ => .pure []
  | width :: widths, start, last => by
    refine .ite (fun _ => .pure []) fun _ => .bind (.next code) fun symbol => ?_
    refine .bind (.ofExcept _) fun level => .bind .require fun _ => ?_
    exact .bind (local_readFrom code length widths _ level) fun levels => .pure _

theorem local_readLevels (code : PrefixCode) (version : Version) (widths : List Nat)
    (length : Nat) :
    Local aligned (readLevels code version widths length : Parse σ (List Int)) := by
  cases version with
  | v2 => exact local_readFrom code length widths 0 seed
  | v1 =>
    refine .bind (.read 5) fun first => ?_
    cases widths with
    | nil => exact .pure []
    | cons width widths =>
      exact .bind (local_readFrom code length widths width _) fun levels => .pure _

theorem local_read (code : PrefixCode) (version : Version) (widths : List Nat) (length : Nat) :
    Local aligned (read code version widths length : Parse σ (Array UInt32)) := by
  refine .bind (local_readLevels code version widths length) fun levels => ?_
  exact .bind (.ofExcept _) fun ratios => .pure _

end SteppedEnvelope

theorem LinePairs.local_read : Local aligned (read : Parse σ (List Int)) :=
  .mapM _ fun _ => .bind (.read _) fun _ => .ofExcept _

namespace Levels

theorem local_readPair (book : RunLevelBook) (levelBits runBits symbol : Nat) :
    Local aligned (readPair book levelBits runBits symbol) :=
  .ite (fun _ => .bind (.read levelBits) fun _ => .bind (.read runBits) fun _ => .pure _)
    fun _ => .ofExcept _

theorem local_place (position : Nat) (level : Int32) : Local aligned (place position level) := by
  refine .bind .state fun out => .bind (.ofExcept _) fun mask => ?_
  exact .ite (fun _ => .update _) fun _ => .throw _

theorem local_readFrom (book : RunLevelBook) (levelBits runBits count : Nat) :
    ∀ limit position : Nat, Local aligned (readFrom book levelBits runBits count limit position)
  | 0, position => .pure position
  | limit + 1, position => by
    refine .ite (fun _ => .pure position) fun _ => .bind (.next book.code) fun symbol => ?_
    refine .ite (fun _ => .pure position) fun _ => ?_
    refine .bind (local_readPair book levelBits runBits symbol) fun pair => ?_
    refine .bind .readBit fun positive => .bind (.ofExcept _) fun level => ?_
    refine .bind (local_place _ level) fun _ => ?_
    exact local_readFrom book levelBits runBits count limit _

theorem local_read (book : RunLevelBook) (levelBits runBits count : Nat) :
    Local aligned (read book levelBits runBits count) := by
  refine .bind (.update _) fun _ => ?_
  exact .bind (local_readFrom book levelBits runBits count count 0) fun position => .require

end Levels

end Wma
