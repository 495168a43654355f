import Wma.Envelope.LinePairs
import Wma.Envelope.Stepped
import Wma.Proofs.Parse.Related
import Wma.Spectrum.Levels
import Wma.Spectrum.SideInfo

/-!
# Two runs over the data of a block

Gains, noise bands, envelopes and levels are read field by field, so readers that look alike give the
same of each.
-/

namespace Wma

open Parse

variable {σ : Type} {V : View} {J R : σ → σ → Prop}

namespace BlockGain

theorem keeps_readFrom (hJ : ∀ s t, R s t → J s t) :
    ∀ (limit : Nat) (total : Int), Keeps V J R (readFrom limit total)
  | 0, _ => .ofExcept hJ _
  | limit + 1, total => by
    refine .bind (.read hJ 7) fun chunk => .bind (.ofExcept hJ _) fun total => ?_
    exact .ite (fun _ => keeps_readFrom hJ limit total) fun _ => .pure _

theorem keeps_read (hJ : ∀ s t, R s t → J s t) : Keeps V J R read :=
  Keeps.left (f := fun n => readFrom (n / 7 + 1) 1) fun _ => keeps_readFrom hJ _ _

end BlockGain

namespace NoiseBands

theorem keeps_readFlagsOf : ∀ count : Nat, Keeps V Eq Eq (readFlagsOf count)
  | 0 => .pure ()
  | count + 1 => by
    refine .bind (.readBit fun _ _ h => h) fun flag => ?_
    exact .bind (.update fun _ _ h => h ▸ rfl) fun _ => keeps_readFlagsOf count

theorem keeps_readFlags (widths : List Nat) : Keeps V Eq Eq (readFlags widths) :=
  .bind (.setState _ rfl) fun _ => keeps_readFlagsOf _

theorem keeps_readGain (code : PrefixCode) (last : Option Int) :
    Keeps V Eq Eq (readGain code last) := by
  have hJ : ∀ s t : NoiseBands, s = t → s = t := fun _ _ h => h
  cases last with
  | none => exact .bind (.read hJ 7) fun v => .pure _
  | some last =>
    refine .bind (.next hJ code) fun symbol => .bind (.ofExcept hJ _) fun sum => ?_
    exact .ofExcept hJ _

theorem keeps_readGainsOf (code : PrefixCode) : ∀ (flags : List Bool) (j : Nat) (last : Option Int),
    Keeps V Eq Eq (readGainsOf code flags j last)
  | [], _, _ => .pure ()
  | false :: flags, j, last => keeps_readGainsOf code flags (j + 1) last
  | true :: flags, j, last => by
    refine .bind (keeps_readGain code last) fun gain => ?_
    exact .bind (.update fun _ _ h => h ▸ rfl) fun _ => keeps_readGainsOf code flags (j + 1) _

theorem keeps_readGains (code : PrefixCode) : Keeps V Eq Eq (readGains code) :=
  .state (fun _ _ h => h ▸ rfl) fun _ => keeps_readGainsOf code _ 0 _

end NoiseBands

namespace SteppedEnvelope

theorem keeps_readFrom (hJ : ∀ s t, R s t → J s t) (code : PrefixCode) (length : Nat) :
    ∀ (widths : List Nat) (start : Nat) (last : Int),
    Keeps V J R (readFrom code length widths start last)
  | [], _, _ => .pure []
  | width :: widths, start, last => by
    refine .ite (fun _ => .pure []) fun _ => ?_
    refine .bind (.next hJ code) fun symbol => .bind (.ofExcept hJ _) fun level => ?_
    refine .bind (.require hJ) fun _ => ?_
    exact .bind (keeps_readFrom hJ code length widths _ level) fun levels => .pure _

theorem keeps_readLevels (hJ : ∀ s t, R s t → J s t) (code : PrefixCode) (version : Version)
    (widths : List Nat) (length : Nat) : Keeps V J R (readLevels code version widths length) := by
  cases version with
  | v2 => exact keeps_readFrom hJ code length widths 0 seed
  | v1 =>
    refine .bind (.read hJ 5) fun first => ?_
    cases widths with
    | nil => exact .pure []
    | cons width widths =>
      exact .bind (keeps_readFrom hJ code length widths width _) fun levels => .pure _

theorem keeps_read (hJ : ∀ s t, R s t → J s t) (code : PrefixCode) (version : Version)
    (widths : List Nat) (length : Nat) : Keeps V J R (read code version widths length) := by
  refine .bind (keeps_readLevels hJ code version widths length) fun levels => ?_
  exact .bind (.ofExcept hJ _) fun ratios => .pure _

end SteppedEnvelope

namespace LinePairs

theorem keeps_read (hJ : ∀ s t, R s t → J s t) : Keeps V J R read :=
  .mapM _ fun _ => .bind (.read hJ _) fun _ => .ofExcept hJ _

end LinePairs

namespace Levels

theorem keeps_readPair (book : RunLevelBook) (levelBits runBits symbol : Nat) :
    Keeps V Eq Eq (readPair book levelBits runBits symbol) := by
  have hJ : ∀ s t : Array Int32, s = t → s = t := fun _ _ h => h
  refine .ite (fun _ => ?_) fun _ => .ofExcept hJ _
  exact .bind (.read hJ levelBits) fun level => .bind (.read hJ runBits) fun run => .pure _

theorem keeps_place (position : Nat) (level : Int32) : Keeps V Eq Eq (place position level) := by
  have hJ : ∀ s t : Array Int32, s = t → s = t := fun _ _ h => h
  refine .state (fun _ _ h => h ▸ rfl) fun out => ?_
  refine .bind (.ofExcept hJ _) fun mask => ?_
  exact .ite (fun _ => .update fun _ _ h => h ▸ rfl) fun _ => .throw hJ _

theorem keeps_readFrom (book : RunLevelBook) (levelBits runBits count : Nat) :
    ∀ limit position : Nat, Keeps V Eq Eq (readFrom book levelBits runBits count limit position)
  | 0, position => .pure position
  | limit + 1, position => by
    have hJ : ∀ s t : Array Int32, s = t → s = t := fun _ _ h => h
    refine .ite (fun _ => .pure position) fun _ => ?_
    refine .bind (.next hJ book.code) fun symbol => .ite (fun _ => .pure position) fun _ => ?_
    refine .bind (keeps_readPair book levelBits runBits symbol) fun pair => ?_
    refine .bind (.readBit hJ) fun positive => .bind (.ofExcept hJ _) fun level => ?_
    refine .bind (keeps_place _ level) fun _ => ?_
    exact keeps_readFrom book levelBits runBits count limit _

theorem keeps_read (book : RunLevelBook) (levelBits runBits count : Nat) :
    Keeps V Eq Eq (read book levelBits runBits count) := by
  refine .bind (.update fun _ _ h => h ▸ rfl) fun _ => ?_
  refine .bind (keeps_readFrom book levelBits runBits count count 0) fun position => ?_
  exact .require fun _ _ h => h

end Levels

end Wma
