import Wma.Frame.Spectra
import Wma.Proofs.Envelope.Coded
import Wma.Proofs.Stream.Config

/-!
# Stepped envelopes of a channel

A channel takes over the envelope that is written for it, or it stays as it is
(`Lane.takes_or_refused`). The bins of a block are the first ones of its channel; those behind them
belong to longer blocks and are kept.
-/

namespace Wma

namespace Lane

open SteppedEnvelope

/-- What is there once a lane has read an envelope for the first bins of its channel: it shows the
levels of the coding, and the bins behind it and all else are as they were. -/
structure Takes (version : Version) (sizeIndex : Nat) (bands : BlockBands) (e : Coding)
    (s t : Scan Lane) : Prop where
  moved : s.reader.Moved (e.bits version).length t.reader
  shows : Shows bands.envelopeBands (e.levels version) t.state.channel.envelope
  size : t.state.channel.envelope.size = s.state.channel.envelope.size
  behind : ∀ i, bands.length ≤ i → t.state.channel.envelope[i]? = s.state.channel.envelope[i]?
  state : t.state = { s.state with channel := { s.state.channel with
    envelope := t.state.channel.envelope
    envelopeSize := sizeIndex
    hasEnvelope := true } }

variable {s : Stream} {sizeIndex : Nat} {bands : BlockBands} {sc : Scan Lane} {e : Coding}

theorem wp_readEnvelope_of_stepped {Q : Unit → Scan Lane → Prop} {E : Error → Scan Lane → Prop}
    (hstepped : s.config.steppedEnvelope = true)
    (hroom : bands.length ≤ sc.state.channel.envelope.size)
    (h : (SteppedEnvelope.read s.books.envelope s.config.version bands.envelopeBands bands.length).wp
      (fun ratios t => Q () { t with state := { t.state with channel := { t.state.channel with
        envelope := Buffer.overlay t.state.channel.envelope ratios
        envelopeSize := sizeIndex
        hasEnvelope := true } } }) E sc) : (readEnvelope s sizeIndex bands).wp Q E sc := by
  have room : Buffer.room sc.state.channel.envelope bands.length = .ok () := if_pos hroom
  unfold readEnvelope readRatios onChannel
  simp only [Parse.wp_bind, Parse.wp_state, room, Parse.wp_ofExcept_ok, Parse.wp_focus,
    Parse.wp_update, hstepped, ↓reduceIte]
  exact h

/-- A coding of levels in range is taken. -/
theorem exists_takes (hcode : IsStepCode s.books.envelope)
    (hstepped : s.config.steppedEnvelope = true)
    (hwidths : bands.envelopeBands.length ≤ maxBands)
    (hsum : bands.envelopeBands.sum = bands.length)
    (hroom : bands.length ≤ sc.state.channel.envelope.size)
    (hcount : e.steps.length = stepCount s.config.version bands.envelopeBands bands.length)
    (hbits : e.bits s.config.version <+: sc.reader.remaining)
    (hrange : ∀ l ∈ levelsFrom (e.start s.config.version) e.steps, InRange l) :
    ∃ t, readEnvelope s sizeIndex bands sc = .ok () t ∧
      Takes s.config.version sizeIndex bands e sc t := by
  obtain ⟨rest, hs⟩ := hbits
  have ends : (readEnvelope s sizeIndex bands).wp
      (fun _ t => Takes s.config.version sizeIndex bands e sc t) (fun _ _ => False) sc := by
    refine wp_readEnvelope_of_stepped hstepped hroom (Parse.wp_mono
      (wp_read hcode hwidths hsum hcount hs.symm hrange) (fun ratios t h => ?_) fun _ _ h => h)
    obtain ⟨size, shows, hm, hstate⟩ := h
    have fits : ratios.size ≤ sc.state.channel.envelope.size := by omega
    rw [hstate]
    refine ⟨hm, fun j i hlow hhigh => ?_, Buffer.size_overlay fits, fun i hi => ?_, rfl⟩
    · obtain ⟨peak, level, hpeak, hlevel, above, within, hratio⟩ := shows j i hlow hhigh
      refine ⟨peak, level, hpeak, hlevel, above, within, ?_⟩
      have inside : i < ratios.size := by
        rw [Array.getElem?_eq_getElem within] at hratio
        exact (Array.getElem?_eq_some_iff.mp hratio).1
      rw [Buffer.getElem?_overlay fits, if_pos inside, hratio]
    · rw [Buffer.getElem?_overlay fits, if_neg (by omega)]
  obtain ⟨_, t, ht, takes⟩ := Parse.exists_of_wp ends
  exact ⟨t, ht, takes⟩

theorem exists_error_of_bad (hcode : IsStepCode s.books.envelope)
    (hstepped : s.config.steppedEnvelope = true)
    (hroom : bands.length ≤ sc.state.channel.envelope.size)
    (hcount : e.steps.length ≤ stepCount s.config.version bands.envelopeBands bands.length)
    (h : e.Bad s.config.version sc.reader.remaining) :
    ∃ err t, readEnvelope s sizeIndex bands sc = .error err t ∧ Refused sc err t :=
  Parse.exists_error_of_wp (wp_readEnvelope_of_stepped hstepped hroom
    (Parse.wp_mono (wp_read_of_bad hcode hcount h) (fun _ _ h => h.elim) fun _ _ h => h))

/-- The bits go on with a coding that is taken, or with one that is refused. -/
theorem takes_or_refused (hcode : IsStepCode s.books.envelope)
    (hstepped : s.config.steppedEnvelope = true)
    (hwidths : bands.envelopeBands.length ≤ maxBands)
    (hsum : bands.envelopeBands.sum = bands.length)
    (hroom : bands.length ≤ sc.state.channel.envelope.size) (sizeIndex : Nat) :
    ∃ e : Coding, e.steps.length = stepCount s.config.version bands.envelopeBands bands.length ∧
      (e.bits s.config.version <+: sc.reader.remaining ∧
          (∀ l ∈ levelsFrom (e.start s.config.version) e.steps, InRange l) ∧
          (∃ t, readEnvelope s sizeIndex bands sc = .ok () t ∧
            Takes s.config.version sizeIndex bands e sc t) ∨
        e.Bad s.config.version sc.reader.remaining ∧
          ∃ err t, readEnvelope s sizeIndex bands sc = .error err t ∧ Refused sc err t) := by
  obtain ⟨e, hcount, h⟩ := exists_coding hcode s.config.version
    (stepCount s.config.version bands.envelopeBands bands.length) sc.reader.remaining
  refine ⟨e, hcount, ?_⟩
  by_cases bad : e.Bad s.config.version sc.reader.remaining
  · exact .inr ⟨bad, exists_error_of_bad hcode hstepped hroom (Nat.le_of_eq hcount) bad⟩
  · have hbits := h.resolve_right fun short => bad (.inr short)
    have hrange : ∀ l ∈ levelsFrom (e.start s.config.version) e.steps, InRange l := fun l hl =>
      Decidable.byContradiction fun out => bad (.inl ⟨hbits, l, hl, out⟩)
    exact .inl ⟨hbits, hrange, exists_takes hcode hstepped hwidths hsum hroom hcount hbits hrange⟩

/-- What reading a stepped envelope does. Let a block have at most 32 bands, which cover it, and let
the channel have room for it, whatever it holds there.

An envelope that is read has been written, with a level for each band that begins within the block;
it leads to levels in range, and each bin of a band becomes the ratio of the level of the band to the
highest level, which is in the table. It is refused just if the bits end within it or a step leads
out of range, and then nothing has changed but the place of the reader. -/
theorem readEnvelope_stepped (hbooks : Books.builtIn = .ok s.books)
    (hstepped : s.config.steppedEnvelope = true) (hwidths : bands.envelopeBands.length ≤ 32)
    (hsum : bands.envelopeBands.sum = bands.length)
    (hroom : bands.length ≤ sc.state.channel.envelope.size) :
    (∀ e : Coding,
      e.steps.length = stepCount s.config.version bands.envelopeBands bands.length →
      e.bits s.config.version <+: sc.reader.remaining →
      (∀ l ∈ levelsFrom (e.start s.config.version) e.steps, InRange l) →
      ∃ t, readEnvelope s sizeIndex bands sc = .ok () t ∧
        Takes s.config.version sizeIndex bands e sc t) ∧
    (∀ t, readEnvelope s sizeIndex bands sc = .ok () t → ∃ e : Coding,
      e.steps.length = stepCount s.config.version bands.envelopeBands bands.length ∧
      e.bits s.config.version <+: sc.reader.remaining ∧
      (∀ l ∈ levelsFrom (e.start s.config.version) e.steps, InRange l) ∧
      Takes s.config.version sizeIndex bands e sc t) ∧
    ((∃ err t, readEnvelope s sizeIndex bands sc = .error err t) ↔
      (∃ e : Coding,
        e.steps.length = stepCount s.config.version bands.envelopeBands bands.length ∧
        sc.reader.remaining <+: e.bits s.config.version ∧
        sc.reader.remaining.length < (e.bits s.config.version).length) ∨
      ∃ e : Coding,
        e.steps.length ≤ stepCount s.config.version bands.envelopeBands bands.length ∧
        e.bits s.config.version <+: sc.reader.remaining ∧
        ∃ l ∈ levelsFrom (e.start s.config.version) e.steps, ¬InRange l) ∧
    ∀ err t, readEnvelope s sizeIndex bands sc = .error err t →
      (∃ cause, err = .corrupt cause) ∧ t.state = sc.state := by
  have code := isStepCode_of_builtIn hbooks
  refine ⟨fun e => exists_takes code hstepped hwidths hsum hroom, ?_⟩
  have refused : ∀ e : Coding,
      e.steps.length ≤ stepCount s.config.version bands.envelopeBands bands.length →
      e.Bad s.config.version sc.reader.remaining →
      ∃ err t, readEnvelope s sizeIndex bands sc = .error err t := fun e hcount bad =>
    let ⟨err, t, ht, _⟩ := exists_error_of_bad code hstepped hroom hcount bad
    ⟨err, t, ht⟩
  obtain ⟨e, hcount, ⟨hbits, hrange, t, ht, takes⟩ | ⟨bad, err, t, ht, none⟩⟩ :=
    takes_or_refused code hstepped hwidths hsum hroom sizeIndex
  · have only : ∀ err t', readEnvelope s sizeIndex bands sc ≠ .error err t' := by
      rw [ht]
      exact fun _ _ h => nomatch h
    refine ⟨fun t' ht' => ⟨e, hcount, hbits, hrange, ?_⟩, ⟨fun ⟨err, t', ht'⟩ => ?_, ?_⟩,
      fun err t' ht' => absurd ht' (only err t')⟩
    · rw [ht] at ht'
      cases ht'
      exact takes
    · exact absurd ht' (only err t')
    · rintro (⟨e', hcount', hl, hlt⟩ | ⟨e', hcount', hl, hout⟩)
      · exact refused e' (Nat.le_of_eq hcount') (.inr ⟨hl, hlt⟩)
      · exact refused e' hcount' (.inl ⟨hl, hout⟩)
  · have only : ∀ t', readEnvelope s sizeIndex bands sc ≠ .ok () t' := by
      rw [ht]
      exact fun _ h => nomatch h
    refine ⟨fun t' ht' => absurd ht' (only t'), ⟨fun _ => ?_, fun _ => ⟨err, t, ht⟩⟩,
      fun err' t' ht' => ?_⟩
    · exact bad.symm.imp (fun ⟨hl, hlt⟩ => ⟨e, hcount, hl, hlt⟩)
        fun ⟨hl, hout⟩ => ⟨e, Nat.le_of_eq hcount, hl, hout⟩
    · rw [ht] at ht'
      cases ht'
      exact none

/-- Four bins in bands of one bin, none and three: the second step goes one level down. -/
theorem readEnvelope_stepped_three : ∃ books, Books.builtIn = .ok books ∧
    ∃ t, readEnvelope ⟨.tiny, .ofConfig .tiny, books⟩ 0 ⟨4, [1, 0, 3], 4, 4, []⟩
      ⟨BitReader.ofList 0 [false, true, false, false, false],
        ⟨.initial 4, .ofDivisor 1, .initial 4⟩⟩ = .ok () t ∧
      t.state.channel.envelope[0]? = some 1073741824 ∧
      t.state.channel.envelope[3]? = some 929822112 := by
  obtain ⟨books, hbooks⟩ := Books.exists_builtIn
  have stepped : Config.tiny.steppedEnvelope = true := by decide +kernel
  have bits : Coding.bits .v2 ⟨0, [60, 59, 60]⟩ <+: (BitReader.ofList 0
      [false, true, false, false, false]).remaining := by rw [BitReader.remaining_ofList]; decide
  have range : ∀ l ∈ levelsFrom seed [60, 59, 60], InRange l := by decide
  obtain ⟨t, ht, takes⟩ : ∃ t, readEnvelope ⟨.tiny, .ofConfig .tiny, books⟩ 0 ⟨4, [1, 0, 3], 4, 4, []⟩
      ⟨BitReader.ofList 0 [false, true, false, false, false],
        ⟨.initial 4, .ofDivisor 1, .initial 4⟩⟩ = .ok () t ∧
      Takes .v2 0 ⟨4, [1, 0, 3], 4, 4, []⟩ ⟨0, [60, 59, 60]⟩
        ⟨BitReader.ofList 0 [false, true, false, false, false],
          ⟨.initial 4, .ofDivisor 1, .initial 4⟩⟩ t :=
    (readEnvelope_stepped hbooks stepped (by decide) rfl (by decide)).1 _ rfl bits range
  refine ⟨books, hbooks, t, ht, ?_, ?_⟩
  · obtain ⟨peak, level, hpeak, hlevel, -, -, hratio⟩ := takes.shows 0 0 (by decide) (by decide)
    cases hpeak
    cases hlevel
    exact hratio.trans (by decide +kernel)
  · obtain ⟨peak, level, hpeak, hlevel, -, -, hratio⟩ := takes.shows 2 3 (by decide) (by decide)
    cases hpeak
    cases hlevel
    exact hratio.trans (by decide +kernel)

end Lane

end Wma
