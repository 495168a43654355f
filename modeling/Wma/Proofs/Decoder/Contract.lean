import Wma.CommandLine.Run
import Wma.Proofs.Decoder.Safety
import Wma.Proofs.Packet.Outcome

/-!
# What a caller may rely on

`Decoder.Contract` gathers what a caller may rely on whatever packet and buffer it hands over, and
`Decoder.contract_of_ofParams` proves it for any state that calls can lead to. A file of packets is
therefore decoded to its end, whatever it holds.
-/

namespace Wma

open Buffer (KeptFrom)

/-- The errors for which a call can be made again, with a whole packet or with a larger buffer. -/
def Error.AsksForMore : Error → Prop
  | .insufficientInput .. | .outputTooSmall .. => True
  | .setup _ | .corrupt _ | .fault _ => False

namespace Decoder

/-- What a caller may rely on when it hands over a packet and a buffer. -/
structure Contract (d : Decoder) (packet : Array UInt8) (pcm : Array Int16) : Prop where
  no_setup : ∀ cause, (d.decode packet pcm).report ≠ .error (.setup cause)
  /-- A packet is too short if it is shorter than it should be, but not empty. -/
  short_iff : (∃ got needed, (d.decode packet pcm).report = .error (.insufficientInput got needed)) ↔
    0 < packet.size ∧ packet.size < d.config.blockAlign
  /-- A call that can be made again has changed nothing, so that the next one gives what it would
  have given in its place. -/
  unchanged : ∀ e, (d.decode packet pcm).report = .error e → e.AsksForMore →
    (d.decode packet pcm).decoder = d ∧ (d.decode packet pcm).pcm = pcm
  /-- There is a size of buffers that is always enough. -/
  room : d.maxSamples ≤ pcm.size →
    ∀ got needed, (d.decode packet pcm).report ≠ .error (.outputTooSmall got needed)
  samples : ∀ r, (d.decode packet pcm).report = .ok r →
    r.samples = r.frames * (2 * d.config.frameLength) ∧ r.samples ≤ d.maxSamples
  /-- Nothing is written behind the samples that are reported. -/
  kept : ∀ r, (d.decode packet pcm).report = .ok r →
    KeptFrom r.samples pcm (d.decode packet pcm).pcm

variable {d : Decoder}

theorem kept_of_decodePacket {s : Stream} {packet : Array UInt8} {x : Session} {t : Scan Session}
    {count : Nat} (h : decodePacket s packet ⟨.ofBytes packet, x⟩ = .ok count t) :
    count ≤ frameLimit s ∧ KeptFrom (count * s.config.frameSamples) x.pcm t.state.pcm := by
  unfold decodePacket at h
  unfold frameLimit
  split at h
  · rename_i hreservoir
    rw [if_pos hreservoir]
    exact Session.kept_of_decodeSuperframe h
  · rename_i hreservoir
    rw [if_neg hreservoir]
    exact (Session.kept_of_decodeSingle h).imp_left Nat.le_of_eq

/-! ### How calls fail and succeed -/

variable {packet : Array UInt8} {pcm : Array Int16}

/-- A call that succeeds writes the frames that it reports, which are few enough for any packet. -/
theorem of_report_eq_ok {r : DecodeReport} (h : (d.decode packet pcm).report = .ok r) :
    r.samples = r.frames * d.config.frameSamples ∧ r.frames ≤ frameLimit d.stream ∧
      KeptFrom r.samples pcm (d.decode packet pcm).pcm := by
  have ending := d.ending_decode packet pcm
  generalize d.decode packet pcm = o at ending h ⊢
  cases ending with
  | finished =>
    cases h
    exact ⟨(Nat.zero_mul _).symm, Nat.zero_le _, .refl _ _⟩
  | short => cases h
  | decoded _ hrun =>
    cases h
    obtain ⟨few, kept⟩ := kept_of_decodePacket hrun
    exact ⟨rfl, few, kept⟩
  | failed => cases h

/-- A packet that is too short is always refused. -/
theorem report_of_short (hsome : 0 < packet.size) (hshort : packet.size < d.config.blockAlign) :
    (d.decode packet pcm).report = .error (.insufficientInput packet.size d.config.blockAlign) := by
  have ending := d.ending_decode packet pcm
  generalize d.decode packet pcm = o at ending ⊢
  cases ending with
  | finished hnone => omega
  | short => rfl
  | decoded hwhole => omega
  | failed hwhole => omega

theorem Sound.contract (hd : d.Sound) (packet : Array UInt8) (pcm : Array Int16) :
    d.Contract packet pcm where
  no_setup cause h := hd.expected_of_error h
  short_iff := by
    refine ⟨fun ⟨got, needed, h⟩ => ?_, fun ⟨hsome, hshort⟩ => ⟨_, _, report_of_short hsome hshort⟩⟩
    rcases hd.of_report_eq_error h with hdamage | ⟨-, ⟨hsome, hshort, -⟩ | ⟨_, -, -, he⟩⟩
    · exact hdamage.elim
    · exact ⟨hsome, hshort⟩
    · cases he
  unchanged e h hmore := by
    rcases hd.of_report_eq_error h with hdamage | ⟨same, -⟩
    · cases e <;> first | exact hmore.elim | exact hdamage.elim
    · exact same
  room hroom got needed h := by
    rcases hd.of_report_eq_error h with hdamage | ⟨-, ⟨-, -, he⟩ | ⟨needed, hneeded, hsmall, -⟩⟩
    · exact hdamage
    · cases he
    · omega
  samples r h := by
    obtain ⟨hsamples, few, -⟩ := of_report_eq_ok h
    exact ⟨hsamples, hsamples ▸ Nat.mul_le_mul_right _ few⟩
  kept r h := (of_report_eq_ok h).2.2

end Decoder

namespace CommandLine

theorem isRecoverable_of_isExpected {e : Error} (h : e.IsExpected) : e.isRecoverable = true := by
  cases e with
  | setup | fault => exact h.elim
  | corrupt | insufficientInput | outputTooSmall => rfl

/-- No packet ends the decoding of those behind it. -/
theorem exists_decodePackets {d : Decoder} (hd : d.Sound) (pcm : Array Int16)
    (packets : List (Array UInt8)) (out : Array UInt8) :
    ∃ out', decodePackets d pcm packets out = .ok out' := by
  induction packets generalizing d pcm out with
  | nil => exact ⟨out, rfl⟩
  | cons packet packets ih =>
    have sound := hd.decode packet pcm
    unfold decodePackets
    dsimp only
    cases hreport : (d.decode packet pcm).report with
    | ok report => exact ih sound _ _
    | error e =>
      dsimp only
      rw [if_pos (isRecoverable_of_isExpected (hd.expected_of_error hreport))]
      exact ih sound _ _

end CommandLine

namespace Decoder

/-- In any state that calls can lead to, a decoder keeps to the contract with its caller, and a new
decoder takes a file of packets to its end. -/
theorem contract_of_ofParams {p : Params} {d₀ : Decoder} (h : ofParams p = .ok d₀) :
    (∀ calls packet pcm, (d₀.afterAll calls).Contract packet pcm) ∧
      ∀ file, ∃ out, CommandLine.decodeFile d₀ file = .ok out :=
  ⟨fun calls => (sound_afterAll (sound_ofParams h) calls).contract,
    fun _ => CommandLine.exists_decodePackets (sound_ofParams h) _ _ _⟩

theorem contract_of_ofParams_stereo : ∃ d, ofParams stereoParams = .ok d ∧
    (d.afterAll [.decode #[0x10] #[], .flush]).Contract (Array.replicate 4096 0x21) #[7, 7] ∧
    ∃ out, CommandLine.decodeFile d #[0x21, 0x01] = .ok out := by
  obtain ⟨d, hd⟩ := exists_stereo
  obtain ⟨hcontract, hfile⟩ := contract_of_ofParams hd
  exact ⟨d, hd, hcontract _ _ _, hfile _⟩

end Decoder

end Wma
