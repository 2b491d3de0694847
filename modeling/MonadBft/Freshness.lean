import MonadBft.Instance
import MonadBft.Validation.TipRounds

/-! # Which proposals are accepted

A proposal should be for a fresh block of its round, or repropose the high tip of the
timeout certificate it carries. `validate` compares the tip with the proposal's round only
when the timeout certificate extends another tip, so the fresh certificate of the tip
decides whether the two belong together.
-/

namespace MonadBft

/-- What a cache can hold: it starts empty, and messages are validated with it. -/
inductive CertificateCache.Reachable (net : Network) : CertificateCache → Prop where
  | empty : Reachable net .empty
  | validate {cache : CertificateCache} (em : EpochManager) (m : Unverified) :
      Reachable net cache → Reachable net (verifyAndValidate net em cache m).2

theorem CertificateCache.Reachable.cached {net : Network} {cache : CertificateCache} {V : CertPreds}
    (sound : V.Sound net) (reachable : Reachable net cache) : V.Cached cache := by
  induction reachable with
  | empty => exact V.cached_empty
  | validate em m _ ih => exact (verifyAndValidate_cached (sound em) ih).1

/-- A timeout certificate over a QC is newer than that QC. -/
def CertPreds.newerThanQc : CertPreds where
  qc := fun _ => True
  nec := fun _ => True
  tc := fun tc => ∀ {qc}, tc.highExtend = .qc qc → qc.getRound < tc.round

theorem CertPreds.newerThanQc_sound (net : Network) : CertPreds.newerThanQc.Sound net := fun _ =>
  ⟨False.elim, fun _ => trivial, False.elim, fun _ => trivial, False.elim, fun checked _ => checked.qcRound_lt⟩

namespace ProposalMessage

/-- The block is of the proposal's round, or the high tip of its timeout certificate; either way it is above its QC,
which is of the round that the timeout certificate extends. -/
def IsFreshOrReproposal (p : ProposalMessage) : Prop :=
  (p.proposalRound = p.tip.blockHeader.blockRound ∨
    ∃ tc, p.lastRoundTc = some tc ∧ tc.round + 1 = p.proposalRound ∧ tc.highExtend = .tip p.tip) ∧
  p.tip.blockHeader.qc.getRound < p.tip.blockHeader.blockRound ∧
  ∀ tc, p.lastRoundTc = some tc → p.tip.blockHeader.qc.getRound = tc.highExtend.getQc.getRound

/-- The tip has no fresh certificate when the proposal extends the QC of the previous round, one of the previous
round when it answers a timeout certificate over a QC, and no no-endorsements of a tip from their own round's future. -/
def FreshCertificateFits (p : ProposalMessage) : Prop :=
  (p.proposalRound = p.tip.blockHeader.qc.getRound + 1 → p.tip.freshCertificate = none) ∧
  (∀ tc qc, p.lastRoundTc = some tc → tc.highExtend = .qc qc →
    match p.tip.freshCertificate with
    | some (.nec nec) => nec.msg.round = p.proposalRound
    | some (.noTip noTip) => noTip.round = tc.round
    | none => False) ∧
  ∀ nec, p.tip.freshCertificate = some (.nec nec) → nec.msg.tipQcRound < nec.msg.round

variable {net : Network} {em : EpochManager} {p : ProposalMessage} {tip : ConsensusTip}

/-- The two shapes of an accepted proposal: on the QC of the previous round, or with a timeout certificate. -/
theorem wellFormedProposal_eq_ok (h : p.wellFormedProposal net.crypto = .ok ()) :
    (p.proposalRound = p.tip.blockHeader.qc.getRound + 1 ∧ p.lastRoundTc = none) ∨
    (p.proposalRound ≠ p.tip.blockHeader.qc.getRound + 1 ∧ ∃ tc, p.lastRoundTc = some tc ∧
      ((∃ qc, tc.highExtend = .qc qc ∧ qc.getRound = p.tip.blockHeader.qc.getRound) ∨
        tc.highExtend = .tip p.tip ∨
        ∃ tip, tc.highExtend = .tip tip ∧ p.proposalRound = p.tip.blockHeader.blockRound ∧
          tip.blockHeader.qc.getRound = p.tip.blockHeader.qc.getRound)) := by
  unfold wellFormedProposal at h
  split at h
  · cases h
  split at h
  case isTrue consecutive =>
    split at h
    · cases h
    case isFalse noTc => exact .inl ⟨consecutive, by simpa using noTc⟩
  case isFalse notConsecutive =>
    refine .inr ⟨notConsecutive, ?_⟩
    split at h
    · cases h
    case h_2 tc isTc =>
      refine ⟨tc, isTc, ?_⟩
      split at h
      case h_1 qc isQc =>
        split_ifs at h with differs
        exact .inl ⟨qc, isQc, not_not.mp differs⟩
      case h_2 tip isTip =>
        split_ifs at h with same stale differs
        · exact .inr (.inl (isTip.trans (congrArg HighExtend.tip same)))
        · exact .inr (.inr ⟨tip, isTip, not_not.mp stale, not_not.mp differs⟩)

/-- The three ways in which a tip may be fresh in the round of its block. -/
theorem checkFreshCertificate_eq_ok (h : checkFreshCertificate tip = .ok ()) :
    (tip.freshCertificate = none ∧ tip.blockHeader.blockRound = tip.blockHeader.qc.getRound + 1) ∨
    (tip.blockHeader.blockRound ≠ tip.blockHeader.qc.getRound + 1 ∧
      ((∃ nec, tip.freshCertificate = some (.nec nec) ∧ nec.msg.round = tip.blockHeader.blockRound ∧
          nec.msg.tipQcRound = tip.blockHeader.qc.getRound) ∨
        ∃ noTip, tip.freshCertificate = some (.noTip noTip) ∧ noTip.round + 1 = tip.blockHeader.blockRound ∧
          noTip.highQc.getRound = tip.blockHeader.qc.getRound)) := by
  unfold checkFreshCertificate at h
  split at h
  case isTrue consecutive =>
    split at h
    · cases h
    case isFalse none => exact .inl ⟨by simpa using none, consecutive⟩
  case isFalse notConsecutive =>
    refine .inr ⟨notConsecutive, ?_⟩
    split at h
    · cases h
    case h_2 nec isNec =>
      split_ifs at h with round qcRound
      exact .inl ⟨nec, isNec, not_not.mp round, not_not.mp qcRound⟩
    case h_3 noTip isNoTip =>
      split_ifs at h with round qcRound
      exact .inr ⟨noTip, isNoTip, not_not.mp round, not_not.mp qcRound⟩

/-- The QC round of the tip is the one that the timeout certificate extends. -/
theorem qcRound_of_lastRoundTc (h : p.wellFormedProposal net.crypto = .ok ()) {tc : TimeoutCertificate}
    (isTc : p.lastRoundTc = some tc) : p.tip.blockHeader.qc.getRound = tc.highExtend.getQc.getRound := by
  obtain ⟨-, none⟩ | ⟨-, tc', isTc', shape⟩ := wellFormedProposal_eq_ok h
  · cases isTc.symm.trans none
  · cases isTc.symm.trans isTc'
    obtain ⟨qc, isQc, same⟩ | isTip | ⟨tip, isTip, -, same⟩ := shape
    · rw [isQc]
      exact same.symm
    · rw [isTip]
      rfl
    · rw [isTip]
      exact same.symm

/-- A checked tip is above its QC, unless no-endorsements from the past of that QC make it fresh. -/
theorem qcRound_lt_of_tipChecked (checked : TipChecked net em .newerThanQc tip)
    (necs : ∀ nec, tip.freshCertificate = some (.nec nec) → nec.msg.tipQcRound < nec.msg.round) :
    tip.blockHeader.qc.getRound < tip.blockHeader.blockRound := by
  obtain ⟨_, -, -, -, fresh, check⟩ := checked
  obtain ⟨-, round⟩ | ⟨-, ⟨nec, isNec, round, qcRound⟩ | ⟨noTip, isNoTip, round, qcRound⟩⟩ :=
    checkFreshCertificate_eq_ok check
  · lia
  · have := necs nec isNec
    lia
  · rw [isNoTip] at fresh
    have : noTip.highQc.getRound < noTip.round := fresh rfl
    lia

end ProposalMessage

section Accepted

open ProposalMessage

variable {net : Network} {em : EpochManager} {p : ProposalMessage} {cache cache' : CertificateCache}

/-- An accepted proposal is fresh or reproposes the certified high tip exactly when its fresh certificate fits. -/
theorem accepted_isFreshOrReproposal_iff (reachable : CertificateCache.Reachable net cache)
    (accepted : (p.validate net em).runCheck cache = (.ok (), cache')) :
    p.IsFreshOrReproposal ↔ p.FreshCertificateFits := by
  have cached := reachable.cached (CertPreds.newerThanQc_sound net)
  have checks := (p.validate_checks (CertPreds.newerThanQc_sound net em) cache cached).2.2 ()
  rw [accepted] at checks
  obtain ⟨lastRound, tipChecked, wellFormed, -⟩ := checks rfl
  have fresh := checkFreshCertificate_eq_ok tipChecked.choose_spec.2.2.2.2
  constructor
  · rintro ⟨freshOrTip, above, -⟩
    refine ⟨fun consecutive => ?_, fun tc qc isTc isQc => ?_, fun nec isNec => ?_⟩
    · obtain ⟨-, noTc⟩ | ⟨notConsecutive, -⟩ := wellFormedProposal_eq_ok wellFormed
      · obtain sameRound | ⟨_, isTc, -⟩ := freshOrTip
        · obtain ⟨none, -⟩ | ⟨notConsecutive, -⟩ := fresh
          · exact none
          · exact absurd (sameRound.symm.trans consecutive) notConsecutive
        · cases noTc.symm.trans isTc
      · exact absurd consecutive notConsecutive
    · have sameRound : p.proposalRound = p.tip.blockHeader.blockRound := by
        obtain sameRound | ⟨tc', isTc', -, isTip⟩ := freshOrTip
        · exact sameRound
        · cases isTc.symm.trans isTc'
          cases isQc.symm.trans isTip
      have previous := checkPreviousRound_eq_ok.mp (lastRound tc isTc).2
      obtain ⟨none, round⟩ | ⟨-, ⟨nec, isNec, round, -⟩ | ⟨noTip, isNoTip, round, -⟩⟩ := fresh
      · -- such a proposal would be on the QC of the previous round, and carry no timeout certificate
        obtain ⟨-, noTc⟩ | ⟨notConsecutive, -⟩ := wellFormedProposal_eq_ok wellFormed
        · cases noTc.symm.trans isTc
        · exact absurd (sameRound.trans round) notConsecutive
      · simp only [isNec]
        lia
      · simp only [isNoTip]
        lia
    · obtain ⟨none, -⟩ | ⟨-, ⟨nec', isNec', round, qcRound⟩ | ⟨noTip, isNoTip, -⟩⟩ := fresh
      · cases isNec.symm.trans none
      · cases isNec.symm.trans isNec'
        lia
      · cases isNec.symm.trans isNoTip
  · rintro ⟨consecutive, overQc, necs⟩
    refine ⟨?_, qcRound_lt_of_tipChecked tipChecked necs, fun tc => qcRound_of_lastRoundTc wellFormed⟩
    obtain ⟨isConsecutive, -⟩ | ⟨-, tc, isTc, ⟨qc, isQc, -⟩ | isTip | ⟨_, -, sameRound, -⟩⟩ :=
      wellFormedProposal_eq_ok wellFormed
    · obtain ⟨-, round⟩ | ⟨-, ⟨nec, isNec, -⟩ | ⟨noTip, isNoTip, -⟩⟩ := fresh
      · exact .inl (isConsecutive.trans round.symm)
      · cases (consecutive isConsecutive).symm.trans isNec
      · cases (consecutive isConsecutive).symm.trans isNoTip
    · have previous := checkPreviousRound_eq_ok.mp (lastRound tc isTc).2
      have fits := overQc tc qc isTc isQc
      obtain ⟨none, -⟩ | ⟨-, ⟨nec, isNec, round, -⟩ | ⟨noTip, isNoTip, round, -⟩⟩ := fresh
      · simp [none] at fits
      · simp only [isNec] at fits
        exact .inl (by lia)
      · simp only [isNoTip] at fits
        exact .inl (by lia)
    · exact .inr ⟨tc, isTc, (checkPreviousRound_eq_ok.mp (lastRound tc isTc).2).symm, isTip⟩
    · exact .inl sameRound

end Accepted

section Examples

open FourValidators

/-- The proposal of `block₂` with the certificate of the first timeout is accepted, and fresh. -/
theorem accepted_isFreshOrReproposal_iff_fresh :
    (proposalMessage 2 block₂ (noTip tc₁) (some tc₁)).IsFreshOrReproposal := by
  have accepted : (((proposalMessage 2 block₂ (noTip tc₁) (some tc₁)).validate net epochManager).runCheck .empty).1 =
    .ok () := by
    decide +kernel
  refine (accepted_isFreshOrReproposal_iff .empty (Prod.ext accepted rfl)).mpr ⟨by decide, ?_, ?_⟩
  · rintro tc qc ⟨⟩ -
    rfl
  · rintro nec ⟨⟩

/-- A block of round five in round three, an old block in answer to a timeout certificate over a QC, and a block
below its own QC are all accepted. -/
theorem accepted_not_isFreshOrReproposal :
    [proposalMessage 3 (block 5 (qcFor 2 block₂) 2 0) (noTip (tcOverQc 4 (qcFor 2 block₂))) none,
      proposalMessage 5 (block 3 (qcFor 2 block₂) 2 0) none (some (tcOverQc 4 (qcFor 2 block₂))),
      proposalMessage 8 (block 5 (qcFor 7 block₂) 2 0) (some (.nec ⟨⟨1, 5, 7⟩, [0, 1, 3]⟩)) none].Forall fun p =>
        ((p.validate net epochManager).runCheck .empty).1 = .ok () ∧ ¬ p.IsFreshOrReproposal := by
  simp only [List.Forall]
  refine ⟨⟨by decide +kernel, ?_⟩, ⟨by decide +kernel, ?_⟩, ⟨by decide +kernel, ?_⟩⟩
  · rintro ⟨sameRound | ⟨tc, isTc, -⟩, -⟩
    · cases sameRound
    · cases isTc
  · rintro ⟨sameRound | ⟨tc, isTc, -, isTip⟩, -⟩
    · cases sameRound
    · cases isTc
      cases isTip
  · rintro ⟨-, above, -⟩
    exact absurd above (by decide)

end Examples

end MonadBft
