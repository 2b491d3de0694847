import MonadBft.Instance
import MonadBft.Validation.TipRounds

/-! # The messages of an honest leader

What a replica sends as a leader or when it times out is built from its high certificate,
its no-endorsement certificate and its high tip. Others accept it when these are valid,
except where the rounds or epochs of the parts do not fit what the message's own `validate`
compares them with.
-/

namespace MonadBft

open ConsensusState Env Option CertPreds

/-! ## Epoch schedules -/

section Schedules

variable {net : Network} {em em' : EpochManager}

variable {v : ValidatorSet × ValidatorMapping × NodeId} {qc : QuorumCertificate}

theorem epochToValidators_eq_ok {epoch : Epoch} {round : Round} :
    epochToValidators net em epoch round = .ok v ↔ em.getEpoch round = some epoch ∧
      net.valEpochMap epoch = some (v.1, v.2.1) ∧ v.2.2 = net.getLeader round v.1.validators := by
  obtain ⟨validators, mapping, leader⟩ := v
  unfold epochToValidators
  cases em.getEpoch round with
  | none => simp
  | some e =>
    by_cases same : epoch = e
    · subst same
      cases net.valEpochMap epoch with
      | none => simp
      | some known =>
        obtain ⟨validators', mapping'⟩ := known
        simp only [ne_eq, not_true_eq_false, if_false, Except.ok.injEq, Prod.mk.injEq, some.injEq, true_and]
        constructor
        · rintro ⟨rfl, rfl, rfl⟩
          exact ⟨⟨rfl, rfl⟩, rfl⟩
        · rintro ⟨⟨rfl, rfl⟩, rfl⟩
          exact ⟨rfl, rfl, rfl⟩
    · simp [same, eq_comm]

/-- The schedule only decides whether the epoch is the right one for the round. -/
theorem epochToValidators_of_schedule {epoch : Epoch} {round : Round}
    (known : epochToValidators net em epoch round = .ok v)
    (same : em'.getEpoch round = some epoch) : epochToValidators net em' epoch round = .ok v :=
  epochToValidators_eq_ok.mpr ⟨same, (epochToValidators_eq_ok.mp known).2⟩

theorem QcChecked.epoch (checked : QcChecked net em qc) : em.getEpoch qc.getRound = some qc.getEpoch := by
  obtain ⟨v, known, -⟩ := checked
  exact (epochToValidators_eq_ok.mp known).1

theorem QcChecked.of_schedule (checked : QcChecked net em qc) (same : em'.getEpoch qc.getRound = some qc.getEpoch) :
    QcChecked net em' qc := by
  obtain ⟨v, known, signed⟩ := checked
  exact ⟨v, epochToValidators_of_schedule known same, signed⟩

theorem NecChecked.of_schedule {nec : NoEndorsementCertificate} (checked : NecChecked net em nec)
    (same : em'.getEpoch nec.msg.round = some nec.msg.epoch) : NecChecked net em' nec := by
  obtain ⟨v, known, signed⟩ := checked
  exact ⟨v, epochToValidators_of_schedule known same, signed⟩

def CertPreds.qcOnly (P : QuorumCertificate → Prop) : CertPreds := ⟨P, fun _ => False, fun _ => False⟩

/-- What passed the checks under some schedule. Of timeout certificates this only says something when they extend a
QC, as those in a tip do. -/
def CertPreds.someSchedule (net : Network) : CertPreds where
  qc := fun qc => ∃ em, QcChecked net em qc
  nec := fun nec => ∃ em, NecChecked net em nec
  tc := fun tc => ∀ qc, tc.highExtend = .qc qc →
    ∃ em, TcChecked net em (.qcOnly fun qc => ∃ em, QcChecked net em qc) tc

theorem CertPreds.someSchedule_sound (net : Network) : (someSchedule net).Sound net := fun em =>
  ⟨False.elim, fun checked => ⟨em, checked⟩, False.elim, fun checked => ⟨em, checked⟩, False.elim,
    fun checked _ isQc => ⟨em, (TcChecked.congr_of_qc (V := .someSchedule net) (W := .qcOnly _) isQc rfl).mp checked⟩⟩

/-- The epochs in a tip are those of the schedule. -/
def ConsensusTip.EpochsMatch (em : EpochManager) (tip : ConsensusTip) : Prop :=
  em.getEpoch tip.blockHeader.blockRound = some tip.blockHeader.epoch ∧
  em.getEpoch tip.blockHeader.qc.getRound = some tip.blockHeader.qc.getEpoch ∧
  match tip.freshCertificate with
  | some (.nec nec) => em.getEpoch nec.msg.round = some nec.msg.epoch
  | some (.noTip noTip) =>
    em.getEpoch noTip.round = some noTip.epoch ∧ em.getEpoch noTip.highQc.getRound = some noTip.highQc.getEpoch
  | none => True

/-- A tip that was accepted is accepted under another schedule if that gives its rounds the same epochs. -/
theorem tipChecked_iff_epochsMatch {tip : ConsensusTip} (accepted : TipChecked net em (.someSchedule net) tip) :
    TipChecked net em' (.exact net em') tip ↔ tip.EpochsMatch em' := by
  obtain ⟨v, known, author, ⟨_, qc⟩, fresh, check⟩ := accepted
  constructor
  · rintro ⟨v', known', -, qc', fresh', -⟩
    refine ⟨(epochToValidators_eq_ok.mp known').1, qc'.epoch, ?_⟩
    rcases isFresh : tip.freshCertificate with _ | nec | noTip
    · trivial
    · rw [isFresh] at fresh'
      obtain ⟨v, known, -⟩ := fresh'
      exact (epochToValidators_eq_ok.mp known).1
    · rw [isFresh] at fresh'
      obtain ⟨v, known, _, -, -, highQc, -⟩ := fresh'
      exact ⟨(epochToValidators_eq_ok.mp known).1, QcChecked.epoch highQc⟩
  · rintro ⟨blockEpoch, qcEpoch, freshEpoch⟩
    refine ⟨v, epochToValidators_of_schedule known blockEpoch, author, qc.of_schedule qcEpoch, ?_, check⟩
    rcases isFresh : tip.freshCertificate with _ | nec | noTip
    · trivial
    · rw [isFresh] at fresh freshEpoch
      obtain ⟨_, checked⟩ := fresh
      exact checked.of_schedule freshEpoch
    · rw [isFresh] at fresh freshEpoch
      obtain ⟨_, v, known, seen, rounds, enough, ⟨_, highQc⟩, high⟩ := fresh noTip.highQc rfl
      exact ⟨v, epochToValidators_of_schedule known freshEpoch.1, seen, rounds, enough,
        highQc.of_schedule freshEpoch.2, high⟩

end Schedules

/-! ## What a replica sends -/

/-- The keys of the replica are those the network knows it by. -/
structure Node.KeysOf (node : Node) (crypto : Crypto) : Prop where
  tip : ∀ header, crypto.tipAuthor header (node.signTip header) = some node.nodeid
  cert : ∀ msg, crypto.sigValidate (node.certSign msg) = true

def ProtocolMessage.IsRoundMessage : ProtocolMessage → Prop
  | .proposal _ | .roundRecovery _ | .timeout _ => True
  | .vote _ | .noEndorsement _ | .advanceRound _ => False

/-- The messages of these kinds that a command makes the replica send, a request for a block being answered by the
transaction pool. -/
def ConsensusCommand.Sends (env : Env) (c : ConsensusCommand) (m : ProtocolMessage) : Prop :=
  match c with
  | .publish _ u => u.obj.message = m ∧ m.IsRoundMessage
  | .createProposal request => ∃ inputs body, m = .proposal (env.newProposalMessage (request.answer inputs body))
  | _ => False

/-- The schedule that the epoch of a message comes from. -/
def Action.schedule (s : ConsensusState) : Action → EpochManager
  | .proposeFresh schedule _ _ _ => schedule
  | _ => s.epochManager

namespace ConsensusState

/-- The certificates that proposals are built from are valid. -/
structure CertificatesValid (net : Network) (em : EpochManager) (s : ConsensusState) : Prop where
  certificate : ((verifyRoundCertificate net em s.pacemaker.highCertificate).runCheck .empty).1 = .ok ()
  nec : ∀ nec, s.noEndorsementState.getNec s.getCurrentRound = some nec →
    ((verifyNec net em nec).runCheck .empty).1 = .ok ()

/-- The schedule has not moved the current round to another epoch since the replica entered the round. -/
def EpochCurrent (s : ConsensusState) : Prop := s.epochManager.getEpoch s.getCurrentRound = some s.getCurrentEpoch

/-- When a message of this kind, sent in this state, is accepted. -/
def Acceptable (s : ConsensusState) : ProtocolMessage → Prop
  | .proposal _ =>
    match s.pacemaker.highCertificate, s.noEndorsementState.getNec s.getCurrentRound with
    | .qc _, _ => True
    | .tc tc, some nec =>
      tc.highExtend.getQc.getRound ≠ tc.round ∧ nec.msg.tipQcRound = tc.highExtend.getQc.getRound
    | .tc tc, none =>
      match tc.highExtend with
      | .tip tip => tip.blockHeader.qc.getRound ≠ tc.round ∧ s.EpochCurrent
      | .qc _ => True
  | .roundRecovery _ => s.EpochCurrent
  | .timeout _ => s.EpochCurrent ∧ ∀ tip, s.safety.maybeHighTip = some tip →
      tip.blockHeader.qc.getRound < tip.blockHeader.blockRound ∧ tip.EpochsMatch s.epochManager
  | _ => True

/-! ### Inversion of the proposal basis -/

variable {s : ConsensusState}

variable {fresh : Option FreshProposalCertificate} {lastRoundTc : Option TimeoutCertificate}

theorem proposalBasis_eq_tip {tip : ConsensusTip} (basis : s.proposalBasis = (.tip tip, fresh, lastRoundTc)) :
    ∃ tc, s.pacemaker.highCertificate = .tc tc ∧ s.noEndorsementState.getNec s.getCurrentRound = none ∧
      tc.highExtend = .tip tip ∧ lastRoundTc = some tc := by
  unfold proposalBasis at basis
  split at basis
  · simp at basis
  case h_2 tc isTc =>
    split at basis
    · simp at basis
    case h_2 noNec =>
      split at basis
      case h_1 tip' isTip =>
        obtain ⟨same, -, rfl⟩ : tip' = tip ∧ none = fresh ∧ some tc = lastRoundTc := by simpa using basis
        exact ⟨tc, isTc, noNec, same ▸ isTip, rfl⟩
      · simp at basis

theorem proposalBasis_eq_qc {qc : QuorumCertificate} (basis : s.proposalBasis = (.qc qc, fresh, lastRoundTc)) :
    (s.pacemaker.highCertificate = .qc qc ∧ fresh = none ∧ lastRoundTc = none) ∨
    ∃ tc, s.pacemaker.highCertificate = .tc tc ∧ qc = tc.highExtend.getQc ∧ lastRoundTc = some tc ∧
      ((∃ nec, s.noEndorsementState.getNec s.getCurrentRound = some nec ∧ fresh = some (.nec nec)) ∨
        (s.noEndorsementState.getNec s.getCurrentRound = none ∧ tc.highExtend = .qc qc ∧
          fresh = some (.noTip
            { epoch := tc.epoch, round := tc.round, tipRounds := tc.tipRounds, highQc := qc }))) := by
  unfold proposalBasis at basis
  split at basis
  case h_1 qc' isQc =>
    obtain ⟨rfl, rfl, rfl⟩ : qc' = qc ∧ none = fresh ∧ none = lastRoundTc := by simpa using basis
    exact .inl ⟨isQc, rfl, rfl⟩
  case h_2 tc isTc =>
    split at basis
    case h_1 nec isNec =>
      obtain ⟨same, rfl, rfl⟩ : tc.highExtend.getQc = qc ∧ some (.nec nec) = fresh ∧ some tc = lastRoundTc := by
        simpa using basis
      exact .inr ⟨tc, isTc, same.symm, rfl, .inl ⟨nec, isNec, rfl⟩⟩
    case h_2 noNec =>
      split at basis
      · simp at basis
      case h_2 qc' isQc =>
        obtain ⟨rfl, rfl, rfl⟩ : qc' = qc ∧ some (.noTip _) = fresh ∧ some tc = lastRoundTc := by simpa using basis
        exact .inr ⟨tc, isTc, by rw [isQc]; rfl, rfl, .inr ⟨noNec, isQc, rfl⟩⟩

end ConsensusState

/-! ## The checks of each message -/

section Accepted

variable {net : Network} {em : EpochManager} {tc : TimeoutCertificate} {tip : ConsensusTip} {epoch : Epoch}

theorem CertPreds.exact_tc_iff : (exact net em).tc tc ↔ TcChecked net em (.exact net em) tc :=
  ⟨exact_bounds.tcComplete, exact_bounds.tcSound⟩

/-- A valid certificate comes with a valid QC. -/
theorem qcChecked_of_certChecked {c : RoundCertificate} (valid : CertChecked (.exact net em) c) :
    QcChecked net em c.getQc := by
  cases c with
  | qc qc => exact valid
  | tc tc =>
    obtain ⟨v, -, seen, -, -, extended, -⟩ := exact_tc_iff.mp valid
    rw [RoundCertificate.getQc_tc]
    cases isExtend : tc.highExtend with
    | qc qc =>
      rw [isExtend] at extended
      exact extended
    | tip tip =>
      rw [isExtend] at extended
      exact extended.choose_spec.2.2.1

variable (valid : CertChecked (.exact net em) (.tc tc))

include valid

theorem reproposal_checked_iff (isTip : tc.highExtend = .tip tip)
    {body : Bytes} (sameBody : tip.blockHeader.blockBodyId = net.crypto.getBodyId body) :
    ProposalChecked net em (.exact net em)
      { proposalRound := tc.round + 1, proposalEpoch := epoch, tip, blockBody := body, lastRoundTc := some tc } ↔
      tip.blockHeader.qc.getRound ≠ tc.round ∧ em.getEpoch (tc.round + 1) = some epoch := by
  have tipValid : TipChecked net em (.exact net em) tip := by
    obtain ⟨v, -, seen, -, -, extended, -⟩ := exact_tc_iff.mp valid
    rwa [isTip] at extended
  have last : ∀ tc', some tc = some tc' → (exact net em).tc tc' ∧
      checkPreviousRound (tc.round + 1) tc'.round = .ok () := by
    rintro _ ⟨⟩
    exact ⟨valid, checkPreviousRound_eq_ok.mpr rfl⟩
  have wellFormed : (ProposalMessage.mk (tc.round + 1) epoch tip body (some tc)).wellFormedProposal net.crypto = .ok
      () ↔ tip.blockHeader.qc.getRound ≠ tc.round := by
    simp only [ProposalMessage.wellFormedProposal, sameBody, isTip]
    by_cases consecutive : tip.blockHeader.qc.getRound = tc.round
    · simp [consecutive]
    · simp [consecutive, Ne.symm consecutive]
  simp only [ProposalChecked, tipValid, wellFormed, verifyEpoch_eq_ok, true_and]
  exact and_iff_right last

theorem recovery_checked_iff (isTip : tc.highExtend = .tip tip) :
    RecoveryChecked em (.exact net em) { round := tc.round + 1, epoch, tc } ↔
      em.getEpoch (tc.round + 1) = some epoch := by
  have wellFormed : (RoundRecoveryMessage.mk (tc.round + 1) epoch tc).wellFormedRoundRecovery = .ok () := by
    simp [RoundRecoveryMessage.wellFormedRoundRecovery, isTip]
  simp only [RecoveryChecked, wellFormed, verifyEpoch_eq_ok, true_and]
  exact and_iff_right valid

end Accepted

section Fresh

variable {env : Env} {em : EpochManager} {request : ProposalRequest} {inputs body : Bytes}

/-- The rounds of a proposal fit the certificates in it. -/
abbrev RoundsFit (env : Env) (p : ProposalMessage) : Prop :=
  checkFreshCertificate p.tip = .ok () ∧ p.wellFormedProposal env.net.crypto = .ok ()

/-- A fresh block of the leader with valid certificates; its rounds have to fit. -/
theorem fresh_checked_iff (env : Env) (inputs body : Bytes) (keys : env.node.KeysOf env.net.crypto)
    (looked : em.getEpoch request.round = some request.epoch) {validators : ValidatorSet} {mapping : ValidatorMapping}
    (known : env.net.valEpochMap request.epoch = some (validators, mapping))
    (leads : env.node.nodeid = env.net.getLeader request.round validators.validators)
    (qc : QcChecked env.net em request.highQc)
    (fresh : FreshChecked (.exact env.net em) request.freshProposalCertificate)
    (last : ∀ tc, request.lastRoundTc = some tc → CertChecked (.exact env.net em) (.tc tc) ∧
      request.round = tc.round + 1) :
    ProposalChecked env.net em (.exact env.net em) (env.newProposalMessage (request.answer inputs body)) ↔
      RoundsFit env (env.newProposalMessage (request.answer inputs body)) := by
  have author : checkTipAuthor env.net (env.newProposalMessage (request.answer inputs body)).tip
      (env.net.getLeader request.round validators.validators) = .ok () := by
    simp [checkTipAuthor, newProposalMessage, keys.tip, leads]
  have leader : epochToValidators env.net em request.epoch request.round =
      .ok (validators, mapping, env.net.getLeader request.round validators.validators) :=
    epochToValidators_eq_ok.mpr ⟨looked, known, rfl⟩
  constructor
  · rintro ⟨-, ⟨v, -, -, -, -, check⟩, wellFormed, -⟩
    exact ⟨check, wellFormed⟩
  · rintro ⟨check, wellFormed⟩
    refine ⟨fun tc isTc => ?_, ⟨_, leader, author, qc, fresh, check⟩, wellFormed, verifyEpoch_eq_ok.mpr looked⟩
    obtain ⟨valid, previous⟩ := last tc isTc
    exact ⟨valid, checkPreviousRound_eq_ok.mpr previous⟩

variable {tc : TimeoutCertificate}

/-- On the QC of a timeout certificate whose tip was not endorsed. -/
theorem fresh_fits_of_nec {nec : NoEndorsementCertificate} (round : request.round = tc.round + 1)
    (necRound : nec.msg.round = request.round) (isQc : request.highQc = tc.highExtend.getQc)
    (fresh : request.freshProposalCertificate = some (.nec nec)) (last : request.lastRoundTc = some tc) :
    RoundsFit env (env.newProposalMessage (request.answer inputs body)) ↔
      tc.highExtend.getQc.getRound ≠ tc.round ∧ nec.msg.tipQcRound = tc.highExtend.getQc.getRound := by
  by_cases consecutive : tc.highExtend.getQc.getRound = tc.round
  · simp [RoundsFit, checkFreshCertificate, newProposalMessage, ProposalRequest.answer, round, fresh, isQc, consecutive]
  · by_cases sameRound : nec.msg.tipQcRound = tc.highExtend.getQc.getRound
    · have := Ne.symm consecutive
      cases isExtend : tc.highExtend <;>
        simp_all [RoundsFit, checkFreshCertificate, ProposalMessage.wellFormedProposal, newProposalMessage,
          ProposalRequest.answer, HighExtend.getQc]
    · simp [RoundsFit, checkFreshCertificate, newProposalMessage, ProposalRequest.answer, round, fresh, isQc, necRound,
        Ne.symm consecutive, sameRound]

end Fresh

section Timeout

variable {env : Env} {em : EpochManager} {s : ConsensusState}

def ConsensusState.ownTimeout (env : Env) (s : ConsensusState) : TimeoutMessage :=
  env.newTimeoutMessage (s.pacemaker.timeoutInfo s.safety) (s.pacemaker.highExtend s.safety)
    (s.pacemaker.lastRoundCertificate s.safety)

theorem ownTimeout_checked_iff (env : Env) (keys : env.node.KeysOf env.net.crypto)
    (valid : CertChecked (.exact env.net em) s.pacemaker.highCertificate) :
    TimeoutChecked env.net em (.exact env.net em) (s.ownTimeout env) ↔
      em.getEpoch s.getCurrentRound = some s.getCurrentEpoch ∧ ∀ tip, s.safety.maybeHighTip = some tip →
        tip.blockHeader.qc.getRound < tip.blockHeader.blockRound ∧ TipChecked env.net em (.exact env.net em) tip := by
  have extend : (s.ownTimeout env).highExtend.toHighExtend = s.pacemaker.highExtend s.safety := by
    unfold ownTimeout newTimeoutMessage
    cases s.pacemaker.highExtend s.safety <;> rfl
  have signature : validateSignature env.net.crypto (s.ownTimeout env).timeoutSignature = .ok () := by
    simp [validateSignature, ownTimeout, newTimeoutMessage, keys.cert]
  have last : ∀ c, (s.ownTimeout env).lastRoundCertificate = some c → CertChecked (.exact env.net em) c ∧
      checkPreviousRound (s.ownTimeout env).tminfo.round c.round = .ok () := by
    intro c isLast
    simp only [ownTimeout, newTimeoutMessage, Pacemaker.lastRoundCertificate] at isLast
    split_ifs at isLast
    obtain rfl := some.inj isLast
    exact ⟨valid, checkPreviousRound_eq_ok.mpr rfl⟩
  have wellFormed : (s.ownTimeout env).wellFormedTimeout = .ok () := by
    have sameQc : (s.ownTimeout env).highExtend.getQc = (s.pacemaker.highExtend s.safety).getQc := by
      rw [← HighExtendVote.getQc_toHighExtend, extend]
    simp only [TimeoutMessage.wellFormedTimeout, sameQc]
    simp only [ownTimeout, newTimeoutMessage, Pacemaker.timeoutInfo, Pacemaker.lastRoundCertificate]
    by_cases consecutive : s.pacemaker.getCurrentRound = (s.pacemaker.highExtend s.safety).getQc.getRound + 1
    · simp [consecutive]
    · simp [consecutive, Ne.symm consecutive]
  have epoch : verifyEpoch em (s.ownTimeout env).tminfo.epoch (s.ownTimeout env).tminfo.round = .ok () ↔
      em.getEpoch s.getCurrentRound = some s.getCurrentEpoch := verifyEpoch_eq_ok
  cases high : s.safety.maybeHighTip with
  | none =>
    have isQc : s.pacemaker.highExtend s.safety = .qc s.pacemaker.highCertificate.getQc := by
      simp [Pacemaker.highExtend, high]
    have reported : (s.ownTimeout env).checkReportedRounds = .ok () := by
      simp [TimeoutMessage.checkReportedRounds, ownTimeout, newTimeoutMessage, Pacemaker.timeoutInfo,
        isQc, HighExtend.getQc]
    have extended : ExtendChecked env.net em (.exact env.net em) (s.ownTimeout env).highExtend.toHighExtend := by
      rw [extend, isQc]
      exact qcChecked_of_certChecked valid
    simp only [TimeoutChecked, signature, extended, reported, wellFormed, epoch, true_and, reduceCtorEq, false_implies,
      implies_true, and_true]
    exact and_iff_right last
  | some tip =>
    have isTip : s.pacemaker.highExtend s.safety = .tip tip := by simp [Pacemaker.highExtend, high]
    have reported : (s.ownTimeout env).checkReportedRounds = .ok () ↔
        tip.blockHeader.qc.getRound < tip.blockHeader.blockRound := by
      simp [TimeoutMessage.checkReportedRounds, ownTimeout, newTimeoutMessage, Pacemaker.timeoutInfo,
        isTip, HighExtend.getQc]
    have extended : ExtendChecked env.net em (.exact env.net em) (s.ownTimeout env).highExtend.toHighExtend ↔
        TipChecked env.net em (.exact env.net em) tip := by
      rw [extend, isTip, ExtendChecked]
    simp only [TimeoutChecked, signature, extended, reported, wellFormed, epoch, true_and, some.injEq,
      forall_eq']
    constructor
    · rintro ⟨-, tipValid, above, current⟩
      exact ⟨current, above, tipValid⟩
    · rintro ⟨current, above, tipValid⟩
      exact ⟨last, tipValid, above, current⟩

end Timeout

/-! ## Every message of a run -/

section Reachable

variable {net : Network} {node : Node} {em : EpochManager} {root : RootInfo} {highCertificate : RoundCertificate}
  {history : List Replica.Handled} {r : Replica} {s s' : ConsensusState}

/-- The tips of accepted proposals were checked. -/
def Evidence.acceptedProposals (net : Network) : Evidence :=
  { Evidence.wellFormed (fun _ => True) with proposal := fun p => ∃ em, TipChecked net em (.someSchedule net) p.tip }

/-- A state that a replica can be in, also in the middle of a handler. -/
def ConsensusState.Reachable (net : Network) (node : Node) (em : EpochManager) (root : RootInfo)
    (highCertificate : RoundCertificate) (s : ConsensusState) : Prop :=
  ∃ s₀ labels, ConsensusState.new em root highCertificate = some s₀ ∧
    Trace (Step (.acceptedProposals net) net node) s₀ labels s

theorem ConsensusState.Reachable.supported (reachable : s.Reachable net node em root highCertificate) :
    Supported (.acceptedProposals net) net.crypto s := by
  obtain ⟨s₀, labels, started, trace⟩ := reachable
  refine supported_of_trace trace (supported_new started ?_)
  cases highCertificate <;> trivial

theorem Replica.RunFrom.acceptedSteps (run : Replica.RunFrom net node em root highCertificate history r) :
    ∃ s₀ labels, ConsensusState.new em root highCertificate = some s₀ ∧
      Trace (Step (.acceptedProposals net) net node) s₀ labels r.consensus ∧ Replica.Explains labels history := by
  have sound := someSchedule_sound net
  refine (run.guarded.simulates (Evidence.wellFormed_closed_with net _) sound ?_ ?_).2
  · cases highCertificate <;> trivial
  · intro past h r _ _ cached _
    refine Evidence.wellFormed_event_with ?_ (fun _ _ _ => trivial) fun _ _ _ _ _ _ _ _ _ _ _ _ _ _ => trivial
    intro m author cache p _ accepted isProposal
    have checked := ((verifyAndValidate_cached (m := m) (sound r.consensus.epochManager) cached).2 author
      (by rw [accepted])).2
    rw [isProposal] at checked
    exact ⟨_, checked.2.1⟩

variable {c : ConsensusCommand} {m : ProtocolMessage} {now : Surroundings}

/-- The four ways in which a step sends a proposal, a recovery request or a timeout. -/
theorem Step.sends_cases {K : Evidence} {l : Label} (taken : Step K net node s l s')
    (mem : c ∈ l.commands) (sends : c.Sends ⟨net, node, now⟩ m) :
    (∃ tc tip, s.pacemaker.highCertificate = .tc tc ∧ s.noEndorsementState.getNec s.getCurrentRound = none ∧
      tc.highExtend = .tip tip ∧ l.action.schedule s = s.epochManager ∧
      ((∃ block, s.pendingBlockTree.getBlock (net.crypto.getId tip.blockHeader) = some block ∧
          m = .proposal ⟨tc.round + 1, s.getCurrentEpoch, tip, block.body, some tc⟩) ∨
        m = .roundRecovery ⟨tc.round + 1, s.getCurrentEpoch, tc⟩)) ∨
    (∃ (request : ProposalRequest) (inputs body : Bytes) (validators : ValidatorSet) (mapping : ValidatorMapping),
      m = .proposal (newProposalMessage ⟨net, node, now⟩ (request.answer inputs body)) ∧
      request.round = s.getCurrentRound ∧
      s.proposalBasis = (.qc request.highQc, request.freshProposalCertificate, request.lastRoundTc) ∧
      (l.action.schedule s).getEpoch s.getCurrentRound = some request.epoch ∧
      net.valEpochMap request.epoch = some (validators, mapping) ∧
      node.nodeid = net.getLeader s.getCurrentRound validators.validators) ∨
    (m = .timeout (s.ownTimeout ⟨net, node, now⟩) ∧ l.action.schedule s = s.epochManager) := by
  have emission := taken.emission mem
  generalize l.action = action at emission ⊢
  have round : ∀ {tc}, s.pacemaker.highCertificate = .tc tc → s.getCurrentRound = tc.round + 1 := by
    intro tc isTc
    simp [getCurrentRound, Pacemaker.getCurrentRound, isTc]
  cases emission with
  | recovery basis =>
    obtain ⟨_, isTc, noNec, isTip, ⟨⟩⟩ := proposalBasis_eq_tip basis
    exact .inl ⟨_, _, isTc, noNec, isTip, rfl, .inr (round isTc ▸ sends.1.symm)⟩
  | proposal basis found =>
    obtain ⟨tc, isTc, noNec, isTip, rfl⟩ := proposalBasis_eq_tip basis
    exact .inl ⟨tc, _, isTc, noNec, isTip, rfl, .inl ⟨_, found, round isTc ▸ sends.1.symm⟩⟩
  | create basis looked known leads inEpoch round =>
    obtain ⟨inputs, body, isProposal⟩ := sends
    exact .inr (.inl ⟨_, inputs, body, _, _, isProposal, round, basis, looked, known, leads⟩)
  | timeout => exact .inr (.inr ⟨sends.1.symm, rfl⟩)
  | mute mute => cases c <;> first | exact absurd mute id | cases sends
  | advance isAdvance left carries =>
    obtain ⟨target, rfl⟩ | ⟨-, epoch, -, rfl⟩ := carries
    · obtain ⟨rfl, isRound⟩ := sends
      rw [isAdvance] at isRound
      cases isRound
    · cases sends
  | vote | noEndorse =>
    obtain ⟨rfl, isRound⟩ := sends
    cases isRound

/-- Under the schedule that the sender used, a message with valid certificates passes the checks exactly when its
parts fit together. -/
theorem ConsensusState.Reachable.checked_iff (reachable : s.Reachable net node em root highCertificate)
    (injective : Function.Injective net.crypto.getId) (keys : node.KeysOf net.crypto) {l : Label}
    (taken : Step (.acceptedProposals net) net node s l s') (mem : c ∈ l.commands)
    (sends : c.Sends ⟨net, node, now⟩ m) {em' : EpochManager}
    (same : ∀ round, em'.getEpoch round = (l.action.schedule s).getEpoch round) (valid : s.CertificatesValid net em') :
    MessageChecked net em' (.exact net em') m ↔ s.Acceptable m := by
  have supported := reachable.supported
  have certificate : CertChecked (.exact net em') s.pacemaker.highCertificate :=
    ((verifyRoundCertificate_checks exact_bounds _).accepts_iff (cached_empty _)).mp valid.certificate
  have necValid : ∀ nec, s.noEndorsementState.getNec s.getCurrentRound = some nec → NecChecked net em' nec :=
    fun nec isNec => ((verifyNec_checks exact_bounds nec).accepts_iff (cached_empty _)).mp
      (valid.nec nec isNec)
  obtain ⟨tc, tip, isTc, noNec, isTip, schedule, sent⟩ | ⟨request, inputs, body, validators, mapping, rfl, round, basis,
    looked, known, leads⟩ | ⟨rfl, schedule⟩ := taken.sends_cases mem sends
  · -- a reproposal or a recovery request
    rw [isTc] at certificate
    have currentRound : s.getCurrentRound = tc.round + 1 := by
      simp [getCurrentRound, Pacemaker.getCurrentRound, isTc]
    have epoch : em'.getEpoch (tc.round + 1) = some s.getCurrentEpoch ↔ s.EpochCurrent := by
      rw [same, schedule, ← currentRound, ConsensusState.EpochCurrent]
    obtain ⟨block, found, rfl⟩ | rfl := sent
    · -- the block that is found under the tip's id has the tip's header
      obtain ⟨entry, stored, rfl⟩ := map_eq_some_iff.mp found
      have sameHeader := injective (supported.keyed _ _ stored)
      have sameBody : tip.blockHeader.blockBodyId = net.crypto.getBodyId entry.validatedBlock.body :=
        sameHeader ▸ supported.bodies stored
      simp only [MessageChecked, reproposal_checked_iff certificate isTip sameBody, epoch, ConsensusState.Acceptable,
        isTc, noNec, isTip]
    · simp only [MessageChecked, recovery_checked_iff certificate isTip, epoch, ConsensusState.Acceptable]
  · -- a fresh block
    rw [← round, ← same] at looked
    rw [← round] at leads
    have currentRound : request.round = s.pacemaker.highCertificate.round + 1 := round
    obtain ⟨isQc, noFresh, noTc⟩ | ⟨tc, isTc, sameQc, isLast, fresh⟩ := proposalBasis_eq_qc basis
    · rw [isQc] at certificate currentRound
      have checked := fresh_checked_iff ⟨net, node, now⟩ inputs body keys looked known leads certificate
        (by rw [noFresh]; trivial) (by simp [noTc])
      refine checked.trans (iff_of_true ?_ (by simp [Acceptable, isQc]))
      simp [RoundsFit, checkFreshCertificate, ProposalMessage.wellFormedProposal, newProposalMessage,
        ProposalRequest.answer, QuorumCertificate.getRound, currentRound, noFresh, noTc]
    · rw [isTc] at certificate currentRound
      have last : ∀ tc', request.lastRoundTc = some tc' →
          CertChecked (.exact net em') (.tc tc') ∧ request.round = tc'.round + 1 := by
        rw [isLast]
        rintro _ ⟨⟩
        exact ⟨certificate, currentRound⟩
      have checked (valid : FreshChecked (.exact net em') request.freshProposalCertificate) :=
        fresh_checked_iff ⟨net, node, now⟩ inputs body keys looked known leads
          (sameQc ▸ qcChecked_of_certChecked certificate) valid last
      obtain ⟨nec, isNec, isFresh⟩ | ⟨noNec, isQc, isFresh⟩ := fresh
      · have necRound := (supported.necs isNec).trans round.symm
        refine (checked (isFresh ▸ necValid nec isNec)).trans
          ((fresh_fits_of_nec currentRound necRound sameQc isFresh isLast).trans ?_)
        simp only [Acceptable, isTc, isNec]
      · have older := TcChecked.qcRound_lt certificate isQc
        have sameTc :
            NoTipCertificate.toTimeoutCertificate ⟨tc.epoch, tc.round, tc.tipRounds, request.highQc⟩ = tc := by
          rw [NoTipCertificate.toTimeoutCertificate, ← isQc]
        have noTipValid : FreshChecked (.exact net em') request.freshProposalCertificate := by
          rw [isFresh]
          exact (congrArg (exact net em').tc sameTc).mpr certificate
        refine (checked noTipValid).trans (iff_of_true ?_ (by simp [Acceptable, isTc, noNec, isQc]))
        simp [RoundsFit, checkFreshCertificate, ProposalMessage.wellFormedProposal, newProposalMessage,
          ProposalRequest.answer, currentRound, isFresh, isLast, isQc, older.ne']
  · -- a timeout
    have epoch : em'.getEpoch s.getCurrentRound = some s.getCurrentEpoch ↔ s.EpochCurrent := by
      rw [same, schedule, ConsensusState.EpochCurrent]
    have tips : ∀ tip, s.safety.maybeHighTip = some tip →
        (TipChecked net em' (.exact net em') tip ↔ tip.EpochsMatch s.epochManager) := by
      intro tip high
      obtain ⟨p, ⟨_, accepted⟩, rfl⟩ := supported.highTip high
      rw [tipChecked_iff_epochsMatch accepted]
      simp only [ConsensusTip.EpochsMatch, same, schedule]
    simp only [MessageChecked, ownTimeout_checked_iff ⟨net, node, now⟩ keys certificate, epoch,
      ConsensusState.Acceptable]
    refine and_congr_right fun _ => forall₂_congr fun tip high => ?_
    rw [tips tip high]

/-- Every command of a run comes from a step in a reachable state. What it sends while the certificates of that state
are valid is accepted under the schedule the sender used, whatever valid certificates are cached, exactly when
`Acceptable` holds in that state. -/
theorem emitted_accepted_iff (injective : Function.Injective net.crypto.getId) (keys : node.KeysOf net.crypto) :
    (∀ {history r h c}, Replica.RunFrom net node em root highCertificate history r → h ∈ history → c ∈ h.commands →
      ∃ s l s', ConsensusState.Reachable net node em root highCertificate s ∧
        Step (.acceptedProposals net) net node s l s' ∧ l.event = h.event ∧ c ∈ l.commands) ∧
    ∀ {s l s' c now m em' cache}, ConsensusState.Reachable net node em root highCertificate s →
      Step (.acceptedProposals net) net node s l s' → c ∈ l.commands → c.Sends ⟨net, node, now⟩ m →
      (∀ round, em'.getEpoch round = (l.action.schedule s).getEpoch round) → s.CertificatesValid net em' →
      (exact net em').Cached cache →
      ((((ConsensusMessage.mk net.version m).validate net em').runCheck cache).1 = .ok () ↔ s.Acceptable m) := by
  constructor
  · intro history r h c run mem emits
    obtain ⟨s₀, labels, started, trace, explains⟩ := run.acceptedSteps
    obtain ⟨l, known, sameEvent, carries⟩ := explains.step mem emits
    obtain ⟨before, s, s', reaches, taken⟩ := trace.exists_of_mem known
    exact ⟨s, l, s', ⟨s₀, before, started, reaches⟩, taken, sameEvent, carries⟩
  · intro s l s' c now m em' cache reachable taken mem sends same valid cached
    rw [(ConsensusMessage.validate_checks exact_bounds _).accepts_iff cached,
      ← reachable.checked_iff injective keys taken mem sends same valid]
    exact and_iff_right rfl

end Reachable

section Examples

open FourValidators

/-- The leader enters round two with a timeout certificate; the proposal that it makes of it is accepted. -/
theorem emitted_accepted_iff_proposal : ∃ p : ProposalMessage, p.proposalRound = 2 ∧ p.lastRoundTc = some tc₁ ∧
    (((ConsensusMessage.mk net.version (.proposal p)).validate net epochManager).runCheck .empty).1 = .ok () := by
  obtain ⟨s, s', request, entered, proposed, valid, isTc, noNec, round, lastRoundTc⟩ : ∃ s s' request,
      Step (.acceptedProposals net) net (node 3) genesisReplica.consensus ⟨.timeout 1, .advance (.tc tc₁), _⟩ s ∧
      Step (.acceptedProposals net) net (node 3) s
        ⟨.timeout 1, .proposeFresh epochManager crypto.genesisQc (noTip tc₁) (some tc₁), [.createProposal request]⟩ s' ∧
      s.CertificatesValid net epochManager ∧ s.pacemaker.highCertificate = .tc tc₁ ∧
      s.noEndorsementState.getNec s.getCurrentRound = none ∧ request.round = 2 ∧ request.lastRoundTc = some tc₁ :=
    ⟨_, _, _, .advance now trivial (by decide) rfl, .proposeFresh now rfl rfl rfl rfl (by decide) rfl,
      ⟨by decide +kernel, fun nec isNec => by cases isNec⟩, rfl, rfl, rfl, rfl⟩
  have reachable : s.Reachable net (node 3) epochManager genesisRoot (.qc crypto.genesisQc) :=
    ⟨_, _, rfl, .single entered⟩
  have accepted := (emitted_accepted_iff encodeHeader_injective ⟨fun _ => rfl, fun _ => rfl⟩).2 reachable
    proposed (.head _) (m := .proposal ((env 3).newProposalMessage (request.answer [] []))) ⟨[], [], rfl⟩
    (fun _ => rfl) valid (cached_empty _)
  refine ⟨_, round, lastRoundTc, accepted.mpr ?_⟩
  rw [ConsensusState.Acceptable, isTc, noNec]
  trivial

/-- A certificate of round two whose tip, of round three, is on a QC of round two. -/
def aheadTc₂ : TimeoutCertificate where
  epoch := 1
  round := 2
  tipRounds := [⟨0, 0, [0, 1]⟩, ⟨1, 3, [3]⟩]
  highExtend := .tip (tip (block 3 (qcFor 2 block₂) 2 0) none)

/-- The leader enters round three with `aheadTc₂` and gets the block of its tip from block sync. -/
def recoveredTip₃ : List ConsensusEvent :=
  [advanceRound (.tc aheadTc₂),
    .blockSync ⟨encodeHeader (block 3 (qcFor 2 block₂) 2 0).header, 1⟩ [block 3 (qcFor 2 block₂) 2 0],
    .blockSync ⟨encodeHeader block₂.header, 1⟩ [block₂]]

/-- A command that publishes a proposal which is not well formed. -/
def publishesMalformed : ConsensusCommand → Bool
  | .publish _ u =>
    match u.obj.message with
    | .proposal p => decide (((p.validate net epochManager).runCheck .empty).1 = .error .notWellFormed)
    | _ => false
  | _ => false

/-- The leader's certificate is valid, but the proposal it makes of it is rejected. -/
theorem emitted_not_accepted :
    ∃ history r target u p, Replica.RunFrom net (node 3) epochManager genesisRoot (.qc crypto.genesisQc) history r ∧
      r.consensus.CertificatesValid net epochManager ∧ .publish target u ∈ Replica.emitted history ∧
      u.obj.message = .proposal p ∧ ((p.validate net epochManager).runCheck .empty).1 = .error .notWellFormed := by
  obtain ⟨history, r, run, -, check⟩ := exists_run 3 recoveredTip₃
    (fun r history => decide
      (((verifyRoundCertificate net epochManager r.consensus.pacemaker.highCertificate).runCheck .empty).1 = .ok () ∧
        r.consensus.noEndorsementState.getNec r.consensus.getCurrentRound = none ∧
        (Replica.emitted history).any publishesMalformed = true))
    (by decide +kernel)
  obtain ⟨certificate, noNec, malformed⟩ := of_decide_eq_true check
  obtain ⟨c, emits, malformed⟩ := List.any_eq_true.mp malformed
  unfold publishesMalformed at malformed
  split at malformed
  case h_2 => cases malformed
  case h_1 target u =>
    split at malformed
    case h_2 => cases malformed
    case h_1 p isProposal =>
      exact ⟨history, r, target, u, p, run, ⟨certificate, by simp [noNec]⟩, emits, isProposal,
        of_decide_eq_true malformed⟩

end Examples

end MonadBft
