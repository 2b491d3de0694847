import MonadBft.Validation.Messages

/-! # What an accepted certificate or message satisfies

The checks of the verifiers as propositions. A verifier consults a cache, so what it
ensures is stated for a pair of bounds on certificates: `U` on what it is to accept, `V` on
what an accepted or cached certificate satisfies. With both equal to `CertPreds.exact` the
checks are equivalent to the verifiers; with `U` empty the lemmas say what acceptance
implies, also when the cache was filled under an older epoch schedule.
-/

namespace MonadBft

open CachedCheck (Checks)

/-- A property of each kind of cached certificate. -/
structure CertPreds where
  qc : QuorumCertificate → Prop
  nec : NoEndorsementCertificate → Prop
  tc : TimeoutCertificate → Prop

structure CertPreds.Cached (V : CertPreds) (cache : CertificateCache) : Prop where
  qc : ∀ {c}, c ∈ cache.qcLru → V.qc c
  nec : ∀ {c}, c ∈ cache.necLru → V.nec c
  tc : ∀ {c}, c ∈ cache.tcLru → V.tc c

theorem CertPreds.cached_empty (V : CertPreds) : V.Cached .empty where
  qc := by simp [CertificateCache.empty]
  nec := by simp [CertificateCache.empty]
  tc := by simp [CertificateCache.empty]

section Checks

variable (net : Network) (em : EpochManager)

def QcChecked (qc : QuorumCertificate) : Prop :=
  ∃ v, epochToValidators net em qc.getEpoch qc.getRound = .ok v ∧
    if qc.getRound = genesisRound then qc = net.crypto.genesisQc
    else ∃ signers, net.crypto.sctVerify v.2.1 (.vote qc.info) qc.signatures = some signers ∧
      v.1.hasSuperMajorityVotes signers = .ok true

def NecChecked (nec : NoEndorsementCertificate) : Prop :=
  ∃ v, epochToValidators net em nec.msg.epoch nec.msg.round = .ok v ∧
    ∃ signers, net.crypto.sctVerify v.2.1 (.noEndorsement nec.msg) nec.signatures = some signers ∧
      v.1.hasSuperMajorityVotes signers = .ok true

variable (V : CertPreds)

def FreshChecked : Option FreshProposalCertificate → Prop
  | some (.nec nec) => V.nec nec
  | some (.noTip noTip) => V.tc noTip.toTimeoutCertificate
  | none => True

def TipChecked (tip : ConsensusTip) : Prop :=
  ∃ v, epochToValidators net em tip.blockHeader.epoch tip.blockHeader.blockRound = .ok v ∧
    checkTipAuthor net tip v.2.2 = .ok () ∧ V.qc tip.blockHeader.qc ∧ FreshChecked V tip.freshCertificate ∧
    checkFreshCertificate tip = .ok ()

def ExtendChecked : HighExtend → Prop
  | .qc qc => V.qc qc
  | .tip tip => TipChecked net em V tip

def TcChecked (tc : TimeoutCertificate) : Prop :=
  ∃ v, epochToValidators net em tc.epoch tc.round = .ok v ∧
    ∃ seen, verifyTipRounds net v.2.1 tc {} tc.tipRounds = .ok seen ∧
      v.1.hasSuperMajorityVotes seen.nodeIds = .ok true ∧ ExtendChecked net em V tc.highExtend ∧
      checkHighExtend tc.highExtend seen = .ok ()

def CertChecked : RoundCertificate → Prop
  | .qc qc => V.qc qc
  | .tc tc => V.tc tc

end Checks

/-- Whatever satisfies `U` passes the checks, and whatever passes them satisfies `V`. -/
structure CertPreds.Bounds (U V : CertPreds) (net : Network) (em : EpochManager) : Prop where
  qcComplete : ∀ {qc}, U.qc qc → QcChecked net em qc
  qcSound : ∀ {qc}, QcChecked net em qc → V.qc qc
  necComplete : ∀ {nec}, U.nec nec → NecChecked net em nec
  necSound : ∀ {nec}, NecChecked net em nec → V.nec nec
  tcComplete : ∀ {tc}, U.tc tc → TcChecked net em U tc
  tcSound : ∀ {tc}, TcChecked net em V tc → V.tc tc

section Verifiers

variable {net : Network} {em : EpochManager} {U V : CertPreds}

variable {validators : ValidatorSet} {mapping : ValidatorMapping} {msg : SignedMessage} {tc : TimeoutCertificate}

theorem checkSuperMajority_eq_ok {nodeIds : List NodeId} :
    checkSuperMajority validators nodeIds = .ok () ↔ validators.hasSuperMajorityVotes nodeIds = .ok true := by
  unfold checkSuperMajority
  split <;> simp_all

theorem signersOf_eq_ok {sigs : Bytes} {signers : List NodeId} :
    signersOf net mapping msg sigs = .ok signers ↔ net.crypto.sctVerify mapping msg sigs = some signers := by
  unfold signersOf
  split <;> simp_all

/-- The signatures and the stake behind them, then storing what they are for. -/
theorem signed_checks {sigs : Bytes} {put : CertificateCache → CertificateCache}
    (keeps : (∃ signers, net.crypto.sctVerify mapping msg sigs = some signers ∧
      validators.hasSuperMajorityVotes signers = .ok true) → ∀ cache, V.Cached cache → V.Cached (put cache)) :
    Checks V.Cached
      (do
        let nodeIds ← ofExcept (signersOf net mapping msg sigs)
        ofExcept (checkSuperMajority validators nodeIds)
        modify put : Verify Unit)
      (fun _ => ∃ signers, net.crypto.sctVerify mapping msg sigs = some signers ∧
        validators.hasSuperMajorityVotes signers = .ok true)
      (fun _ => ∃ signers, net.crypto.sctVerify mapping msg sigs = some signers ∧
        validators.hasSuperMajorityVotes signers = .ok true) := by
  refine (Checks.bind (Checks.ofExcept _) fun signers verified =>
    Checks.bind (Checks.ofExcept _) fun _ enough => Checks.store (keeps ?_)).mono ?_ ?_
  · exact ⟨signers, signersOf_eq_ok.mp verified, checkSuperMajority_eq_ok.mp enough⟩
  · rintro _ ⟨signers, verified, enough⟩
    exact ⟨signers, signersOf_eq_ok.mpr verified, (), checkSuperMajority_eq_ok.mpr enough, trivial⟩
  · rintro _ ⟨signers, verified, _, enough, -⟩
    exact ⟨signers, signersOf_eq_ok.mp verified, checkSuperMajority_eq_ok.mp enough⟩

variable (bounds : U.Bounds V net em)

include bounds

theorem verifyQc_checks (qc : QuorumCertificate) :
    Checks V.Cached (verifyQc net em qc) (fun _ => U.qc qc) (fun _ => V.qc qc) := by
  have body : ∀ v : ValidatorSet × ValidatorMapping × NodeId,
      epochToValidators net em qc.getEpoch qc.getRound = .ok v →
      let signed := if qc.getRound = genesisRound then qc = net.crypto.genesisQc
        else ∃ signers, net.crypto.sctVerify v.2.1 (.vote qc.info) qc.signatures = some signers ∧
          v.1.hasSuperMajorityVotes signers = .ok true
      Checks V.Cached
        (if qc.getRound = genesisRound then
          if qc ≠ net.crypto.genesisQc then throw .invalidSignature else pure ()
        else do
          let nodeIds ← ofExcept (signersOf net v.2.1 (.vote qc.info) qc.signatures)
          ofExcept (checkSuperMajority v.1 nodeIds)
          modify (·.cacheValidatedQc qc) : Verify Unit)
        (fun _ => signed) (fun _ => signed) := by
    intro v known
    by_cases genesis : qc.getRound = genesisRound
    · simp only [if_pos genesis]
      exact (Checks.require (c := qc ≠ net.crypto.genesisQc)).mono (fun _ same differs => differs same)
        fun _ same => not_not.mp same
    · simp only [if_neg genesis]
      refine signed_checks fun signed cache cached => ⟨fun mem => (CertificateCache.mem_put mem).elim
        (· ▸ bounds.qcSound ⟨v, known, ?_⟩) cached.qc, cached.nec, cached.tc⟩
      rwa [if_neg genesis]
  refine Checks.lookup (fun cache cached hit => cached.qc (by simpa [CertificateCache.qcIsCachedValidated]
    using hit)) ?_
  refine (Checks.bind (Checks.ofExcept _) body).mono (fun _ valid => ?_) (fun _ accepted => ?_)
  · exact bounds.qcComplete valid
  · exact bounds.qcSound accepted

theorem verifyNec_checks (nec : NoEndorsementCertificate) :
    Checks V.Cached (verifyNec net em nec) (fun _ => U.nec nec) (fun _ => V.nec nec) := by
  refine Checks.lookup
    (fun cache cached hit => cached.nec (by simpa [CertificateCache.necIsCachedValidated] using hit)) ?_
  refine (Checks.bind (Checks.ofExcept _) fun v known => signed_checks fun signed => ?_).mono (fun _ valid => ?_)
    (fun _ accepted => ?_)
  · exact fun cache cached => ⟨cached.qc, fun mem => (CertificateCache.mem_put mem).elim
      (· ▸ bounds.necSound ⟨v, known, signed⟩) cached.nec, cached.tc⟩
  · exact bounds.necComplete valid
  · exact bounds.necSound accepted

/-- `verify_tc`, for any check of the high extend. -/
theorem verifyTcWith_checks {verifyExtend : HighExtend → Verify Unit}
    (extend : Checks V.Cached (verifyExtend tc.highExtend) (fun _ => ExtendChecked net em U tc.highExtend)
      (fun _ => ExtendChecked net em V tc.highExtend)) :
    Checks V.Cached (verifyTcWith net em verifyExtend tc) (fun _ => U.tc tc) (fun _ => V.tc tc) := by
  refine Checks.lookup
    (fun cache cached hit => cached.tc (by simpa [CertificateCache.tcIsCachedValidated] using hit)) ?_
  refine (Checks.bind (Checks.ofExcept _) fun v known => Checks.bind (Checks.ofExcept _) fun seen rounds =>
    Checks.bind (Checks.ofExcept _) fun _ enough => Checks.bind extend fun _ extended =>
    Checks.bind (Checks.ofExcept _) fun _ high => Checks.store ?_).mono (fun _ valid => ?_) ?_
  · have enough := checkSuperMajority_eq_ok.mp enough
    exact fun cache cached => ⟨cached.qc, cached.nec, fun mem => (CertificateCache.mem_put mem).elim
      (· ▸ bounds.tcSound ⟨v, known, seen, rounds, enough, extended, high⟩) cached.tc⟩
  · obtain ⟨v, known, seen, rounds, enough, extended, high⟩ := bounds.tcComplete valid
    exact ⟨v, known, seen, rounds, (), checkSuperMajority_eq_ok.mpr enough, (), extended, (), high, trivial⟩
  · rintro _ ⟨v, known, seen, rounds, _, enough, _, extended, _, high, -⟩
    exact bounds.tcSound ⟨v, known, seen, rounds, checkSuperMajority_eq_ok.mp enough, extended, high⟩

theorem verifyFreshCertificate_checks (fresh : Option FreshProposalCertificate) :
    Checks V.Cached (verifyFreshCertificate net em fresh) (fun _ => FreshChecked U fresh)
      (fun _ => FreshChecked V fresh) := by
  rcases fresh with _ | nec | noTip
  · exact Checks.accept
  · exact verifyNec_checks bounds nec
  · have qc := verifyQc_checks bounds noTip.highQc
    rw [verifyFreshCertificate, verifyNoTip]
    apply verifyTcWith_checks bounds
    exact qc

theorem verifyTip_checks (tip : ConsensusTip) :
    Checks V.Cached (verifyTip net em tip) (fun _ => TipChecked net em U tip) (fun _ => TipChecked net em V tip) := by
  refine (Checks.bind (Checks.ofExcept _) fun v known => Checks.bind (Checks.ofExcept _) fun _ author =>
    Checks.bind (verifyQc_checks bounds _) fun _ qc => Checks.bind (verifyFreshCertificate_checks bounds _)
      fun _ fresh =>
    Checks.ofExcept _).mono ?_ ?_
  · rintro _ ⟨v, known, author, qc, fresh, check⟩
    exact ⟨v, known, (), author, (), qc, (), fresh, check⟩
  · rintro _ ⟨v, known, _, author, _, qc, _, fresh, check⟩
    exact ⟨v, known, author, qc, fresh, check⟩

theorem verifyHighExtend_checks (highExtend : HighExtend) :
    Checks V.Cached (verifyHighExtend net em highExtend) (fun _ => ExtendChecked net em U highExtend)
      (fun _ => ExtendChecked net em V highExtend) := by
  cases highExtend with
  | tip tip => exact verifyTip_checks bounds tip
  | qc qc => exact verifyQc_checks bounds qc

theorem verifyTc_checks (tc : TimeoutCertificate) :
    Checks V.Cached (verifyTc net em tc) (fun _ => U.tc tc) (fun _ => V.tc tc) :=
  verifyTcWith_checks bounds (verifyHighExtend_checks bounds tc.highExtend)

theorem verifyRoundCertificate_checks (certificate : RoundCertificate) :
    Checks V.Cached (verifyRoundCertificate net em certificate) (fun _ => CertChecked U certificate)
      (fun _ => CertChecked V certificate) := by
  cases certificate with
  | qc qc => exact verifyQc_checks bounds qc
  | tc tc => exact verifyTc_checks bounds tc

end Verifiers

/-! ## Messages -/

section Messages

variable (net : Network) (em : EpochManager) (V : CertPreds)

def ProposalChecked (p : ProposalMessage) : Prop :=
  (∀ tc, p.lastRoundTc = some tc → V.tc tc ∧ checkPreviousRound p.proposalRound tc.round = .ok ()) ∧
    TipChecked net em V p.tip ∧
    p.wellFormedProposal net.crypto = .ok () ∧ verifyEpoch em p.proposalEpoch p.proposalRound = .ok ()

def TimeoutChecked (m : TimeoutMessage) : Prop :=
  validateSignature net.crypto m.timeoutSignature = .ok () ∧
    (∀ c, m.lastRoundCertificate = some c → CertChecked V c ∧ checkPreviousRound m.tminfo.round c.round = .ok ()) ∧
    ExtendChecked net em V m.highExtend.toHighExtend ∧ m.checkReportedRounds = .ok () ∧ m.wellFormedTimeout = .ok () ∧
    verifyEpoch em m.tminfo.epoch m.tminfo.round = .ok ()

def RecoveryChecked (m : RoundRecoveryMessage) : Prop :=
  V.tc m.tc ∧ m.wellFormedRoundRecovery = .ok () ∧ verifyEpoch em m.epoch m.round = .ok ()

def MessageChecked : ProtocolMessage → Prop
  | .proposal p => ProposalChecked net em V p
  | .vote v => validateSignature net.crypto v.sig = .ok () ∧ verifyEpoch em v.vote.epoch v.vote.round = .ok ()
  | .timeout t => TimeoutChecked net em V t
  | .roundRecovery r => RecoveryChecked em V r
  | .noEndorsement n => verifyEpoch em n.msg.epoch n.msg.round = .ok ()
  | .advanceRound a => CertChecked V a.lastRoundCertificate

variable {net em V} {U : CertPreds}

theorem verifyEpoch_eq_ok {epoch : Epoch} {round : Round} :
    verifyEpoch em epoch round = .ok () ↔ em.getEpoch round = some epoch := by
  unfold verifyEpoch
  cases em.getEpoch round with
  | none => simp
  | some e => simp [eq_comm]

theorem checkPreviousRound_eq_ok {round certificateRound : Round} :
    checkPreviousRound round certificateRound = .ok () ↔ round = certificateRound + 1 := by
  unfold checkPreviousRound
  split <;> simp_all

variable (bounds : U.Bounds V net em)

include bounds

theorem ProposalMessage.validateLastRoundTc_checks (p : ProposalMessage) :
    Checks V.Cached (p.validateLastRoundTc net em)
      (fun _ => ∀ tc, p.lastRoundTc = some tc → U.tc tc ∧ checkPreviousRound p.proposalRound tc.round = .ok ())
      (fun _ => ∀ tc, p.lastRoundTc = some tc → V.tc tc ∧ checkPreviousRound p.proposalRound tc.round = .ok ()) := by
  unfold validateLastRoundTc
  cases p.lastRoundTc with
  | none => exact Checks.accept.mono (fun _ _ => trivial) fun _ _ => by simp
  | some tc =>
    refine ((verifyTc_checks bounds tc).seq fun _ => Checks.ofExcept_unit _).mono (fun _ h => h tc rfl) ?_
    rintro _ checked _ ⟨⟩
    exact checked

theorem TimeoutMessage.validateLastRoundCertificate_checks (m : TimeoutMessage) :
    Checks V.Cached (m.validateLastRoundCertificate net em)
      (fun _ => ∀ c, m.lastRoundCertificate = some c →
        CertChecked U c ∧ checkPreviousRound m.tminfo.round c.round = .ok ())
      (fun _ => ∀ c, m.lastRoundCertificate = some c →
        CertChecked V c ∧ checkPreviousRound m.tminfo.round c.round = .ok ()) := by
  unfold validateLastRoundCertificate
  cases m.lastRoundCertificate with
  | none => exact Checks.accept.mono (fun _ _ => trivial) fun _ _ => by simp
  | some c =>
    refine ((verifyRoundCertificate_checks bounds c).seq fun _ => Checks.ofExcept_unit _).mono (fun _ h => h c rfl) ?_
    rintro _ checked _ ⟨⟩
    exact checked

theorem ProposalMessage.validate_checks (p : ProposalMessage) :
    Checks V.Cached (p.validate net em) (fun _ => ProposalChecked net em U p) (fun _ => ProposalChecked net em V p) :=
  (p.validateLastRoundTc_checks bounds).seq fun _ => (verifyTip_checks bounds p.tip).seq fun _ =>
    (Checks.ofExcept_unit _).seq fun _ => Checks.ofExcept_unit _

theorem TimeoutMessage.validate_checks (m : TimeoutMessage) :
    Checks V.Cached (m.validate net em) (fun _ => TimeoutChecked net em U m) (fun _ => TimeoutChecked net em V m) :=
  (Checks.ofExcept_unit _).seq fun _ => (m.validateLastRoundCertificate_checks bounds).seq fun _ =>
    (verifyHighExtend_checks bounds _).seq fun _ => (Checks.ofExcept_unit _).seq fun _ =>
    (Checks.ofExcept_unit _).seq fun _ => Checks.ofExcept_unit _

theorem RoundRecoveryMessage.validate_checks (m : RoundRecoveryMessage) :
    Checks V.Cached (m.validate net em) (fun _ => RecoveryChecked em U m) (fun _ => RecoveryChecked em V m) :=
  (verifyTc_checks bounds m.tc).seq fun _ => (Checks.ofExcept_unit _).seq fun _ => Checks.ofExcept_unit _

omit bounds

theorem VoteMessage.validate_checks (v : VoteMessage) :
    Checks V.Cached (v.validate net em) (fun _ => MessageChecked net em U (.vote v))
      (fun _ => MessageChecked net em V (.vote v)) :=
  (Checks.ofExcept_unit _).seq fun _ => Checks.ofExcept_unit _

theorem ConsensusMessage.validate_checks (bounds : U.Bounds V net em) (m : ConsensusMessage) :
    Checks V.Cached (m.validate net em) (fun _ => m.version = net.version ∧ MessageChecked net em U m.message)
      (fun _ => m.version = net.version ∧ MessageChecked net em V m.message) := by
  obtain ⟨version, message⟩ := m
  unfold ConsensusMessage.validate
  by_cases current : version = net.version
  · rw [if_neg (not_not.mpr current)]
    refine Checks.mono (C := fun _ => MessageChecked net em U message) (S := fun _ => MessageChecked net em V message)
      ?_ (fun _ h => h.2) fun _ h => ⟨current, h⟩
    cases message with
    | proposal p => exact p.validate_checks bounds
    | vote v => exact v.validate_checks
    | timeout t => exact t.validate_checks bounds
    | roundRecovery r => exact r.validate_checks bounds
    | noEndorsement n => exact Checks.ofExcept_unit _
    | advanceRound a => exact verifyRoundCertificate_checks bounds _
  · rw [if_pos current]
    exact (Checks.throw _).mono (fun _ h => current h.1) fun _ h => h.elim

end Messages

/-! ## The exact bounds -/

section Exact

variable (net : Network) (em : EpochManager)

/-- Certificates that pass the checks from an empty cache. The tip that a timeout certificate extends may carry a
timeout certificate itself, but that one extends a QC. -/
def CertPreds.exact : CertPreds where
  qc := QcChecked net em
  nec := NecChecked net em
  tc := TcChecked net em ⟨QcChecked net em, NecChecked net em,
    TcChecked net em ⟨QcChecked net em, NecChecked net em, fun _ => False⟩⟩

variable {net em}

variable {tc : TimeoutCertificate}

theorem TcChecked.congr_of_qc {V W : CertPreds} {qc : QuorumCertificate} (isQc : tc.highExtend = .qc qc)
    (same : V.qc = W.qc) : TcChecked net em V tc ↔ TcChecked net em W tc := by
  simp only [TcChecked, isQc, ExtendChecked, same]

theorem TcChecked.congr_of_noTip {V W : CertPreds} (qc : V.qc = W.qc) (nec : V.nec = W.nec)
    (inner : ∀ noTip : NoTipCertificate, V.tc noTip.toTimeoutCertificate ↔ W.tc noTip.toTimeoutCertificate) :
    TcChecked net em V tc ↔ TcChecked net em W tc := by
  have extend : ∀ highExtend, ExtendChecked net em V highExtend ↔ ExtendChecked net em W highExtend := by
    intro highExtend
    cases highExtend with
    | qc => simp only [ExtendChecked, qc]
    | tip tip =>
      have fresh : FreshChecked V tip.freshCertificate ↔ FreshChecked W tip.freshCertificate := by
        rcases tip.freshCertificate with _ | nec' | noTip
        · exact Iff.rfl
        · simp only [FreshChecked, nec]
        · exact inner noTip
      simp only [ExtendChecked, TipChecked, qc, fresh]
  simp only [TcChecked, extend]

theorem CertPreds.exact_bounds : (CertPreds.exact net em).Bounds (CertPreds.exact net em) net em := by
  have tc : ∀ tc, (CertPreds.exact net em).tc tc ↔ TcChecked net em (CertPreds.exact net em) tc := fun tc =>
    TcChecked.congr_of_noTip rfl rfl fun noTip => (TcChecked.congr_of_qc (rfl : _ = HighExtend.qc noTip.highQc) rfl)
  exact ⟨id, id, id, id, fun {c} => (tc c).mp, fun {c} => (tc c).mpr⟩

end Exact

/-! ## Verdicts from a shared cache -/

inductive VerifyCall where
  | qc (qc : QuorumCertificate)
  | tc (tc : TimeoutCertificate)
  | tip (tip : ConsensusTip)
  | highExtend (highExtend : HighExtend)
  | nec (nec : NoEndorsementCertificate)

def VerifyCall.verify (net : Network) (em : EpochManager) : VerifyCall → Verify Unit
  | .qc c => verifyQc net em c
  | .tc c => verifyTc net em c
  | .tip t => verifyTip net em t
  | .highExtend he => verifyHighExtend net em he
  | .nec c => verifyNec net em c

/-- One condition decides a call, whatever valid certificates the cache holds. -/
theorem VerifyCall.verify_checks (net : Network) (em : EpochManager) (call : VerifyCall) :
    ∃ P : Prop, Checks (CertPreds.exact net em).Cached (call.verify net em) (fun _ => P) (fun _ => P) := by
  have bounds : (CertPreds.exact net em).Bounds (CertPreds.exact net em) net em := CertPreds.exact_bounds
  cases call with
  | qc c => exact ⟨_, verifyQc_checks bounds c⟩
  | tc c => exact ⟨_, verifyTc_checks bounds c⟩
  | tip t => exact ⟨_, verifyTip_checks bounds t⟩
  | highExtend he => exact ⟨_, verifyHighExtend_checks bounds he⟩
  | nec c => exact ⟨_, verifyNec_checks bounds c⟩

/-- Calls that share a cache, empty at first, get the verdicts they get from an empty cache. -/
theorem verify_verdicts_eq (net : Network) (em : EpochManager) (calls : List VerifyCall) :
    CachedCheck.verdicts (calls.map (·.verify net em)) .empty =
      calls.map fun call => ((call.verify net em).runCheck .empty).1.isOk := by
  have empty := (CertPreds.exact net em).cached_empty
  rw [CachedCheck.verdicts_eq (fun x mem => ?_) empty empty, List.map_map]
  · rfl
  · obtain ⟨call, -, rfl⟩ := List.mem_map.mp mem
    exact call.verify_checks net em

end MonadBft
