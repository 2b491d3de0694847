import MonadBft.Validation.Certificates

/-! # Validation of messages

`Unverified::verify`, which recovers the author of a message, and the `validate`
functions of the six protocol messages (`signing.rs`).
-/

namespace MonadBft

variable (net : Network) (em : EpochManager)

/-- `verify_epoch` of every message: the local epoch of `round` is `epoch`. -/
def verifyEpoch (epoch : Epoch) (round : Round) : Except ValidationError Unit :=
  match em.getEpoch round with
  | some e => if epoch = e then .ok () else .error .invalidEpoch
  | none => .error .invalidEpoch

def validateSignature (crypto : Crypto) (sig : Bytes) : Except ValidationError Unit :=
  if crypto.sigValidate sig then .ok () else .error .invalidSignature

/-- A certificate that a message carries must be from the round before the message's. -/
def checkPreviousRound (round certificateRound : Round) : Except ValidationError Unit :=
  if round ≠ certificateRound + 1 then .error .notWellFormed else .ok ()

/-- `Unverified::verify`: the author of the message, a validator of the message's epoch. -/
def Unverified.verify (m : Unverified) : Except ValidationError NodeId :=
  match em.getEpoch m.obj.getRound with
  | none => .error .invalidEpoch
  | some epoch =>
    match net.valEpochMap epoch with
    | none => .error .validatorSetDataUnavailable
    | some (validators, _) =>
      match net.crypto.messageAuthor m.obj m.authorSignature with
      | none => .error .invalidSignature
      | some author => if validators.isMember author then .ok author else .error .invalidAuthor

namespace ProposalMessage

/-- The tip and the last round's TC of a proposal fit together. -/
def wellFormedProposal (crypto : Crypto) (p : ProposalMessage) : Except ValidationError Unit :=
  if p.tip.blockHeader.blockBodyId ≠ crypto.getBodyId p.blockBody then .error .notWellFormed
  else if p.proposalRound = p.tip.blockHeader.qc.getRound + 1 then
    -- consecutive QC
    if p.lastRoundTc.isSome then .error .notWellFormed else .ok ()
  else match p.lastRoundTc with
    | none => .error .notWellFormed
    | some tc =>
      match tc.highExtend with
      | .qc tcQc =>
        if tcQc.getRound ≠ p.tip.blockHeader.qc.getRound then .error .notWellFormed else .ok ()
      | .tip tcTip =>
        if tcTip = p.tip then .ok ()
        else if p.proposalRound ≠ p.tip.blockHeader.blockRound then .error .notWellFormed
        else if tcTip.blockHeader.qc.getRound ≠ p.tip.blockHeader.qc.getRound then .error .notWellFormed
        else .ok ()

/-- `last_round_tc`, if present, is a valid TC of the previous round. -/
def validateLastRoundTc (p : ProposalMessage) : Verify Unit :=
  match p.lastRoundTc with
  | none => pure ()
  | some tc => do
    verifyTc net em tc
    ofExcept (checkPreviousRound p.proposalRound tc.round)

def validate (p : ProposalMessage) : Verify Unit := do
  p.validateLastRoundTc net em
  verifyTip net em p.tip
  ofExcept (p.wellFormedProposal net.crypto)
  ofExcept (verifyEpoch em p.proposalEpoch p.proposalRound)

end ProposalMessage

/-- The vote signature itself is only checked when votes are aggregated. -/
def VoteMessage.validate (m : VoteMessage) : Verify Unit := do
  ofExcept (validateSignature net.crypto m.sig)
  ofExcept (verifyEpoch em m.vote.epoch m.vote.round)

namespace TimeoutMessage

/-- `last_round_certificate`, if present, is a valid certificate of the previous round. -/
def validateLastRoundCertificate (m : TimeoutMessage) : Verify Unit :=
  match m.lastRoundCertificate with
  | none => pure ()
  | some cert => do
    verifyRoundCertificate net em cert
    ofExcept (checkPreviousRound m.tminfo.round cert.round)

/-- The reported rounds are those of the high extend. -/
def checkReportedRounds (m : TimeoutMessage) : Except ValidationError Unit :=
  match m.highExtend with
  | .qc qc =>
    if m.tminfo.highTipRound ≠ genesisRound then .error .notWellFormed
    else if m.tminfo.highQcRound ≠ qc.getRound then .error .notWellFormed
    else .ok ()
  | .tip tip _ =>
    if m.tminfo.highTipRound ≠ tip.blockHeader.blockRound then .error .notWellFormed
    else if tip.blockHeader.blockRound ≤ m.tminfo.highQcRound then .error .notWellFormed
    else .ok ()

/-- The timeout carries a certificate of the previous round. -/
def wellFormedTimeout (m : TimeoutMessage) : Except ValidationError Unit :=
  if m.tminfo.round = m.highExtend.getQc.getRound + 1 then
    if m.lastRoundCertificate.isSome then .error .notWellFormed else .ok ()
  else if m.lastRoundCertificate.isNone then .error .notWellFormed
  else .ok ()

def validate (m : TimeoutMessage) : Verify Unit := do
  ofExcept (validateSignature net.crypto m.timeoutSignature)
  m.validateLastRoundCertificate net em
  verifyHighExtend net em m.highExtend.toHighExtend
  ofExcept m.checkReportedRounds
  ofExcept m.wellFormedTimeout
  ofExcept (verifyEpoch em m.tminfo.epoch m.tminfo.round)

end TimeoutMessage

namespace RoundRecoveryMessage

def wellFormedRoundRecovery (m : RoundRecoveryMessage) : Except ValidationError Unit :=
  if m.round ≠ m.tc.round + 1 then .error .invalidTcRound
  else match m.tc.highExtend with
    | .qc _ => .error .notWellFormed
    | .tip _ => .ok ()

def validate (m : RoundRecoveryMessage) : Verify Unit := do
  verifyTc net em m.tc
  ofExcept m.wellFormedRoundRecovery
  ofExcept (verifyEpoch em m.epoch m.round)

end RoundRecoveryMessage

def NoEndorsementMessage.validate (m : NoEndorsementMessage) : Verify Unit :=
  ofExcept (verifyEpoch em m.msg.epoch m.msg.round)

def AdvanceRoundMessage.validate (m : AdvanceRoundMessage) : Verify Unit :=
  verifyRoundCertificate net em m.lastRoundCertificate

def ConsensusMessage.validate (m : ConsensusMessage) : Verify Unit :=
  if m.version ≠ net.version then throw .invalidVersion
  else match m.message with
    | .proposal p => p.validate net em
    | .vote v => v.validate net em
    | .timeout t => t.validate net em
    | .roundRecovery r => r.validate net em
    | .noEndorsement n => n.validate em
    | .advanceRound a => a.validate net em

end MonadBft
