import Mathlib.Data.List.Basic

/-! # Certificates, tips and messages

The data model of `monad-types`, `monad-consensus-types` and
`monad-consensus/src/messages`. Rounds, epochs, sequence numbers and stakes are
natural numbers; hashes, signatures, signature collections and execution payloads
are opaque strings that only the functions of `Crypto` (in `Environment`)
interpret.
-/

namespace MonadBft

/-- An opaque encoded value (a hash, a signature, an execution payload). The
alphabet is unbounded, so that a collision-free hash is not a contradiction. -/
abbrev Bytes := List Nat

abbrev Round := Nat
abbrev Epoch := Nat
abbrev SeqNum := Nat
abbrev Stake := Nat

abbrev NodeId := Nat
abbrev BlockId := Bytes

def genesisRound : Round := 0
def genesisSeqNum : SeqNum := 0

/-- The all-zero hash. -/
def genesisBlockId : BlockId := List.replicate 32 0

/-! ## Votes and certificates -/

structure Vote where
  id : BlockId
  epoch : Epoch
  round : Round
  deriving DecidableEq

structure QuorumCertificate where
  info : Vote
  signatures : Bytes
  deriving DecidableEq

namespace QuorumCertificate

def getRound (qc : QuorumCertificate) : Round := qc.info.round
def getEpoch (qc : QuorumCertificate) : Epoch := qc.info.epoch
def getBlockId (qc : QuorumCertificate) : BlockId := qc.info.id

end QuorumCertificate

structure NoEndorsement where
  epoch : Epoch
  /-- The round this message was generated. -/
  round : Round
  tipQcRound : Round
  deriving DecidableEq

structure NoEndorsementCertificate where
  msg : NoEndorsement
  signatures : Bytes
  deriving DecidableEq

@[ext] structure TimeoutInfo where
  epoch : Epoch
  round : Round
  highQcRound : Round
  /-- Round of the highest voted tip, `genesisRound` when a QC is reported instead. -/
  highTipRound : Round
  deriving DecidableEq

structure HighTipRoundSigColTuple where
  highQcRound : Round
  highTipRound : Round
  sigs : Bytes
  deriving DecidableEq

/-- A timeout certificate whose high extend is a QC. -/
structure NoTipCertificate where
  epoch : Epoch
  round : Round
  tipRounds : List HighTipRoundSigColTuple
  highQc : QuorumCertificate
  deriving DecidableEq

inductive FreshProposalCertificate where
  | nec (nec : NoEndorsementCertificate)
  | noTip (noTip : NoTipCertificate)
  deriving DecidableEq

/-! ## Blocks and tips -/

structure ConsensusBlockHeader where
  /-- Round this block was first proposed in; a reproposal keeps it. -/
  blockRound : Round
  epoch : Epoch
  /-- Certificate of votes for the parent block. -/
  qc : QuorumCertificate
  author : NodeId
  seqNum : SeqNum
  timestampNs : Nat
  roundSignature : Bytes
  delayedExecutionResults : List Bytes
  executionInputs : Bytes
  blockBodyId : Bytes
  deriving DecidableEq

def ConsensusBlockHeader.getParentId (header : ConsensusBlockHeader) : BlockId :=
  header.qc.getBlockId

structure ConsensusFullBlock where
  header : ConsensusBlockHeader
  body : Bytes
  deriving DecidableEq

structure ConsensusTip where
  blockHeader : ConsensusBlockHeader
  /-- Signature over `blockHeader` of the leader of `blockHeader.blockRound`. -/
  signature : Bytes
  freshCertificate : Option FreshProposalCertificate
  deriving DecidableEq

inductive HighExtend where
  | tip (tip : ConsensusTip)
  | qc (qc : QuorumCertificate)
  deriving DecidableEq

def HighExtend.getQc : HighExtend → QuorumCertificate
  | .tip t => t.blockHeader.qc
  | .qc c => c

structure TimeoutCertificate where
  epoch : Epoch
  round : Round
  tipRounds : List HighTipRoundSigColTuple
  highExtend : HighExtend
  deriving DecidableEq

/-- The timeout certificate that `verify_tip` checks for a `NoTip` fresh certificate. -/
def NoTipCertificate.toTimeoutCertificate (noTip : NoTipCertificate) : TimeoutCertificate where
  epoch := noTip.epoch
  round := noTip.round
  tipRounds := noTip.tipRounds
  highExtend := .qc noTip.highQc

inductive RoundCertificate where
  | qc (qc : QuorumCertificate)
  | tc (tc : TimeoutCertificate)
  deriving DecidableEq

namespace RoundCertificate

def round : RoundCertificate → Round
  | .qc c => c.getRound
  | .tc c => c.round

def getTc : RoundCertificate → Option TimeoutCertificate
  | .qc _ => none
  | .tc c => some c

def getQc : RoundCertificate → QuorumCertificate
  | .qc c => c
  | .tc c => c.highExtend.getQc

@[simp] theorem round_qc (c : QuorumCertificate) : (RoundCertificate.qc c).round = c.info.round := rfl
@[simp] theorem round_tc (c : TimeoutCertificate) : (RoundCertificate.tc c).round = c.round := rfl
@[simp] theorem getQc_qc (c : QuorumCertificate) : (RoundCertificate.qc c).getQc = c := rfl
@[simp] theorem getQc_tc (c : TimeoutCertificate) : (RoundCertificate.tc c).getQc = c.highExtend.getQc := rfl
@[simp] theorem getTc_qc (c : QuorumCertificate) : (RoundCertificate.qc c).getTc = none := rfl
@[simp] theorem getTc_tc (c : TimeoutCertificate) : (RoundCertificate.tc c).getTc = some c := rfl

end RoundCertificate

/-! ## Protocol messages -/

structure ProposalMessage where
  proposalRound : Round
  proposalEpoch : Epoch
  tip : ConsensusTip
  blockBody : Bytes
  lastRoundTc : Option TimeoutCertificate
  deriving DecidableEq

structure VoteMessage where
  vote : Vote
  sig : Bytes
  deriving DecidableEq

/-- `HighExtend` of a timeout, where a tip carries a vote signature. -/
inductive HighExtendVote where
  | tip (tip : ConsensusTip) (voteSignature : Bytes)
  | qc (qc : QuorumCertificate)
  deriving DecidableEq

namespace HighExtendVote

def getQc : HighExtendVote → QuorumCertificate
  | .tip t _ => t.blockHeader.qc
  | .qc c => c

def toHighExtend : HighExtendVote → HighExtend
  | .tip t _ => .tip t
  | .qc c => .qc c

@[simp] theorem getQc_toHighExtend (he : HighExtendVote) : he.toHighExtend.getQc = he.getQc := by
  cases he <;> rfl

end HighExtendVote

/-- `Timeout`, and `TimeoutMessage` which wraps it. -/
structure TimeoutMessage where
  tminfo : TimeoutInfo
  timeoutSignature : Bytes
  highExtend : HighExtendVote
  /-- If the round of `highExtend.getQc` is not `tminfo.round - 1`, the TC or QC from that round. -/
  lastRoundCertificate : Option RoundCertificate
  deriving DecidableEq

structure RoundRecoveryMessage where
  round : Round
  epoch : Epoch
  tc : TimeoutCertificate
  deriving DecidableEq

structure NoEndorsementMessage where
  msg : NoEndorsement
  signature : Bytes
  deriving DecidableEq

structure AdvanceRoundMessage where
  lastRoundCertificate : RoundCertificate
  deriving DecidableEq

inductive ProtocolMessage where
  | proposal (m : ProposalMessage)
  | vote (m : VoteMessage)
  | timeout (m : TimeoutMessage)
  | roundRecovery (m : RoundRecoveryMessage)
  | noEndorsement (m : NoEndorsementMessage)
  | advanceRound (m : AdvanceRoundMessage)
  deriving DecidableEq

structure ConsensusMessage where
  version : Nat
  message : ProtocolMessage
  deriving DecidableEq

def ConsensusMessage.getRound (msg : ConsensusMessage) : Round :=
  match msg.message with
  | .proposal p => p.proposalRound
  | .vote v => v.vote.round
  | .timeout t => t.tminfo.round
  | .roundRecovery r => r.round
  | .noEndorsement n => n.msg.round
  | .advanceRound a => a.lastRoundCertificate.round

/-- A message with a signature that has not been checked. -/
structure Unverified where
  obj : ConsensusMessage
  authorSignature : Bytes
  deriving DecidableEq

/-- What a validator signs with its certificate key, one constructor per signing domain. -/
inductive SignedMessage where
  | vote (vote : Vote)
  | timeout (info : TimeoutInfo)
  | noEndorsement (msg : NoEndorsement)
  deriving DecidableEq

end MonadBft
