import MonadBft.Environment

/-! # The safety module

`validation/safety.rs`: the stateful checks that keep a replica from voting, proposing
or timing out inconsistently. An `assert!` of the source is an `Except.error` with the
reason that names it.
-/

namespace MonadBft

/-- The assertions, `expect`s and panics of the consensus code. -/
inductive Panic where
  /-- `assert!` in `Safety::vote`. -/
  | safetyVote
  /-- `assert!` in `Safety::timeout`. -/
  | safetyTimeout
  /-- `assert!` in `Safety::propose`. -/
  | safetyPropose
  /-- `assert!` in `Safety::no_endorse`. -/
  | safetyNoEndorse
  /-- `assert!` in `Safety::recovery_request`. -/
  | safetyRecoveryRequest
  /-- `assert!` in `Safety::handle_proposal`. -/
  | safetyHandleProposal
  /-- `assert_eq!(tm_info.round, self.get_current_round())`. -/
  | timeoutRound
  /-- `assert_eq!(self.phase, PhaseHonest::Zero)`. -/
  | phaseZero
  /-- "trying to schedule another vote in same round". -/
  | voteScheduled
  /-- `has_honest_vote` and `has_super_majority_votes` of unique addresses. -/
  | duplicateAddress
  /-- `unreachable!` for the other errors of `SignatureCollection::new`. -/
  | signatureCollection
  /-- An epoch or validator set that must be known. -/
  | epochUnavailable
  /-- "Conflicting epoch start round". -/
  | epochStart
  /-- The high QC is too far ahead of the root of the block tree. -/
  | statesyncThreshold
  /-- An `expect` or `assert!` of the block tree. -/
  | blockTree
  /-- A block that was just found in the block tree. -/
  | blockMissing
  /-- `assert!(round_state.certificate.is_none())`. -/
  | necExists
  /-- A loop that makes no progress. -/
  | diverges
  deriving DecidableEq

structure HighNoEndorse where
  round : Round
  tip : BlockId
  deriving DecidableEq

structure Safety where
  maybeHighTip : Option ConsensusTip
  /-- `maybeHighTip` is only kept while its block round is above this round. -/
  highCertificateQcRound : Round
  highestVote : Round
  highestNoEndorse : HighNoEndorse
  highestPropose : Round
  highestRecoveryRequest : Round
  handledProposals : SortedMap Round Unit

namespace Safety

def handledProposalCacheSize : Nat := 100

/-- A replica never votes, no-endorses or proposes in the round it starts in. -/
def new (highCertificate : RoundCertificate) (maybeHighTip : Option ConsensusTip) : Safety :=
  let currentRound := highCertificate.round + 1
  { maybeHighTip
    highCertificateQcRound := highCertificate.getQc.getRound
    highestVote := currentRound
    highestNoEndorse := { round := currentRound, tip := genesisBlockId }
    highestPropose := currentRound
    highestRecoveryRequest := currentRound
    handledProposals := .empty }

variable (s : Safety)

def processCertificate (certificate : RoundCertificate) : Safety :=
  let highCertificateQcRound :=
    if s.highCertificateQcRound < certificate.getQc.getRound then certificate.getQc.getRound
    else s.highCertificateQcRound
  { s with
    highCertificateQcRound
    maybeHighTip := s.maybeHighTip.filter (fun tip => highCertificateQcRound < tip.blockHeader.blockRound) }

variable (round : Round)

def isSafeToVote (lastRoundTcTip : Option BlockId) : Bool :=
  -- after a no-endorsement only proposals with the no-endorsed TC may be voted for
  if round = s.highestNoEndorse.round ∧ lastRoundTcTip ≠ some s.highestNoEndorse.tip then false
  else s.highestVote < round

def vote (lastRoundTcTip : Option BlockId) (tip : ConsensusTip) : Except Panic Safety :=
  if s.isSafeToVote round lastRoundTcTip then
    .ok { s with
      highestVote := round
      maybeHighTip := if s.highCertificateQcRound < tip.blockHeader.blockRound then some tip else none }
  else .error .safetyVote

def isSafeToNoEndorse : Bool := max s.highestNoEndorse.round s.highestVote < round

def noEndorse (tip : BlockId) : Except Panic Safety :=
  if s.isSafeToNoEndorse round then .ok { s with highestNoEndorse := { round, tip } }
  else .error .safetyNoEndorse

def timeout : Except Panic Safety :=
  if s.highestVote ≤ round then .ok { s with highestVote := round } else .error .safetyTimeout

def isSafeToPropose : Bool := max s.highestPropose s.highestVote < round

def propose : Except Panic Safety :=
  if s.isSafeToPropose round then .ok { s with highestPropose := round } else .error .safetyPropose

def isSafeToRecoveryRequest : Bool := s.highestRecoveryRequest < round

def recoveryRequest : Except Panic Safety :=
  if s.isSafeToRecoveryRequest round then .ok { s with highestRecoveryRequest := round }
  else .error .safetyRecoveryRequest

def isSafeToHandleProposal : Bool := !s.handledProposals.contains round

def handleProposal : Except Panic Safety :=
  if s.isSafeToHandleProposal round then
    .ok { s with handledProposals := (s.handledProposals.insert round ()).keepLast handledProposalCacheSize }
  else .error .safetyHandleProposal

end Safety

end MonadBft
