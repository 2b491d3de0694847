import MonadBft.ConsensusState
import MonadBft.Validation.Messages

/-! # A live replica

`ConsensusChildState::update` of `monad-state/src/consensus.rs` in live mode: an incoming
message is verified and validated against the certificate cache, and dispatched to its
handler; timers and block-sync responses go to their handlers directly. A block from the
transaction pool is proposed without a look at the state.
-/

namespace MonadBft

structure Replica where
  consensus : ConsensusState
  certificateCache : CertificateCache

inductive ConsensusEvent where
  /-- A message from the network; `verify` does not look at the sender. -/
  | message (unverified : Unverified)
  /-- The local round timer. -/
  | timeout (round : Round)
  | blockSync (range : BlockRange) (fullBlocks : List ConsensusFullBlock)
  /-- The vote timer. -/
  | sendVote (round : Round)
  deriving DecidableEq

/-- `verify_and_validate_consensus_message`: the author of an accepted message, and the cache. -/
def verifyAndValidate (net : Network) (em : EpochManager) (cache : CertificateCache) (m : Unverified) :
    Option NodeId × CertificateCache :=
  match m.verify net em with
  | .error _ => (none, cache)
  | .ok author =>
    match (m.obj.validate net em).runCheck cache with
    | (.ok (), cache') => (some author, cache')
    | (.error _, cache') => (none, cache')

namespace ConsensusState

def handleMessage (env : Env) (s : ConsensusState) (author : NodeId) (m : Unverified) : Call :=
  match m.obj.message with
  | .proposal p =>
    -- a valid proposal is passed on to the full nodes
    (s.handleProposalMessage env author p).andThen fun s => .ok s [.publishToFullNodes p.proposalEpoch m]
  | .vote v => s.handleVoteMessage env author v
  | .timeout t => s.handleTimeoutMessage env author t
  | .roundRecovery r => s.handleRoundRecoveryMessage env author r
  | .noEndorsement n => s.handleNoEndorsementMessage env author n
  | .advanceRound a => s.handleAdvanceRoundMessage env a

end ConsensusState

/-! ## Fresh blocks -/

structure MempoolProposal where
  epoch : Epoch
  round : Round
  highQc : QuorumCertificate
  seqNum : SeqNum
  timestampNs : Nat
  roundSignature : Bytes
  delayedExecutionResults : List Bytes
  /-- The header and the body of `ProposedExecutionInputs`. -/
  executionInputs : Bytes
  executionBody : Bytes
  lastRoundTc : Option TimeoutCertificate
  freshProposalCertificate : Option FreshProposalCertificate

def ProposalRequest.answer (request : ProposalRequest) (executionInputs executionBody : Bytes) : MempoolProposal where
  epoch := request.epoch
  round := request.round
  highQc := request.highQc
  seqNum := request.seqNum
  timestampNs := request.timestampNs
  roundSignature := request.roundSignature
  delayedExecutionResults := request.delayedExecutionResults
  executionInputs
  executionBody
  lastRoundTc := request.lastRoundTc
  freshProposalCertificate := request.freshProposalCertificate

/-- The proposal that `handle_mempool_event` makes of it. -/
def Env.newProposalMessage (env : Env) (event : MempoolProposal) : ProposalMessage :=
  let blockHeader := {
    blockRound := event.round
    epoch := event.epoch
    qc := event.highQc
    author := env.node.nodeid
    seqNum := event.seqNum
    timestampNs := event.timestampNs
    roundSignature := event.roundSignature
    delayedExecutionResults := event.delayedExecutionResults
    executionInputs := event.executionInputs
    blockBodyId := env.net.crypto.getBodyId event.executionBody }
  { proposalRound := event.round
    proposalEpoch := event.epoch
    tip := {
      blockHeader
      signature := env.node.signTip blockHeader
      freshCertificate := event.freshProposalCertificate }
    blockBody := event.executionBody
    lastRoundTc := event.lastRoundTc }

def Env.handleMempoolProposal (env : Env) (event : MempoolProposal) : List ConsensusCommand :=
  [.publish (.raptorcast event.epoch) (env.sign (.proposal (env.newProposalMessage event)))]

abbrev ReplicaCall := Outcome Panic Replica ConsensusCommand

namespace Replica

def new (epochManager : EpochManager) (root : RootInfo) (highCertificate : RoundCertificate) : Option Replica :=
  (ConsensusState.new epochManager root highCertificate).map fun consensus =>
    { consensus, certificateCache := .empty }

def update (env : Env) (r : Replica) : ConsensusEvent → ReplicaCall
  | .message m =>
    match verifyAndValidate env.net r.consensus.epochManager r.certificateCache m with
    | (none, certificateCache) => .ok { r with certificateCache } []
    | (some author, certificateCache) =>
      (r.consensus.handleMessage env author m).lift fun consensus => { consensus, certificateCache }
  | .timeout round => (r.consensus.handleTimeoutExpiry env round).lift fun consensus => { r with consensus }
  | .blockSync range fullBlocks =>
    (r.consensus.handleBlockSync env range fullBlocks).lift fun consensus => { r with consensus }
  | .sendVote round => (r.consensus.handleVoteTimer env round).lift fun consensus => { r with consensus }

end Replica

end MonadBft
