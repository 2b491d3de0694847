import MonadBft.BlockTree
import MonadBft.Pacemaker

/-! # The environment and the commands of a replica

What a replica is configured with, what it reads from its surroundings while it handles
one event, and the commands it emits (`command.rs`).
-/

namespace MonadBft

structure ChainParams where
  txLimit : Nat
  proposalGasLimit : Nat
  proposalByteLimit : Nat
  votePace : Nat

/-- Keys and configuration of one replica. -/
structure Node where
  nodeid : NodeId
  /-- `ConsensusMessage::sign`. -/
  signMessage : ConsensusMessage → Bytes
  /-- A signature with the certificate key. -/
  certSign : SignedMessage → Bytes
  /-- `ConsensusTip::new` signs the block header. -/
  signTip : ConsensusBlockHeader → Bytes
  /-- `RoundSignature::new`. -/
  signRound : Round → Bytes
  delta : Nat
  chainParams : Round → ChainParams
  liveToStatesyncThreshold : SeqNum
  maxDeltaNs : Nat
  beneficiary : Bytes

/-- The source passes `delta` as the estimate of the local processing time too. -/
def Node.roundTimer (node : Node) : RoundTimer where
  delta := node.delta
  votePace := fun round => (node.chainParams round).votePace
  localProcessing := node.delta

/-- What a replica reads from outside while it handles an event: the clock, the state of execution, and
the verdict of the block validator. -/
structure Surroundings where
  localTimeNs : Nat
  execution : ExecutionCheck
  /-- `BlockValidator::validate`, up to the comparison of the body with the header. -/
  validBlock : ConsensusBlockHeader → Bytes → Bool
  /-- `BlockPolicy::get_expected_execution_results`. -/
  expectedExecutionResults : SeqNum → List ConsensusFullBlock → Option (List Bytes)

structure Env where
  net : Network
  node : Node
  now : Surroundings

namespace Env

variable (env : Env)

def getId (header : ConsensusBlockHeader) : BlockId := env.net.crypto.getId header

def votePace (round : Round) : Nat := (env.node.chainParams round).votePace

def getValidBlockTimestamp (prevBlockTs : Nat) : Nat :=
  if env.now.localTimeNs ≤ prevBlockTs then prevBlockTs + 1 else env.now.localTimeNs

/-- `BlockTimestamp::valid_block_timestamp` returns an adjustment. -/
def validBlockTimestamp (prevBlockTs currBlockTs voteDelayNs : Nat) (isReproposal : Bool) : Bool :=
  if isReproposal then prevBlockTs < currBlockTs && currBlockTs < env.now.localTimeNs
  else
    let maxDeltaNs := env.node.maxDeltaNs + voteDelayNs
    prevBlockTs < currBlockTs && env.now.localTimeNs - maxDeltaNs ≤ currBlockTs &&
      currBlockTs ≤ env.now.localTimeNs + maxDeltaNs

end Env

/-! ## Commands -/

inductive RouterTarget where
  | broadcast (epoch : Epoch)
  | raptorcast (epoch : Epoch)
  | pointToPoint (node : NodeId)
  deriving DecidableEq

/-- The fields of `ConsensusCommand::CreateProposal`. -/
structure ProposalRequest where
  epoch : Epoch
  round : Round
  seqNum : SeqNum
  highQc : QuorumCertificate
  roundSignature : Bytes
  lastRoundTc : Option TimeoutCertificate
  freshProposalCertificate : Option FreshProposalCertificate
  txLimit : Nat
  proposalGasLimit : Nat
  proposalByteLimit : Nat
  beneficiary : Bytes
  timestampNs : Nat
  extendingBlocks : List ConsensusFullBlock
  delayedExecutionResults : List Bytes
  deriving DecidableEq

inductive OptimisticPolicyCommit where
  | proposed (block : ConsensusFullBlock)
  | finalized (block : ConsensusFullBlock)
  deriving DecidableEq

inductive ConsensusCommand where
  | enterRound (epoch : Epoch) (round : Round)
  | publish (target : RouterTarget) (message : Unverified)
  | publishToFullNodes (epoch : Epoch) (message : Unverified)
  | schedule (round : Round) (duration : Nat)
  | scheduleReset
  | createProposal (request : ProposalRequest)
  | commitBlocks (commit : OptimisticPolicyCommit)
  | requestSync (range : BlockRange)
  | cancelSync (range : BlockRange)
  | scheduleVote (duration : Nat) (round : Round)
  deriving DecidableEq

namespace Env

variable (env : Env)

def sign (message : ProtocolMessage) : Unverified :=
  let obj := { version := env.net.version, message }
  { obj, authorSignature := env.node.signMessage obj }

def newVoteMessage (vote : Vote) : VoteMessage := { vote, sig := env.node.certSign (.vote vote) }

def newNoEndorsementMessage (msg : NoEndorsement) : NoEndorsementMessage :=
  { msg, signature := env.node.certSign (.noEndorsement msg) }

/-- `Timeout::new`: a timeout with a tip also carries a vote for the tip in the timed out round. -/
def newTimeoutMessage (timeout : TimeoutInfo) (highExtend : HighExtend)
    (lastRoundCertificate : Option RoundCertificate) : TimeoutMessage where
  tminfo := timeout
  timeoutSignature := env.node.certSign (.timeout timeout)
  highExtend :=
    match highExtend with
    | .qc qc => .qc qc
    | .tip tip => .tip tip <| env.node.certSign <| .vote
        { id := env.getId tip.blockHeader, epoch := timeout.epoch, round := timeout.round }
  lastRoundCertificate

def fromPacemakerCommand : PacemakerCommand → List ConsensusCommand
  | .enterRound epoch round highCertificate =>
    [.enterRound epoch round,
     .publishToFullNodes epoch (env.sign (.advanceRound { lastRoundCertificate := highCertificate }))]
  | .prepareTimeout timeout highExtend lastRoundCertificate =>
    [.publish (.broadcast timeout.epoch)
      (env.sign (.timeout (env.newTimeoutMessage timeout highExtend lastRoundCertificate)))]
  | .schedule round duration => [.schedule round duration]
  | .scheduleReset => [.scheduleReset]

end Env

end MonadBft
