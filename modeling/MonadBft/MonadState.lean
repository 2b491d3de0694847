import MonadBft.Replica
import MonadBft.Statesync.BlockBuffer

/-! # A node that syncs and goes live

`MonadState` of `monad-state/src/lib.rs`. A node starts in sync mode: it collects the last
blocks up to its root, has the state below the root synced into the database, follows the
chain by moving its root, and goes live when both are there. A live node is a replica whose
commands are filtered by its role, and which writes a checkpoint when it enters a round or
finalizes a block.
-/

namespace MonadBft

/-! ## Checkpoints -/

structure LockedEpoch where
  epoch : Epoch
  round : Round
  deriving DecidableEq

structure Checkpoint where
  root : BlockId
  highCertificate : RoundCertificate
  validatorSets : List LockedEpoch
  deriving DecidableEq

namespace ConsensusState

/-- The validator set of the epoch is known and the epoch is scheduled. -/
def getLockedEpoch (net : Network) (s : ConsensusState) (epoch : Epoch) : Option LockedEpoch :=
  (net.valEpochMap epoch).bind fun _ => (s.epochManager.epochStarts.get? epoch).map fun round => { epoch, round }

/-- `none` is the `expect` on the epoch of the root. -/
def checkpoint (net : Network) (s : ConsensusState) : Option Checkpoint :=
  let baseEpoch := s.pendingBlockTree.root.epoch
  (s.getLockedEpoch net baseEpoch).map fun base => {
    root := s.pendingBlockTree.root.blockId
    highCertificate := s.pacemaker.highCertificate
    validatorSets := base :: (s.getLockedEpoch net (baseEpoch + 1)).toList }

end ConsensusState

/-! ## Commands and panics -/

inductive Command where
  /-- A command of a live replica. -/
  | consensus (command : ConsensusCommand)
  /-- `StateSyncEvent::RequestSync`, handed to the loopback executor. -/
  | requestStateSync (root : ConsensusBlockHeader) (highQc : QuorumCertificate)
  /-- Block sync for the block buffer. -/
  | requestBlocks (range : BlockRange)
  /-- `StateSyncCommand::RequestSync`, with the finalized header to sync to. -/
  | requestSync (target : Bytes)
  | startExecution
  | resetTxPool (lastDelayCommittedBlocks : List ConsensusFullBlock)
  | ledgerCommit (commit : OptimisticPolicyCommit)
  | notifyFinalized (seqNum : SeqNum)
  | checkpoint (rootSeqNum : SeqNum) (checkpoint : Checkpoint)
  deriving DecidableEq

/-- The assertions, `expect`s and `unreachable`s of `MonadState::update` and `maybe_start_consensus`. -/
inductive MonadPanic where
  /-- "Live -> RequestSync is an invalid state transition". -/
  | requestSyncLive
  /-- "DoneSync invoked while ConsensusState is live". -/
  | doneSyncLive
  /-- `assert_eq!(db_status, &DbSyncStatus::Started)`. -/
  | doneSyncNotStarted
  /-- `assert_eq!(n, target)`. -/
  | doneSyncTarget
  /-- The earliest and the latest finalized block when the database is synced. -/
  | doneSyncDatabase
  /-- "blocksync done, root block should be known". -/
  | rootUnknown
  /-- "tried to statesync backwards". -/
  | syncBackwards
  /-- "is DB state empty? use execution to populate genesis if so". -/
  | noExecutionResult
  /-- "always 1 execution result after first k-1 blocks for now". -/
  | executionResults
  /-- The database does not reach back to the state below the root. -/
  | earliestFinalized
  /-- "majority committed invalid block", or a timestamp out of range. -/
  | invalidCommittedBlock
  /-- "txpool should never emit proposal while not live!". -/
  | mempoolSync
  /-- A panic of the live replica. -/
  | consensus (reason : Panic)
  deriving DecidableEq

/-! ## The state -/

inductive DbSyncStatus where
  | waiting
  | started
  | done
  deriving DecidableEq

structure SyncMode where
  highCertificate : RoundCertificate
  blockBuffer : BlockBuffer
  dbStatus : DbSyncStatus
  /-- A new target has been picked and is on its way through the loopback executor. -/
  updatingTarget : Bool
  epochManager : EpochManager
  certificateCache : CertificateCache

inductive MonadState where
  | sync (s : SyncMode)
  | live (r : Replica)

def MonadState.live? : MonadState → Option Replica
  | sync _ => none
  | live r => some r

theorem MonadState.live?_eq_some {m : MonadState} {r : Replica} : m.live? = some r ↔ m = live r := by
  cases m <;> simp [live?]

/-- The finalized blocks that the database holds (`raw_read_earliest_finalized_block` and its counterpart). -/
structure Database where
  earliest : Option SeqNum
  latest : Option SeqNum

structure MonadEnv where
  env : Env
  database : Database
  executionDelay : SeqNum

/-- The block whose state a root of this number builds on. -/
def MonadEnv.stateRootSeqNum (m : MonadEnv) (rootSeqNum : SeqNum) : SeqNum :=
  max rootSeqNum m.executionDelay - m.executionDelay

inductive MonadEvent where
  | consensus (event : ConsensusEvent)
  | requestSync (root : ConsensusBlockHeader) (highQc : QuorumCertificate)
  | doneSync (n : SeqNum)
  | blockSync (fullBlocks : List ConsensusFullBlock)
  /-- A block from the transaction pool. -/
  | mempool (event : MempoolProposal)

/-! ## Live -/

/-- `filter_cmds`: a node outside of the validator set publishes nothing. -/
def ConsensusCommand.passesRole (isMember : Bool) : ConsensusCommand → Bool
  | .publish _ _ | .createProposal _ | .publishToFullNodes _ _ => isMember
  | _ => true

/-- A checkpoint is taken when a round is entered or a block is finalized. -/
def Command.takesCheckpoint : Command → Bool
  | .consensus (.enterRound _ _) => true
  | .consensus (.commitBlocks (.finalized _)) => true
  | _ => false

namespace Replica

variable (m : MonadEnv) (r : Replica)

/-- The commands of a live handler, filtered by the role of the node. -/
def filtered (call : ReplicaCall) : Outcome MonadPanic Replica Command :=
  match call with
  | .panic reason => .panic (.consensus reason)
  | .ok r commands =>
    match m.env.net.valEpochMap r.consensus.getCurrentEpoch with
    | none => .panic (.consensus .epochUnavailable)
    | some (validators, _) =>
      let isMember := validators.isMember m.env.node.nodeid
      .ok r ((commands.filter (ConsensusCommand.passesRole isMember)).map .consensus)

/-- `MonadState::update` for an event of live consensus. -/
def updateLive (event : ConsensusEvent) : Outcome MonadPanic Replica Command :=
  match filtered m (r.update m.env event) with
  | .panic reason => .panic reason
  | .ok r commands =>
    if commands.any Command.takesCheckpoint then
      match r.consensus.checkpoint m.env.net with
      | none => .panic (.consensus .epochUnavailable)
      | some checkpoint =>
        .ok r (commands ++ [.checkpoint r.consensus.pendingBlockTree.root.seqNum checkpoint])
    else .ok r commands

def handleValidatedProposals (r : Replica) : List (NodeId × ProposalMessage) → Outcome MonadPanic Replica Command
  | [] => .ok r []
  | (author, proposal) :: rest =>
    let call := (r.consensus.handleProposalMessage m.env author proposal).lift fun consensus => { r with consensus }
    (filtered m call).andThen fun r => handleValidatedProposals r rest

/-- Block sync from the high QC, if no cached proposal asked for it. -/
def requestBlocksIfMissingAncestor : Outcome MonadPanic Replica Command :=
  match r.consensus.requestBlocksIfMissingAncestor with
  | .panic reason => .panic (.consensus reason)
  | .ok consensus commands => .ok { r with consensus } (commands.map .consensus)

end Replica

/-! ## Sync -/

abbrev MonadCall := Outcome MonadPanic MonadState Command

def Database.covers (database : Database) (n : SeqNum) : Bool :=
  database.earliest.any (· ≤ n) && database.latest.any (n ≤ ·)

namespace SyncMode

variable (m : MonadEnv) (s : SyncMode)

/-- A committed block is validated again, and its timestamp has to fit into the seconds of execution. -/
def validCommitted (block : ConsensusFullBlock) : Bool :=
  block.getTimestamp / 1000000000 < 2 ^ 64 && m.env.now.validBlock block.header block.body

/-- The last part of `maybe_start_consensus`. The blocks are validated before `take`, so all of them are, unless none
is taken. -/
def goLive (root : RootInfo) : MonadCall :=
  let rootParentChain := s.blockBuffer.rootParentChain
  if m.executionDelay ≠ 0 ∧ rootParentChain.all (validCommitted m) = false then .panic .invalidCommittedBlock
  else
    let lastDelayCommittedBlocks := (rootParentChain.take m.executionDelay).reverse
    let commits := lastDelayCommittedBlocks.flatMap fun block =>
      [.ledgerCommit (.proposed block), .ledgerCommit (.finalized block), .notifyFinalized block.getSeqNum]
    match ConsensusState.new s.epochManager root s.highCertificate with
    | none => .panic (.consensus .epochUnavailable)
    | some consensus =>
      let replica : Replica := { consensus, certificateCache := s.certificateCache }
      let started : Outcome MonadPanic Replica Command :=
        .ok replica (.resetTxPool lastDelayCommittedBlocks :: commits ++ [.startExecution])
      (started.andThen fun r =>
        (r.updateLive m (.timeout consensus.getCurrentRound)).andThen fun r =>
        (r.handleValidatedProposals m s.blockBuffer.proposalBuffer).andThen fun r =>
        r.requestBlocksIfMissingAncestor).lift .live

/-- `StateSyncEvent::DoneSync`. After it `maybe_start_consensus` finds the database done. -/
def doneSync (n : SeqNum) : MonadCall :=
  if s.dbStatus ≠ .started then .panic .doneSyncNotStarted
  else match s.blockBuffer.rootSeqNum m.env.net.crypto with
    | none => .ok (.sync s) []
    | some rootSeqNum =>
      let target := m.stateRootSeqNum rootSeqNum
      if n < target then .ok (.sync s) []
      else if n ≠ target then .panic .doneSyncTarget
      else if m.database.covers n = false then .panic .doneSyncDatabase
      else
        let s := { s with dbStatus := .done }
        match s.blockBuffer.needsBlocksync with
        | some range => .ok (.sync s) [.requestBlocks range]
        | none =>
          match s.blockBuffer.rootInfo m.env.net.crypto with
          | none => .panic .rootUnknown
          | some root => s.goLive m root

/-- The database is behind the state below the root. -/
def needsStateSync (stateRootSeqNum : SeqNum) : Bool := m.database.latest.all (· < stateRootSeqNum)

def maybeStartConsensus : MonadCall :=
  match s.blockBuffer.needsBlocksync with
  | some range => .ok (.sync s) [.requestBlocks range]
  | none =>
    match s.blockBuffer.rootInfo m.env.net.crypto with
    | none => .panic .rootUnknown
    | some root =>
      match s.dbStatus with
      | .started => .ok (.sync s) []
      | .done => s.goLive m root
      | .waiting =>
        let s := { s with dbStatus := .started }
        let stateRootSeqNum := m.stateRootSeqNum root.seqNum
        if root.seqNum < m.database.latest.getD 0 then .panic .syncBackwards
        else if needsStateSync m stateRootSeqNum then
          match s.blockBuffer.rootDelayedExecutionResult with
          | none => .panic .noExecutionResult
          | some [target] => .ok (.sync s) [.requestSync target]
          | some _ => .panic .executionResults
        -- the database is not to be synced backwards
        else if m.database.earliest.any (· ≤ stateRootSeqNum) = false then .panic .earliestFinalized
        else s.doneSync m stateRootSeqNum

/-- A consensus event during sync: only valid proposals are looked at. -/
def updateSync : ConsensusEvent → MonadCall
  | .message message =>
    let (author, certificateCache) := verifyAndValidate m.env.net s.epochManager s.certificateCache message
    let s := { s with certificateCache }
    match author, message.obj.message with
    | some author, .proposal proposal =>
      let (blockBuffer, target) := s.blockBuffer.handleProposal m.env.net.crypto author proposal
      let s := { s with blockBuffer }
      match target with
      | none => .ok (.sync s) []
      | some (root, highQc) =>
        if s.updatingTarget then .ok (.sync s) []
        else .ok (.sync { s with updatingTarget := true }) [.requestStateSync root highQc]
    | _, _ => .ok (.sync s) []
  | _ => .ok (.sync s) []

variable {m s}

/-- A consensus event leaves the node in sync mode, and at most asks for a new target. -/
theorem updateSync_eq_ok {event : ConsensusEvent} {state : MonadState} {commands : List Command}
    (done : s.updateSync m event = .ok state commands) : ∃ s', state = .sync s' ∧
      s'.highCertificate = s.highCertificate ∧ ∀ c ∈ commands, ∃ root highQc, c = .requestStateSync root highQc := by
  unfold updateSync at done
  split at done
  · simp only at done
    split at done
    · split at done
      · cases done
        exact ⟨_, rfl, rfl, by simp⟩
      · split at done
        all_goals
          cases done
          exact ⟨_, rfl, rfl, by simp⟩
    · cases done
      exact ⟨_, rfl, rfl, by simp⟩
  · cases done
    exact ⟨s, rfl, rfl, by simp⟩

end SyncMode

namespace MonadState

/-- `MonadStateBuilder::build`, from the forkpoint that a checkpoint wrote. -/
def build (m : MonadEnv) (epochManager : EpochManager) (root : BlockId) (highCertificate : RoundCertificate)
    (statesyncToLiveThreshold : SeqNum) : MonadCall :=
  SyncMode.maybeStartConsensus m {
    highCertificate
    blockBuffer := .new m.executionDelay root statesyncToLiveThreshold
    dbStatus := .waiting
    updatingTarget := false
    epochManager
    certificateCache := .empty }

def update (m : MonadEnv) (state : MonadState) : MonadEvent → MonadCall
  | .consensus event =>
    match state with
    | .live r => (r.updateLive m event).lift .live
    | .sync s => s.updateSync m event
  | .requestSync root highQc =>
    match state with
    | .live _ => .panic .requestSyncLive
    | .sync s => SyncMode.maybeStartConsensus m { s with
        highCertificate := .qc highQc
        blockBuffer := s.blockBuffer.reRoot m.env.net.crypto root
        dbStatus := .waiting
        updatingTarget := false }
  | .doneSync n =>
    match state with
    | .live _ => .panic .doneSyncLive
    | .sync s => s.doneSync m n
  | .blockSync fullBlocks =>
    match state with
    | .live r => .ok (.live r) []
    | .sync s => SyncMode.maybeStartConsensus m { s with
        blockBuffer := fullBlocks.foldl (BlockBuffer.handleBlocksync m.env.net.crypto) s.blockBuffer }
  | .mempool event =>
    match state with
    | .live r => .ok (.live r) ((m.env.handleMempoolProposal event).map .consensus)
    | .sync _ => .panic .mempoolSync

end MonadState

end MonadBft
