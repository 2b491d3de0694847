import MonadBft.Command
import MonadBft.VoteState

/-! # The consensus state machine

`monad-consensus-state/src/lib.rs`: the state of a live replica and the handlers of its
events. A handler returns the state after it with the commands it emitted, or the panic
that stopped it. Metrics and tracing are left out.
-/

namespace MonadBft

inductive OutgoingVoteStatus where
  | timerFired
  | voteReady (vote : Vote)
  deriving DecidableEq

structure BlockSyncRequestStatus where
  range : BlockRange
  /-- Once a block of this round or a later one is committed, the request is cancelled. -/
  cancelRound : Round

/-- `ConsensusState`, with the epoch manager that its wrapper borrows mutably. -/
structure ConsensusState where
  pendingBlockTree : BlockTree
  voteState : VoteState
  noEndorsementState : NoEndorsementState
  scheduledVote : Option OutgoingVoteStatus
  safety : Safety
  pacemaker : Pacemaker
  blockSyncRequests : AList (fun _ : BlockId => BlockSyncRequestStatus)
  epochManager : EpochManager

abbrev Call := Outcome Panic ConsensusState ConsensusCommand

namespace ConsensusState

/-- `none` if the epoch of the first round is not known. -/
def new (epochManager : EpochManager) (root : RootInfo) (highCertificate : RoundCertificate) :
    Option ConsensusState :=
  (Pacemaker.new epochManager highCertificate).map fun pacemaker =>
    { pendingBlockTree := .new root
      scheduledVote := none
      voteState := .new pacemaker.getCurrentRound
      noEndorsementState := .new pacemaker.getCurrentRound
      pacemaker
      safety := .new highCertificate none
      blockSyncRequests := ∅
      epochManager }

def futureVoteBound : Round := 10

variable (env : Env) (s : ConsensusState)

def getCurrentRound : Round := s.pacemaker.getCurrentRound
def getCurrentEpoch : Epoch := s.pacemaker.currentEpoch

/-- Validators of a round by the local epoch schedule. -/
def validatorsOf (round : Round) : Option (ValidatorSet × ValidatorMapping) :=
  (s.epochManager.getEpoch round).bind env.net.valEpochMap

def leaderOf (round : Round) : Option NodeId :=
  (s.validatorsOf env round).map fun (validators, _) => env.net.getLeader round validators.validators

/-- Run a pacemaker call and translate its commands. -/
def runPacemaker (call : Pacemaker.Call) : Call :=
  match call with
  | .panic e => .panic e
  | .ok (pacemaker, safety) commands =>
    .ok { s with pacemaker, safety } (commands.flatMap env.fromPacemakerCommand)

/-! ## Block sync requests -/

/-- Request a range unless a request for its last block is outstanding. -/
def requestRange (range : BlockRange) (cancelRound : Round) : Call :=
  if (s.blockSyncRequests.lookup range.lastBlockId).isSome then .ok s []
  else .ok { s with blockSyncRequests := s.blockSyncRequests.insert range.lastBlockId { range, cancelRound } }
    [.requestSync range]

def requestBlocksIfMissingAncestor : Call :=
  let highQc := s.pacemaker.highCertificate.getQc
  match s.pendingBlockTree.maybeFillPathToRoot highQc with
  | .error e => .panic e
  | .ok none => .ok s []
  | .ok (some range) =>
    if range.numBlocks = 0 then .panic .blockTree else s.requestRange range highQc.getRound

def requestTipIfMissing : Call :=
  match s.pacemaker.highCertificate with
  | .qc _ => .ok s []
  | .tc tc =>
    match tc.highExtend with
    | .qc _ => .ok s []
    | .tip tip =>
      let tipId := env.getId tip.blockHeader
      if (s.pendingBlockTree.getBlock tipId).isSome then .ok s []
      else s.requestRange { lastBlockId := tipId, numBlocks := 1 } tip.blockHeader.blockRound

/-- Cancel the requests that a commit made obsolete. -/
def cancelObsoleteRequests : Call :=
  let obsolete (status : BlockSyncRequestStatus) := status.cancelRound ≤ s.pendingBlockTree.root.round
  let toCancel := s.blockSyncRequests.entries.filter fun e => obsolete e.2
  .ok { s with blockSyncRequests := toCancel.foldl (fun requests e => requests.erase e.1) s.blockSyncRequests }
    (toCancel.map fun e => .cancelSync e.2.range)

/-! ## Committing and coherency -/

/-- Schedule the epochs whose boundary blocks are committed. -/
def scheduleEpochStarts (em : EpochManager) : List ConsensusFullBlock → Option EpochManager
  | [] => some em
  | block :: rest => (em.scheduleEpochStart block.getSeqNum block.getBlockRound).bind (scheduleEpochStarts · rest)

def tryCommit (qc : QuorumCertificate) : Call :=
  match s.pendingBlockTree.getBlock qc.getBlockId with
  | none => .ok s []
  | some qcParent =>
    match BlockTree.getCommittableId qc qcParent.header with
    | none => .ok s []
    | some committable =>
      if s.pendingBlockTree.isCoherent committable = false then .ok s []
      else match s.pendingBlockTree.prune env.net.crypto committable with
        | .error e => .panic e
        | .ok (blocksToCommit, pendingBlockTree) =>
          match scheduleEpochStarts s.epochManager blocksToCommit with
          | none => .panic .epochStart
          | some epochManager =>
            .ok { s with pendingBlockTree, epochManager }
              (blocksToCommit.map fun block => .commitBlocks (.finalized block))

def tryUpdateCoherency (updated : BlockId) : Call :=
  match s.pendingBlockTree.tryUpdateCoherency env.net.crypto env.now.execution updated with
  | .error e => .panic e
  | .ok (pendingBlockTree, newlyCoherent) =>
    let s := { s with pendingBlockTree }
    (Outcome.ok s (newlyCoherent.map fun block => .commitBlocks (.proposed block))).andThen fun s =>
      match s.pendingBlockTree.getHighCommittableQc with
      | .error e => .panic e
      | .ok none => .ok s []
      | .ok (some qc) => s.tryCommit env qc

/-- A replica too far behind has to restart and sync. -/
def maybeStatesync : Call :=
  match s.pendingBlockTree.getSeqNumOfQc s.pacemaker.highCertificate.getQc with
  | none => .ok s []
  | some highQcSeqNum =>
    if highQcSeqNum < s.pendingBlockTree.root.seqNum + env.node.liveToStatesyncThreshold then .ok s []
    else .panic .statesyncThreshold

/-! ## Proposing -/

/-- What the leader extends: the TC's tip or a QC, and the certificates a proposal on it carries. -/
def proposalBasis : HighExtend × Option FreshProposalCertificate × Option TimeoutCertificate :=
  match s.pacemaker.highCertificate with
  | .qc qc => (.qc qc, none, none)
  | .tc tc =>
    match s.noEndorsementState.getNec s.getCurrentRound with
    | some nec => (.qc tc.highExtend.getQc, some (.nec nec), some tc)
    | none =>
      match tc.highExtend with
      | .tip tip => (.tip tip, none, some tc)
      | .qc qc =>
        (.qc qc,
         some (.noTip { epoch := tc.epoch, round := tc.round, tipRounds := tc.tipRounds, highQc := qc }),
         some tc)

/-- The end of `try_propose` for a tip: ask for no-endorsements if the tip cannot be voted for, propose it
again otherwise. -/
def proposeTip (tip : ConsensusTip) (lastRoundTc : Option TimeoutCertificate) : Call :=
  let round := s.getCurrentRound
  let tipId := env.getId tip.blockHeader
  if s.pendingBlockTree.isCoherent tipId = false ∨ env.now.localTimeNs ≤ tip.blockHeader.timestampNs then
    if s.safety.isSafeToRecoveryRequest round = false then .ok s []
    else match s.safety.recoveryRequest round, lastRoundTc with
      | .error e, _ => .panic e
      | .ok _, none => .panic .blockMissing
      | .ok safety, some tc =>
        .ok { s with safety }
          [.publish (.broadcast s.getCurrentEpoch)
            (env.sign (.roundRecovery { round, epoch := s.getCurrentEpoch, tc }))]
  else match s.safety.propose round with
    | .error e => .panic e
    | .ok safety =>
      match s.pendingBlockTree.getBlock tipId with
      | none => .panic .blockMissing
      | some block =>
        .ok { s with safety }
          [.publish (.raptorcast s.getCurrentEpoch)
            (env.sign (.proposal {
              proposalRound := round
              proposalEpoch := s.getCurrentEpoch
              tip
              blockBody := block.body
              lastRoundTc }))]

/-- The end of `try_propose` for a QC: request a fresh block on it. -/
def proposeFresh (epoch : Epoch) (qc : QuorumCertificate) (fresh : Option FreshProposalCertificate)
    (lastRoundTc : Option TimeoutCertificate) : Call :=
  let round := s.getCurrentRound
  if s.pendingBlockTree.isCoherent qc.getBlockId = false then .ok s []
  else match s.pendingBlockTree.getBlocksOnPathFromRoot qc.getBlockId with
    | none => .panic .blockMissing
    | some path =>
      let (extendingSeqNum, extendingTimestamp) :=
        match path.getLast? with
        | some extending => (extending.getSeqNum, extending.getTimestamp)
        | none => (s.pendingBlockTree.root.seqNum, s.pendingBlockTree.root.timestampNs)
      match env.now.expectedExecutionResults (extendingSeqNum + 1) path with
      | none => .ok s []
      | some delayedExecutionResults =>
        match s.safety.propose round with
        | .error e => .panic e
        | .ok safety =>
          .ok { s with safety }
            [.createProposal {
              epoch
              round
              seqNum := extendingSeqNum + 1
              highQc := qc
              roundSignature := env.node.signRound round
              lastRoundTc
              freshProposalCertificate := fresh
              txLimit := (env.node.chainParams round).txLimit
              proposalGasLimit := (env.node.chainParams round).proposalGasLimit
              proposalByteLimit := (env.node.chainParams round).proposalByteLimit
              beneficiary := env.node.beneficiary
              timestampNs := env.getValidBlockTimestamp extendingTimestamp
              extendingBlocks := path
              delayedExecutionResults }]

def tryPropose : Call :=
  let round := s.getCurrentRound
  match s.epochManager.getEpoch round with
  | none => .panic .epochUnavailable
  | some epoch =>
    match env.net.valEpochMap epoch with
    | none => .panic .epochUnavailable
    | some (validators, _) =>
      if env.node.nodeid ≠ env.net.getLeader round validators.validators then .ok s []
      else (s.requestTipIfMissing env).andThen fun s =>
        if s.safety.isSafeToPropose round = false then .ok s []
        else match s.proposalBasis with
          | (.tip tip, _, lastRoundTc) =>
            (s.tryUpdateCoherency env (env.getId tip.blockHeader)).andThen fun s => s.proposeTip env tip lastRoundTc
          | (.qc qc, fresh, lastRoundTc) =>
            (s.tryUpdateCoherency env qc.getBlockId).andThen fun s => s.proposeFresh env epoch qc fresh lastRoundTc

/-! ## Certificates -/

def processQc (qc : QuorumCertificate) : Call :=
  if qc.info.round < s.getCurrentRound then .ok s []
  else
    (s.tryCommit env qc).andThen fun s =>
    s.cancelObsoleteRequests.andThen fun s =>
    (s.maybeStatesync env).andThen fun s =>
    (s.runPacemaker env
      (s.pacemaker.processCertificate env.node.roundTimer s.epochManager s.safety (.qc qc))).andThen fun s =>
    s.requestBlocksIfMissingAncestor.andThen fun s =>
    let s := { s with
      voteState := s.voteState.startNewRound s.getCurrentRound
      noEndorsementState := s.noEndorsementState.startNewRound s.getCurrentRound }
    s.tryPropose env

def processTc (tc : TimeoutCertificate) : Call :=
  if tc.round < s.getCurrentRound then .ok s []
  else
    (s.runPacemaker env
      (s.pacemaker.processCertificate env.node.roundTimer s.epochManager s.safety (.tc tc))).andThen fun s =>
    s.tryPropose env

def processRoundCertificate : RoundCertificate → Call
  | .tc tc => s.processTc env tc
  | .qc qc => s.processQc env qc

/-- Process the certificate a message may carry for the round before its own. -/
def processLastRoundCertificate : Option RoundCertificate → Call
  | none => .ok s []
  | some cert => s.processRoundCertificate env cert

/-! ## Voting -/

def sendVoteAndResetTimer (round : Round) (vote : Vote) : Call :=
  let message := env.sign (.vote (env.newVoteMessage vote))
  match s.leaderOf env (round + 1), s.leaderOf env round with
  | some nextLeader, some currentLeader =>
    .ok { s with scheduledVote := none }
      ([.publish (.pointToPoint nextLeader) message] ++
        (if currentLeader ≠ nextLeader then [.publish (.pointToPoint currentLeader) message] else []) ++
        [.scheduleVote (env.votePace (round + 1)) (round + 1)])
  | _, _ => .panic .epochUnavailable

def tcTip (lastRoundTc : Option TimeoutCertificate) : Option BlockId :=
  match lastRoundTc with
  | none => none
  | some tc =>
    match tc.highExtend with
    | .qc _ => none
    | .tip tip => some (env.getId tip.blockHeader)

/-- Send a vote now, or keep it until the vote timer fires. -/
def sendOrScheduleVote (vote : Vote) (parentBlockRound : Round) : Call :=
  let proposalRound := s.getCurrentRound
  let sendOrKeep : Call :=
    -- the round after a timeout: vote at once
    if parentBlockRound + 1 ≠ proposalRound then s.sendVoteAndResetTimer env proposalRound vote
    else .ok { s with scheduledVote := some (.voteReady vote) } []
  match s.scheduledVote with
  | some .timerFired => s.sendVoteAndResetTimer env proposalRound vote
  | some (.voteReady r) => if vote.round ≤ r.round then .panic .voteScheduled else sendOrKeep
  | none => sendOrKeep

def tryVote (lastRoundTc : Option TimeoutCertificate) (tip : ConsensusTip) : Call :=
  let proposalRound := s.getCurrentRound
  let header := tip.blockHeader
  match s.pendingBlockTree.getTimestampOfQc header.qc, s.pendingBlockTree.getBlockRoundOfQc header.qc with
  | some parentTimestamp, some parentBlockRound =>
    if env.validBlockTimestamp parentTimestamp header.timestampNs (env.votePace proposalRound)
        (proposalRound ≠ header.blockRound) = false then .ok s []
    else if s.pendingBlockTree.isCoherent (env.getId header) = false then .ok s []
    else if s.safety.isSafeToVote proposalRound (tcTip env lastRoundTc) = false then .ok s []
    else match s.safety.vote proposalRound (tcTip env lastRoundTc) tip with
      | .error e => .panic e
      | .ok safety =>
        sendOrScheduleVote env { s with safety }
          { id := env.getId header, epoch := s.getCurrentEpoch, round := proposalRound } parentBlockRound
  | _, _ => .ok s []

/-- What `try_add_and_commit_blocktree` may vote for: proposal round, last round's TC, and tip. -/
abbrev VoteCandidate := Round × Option TimeoutCertificate × ConsensusTip

/-- Vote for the block just added, if it was proposed in the current round. -/
def voteForCandidate (candidate : Option VoteCandidate) : Call :=
  match candidate with
  | none => .ok s []
  | some (proposalRound, lastRoundTc, tip) =>
    if proposalRound = s.getCurrentRound then s.tryVote env lastRoundTc tip else .ok s []

def tryAddAndCommitBlocktree (block : ConsensusFullBlock) (candidate : Option VoteCandidate) : Call :=
  match s.pendingBlockTree.add env.net.crypto block with
  | .error e => .panic e
  | .ok pendingBlockTree =>
    let s := { s with pendingBlockTree }
    (s.tryUpdateCoherency env (env.getId block.header)).andThen fun s =>
    (s.voteForCandidate env candidate).andThen fun s =>
    (s.tryPropose env).andThen fun s =>
    (s.maybeStatesync env).andThen fun s =>
    s.requestBlocksIfMissingAncestor

/-! ## Message handlers -/

/-- The validated block; `none` if the block is dropped. -/
def validateBlock (header : ConsensusBlockHeader) (body : Bytes) : Except Panic (Option ConsensusFullBlock) :=
  match s.pendingBlockTree.getBlock (env.getId header) with
  | some validated =>
    -- the block was validated before, as for a reproposal
    .ok (if validated.getBodyId ≠ env.net.crypto.getBodyId body then none else some validated)
  | none =>
    match s.leaderOf env header.blockRound with
    | none => .error .epochUnavailable
    | some leader =>
      if header.author ≠ leader then .ok none
      else match env.net.valEpochMap header.epoch with
        | none => .error .epochUnavailable
        | some (_, mapping) =>
          if mapping.contains header.author = false then .error .epochUnavailable
          -- every validator ends with `ConsensusFullBlock::new`, which compares the body with the header
          else .ok (if env.now.validBlock header body ∧ header.blockBodyId = env.net.crypto.getBodyId body then
            some { header, body } else none)

def handleTimeoutExpiry (timeoutRound : Round) : Call :=
  if timeoutRound < s.getCurrentRound then .ok s []
  else s.runPacemaker env (s.pacemaker.processLocalTimeout env.node.roundTimer s.safety)

variable (author : NodeId)

/-- `handle_proposal_message` once the certificates of the proposal have been processed. -/
def handleProposalBlock (p : ProposalMessage) (validators : ValidatorSet) : Call :=
  if s.getCurrentRound < p.proposalRound ∨ author ≠ env.net.getLeader p.proposalRound validators.validators then
    .ok s []
  else if s.safety.isSafeToHandleProposal p.proposalRound = false then .ok s []
  else match s.safety.handleProposal p.proposalRound with
    | .error e => .panic e
    | .ok safety =>
      let s := { s with safety }
      match s.validateBlock env p.tip.blockHeader p.blockBody with
      | .error e => .panic e
      | .ok none => .ok s []
      | .ok (some block) => s.tryAddAndCommitBlocktree env block (some (p.proposalRound, p.lastRoundTc, p.tip))

def handleProposalMessage (p : ProposalMessage) : Call :=
  if p.proposalRound ≤ s.pendingBlockTree.root.round then .ok s []
  else match s.validatorsOf env p.proposalRound with
    | none => .panic .epochUnavailable
    | some (validators, _) =>
      (s.processQc env p.tip.blockHeader.qc).andThen fun s =>
      (s.processLastRoundCertificate env (p.lastRoundTc.map .tc)).andThen fun s =>
      s.handleProposalBlock env author p validators

def handleVoteMessage (voteMsg : VoteMessage) : Call :=
  let voteRound := voteMsg.vote.round
  if voteRound < s.getCurrentRound then .ok s []
  else if s.getCurrentRound + futureVoteBound < voteRound then .ok s []
  else match s.validatorsOf env voteRound with
    | none => .panic .epochUnavailable
    | some (validators, mapping) =>
      match s.voteState.processVote env.net.crypto author voteMsg validators mapping with
      | .error e => .panic e
      | .ok (none, voteState) => .ok { s with voteState } []
      | .ok (some qc, voteState) =>
        let s := { s with voteState }
        (s.processQc env qc).andThen fun s =>
        (s.tryPropose env).andThen fun s =>
        if env.node.nodeid = env.net.getLeader voteRound validators.validators then
          .ok s [.publish (.broadcast s.getCurrentEpoch)
            (env.sign (.advanceRound { lastRoundCertificate := .qc qc }))]
        else .ok s []

def handleTimeoutVote (timeout : TimeoutMessage) : Call :=
  match timeout.highExtend with
  | .qc _ => .ok s []
  | .tip tip voteSignature =>
    s.handleVoteMessage env author {
      vote := { id := env.getId tip.blockHeader, epoch := timeout.tminfo.epoch, round := timeout.tminfo.round }
      sig := voteSignature }

/-- The part of `handle_timeout_message` before `process_remote_timeout`: the certificates and the vote of
the timeout. -/
def beforeRemoteTimeout (timeout : TimeoutMessage) : Call :=
  (s.processQc env timeout.highExtend.getQc).andThen fun s =>
  (s.handleTimeoutVote env author timeout).andThen fun s =>
  s.processLastRoundCertificate env timeout.lastRoundCertificate

def handleTimeoutMessage (timeout : TimeoutMessage) : Call :=
  if timeout.tminfo.round < s.getCurrentRound then .ok s []
  else match s.validatorsOf env timeout.tminfo.round with
    | none => .panic .epochUnavailable
    | some (validators, mapping) =>
      (s.beforeRemoteTimeout env author timeout).andThen fun s =>
      (s.runPacemaker env (s.pacemaker.processRemoteTimeout env.net.crypto env.node.roundTimer s.epochManager
        validators mapping s.safety author timeout)).andThen fun s =>
      s.tryPropose env

/-- No-endorse the TC's tip, if that is safe in this round. -/
def noEndorseTip (epoch : Epoch) (round : Round) (tip : ConsensusTip) : Call :=
  let tipId := env.getId tip.blockHeader
  if s.pendingBlockTree.isCoherent tipId ∧ tip.blockHeader.timestampNs < env.now.localTimeNs then .ok s []
  else if s.safety.isSafeToNoEndorse round = false then .ok s []
  else match s.safety.noEndorse round tipId with
    | .error e => .panic e
    | .ok safety =>
      .ok { s with safety }
        [.publish (.pointToPoint author) (env.sign (.noEndorsement (env.newNoEndorsementMessage
          { epoch, round, tipQcRound := tip.blockHeader.qc.getRound })))]

def handleRoundRecoveryMessage (m : RoundRecoveryMessage) : Call :=
  match s.epochManager.getEpoch m.round with
  | none => .panic .epochUnavailable
  | some epoch =>
    match env.net.valEpochMap epoch with
    | none => .panic .epochUnavailable
    | some (validators, _) =>
      (s.processTc env m.tc).andThen fun s =>
      if m.round ≠ s.getCurrentRound ∨ author ≠ env.net.getLeader s.getCurrentRound validators.validators then
        .ok s []
      else match m.tc.highExtend with
        | .qc _ => .ok s []
        | .tip tip => s.noEndorseTip env author epoch m.round tip

def handleNoEndorsementMessage (m : NoEndorsementMessage) : Call :=
  if m.msg.round < s.getCurrentRound then .ok s []
  else if s.getCurrentRound + futureVoteBound < m.msg.round then .ok s []
  else match s.validatorsOf env m.msg.round with
    | none => .panic .epochUnavailable
    | some (validators, mapping) =>
      match s.noEndorsementState.processNoEndorsement env.net.crypto author m validators mapping with
      | .error e => .panic e
      | .ok (none, noEndorsementState) => .ok { s with noEndorsementState } []
      | .ok (some _, noEndorsementState) => tryPropose env { s with noEndorsementState }

def handleAdvanceRoundMessage (m : AdvanceRoundMessage) : Call :=
  s.processRoundCertificate env m.lastRoundCertificate

/-- The loop of `handle_block_sync`. -/
def addSyncedBlocks (s : ConsensusState) : List ConsensusFullBlock → Call
  | [] => .ok s []
  | block :: rest =>
    if s.pendingBlockTree.isValidToInsert env.net.crypto block.header = false then addSyncedBlocks s rest
    else match s.validateBlock env block.header block.body with
      | .error e => .panic e
      | .ok none => .ok s []
      | .ok (some validated) =>
        (s.tryAddAndCommitBlocktree env validated none).andThen fun s => addSyncedBlocks s rest

def handleBlockSync (range : BlockRange) (fullBlocks : List ConsensusFullBlock) : Call :=
  if (s.blockSyncRequests.lookup range.lastBlockId).isNone then .ok s []
  else (s.addSyncedBlocks env fullBlocks).andThen fun s =>
    .ok { s with blockSyncRequests := s.blockSyncRequests.erase range.lastBlockId } []

def handleVoteTimer (round : Round) : Call :=
  match s.scheduledVote with
  | some (.voteReady vote) => s.sendVoteAndResetTimer env round vote
  | _ => .ok { s with scheduledVote := some .timerFired } []

end ConsensusState

end MonadBft
