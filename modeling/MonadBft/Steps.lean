import MonadBft.BlockTree.Representation
import MonadBft.Replica

/-! # The elementary steps of a replica

Every handler is a sequence of a few elementary steps: enter a round, vote, send a vote,
time out, no-endorse, propose, and change the block tree. This module gives the steps as
a relation on consensus states, with what a replica may rely on about the messages it got
as a parameter (`Evidence`). `Simulation` shows that the handlers take no other steps,
so that a property of runs only has to be checked for the steps here.
-/

namespace MonadBft

open Safety Env List

/-! ## Evidence -/

/-- What is known about the data a replica accepted: a property for each kind of it. -/
structure Evidence where
  qc : QuorumCertificate → Prop
  tc : TimeoutCertificate → Prop
  vote : NodeId → Vote → Prop
  timeout : NodeId → TimeoutMessage → Prop
  /-- Two timeouts that may be pending in one round. -/
  together : TimeoutMessage → TimeoutMessage → Prop
  proposal : ProposalMessage → Prop
  recovery : RoundRecoveryMessage → Prop
  /-- A header that was certified, or came in a checked tip. -/
  block : ConsensusBlockHeader → Prop
  /-- A state in which the replica may time out. -/
  mayTimeOut : ConsensusState → Prop

namespace Evidence

def cert (K : Evidence) : RoundCertificate → Prop
  | .qc c => K.qc c
  | .tc c => K.tc c

def voteOf (crypto : Crypto) (t : TimeoutMessage) (tip : ConsensusTip) : Vote where
  id := crypto.getId tip.blockHeader
  epoch := t.tminfo.epoch
  round := t.tminfo.round

/-- Evidence passes from a message to its parts, and from votes and timeouts to the certificates built from them. -/
structure Closed (K : Evidence) (net : Network) : Prop where
  qcOfVotes : ∀ {epoch validators mapping vote sigcol} {pending : SortedMap NodeId Bytes},
    net.valEpochMap epoch = some (validators, mapping) → (∀ n ∈ pending.keys, K.vote n vote) →
    validators.hasSuperMajorityVotes pending.keys = .ok true →
    net.crypto.sctNew mapping (.vote vote) pending.entries = .ok sigcol → K.qc { info := vote, signatures := sigcol }
  tcOfTimeouts : ∀ {epoch validators mapping epoch' round tc} {pending : SortedMap NodeId TimeoutMessage},
    net.valEpochMap epoch = some (validators, mapping) →
    (∀ a t, (a, t) ∈ pending →
      K.timeout a t ∧ t.tminfo.round = round ∧ t.highExtend.getQc.getRound < round) →
    (∀ a t a' t', (a, t) ∈ pending → (a', t') ∈ pending → K.together t t') →
    validators.hasSuperMajorityVotes pending.keys = .ok true →
    TimeoutCertificate.new net.crypto epoch' round pending.entries mapping = .ok tc → K.tc tc
  qcOfTc : ∀ {tc}, K.tc tc → K.qc tc.highExtend.getQc
  blockOfTc : ∀ {tc tip header}, K.tc tc → tc.highExtend = .tip tip →
    net.crypto.getId header = net.crypto.getId tip.blockHeader → K.block header
  qcOfBlock : ∀ {header}, K.block header → K.qc header.qc
  certified : ∀ {qc header}, K.qc qc → net.crypto.getId header = qc.getBlockId → K.block header
  blockOfProposal : ∀ {p}, K.proposal p → K.block p.tip.blockHeader
  tcOfProposal : ∀ {p tc}, K.proposal p → p.lastRoundTc = some tc → K.tc tc
  qcOfTimeout : ∀ {a t}, K.timeout a t → K.qc t.highExtend.getQc
  certOfTimeout : ∀ {a t c}, K.timeout a t → t.lastRoundCertificate = some c → K.cert c
  voteOfTimeout : ∀ {a t tip sig}, K.timeout a t → t.highExtend = .tip tip sig → K.vote a (voteOf net.crypto t tip)
  /-- A timeout shows that its round has been entered. -/
  roundOfTimeout : ∀ {a t}, K.timeout a t → t.highExtend.getQc.getRound + 1 = t.tminfo.round ∨
    ∃ c, t.lastRoundCertificate = some c ∧ c.round + 1 = t.tminfo.round
  tcOfRecovery : ∀ {m}, K.recovery m → K.tc m.tc

theorem Closed.qcOfCert {K : Evidence} {net : Network} (closed : K.Closed net) {c : RoundCertificate}
    (h : K.cert c) : K.qc c.getQc := by
  cases c with
  | qc c => exact h
  | tc c => exact closed.qcOfTc h

end Evidence

def VoteState.Backed (vs : VoteState) (backed : NodeId → Vote → Prop) : Prop :=
  ∀ {round roundState vote pending n}, (round, roundState) ∈ vs.pendingVotes →
    roundState.lookup vote = some pending → n ∈ pending.keys → backed n vote

/-- What a state holds is backed by evidence. -/
structure Supported (K : Evidence) (crypto : Crypto) (s : ConsensusState) : Prop where
  certificate : K.cert s.pacemaker.highCertificate
  votes : s.voteState.Backed K.vote
  timeouts : ∀ {a t}, (a, t) ∈ s.pacemaker.pendingTimeouts →
    K.timeout a t ∧ t.tminfo.round = s.getCurrentRound ∧ t.highExtend.getQc.getRound < s.getCurrentRound
  together : ∀ {a t a' t'}, (a, t) ∈ s.pacemaker.pendingTimeouts → (a', t') ∈ s.pacemaker.pendingTimeouts →
    K.together t t'
  keyed : BlockTree.Keyed crypto s.pendingBlockTree.tree
  blocks : ∀ {id e}, s.pendingBlockTree.tree.get id = some e → K.block e.validatedBlock.header
  bodies : ∀ {id e}, s.pendingBlockTree.tree.get id = some e → e.validatedBlock.BodyMatches crypto
  necs : ∀ {round nec}, s.noEndorsementState.getNec round = some nec → nec.msg.round = round
  requests : ∀ {id status header}, s.blockSyncRequests.lookup id = some status → crypto.getId header = id →
    K.block header
  highTip : ∀ {tip}, s.safety.maybeHighTip = some tip → ∃ p, K.proposal p ∧ p.tip = tip

/-! ## Steps -/

def ConsensusEvent.message? : ConsensusEvent → Option ProtocolMessage
  | .message m => some m.obj.message
  | _ => none

def ConsensusEvent.blocks : ConsensusEvent → List ConsensusFullBlock
  | .message m =>
    match m.obj.message with
    | .proposal p => [{ header := p.tip.blockHeader, body := p.blockBody }]
    | _ => []
  | .blockSync _ fullBlocks => fullBlocks
  | _ => []

inductive Action where
  | advance (certificate : RoundCertificate)
  | vote (p : ProposalMessage)
  | sendVote (vote : Vote)
  | timeout
  | noEndorse (m : RoundRecoveryMessage) (tip : ConsensusTip)
  | proposeTip (tip : ConsensusTip) (lastRoundTc : Option TimeoutCertificate)
  /-- The first argument is the schedule that the epoch was looked up in when `try_propose` started. -/
  | proposeFresh (schedule : EpochManager) (qc : QuorumCertificate) (fresh : Option FreshProposalCertificate)
      (lastRoundTc : Option TimeoutCertificate)
  | addBlock (block : ConsensusFullBlock)
  | markCoherent (blocks : List ConsensusFullBlock)
  | commit (qc : QuorumCertificate) (blocks : List ConsensusFullBlock)
  | bookkeeping

structure Label where
  /-- The event that the step is part of the handling of. -/
  event : ConsensusEvent
  action : Action
  commands : List ConsensusCommand

/-- Commands that carry no signature made with the certificate key, no proposal of this replica, no block, and do
not enter a round. -/
def ConsensusCommand.IsQuiet : ConsensusCommand → Prop
  | .publish _ m => ∃ a, m.obj.message = .advanceRound a
  | .publishToFullNodes _ m => ∃ p, m.obj.message = .proposal p
  | .requestSync _ | .cancelSync _ => True
  | _ => False

/-- The calls of `NoEndorsementState` that a step may make. -/
inductive NoEndorsementCall (crypto : Crypto) (s : ConsensusState) : NoEndorsementState → Prop where
  | none : NoEndorsementCall crypto s s.noEndorsementState
  | startNewRound : NoEndorsementCall crypto s (s.noEndorsementState.startNewRound s.getCurrentRound)
  | process {author : NodeId} {m : NoEndorsementMessage} {validators : ValidatorSet} {mapping : ValidatorMapping}
      {built : Option NoEndorsementCertificate} {ns : NoEndorsementState} (notOld : s.getCurrentRound ≤ m.msg.round)
      (notFuture : m.msg.round ≤ s.getCurrentRound + ConsensusState.futureVoteBound)
      (done : s.noEndorsementState.processNoEndorsement crypto author m validators mapping = .ok (built, ns)) :
      NoEndorsementCall crypto s ns

/-- A step that only changes collected votes, no-endorsements, timeouts, block-sync requests or the handled
proposals. -/
structure Bookkeeping (K : Evidence) (crypto : Crypto) (s s' : ConsensusState)
    (commands : List ConsensusCommand) : Prop where
  tree : s'.pendingBlockTree = s.pendingBlockTree
  epochManager : s'.epochManager = s.epochManager
  pacemaker : ∃ pendingTimeouts, s'.pacemaker = { s.pacemaker with pendingTimeouts }
  safety : ∃ handledProposals, s'.safety = { s.safety with handledProposals }
  scheduledVote : s'.scheduledVote = s.scheduledVote ∨ s'.scheduledVote = some .timerFired
  noEndorsements : NoEndorsementCall crypto s s'.noEndorsementState
  quiet : ∀ c ∈ commands, c.IsQuiet
  /-- A certificate is published once its round has been left. -/
  advances : ∀ {target m a}, .publish target m ∈ commands → m.obj.message = .advanceRound a →
    a.lastRoundCertificate.round < s.getCurrentRound
  supported : Supported K crypto s → Supported K crypto s'

open ConsensusState in
/-- One elementary step, with the commands it emits. -/
inductive Step (K : Evidence) (net : Network) (node : Node) : ConsensusState → Label → ConsensusState → Prop where
  | advance {event} {s : ConsensusState} {certificate : RoundCertificate} {epoch : Epoch} (now : Surroundings)
      (evidence : K.cert certificate) (newer : s.pacemaker.highCertificate.round < certificate.round)
      (known : s.epochManager.getEpoch (certificate.round + 1) = some epoch) :
      Step K net node s
        ⟨event, .advance certificate,
          [PacemakerCommand.enterRound epoch (certificate.round + 1) certificate,
           .schedule (certificate.round + 1) (node.roundTimer.getRoundTimer (certificate.round + 1))].flatMap
            (fromPacemakerCommand ⟨net, node, now⟩)⟩
        { s with
          pacemaker :=
            { currentEpoch := epoch, highCertificate := certificate, pendingTimeouts := .empty, phase := .zero }
          safety := s.safety.processCertificate certificate }
  | vote {event} {s : ConsensusState} {p : ProposalMessage} {safety : Safety} (now : Surroundings)
      (handled : event.message? = some (.proposal p)) (evidence : K.proposal p)
      (inRound : p.proposalRound = s.getCurrentRound)
      (processed : p.tip.blockHeader.qc.getRound < s.getCurrentRound)
      (coherent : s.pendingBlockTree.isCoherent (net.crypto.getId p.tip.blockHeader) = true)
      (voted : s.safety.vote s.getCurrentRound (tcTip ⟨net, node, now⟩ p.lastRoundTc) p.tip = .ok safety) :
      Step K net node s ⟨event, .vote p, []⟩
        { s with
          safety
          scheduledVote := some (.voteReady
            { id := net.crypto.getId p.tip.blockHeader, epoch := s.getCurrentEpoch, round := s.getCurrentRound }) }
  | sendVote {event} {s : ConsensusState} {round : Round} {vote : Vote} {commands : List ConsensusCommand}
      (now : Surroundings) (ready : s.scheduledVote = some (.voteReady vote))
      (sent : ∀ c ∈ commands, (∃ duration round, c = .scheduleVote duration round) ∨
        ∃ target, c = .publish target (sign ⟨net, node, now⟩ (.vote (newVoteMessage ⟨net, node, now⟩ vote))))
      -- a vote timer sends with its own round
      (source : event = .sendVote round ∨ round = vote.round ∧ ∀ k, event ≠ .sendVote k)
      (done : s.sendVoteAndResetTimer ⟨net, node, now⟩ round vote = .ok { s with scheduledVote := none } commands) :
      Step K net node s ⟨event, .sendVote vote, commands⟩ { s with scheduledVote := none }
  | timeout {event} {s : ConsensusState} (now : Surroundings) (safe : s.safety.highestVote ≤ s.getCurrentRound)
      (allowed : K.mayTimeOut s) :
      Step K net node s
        ⟨event, .timeout,
          [PacemakerCommand.scheduleReset,
           .prepareTimeout (s.pacemaker.timeoutInfo s.safety) (s.pacemaker.highExtend s.safety)
            (s.pacemaker.lastRoundCertificate s.safety),
           .schedule s.getCurrentRound (node.roundTimer.getRoundTimer s.getCurrentRound)].flatMap
            (fromPacemakerCommand ⟨net, node, now⟩)⟩
        { s with
          pacemaker := { s.pacemaker with phase := .one }
          safety := { s.safety with highestVote := s.getCurrentRound } }
  | noEndorse {event} {s : ConsensusState} {m : RoundRecoveryMessage} {tip : ConsensusTip} {epoch : Epoch}
      {safety : Safety} (now : Surroundings) (author : NodeId) (handled : event.message? = some (.roundRecovery m))
      (evidence : K.recovery m) (inRound : m.round = s.getCurrentRound)
      (isTip : m.tc.highExtend = .tip tip)
      (done : s.safety.noEndorse m.round (net.crypto.getId tip.blockHeader) = .ok safety) :
      Step K net node s
        ⟨event, .noEndorse m tip,
          [.publish (.pointToPoint author) (sign ⟨net, node, now⟩ (.noEndorsement
            (newNoEndorsementMessage ⟨net, node, now⟩
              { epoch, round := m.round, tipQcRound := tip.blockHeader.qc.getRound })))]⟩
        { s with safety }
  | proposeTip {event} {s s' : ConsensusState} {tip : ConsensusTip} {fresh : Option FreshProposalCertificate}
      {lastRoundTc : Option TimeoutCertificate} {commands : List ConsensusCommand} (now : Surroundings)
      (basis : s.proposalBasis = (.tip tip, fresh, lastRoundTc))
      (done : s.proposeTip ⟨net, node, now⟩ tip lastRoundTc = .ok s' commands) :
      Step K net node s ⟨event, .proposeTip tip lastRoundTc, commands⟩ s'
  | proposeFresh {event} {s s' : ConsensusState} {schedule : EpochManager} {epoch : Epoch} {validators : ValidatorSet}
      {mapping : ValidatorMapping} {qc : QuorumCertificate} {fresh : Option FreshProposalCertificate}
        {lastRoundTc : Option TimeoutCertificate}
      {commands : List ConsensusCommand} (now : Surroundings)
      (basis : s.proposalBasis = (.qc qc, fresh, lastRoundTc))
      (looked : schedule.getEpoch s.getCurrentRound = some epoch)
      (known : net.valEpochMap epoch = some (validators, mapping))
      (leads : node.nodeid = net.getLeader s.getCurrentRound validators.validators)
      -- the epoch was looked up after the round was entered, and before the last commit
      (inEpoch : s.getCurrentEpoch ≤ epoch ∧ ∀ e, s.epochManager.getEpoch s.getCurrentRound = some e → epoch ≤ e)
      (done : s.proposeFresh ⟨net, node, now⟩ epoch qc fresh lastRoundTc = .ok s' commands) :
      Step K net node s ⟨event, .proposeFresh schedule qc fresh lastRoundTc, commands⟩ s'
  | addBlock {event} {s : ConsensusState} {block : ConsensusFullBlock} {bt : BlockTree}
      (source : block ∈ event.blocks ∨ s.pendingBlockTree.getBlock (net.crypto.getId block.header) = some block)
      (evidence : K.block block.header) (body : block.BodyMatches net.crypto)
      (done : s.pendingBlockTree.add net.crypto block = .ok bt) :
      Step K net node s ⟨event, .addBlock block, []⟩ { s with pendingBlockTree := bt }
  | markCoherent {event} {s : ConsensusState} {id : BlockId} {bt : BlockTree} {blocks : List ConsensusFullBlock}
      (now : Surroundings)
      (done : s.pendingBlockTree.tryUpdateCoherency net.crypto now.execution id = .ok (bt, blocks)) :
      Step K net node s ⟨event, .markCoherent blocks, blocks.map fun block => .commitBlocks (.proposed block)⟩
        { s with pendingBlockTree := bt }
  | commit {event} {s : ConsensusState} {qc : QuorumCertificate} {qcParent : ConsensusFullBlock} {id : BlockId}
      {bt : BlockTree} {em : EpochManager} {blocks : List ConsensusFullBlock} (evidence : K.qc qc)
      (parent : s.pendingBlockTree.getBlock qc.getBlockId = some qcParent)
      (committable : BlockTree.getCommittableId qc qcParent.header = some id)
      (done : s.pendingBlockTree.prune net.crypto id = .ok (blocks, bt))
      (scheduled : scheduleEpochStarts s.epochManager blocks = some em) :
      Step K net node s ⟨event, .commit qc blocks, blocks.map fun block => .commitBlocks (.finalized block)⟩
        { s with pendingBlockTree := bt, epochManager := em }
  | bookkeeping {event} {s s' : ConsensusState} {commands : List ConsensusCommand}
      (quiet : Bookkeeping K net.crypto s s' commands) : Step K net node s ⟨event, .bookkeeping, commands⟩ s'

/-! ## What the steps do to a state -/

section Inversion

variable {env : Env} {s s' : ConsensusState} {commands : List ConsensusCommand}

variable {tip : ConsensusTip} {lastRoundTc : Option TimeoutCertificate} {qc : QuorumCertificate}
  {fresh : Option FreshProposalCertificate} {safety safety' : Safety} {round : Round} {tcTip : Option BlockId}

theorem Safety.propose_eq_ok (h : safety.propose round = .ok safety') :
    safety.highestPropose < round ∧ safety' = { safety with highestPropose := round } := by
  unfold propose at h
  split at h
  case isTrue safe =>
    obtain rfl := Except.ok.inj h
    exact ⟨(by simpa [isSafeToPropose] using safe : _ ∧ _).1, rfl⟩
  · cases h

theorem ConsensusState.proposeTip_eq_ok (h : s.proposeTip env tip lastRoundTc = .ok s' commands) :
    (s' = s ∧ commands = []) ∨ (∃ tc, lastRoundTc = some tc ∧
      s' = { s with safety := { s.safety with highestRecoveryRequest := s.getCurrentRound } } ∧
      commands = [.publish (.broadcast s.getCurrentEpoch)
        (env.sign (.roundRecovery { round := s.getCurrentRound, epoch := s.getCurrentEpoch, tc }))]) ∨
    (∃ block, (s.pendingBlockTree.getBlock (env.getId tip.blockHeader) = some block ∧
      s.safety.highestPropose < s.getCurrentRound) ∧
      s' = { s with safety := { s.safety with highestPropose := s.getCurrentRound } } ∧
      commands = [.publish (.raptorcast s.getCurrentEpoch) (env.sign (.proposal {
        proposalRound := s.getCurrentRound
        proposalEpoch := s.getCurrentEpoch
        tip
        blockBody := block.body
        lastRoundTc }))]) := by
  simp only [ConsensusState.proposeTip] at h
  split at h
  · split at h
    · obtain ⟨rfl, rfl⟩ := Outcome.ok.inj h
      exact .inl ⟨rfl, rfl⟩
    case isFalse safe =>
      simp only [recoveryRequest, safe] at h
      cases lastRoundTc with
      | none => simp at h
      | some tc =>
        obtain ⟨rfl, rfl⟩ := Outcome.ok.inj h
        exact .inr (.inl ⟨tc, rfl, rfl, rfl⟩)
  · split at h
    · cases h
    case h_2 safety proposed =>
      split at h
      · cases h
      case h_2 block found =>
        obtain ⟨rfl, rfl⟩ := Outcome.ok.inj h
        obtain ⟨above, rfl⟩ := propose_eq_ok proposed
        exact .inr (.inr ⟨block, ⟨found, above⟩, rfl, rfl⟩)

theorem ConsensusState.proposeFresh_eq_ok {epoch : Epoch}
    (h : s.proposeFresh env epoch qc fresh lastRoundTc = .ok s' commands) : (s' = s ∧ commands = []) ∨
    (∃ request : ProposalRequest, s' = { s with safety := { s.safety with highestPropose := s.getCurrentRound } } ∧
      commands = [.createProposal request] ∧ request.epoch = epoch ∧ request.round = s.getCurrentRound ∧
      request.highQc = qc ∧ request.freshProposalCertificate = fresh ∧ request.lastRoundTc = lastRoundTc ∧
      request.roundSignature = env.node.signRound s.getCurrentRound ∧ s.safety.highestPropose < s.getCurrentRound) := by
  simp only [ConsensusState.proposeFresh] at h
  split at h
  · obtain ⟨rfl, rfl⟩ := Outcome.ok.inj h
    exact .inl ⟨rfl, rfl⟩
  split at h
  · cases h
  split at h
  · obtain ⟨rfl, rfl⟩ := Outcome.ok.inj h
    exact .inl ⟨rfl, rfl⟩
  split at h
  · cases h
  case h_2 safety proposed =>
    obtain ⟨rfl, rfl⟩ := Outcome.ok.inj h
    obtain ⟨above, rfl⟩ := propose_eq_ok proposed
    exact .inr ⟨_, rfl, rfl, rfl, rfl, rfl, rfl, rfl, rfl, above⟩

/-- A proposal or recovery request only moves the marks that keep the replica from sending a second one. -/
def Proposed (s s' : ConsensusState) : Prop :=
  ∃ propose recovery, s' =
    { s with safety := { s.safety with highestPropose := propose, highestRecoveryRequest := recovery } }

theorem ConsensusState.proposed_of_proposeTip (h : s.proposeTip env tip lastRoundTc = .ok s' commands) :
    Proposed s s' := by
  obtain ⟨rfl, -⟩ | ⟨-, -, rfl, -⟩ | ⟨-, -, rfl, -⟩ := ConsensusState.proposeTip_eq_ok h
  all_goals exact ⟨_, _, rfl⟩

theorem ConsensusState.proposed_of_proposeFresh {epoch : Epoch}
    (h : s.proposeFresh env epoch qc fresh lastRoundTc = .ok s' commands) : Proposed s s' := by
  obtain ⟨rfl, -⟩ | ⟨-, rfl, -⟩ := ConsensusState.proposeFresh_eq_ok h
  all_goals exact ⟨_, _, rfl⟩

theorem Safety.vote_eq_ok (h : safety.vote round tcTip tip = .ok safety') :
    safety.isSafeToVote round tcTip = true ∧ safety' = { safety with
      highestVote := round
      maybeHighTip := if safety.highCertificateQcRound < tip.blockHeader.blockRound then some tip else none } := by
  unfold vote at h
  split at h
  case isTrue safe =>
    obtain rfl := Except.ok.inj h
    exact ⟨safe, rfl⟩
  · cases h

theorem Safety.lt_of_isSafeToVote (h : safety.isSafeToVote round tcTip = true) : safety.highestVote < round := by
  unfold isSafeToVote at h
  split at h
  · cases h
  · simpa using h

theorem Safety.noEndorse_eq_ok {tip : BlockId} (h : safety.noEndorse round tip = .ok safety') :
    safety.highestNoEndorse.round < round ∧ safety.highestVote < round ∧
      safety' = { safety with highestNoEndorse := { round, tip } } := by
  unfold noEndorse at h
  split at h
  case isTrue safe =>
    obtain rfl := Except.ok.inj h
    obtain ⟨endorsed, voted⟩ : safety.highestNoEndorse.round < round ∧ safety.highestVote < round := by
      simpa [isSafeToNoEndorse] using safe
    exact ⟨endorsed, voted, rfl⟩
  · cases h

end Inversion

/-! ## What the steps emit -/

/-- Commands without a message of the replica's own, and without a request for a proposal. -/
def ConsensusCommand.IsMute : ConsensusCommand → Prop
  | .publish _ _ | .createProposal _ => False
  | .publishToFullNodes _ m => ∃ p, m.obj.message = .proposal p
  | _ => True

/-- A command that a step from `s` to `s'` emits. -/
inductive Emission (net : Network) (node : Node) (s s' : ConsensusState) : Action → ConsensusCommand → Prop where
  | mute {action} {c : ConsensusCommand} (mute : c.IsMute) : Emission net node s s' action c
  | advance {action c} {m : Unverified} {a : AdvanceRoundMessage} (isAdvance : m.obj.message = .advanceRound a)
      (left : a.lastRoundCertificate.round < s'.getCurrentRound)
      (sends : (∃ target, c = .publish target m) ∨
        ∃ certificate epoch, action = .advance certificate ∧ c =
          .publishToFullNodes epoch m) : Emission net node s s' action c
  | vote {now target vote} (ready : s.scheduledVote = some (.voteReady vote)) :
      Emission net node s s' (.sendVote vote)
        (.publish target (sign ⟨net, node, now⟩ (.vote (newVoteMessage ⟨net, node, now⟩ vote))))
  | timeout {now target} :
      Emission net node s s' .timeout
        (.publish target (sign ⟨net, node, now⟩ (.timeout (newTimeoutMessage ⟨net, node, now⟩
          (s.pacemaker.timeoutInfo s.safety) (s.pacemaker.highExtend s.safety)
            (s.pacemaker.lastRoundCertificate s.safety)))))
  | noEndorse {now target epoch} {m : RoundRecoveryMessage} {tip : ConsensusTip}
      (inRound : m.round = s.getCurrentRound) (newer : s.safety.highestNoEndorse.round < m.round) :
      Emission net node s s' (.noEndorse m tip)
        (.publish target (sign ⟨net, node, now⟩ (.noEndorsement (newNoEndorsementMessage ⟨net, node, now⟩
          ⟨epoch, m.round, tip.blockHeader.qc.getRound⟩))))
  | recovery {now target tip fresh tc} (basis : s.proposalBasis = (.tip tip, fresh, some tc)) :
      Emission net node s s' (.proposeTip tip (some tc))
        (.publish target (sign ⟨net, node, now⟩ (.roundRecovery ⟨s.getCurrentRound, s.getCurrentEpoch, tc⟩)))
  | proposal {now target tip fresh lastRoundTc} {block : ConsensusFullBlock}
      (basis : s.proposalBasis = (.tip tip, fresh, lastRoundTc))
      (found : s.pendingBlockTree.getBlock (net.crypto.getId tip.blockHeader) = some block)
      (above : s.safety.highestPropose < s.getCurrentRound) :
      Emission net node s s' (.proposeTip tip lastRoundTc)
        (.publish target (sign ⟨net, node, now⟩
          (.proposal ⟨s.getCurrentRound, s.getCurrentEpoch, tip, block.body, lastRoundTc⟩)))
  | create {schedule : EpochManager} {validators mapping} {request : ProposalRequest}
      (basis : s.proposalBasis = (.qc request.highQc, request.freshProposalCertificate, request.lastRoundTc))
      (looked : schedule.getEpoch s.getCurrentRound = some request.epoch)
      (known : net.valEpochMap request.epoch = some (validators, mapping))
      (leads : node.nodeid = net.getLeader s.getCurrentRound validators.validators)
      (inEpoch : s.getCurrentEpoch ≤ request.epoch ∧
        ∀ e, s.epochManager.getEpoch s.getCurrentRound = some e → request.epoch ≤ e)
      (round : request.round = s.getCurrentRound) (above : s.safety.highestPropose < s.getCurrentRound) :
      Emission net node s s'
        (.proposeFresh schedule request.highQc request.freshProposalCertificate request.lastRoundTc)
        (.createProposal request)

theorem Step.emission {K : Evidence} {net : Network} {node : Node} {s s' : ConsensusState} {label : Label}
    (taken : Step K net node s label s') {c : ConsensusCommand} (mem : c ∈ label.commands) :
    Emission net node s s' label.action c := by
  cases taken with
  | advance now evidence newer known =>
    obtain rfl | rfl | rfl := by simpa [fromPacemakerCommand] using mem
    exacts [.mute trivial, .advance rfl (Nat.lt_succ_self _) (.inr ⟨_, _, rfl, rfl⟩), .mute trivial]
  | sendVote now ready sent =>
    obtain ⟨_, _, rfl⟩ | ⟨target, rfl⟩ := sent c mem
    · exact .mute trivial
    · exact .vote ready
  | timeout now safe allowed =>
    obtain rfl | rfl | rfl := by simpa [fromPacemakerCommand] using mem
    exacts [.mute trivial, .timeout, .mute trivial]
  | noEndorse now author handled evidence inRound isTip done =>
    obtain ⟨newer, -, rfl⟩ := noEndorse_eq_ok done
    obtain rfl := mem_singleton.mp mem
    exact .noEndorse inRound newer
  | proposeTip now basis done =>
    obtain ⟨-, rfl⟩ | ⟨tc, rfl, -, rfl⟩ | ⟨block, ⟨found, above⟩, -, rfl⟩ := ConsensusState.proposeTip_eq_ok done
    · cases mem
    · obtain rfl := mem_singleton.mp mem
      exact .recovery basis
    · obtain rfl := mem_singleton.mp mem
      exact .proposal basis found above
  | proposeFresh now basis looked known leads inEpoch done =>
    obtain ⟨-, rfl⟩ | ⟨request, -, rfl, rfl, round, rfl, rfl, rfl, -, above⟩ := ConsensusState.proposeFresh_eq_ok done
    · cases mem
    · obtain rfl := mem_singleton.mp mem
      exact .create basis looked known leads inEpoch round above
  | markCoherent | commit =>
    obtain ⟨block, -, rfl⟩ := mem_map.mp mem
    exact .mute trivial
  | bookkeeping quiet =>
    obtain ⟨pending, same⟩ := quiet.pacemaker
    have isQuiet := quiet.quiet c mem
    cases c with
    | publish target m =>
      obtain ⟨a, isAdvance⟩ := isQuiet
      refine .advance isAdvance ?_ (.inl ⟨target, rfl⟩)
      simpa [ConsensusState.getCurrentRound, Pacemaker.getCurrentRound, same] using quiet.advances mem isAdvance
    | createProposal request => cases isQuiet
    | publishToFullNodes epoch m => exact .mute isQuiet
    | _ => exact .mute trivial
  | vote | addBlock => cases mem

end MonadBft
