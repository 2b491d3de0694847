import MonadBft.Lib.Outcome
import MonadBft.Lib.SortedMap
import MonadBft.RaptorCast.Groups

/-! # The full-node publisher

`publisher.rs`: a validator that schedules groups of full nodes for future rounds. It invites candidates in batches,
confirms a group shortly before it starts, and serves the group whose rounds it has entered.
-/

namespace MonadBft

structure GroupSchedulingConfig where
  maxGroupSize : Nat
  roundSpan : Round
  inviteLookahead : Round
  maxInviteWait : Round
  deadlineRoundDist : Round
  initEmptyRoundSpan : Round
deriving DecidableEq, Repr

abbrev GroupInvites := FullNodesGroupMessage × List NodeId

def Group.ofValidator (validatorId : NodeId) (peers : List NodeId) (start stop : Round) : SecondaryResult Group :=
  match RoundSpan.new start stop with
  | none => .error .roundSpan
  | some span =>
    match Group.newFullnodeGroup peers validatorId validatorId span with
    | none => .error .ownNodeId
    | some group => .ok group

/-! ## A group that is being formed -/

structure GroupAsPublisher where
  fullNodesAccepted : List NodeId
  fullNodesCandidates : List NodeId
  numInvitesSent : Nat
  numInvitesRejected : Nat
  startRound : Round
  endRound : Round
  /-- When to send more invites or to confirm; `maxRound` once the group is locked. -/
  nextInviteTp : Round
deriving DecidableEq, Repr

namespace GroupAsPublisher

variable (group : GroupAsPublisher)

/-- `new_randomized`, with the shuffled nodes of peer discovery. -/
def newRandomized (startRound roundSpan : Round) (alwaysAsk shuffled : List NodeId) :
    SecondaryResult GroupAsPublisher := do
  let endRound ← addRound startRound roundSpan
  .ok ⟨[], alwaysAsk ++ shuffled, 0, 0, startRound, endRound, 0⟩

def isLocked : Bool := group.nextInviteTp = maxRound

def prepare (config : GroupSchedulingConfig) (validatorId : NodeId) : PrepareGroup :=
  ⟨validatorId, config.maxGroupSize, group.startRound, group.endRound⟩

def confirm (config : GroupSchedulingConfig) (validatorId : NodeId) : GroupAsPublisher × GroupInvites :=
  ({ group with nextInviteTp := maxRound },
    .confirmGroup ⟨group.prepare config validatorId, group.fullNodesAccepted⟩, group.fullNodesAccepted)

def inviteMore (now : Round) (config : GroupSchedulingConfig) (validatorId : NodeId) :
    SecondaryResult (GroupAsPublisher × GroupInvites) := do
  let nextInviteTp ← addRound now config.maxInviteWait
  let numMissing := config.maxGroupSize - group.fullNodesAccepted.length
  let nextInvitees := (group.fullNodesCandidates.drop group.numInvitesSent).take numMissing
  .ok ({ group with nextInviteTp, numInvitesSent := group.numInvitesSent + nextInvitees.length },
    .prepareGroup (group.prepare config validatorId), nextInvitees)

def advanceInvites (now : Round) (config : GroupSchedulingConfig) (validatorId : NodeId) :
    SecondaryResult (Option (GroupAsPublisher × GroupInvites)) :=
  if now < group.nextInviteTp then .ok none
  else if config.maxGroupSize ≤ group.fullNodesAccepted.length ∨
    group.fullNodesCandidates.length ≤ group.numInvitesSent then
    .ok (some (group.confirm config validatorId))
  else do
    let deadline ← addRound now config.deadlineRoundDist
    if group.startRound ≤ deadline then .ok (some (group.confirm config validatorId))
    else return some (← group.inviteMore now config validatorId)

def onCandidateResponse (candidate : NodeId) (accepted : Bool) : GroupAsPublisher :=
  if group.isLocked then group
  else if candidate ∉ group.fullNodesCandidates then group
  else if candidate ∈ group.fullNodesAccepted then group
  else if accepted then { group with fullNodesAccepted := group.fullNodesAccepted ++ [candidate] }
  else { group with numInvitesRejected := group.numInvitesRejected + 1 }

def toFinalizedGroup (validatorId : NodeId) : SecondaryResult Group :=
  Group.ofValidator validatorId group.fullNodesAccepted group.startRound group.endRound

end GroupAsPublisher

/-! ## The publisher -/

structure Publisher where
  validatorNodeId : NodeId
  schedulingCfg : GroupSchedulingConfig
  groupSchedule : SortedMap Round GroupAsPublisher
  alwaysAskFullNodes : List NodeId
  peerDiscFullNodes : List NodeId
  currRound : Round
  currGroup : Group

namespace Publisher

variable (publisher : Publisher)

def new (validatorNodeId : NodeId) (fullNodesPrioritized : List NodeId) (config : GroupSchedulingConfig) :
    SecondaryResult Publisher := do
  let minAllowedInitSpan ← addRound config.maxInviteWait config.deadlineRoundDist
  if config.initEmptyRoundSpan < minAllowedInitSpan then .error .spanTooShort
  else if config.inviteLookahead < minAllowedInitSpan then .error .lookaheadTooShort
  else .ok ⟨validatorNodeId, config, .empty, fullNodesPrioritized.eraseDups, [], 0, .empty⟩

def newEmptyGroup (startRound : Round) : SecondaryResult Group := do
  let endRound ← addRound startRound publisher.schedulingCfg.initEmptyRoundSpan
  Group.ofValidator publisher.validatorNodeId [] startRound endRound

def serveEmptyGroup (round : Round) : SecondaryResult Publisher := do
  let currGroup ← publisher.newEmptyGroup round
  .ok { publisher with currGroup }

/-- `enter_round`: once the current group has ended, move on to the first scheduled one that has not. -/
def enterRound (newRound : Round) : SecondaryResult Publisher :=
  if newRound = maxRound then .error .lastRound
  else if newRound < publisher.currGroup.roundSpan.stop then
    if newRound < publisher.currGroup.roundSpan.start then .error .beforeCurrentGroup else .ok publisher
  else
    let publisher := { publisher with
      groupSchedule := publisher.groupSchedule.filter fun _ group => newRound ≤ group.endRound }
    match publisher.groupSchedule.entries.head? with
    | none => publisher.serveEmptyGroup newRound
    | some (groupStartRound, nextGroup) =>
      if newRound < groupStartRound then publisher.serveEmptyGroup newRound
      else do
        let currGroup ← nextGroup.toFinalizedGroup publisher.validatorNodeId
        .ok { publisher with groupSchedule := publisher.groupSchedule.erase groupStartRound, currGroup }

/-- The loop of `step_until`: the first scheduled group that has something to send. -/
def advanceLoop (now : Round) (config : GroupSchedulingConfig) (validatorId : NodeId) :
    List (Round × GroupAsPublisher) → SecondaryResult (Option (Round × GroupAsPublisher × GroupInvites))
  | [] => .ok none
  | (key, group) :: rest => do
    match ← group.advanceInvites now config validatorId with
    | some (group, invites) => .ok (some (key, group, invites))
    | none => advanceLoop now config validatorId rest

def scheduleEnd : Round :=
  match publisher.groupSchedule.entries.getLast? with
  | some (_, group) => group.endRound
  | none => publisher.currGroup.roundSpan.stop

def stepUntil (shuffle : List NodeId → List NodeId) (timePoint : Round) :
    SecondaryResult (Publisher × Option GroupInvites) := do
  match ← advanceLoop timePoint publisher.schedulingCfg publisher.validatorNodeId publisher.groupSchedule.entries with
  | some (key, group, invites) =>
    .ok ({ publisher with groupSchedule := publisher.groupSchedule.insert key group }, some invites)
  | none =>
    let horizon ← addRound timePoint publisher.schedulingCfg.inviteLookahead
    if publisher.scheduleEnd < horizon then
      let newGroup ← GroupAsPublisher.newRandomized publisher.scheduleEnd publisher.schedulingCfg.roundSpan
        publisher.alwaysAskFullNodes (shuffle publisher.peerDiscFullNodes)
      match ← newGroup.advanceInvites timePoint publisher.schedulingCfg publisher.validatorNodeId with
      | some (newGroup, invites) =>
        .ok ({ publisher with groupSchedule := publisher.groupSchedule.insert newGroup.startRound newGroup },
          some invites)
      | none =>
        .ok ({ publisher with groupSchedule := publisher.groupSchedule.insert newGroup.startRound newGroup }, none)
    else .ok (publisher, none)

def enterRoundAndStepUntil (shuffle : List NodeId → List NodeId) (round : Round) :
    SecondaryResult (Publisher × Option GroupInvites) :=
  if round < publisher.currRound then .ok (publisher, none)
  else do
    -- the sum is only compared for a log line
    let _ ← addRound publisher.currRound 1
    let entered ← { publisher with currRound := round }.enterRound round
    entered.stepUntil shuffle round

def onCandidateResponse : FullNodesGroupMessage → Publisher
  | .prepareGroupResponse response =>
    match publisher.groupSchedule.get? response.req.startRound with
    | none => publisher
    | some group =>
      { publisher with
        groupSchedule := publisher.groupSchedule.insert response.req.startRound
          (group.onCandidateResponse response.nodeId response.accept) }
  | .prepareGroup _ => publisher
  | .confirmGroup _ => publisher

def getCurrentRaptorcastGroup : Option Group :=
  if publisher.currGroup.roundSpan.contains publisher.currRound then some publisher.currGroup else none

def updateAlwaysAskFullNodes (prioritizedFullNodes : List NodeId) : Publisher :=
  { publisher with
    alwaysAskFullNodes := prioritizedFullNodes
    peerDiscFullNodes := publisher.peerDiscFullNodes.filter fun node => node ∉ prioritizedFullNodes }

def upsertPeerDiscFullNodes (additional : List NodeId) : Publisher :=
  additional.foldl (fun publisher node =>
    if node ∈ publisher.peerDiscFullNodes ∨ node ∈ publisher.alwaysAskFullNodes ∨
      node = publisher.validatorNodeId then publisher
    else { publisher with peerDiscFullNodes := publisher.peerDiscFullNodes ++ [node] }) publisher

theorem new_eq_ok {publisher : Publisher} {validatorId : NodeId} {prioritized : List NodeId}
    {config : GroupSchedulingConfig} (made : Publisher.new validatorId prioritized config = .ok publisher) :
    publisher = ⟨validatorId, config, .empty, prioritized.eraseDups, [], 0, .empty⟩ := by
  rw [Publisher.new] at made
  cases sum : addRound config.maxInviteWait config.deadlineRoundDist with
  | error reason =>
    rw [sum] at made
    cases made
  | ok minSpan =>
    rw [sum] at made
    dsimp only [bind, Except.bind] at made
    split_ifs at made
    exact (Except.ok.inj made).symm

theorem onCandidateResponse_eq (publisher : Publisher) (message : FullNodesGroupMessage) :
    ∃ groupSchedule, publisher.onCandidateResponse message = { publisher with groupSchedule } := by
  cases message with
  | prepareGroup _ => exact ⟨_, rfl⟩
  | confirmGroup _ => exact ⟨_, rfl⟩
  | prepareGroupResponse response =>
    rw [Publisher.onCandidateResponse]
    split <;> exact ⟨_, rfl⟩

theorem upsertPeerDiscFullNodes_eq (publisher : Publisher) (additional : List NodeId) :
    ∃ nodes, publisher.upsertPeerDiscFullNodes additional = { publisher with peerDiscFullNodes := nodes } := by
  rw [upsertPeerDiscFullNodes]
  induction additional generalizing publisher with
  | nil => exact ⟨_, rfl⟩
  | cons node rest ih =>
    rw [List.foldl_cons]
    split
    · exact ih publisher
    · exact ih { publisher with peerDiscFullNodes := publisher.peerDiscFullNodes ++ [node] }

inductive Event where
  | enterRound (round : Round) (invites : Option GroupInvites)
  | candidateResponse (message : FullNodesGroupMessage)
  | updateAlwaysAsk (nodes : List NodeId)
  | upsertPeers (nodes : List NodeId)
deriving DecidableEq

inductive Handles : Publisher → Event → Publisher → Prop where
  | enterRound {publisher publisher' : Publisher} {shuffle : List NodeId → List NodeId} {round : Round}
      {invites : Option GroupInvites} (returns : publisher.enterRoundAndStepUntil shuffle round = .ok
        (publisher', invites)) :
      Handles publisher (.enterRound round invites) publisher'
  | candidateResponse (publisher : Publisher) (message : FullNodesGroupMessage) :
      Handles publisher (.candidateResponse message) (publisher.onCandidateResponse message)
  | updateAlwaysAsk (publisher : Publisher) (nodes : List NodeId) :
      Handles publisher (.updateAlwaysAsk nodes) (publisher.updateAlwaysAskFullNodes nodes)
  | upsertPeers (publisher : Publisher) (nodes : List NodeId) :
      Handles publisher (.upsertPeers nodes) (publisher.upsertPeerDiscFullNodes nodes)

end Publisher

end MonadBft
