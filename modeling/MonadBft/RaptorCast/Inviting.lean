import MonadBft.RaptorCast.Client
import MonadBft.RaptorCast.Publisher

/-! # Confirmations that the members accept

Every group that a publisher confirms is made of full nodes that were sent this invite and agreed to it, and no more of
them than the invite promises, as long as the publisher takes no answer that is unasked for: one from a candidate that
was not invited yet, one to another invite, or one that comes when the group is full.
-/

namespace MonadBft

open SortedMap Option

/-! ## Invites and answers in a history -/

def Invited (events : List Publisher.Event) (invite : PrepareGroup) (peer : NodeId) : Prop :=
  ∃ round recipients, .enterRound round (some (.prepareGroup invite, recipients)) ∈ events ∧ peer ∈ recipients

def Agreed (events : List Publisher.Event) (invite : PrepareGroup) (peer : NodeId) : Prop :=
  ∃ before after, events = before ++ .candidateResponse (.prepareGroupResponse ⟨invite, peer, true⟩) :: after ∧
    Invited before invite peer

section History

variable {events : List Publisher.Event} {invite : PrepareGroup} {peer : NodeId}

theorem Invited.append (invited : Invited events invite peer) (more : List Publisher.Event) :
    Invited (events ++ more) invite peer := by
  obtain ⟨round, recipients, mem, sent⟩ := invited
  exact ⟨round, recipients, List.mem_append_left _ mem, sent⟩

theorem Agreed.append (agreed : Agreed events invite peer) (more : List Publisher.Event) :
    Agreed (events ++ more) invite peer := by
  obtain ⟨before, after, rfl, invited⟩ := agreed
  exact ⟨before, after ++ more, by simp, invited⟩

end History

/-! ## The groups that are being formed -/

/-- Whom a group has invited and who has agreed. -/
structure Forming (config : GroupSchedulingConfig) (validatorId : NodeId) (events : List Publisher.Event)
    (group : GroupAsPublisher) : Prop where
  distinct : group.fullNodesAccepted.Nodup
  bounded : group.fullNodesAccepted.length ≤ config.maxGroupSize
  invited : ∀ peer ∈ group.fullNodesCandidates.take group.numInvitesSent,
    Invited events (group.prepare config validatorId) peer
  agreed : ∀ peer ∈ group.fullNodesAccepted, Agreed events (group.prepare config validatorId) peer

/-- A confirmation that lists full nodes that agreed to the invite, and not too many. -/
structure Acceptable (config : GroupSchedulingConfig) (validatorId : NodeId) (events : List Publisher.Event)
    (confirm : ConfirmGroup) : Prop where
  validatorId : confirm.prepare.validatorId = validatorId
  size : confirm.prepare.maxGroupSize = config.maxGroupSize
  distinct : confirm.peers.Nodup
  bounded : confirm.peers.length ≤ config.maxGroupSize
  agreed : ∀ peer ∈ confirm.peers, Agreed events confirm.prepare peer

namespace Forming

variable {config : GroupSchedulingConfig} {validatorId : NodeId} {events : List Publisher.Event}
  {group group' : GroupAsPublisher}

variable (forming : Forming config validatorId events group)

include forming

theorem append (more : List Publisher.Event) : Forming config validatorId (events ++ more) group :=
  ⟨forming.distinct, forming.bounded, fun peer mem => (forming.invited peer mem).append more,
    fun peer mem => (forming.agreed peer mem).append more⟩

omit forming in
theorem newRandomized {startRound roundSpan : Round} {alwaysAsk shuffled : List NodeId}
    (made : GroupAsPublisher.newRandomized startRound roundSpan alwaysAsk shuffled = .ok group) :
    Forming config validatorId events group := by
  rw [GroupAsPublisher.newRandomized] at made
  cases sum : addRound startRound roundSpan with
  | error reason =>
    rw [sum] at made
    cases made
  | ok endRound =>
    rw [sum] at made
    obtain rfl := Except.ok.inj made
    exact ⟨.nil, Nat.zero_le _, by simp, by simp⟩

theorem confirm :
    Acceptable config validatorId events ⟨group.prepare config validatorId, group.fullNodesAccepted⟩ :=
  ⟨rfl, rfl, forming.distinct, forming.bounded, forming.agreed⟩

/-- What a group sends, and that it is still well formed with the sending in the history. -/
theorem advanceInvites {now : Round} (round : Round) {invites : GroupInvites}
    (advances : group.advanceInvites now config validatorId = .ok (some (group', invites))) :
    Forming config validatorId (events ++ [.enterRound round (some invites)]) group' ∧
      ∀ confirm recipients, invites = (.confirmGroup confirm, recipients) →
        recipients = confirm.peers ∧ Acceptable config validatorId events confirm := by
  have confirms : ∀ {group' invites}, group.confirm config validatorId = (group', invites) →
      Forming config validatorId (events ++ [.enterRound round (some invites)]) group' ∧
        ∀ confirm recipients, invites = (.confirmGroup confirm, recipients) →
          recipients = confirm.peers ∧ Acceptable config validatorId events confirm := by
    rintro _ _ ⟨⟩
    refine ⟨⟨forming.distinct, forming.bounded, (forming.append _).invited, (forming.append _).agreed⟩, ?_⟩
    rintro _ _ ⟨⟩
    exact ⟨rfl, forming.confirm⟩
  rw [GroupAsPublisher.advanceInvites] at advances
  split at advances
  · cases advances
  · split at advances
    · exact confirms (some.inj (Except.ok.inj advances))
    · cases sum : addRound now config.deadlineRoundDist with
      | error reason =>
        rw [sum] at advances
        cases advances
      | ok deadline =>
        rw [sum] at advances
        dsimp only [bind, Except.bind] at advances
        split at advances
        · exact confirms (some.inj (Except.ok.inj advances))
        · -- more candidates are invited, right after those invited so far
          rw [GroupAsPublisher.inviteMore] at advances
          cases sum' : addRound now config.maxInviteWait with
          | error reason =>
            rw [sum'] at advances
            cases advances
          | ok nextInviteTp =>
            rw [sum'] at advances
            cases advances
            refine ⟨⟨forming.distinct, forming.bounded, ?_, (forming.append _).agreed⟩, by simp⟩
            intro peer mem
            dsimp only at mem
            rw [List.take_add, List.mem_append] at mem
            obtain before | next := mem
            · exact (forming.invited peer before).append _
            · rw [List.length_take, ← List.take_eq_take_min] at next
              exact ⟨round, _, List.mem_append_right _ (.head _), next⟩

/-- An answer that is taken comes from an invited candidate, to this invite, while the group has room. -/
structure Solicited (config : GroupSchedulingConfig) (validatorId : NodeId) (group : GroupAsPublisher)
    (response : PrepareGroupResponse) : Prop where
  invited : response.nodeId ∈ group.fullNodesCandidates.take group.numInvitesSent
  echoes : response.req = group.prepare config validatorId
  room : group.fullNodesAccepted.length < config.maxGroupSize

theorem onCandidateResponse {response : PrepareGroupResponse}
    (solicited : group.isLocked = false → response.nodeId ∈ group.fullNodesCandidates →
      response.nodeId ∉ group.fullNodesAccepted → response.accept = true →
        Solicited config validatorId group response) :
    Forming config validatorId (events ++ [.candidateResponse (.prepareGroupResponse response)])
      (group.onCandidateResponse response.nodeId response.accept) := by
  rw [GroupAsPublisher.onCandidateResponse]
  split
  · exact forming.append _
  next unlocked =>
    split
    · exact forming.append _
    next candidate =>
      split
      · exact forming.append _
      next fresh =>
        split
        next accepts =>
          obtain ⟨invited, echoes, room⟩ := solicited (Bool.eq_false_iff.mpr unlocked)
            (not_not.mp candidate) fresh accepts
          refine ⟨?_, ?_, (forming.append _).invited, ?_⟩
          · exact List.nodup_append_comm.mp (List.nodup_cons.mpr ⟨fresh, forming.distinct⟩)
          · rw [List.length_append, List.length_singleton]
            exact room
          · intro peer mem
            obtain old | new := List.mem_append.mp mem
            · exact (forming.agreed peer old).append _
            · obtain rfl := List.mem_singleton.mp new
              refine ⟨events, [], ?_, forming.invited _ invited⟩
              obtain ⟨req, nodeId, accept⟩ := response
              dsimp only at echoes accepts
              rw [echoes, accepts]
              rfl
        next => exact ⟨forming.distinct, forming.bounded, (forming.append _).invited, (forming.append _).agreed⟩

end Forming

/-! ## The publisher -/

namespace Publisher

variable {publisher publisher' : Publisher} {config : GroupSchedulingConfig} {validatorId : NodeId}
  {events : List Event}

/-- All scheduled groups are being formed as the history says. -/
structure FormsGroups (config : GroupSchedulingConfig) (validatorId : NodeId) (events : List Event)
    (publisher : Publisher) : Prop where
  sameConfig : publisher.schedulingCfg = config
  sameId : publisher.validatorNodeId = validatorId
  forming : ∀ {key group}, (key, group) ∈ publisher.groupSchedule → Forming config validatorId events group

variable {round now key : Round}

theorem serveEmptyGroup_frame (serves : publisher.serveEmptyGroup round = .ok publisher') :
    publisher'.schedulingCfg = publisher.schedulingCfg ∧ publisher'.validatorNodeId = publisher.validatorNodeId ∧
      ∀ e ∈ publisher'.groupSchedule, e ∈ publisher.groupSchedule := by
  rw [serveEmptyGroup] at serves
  cases made : publisher.newEmptyGroup round with
  | error reason =>
    rw [made] at serves
    cases serves
  | ok group =>
    rw [made] at serves
    obtain rfl := Except.ok.inj serves
    exact ⟨rfl, rfl, fun _ mem => mem⟩

/-- Entering a round only drops groups from the schedule. -/
theorem enterRound_frame (enters : publisher.enterRound round = .ok publisher') :
    publisher'.schedulingCfg = publisher.schedulingCfg ∧ publisher'.validatorNodeId = publisher.validatorNodeId ∧
      ∀ e ∈ publisher'.groupSchedule, e ∈ publisher.groupSchedule := by
  rw [enterRound] at enters
  split at enters
  · cases enters
  · split at enters
    · split at enters
      · cases enters
      · obtain rfl := Except.ok.inj enters
        exact ⟨rfl, rfl, fun _ mem => mem⟩
    · dsimp only at enters
      split at enters
      · obtain ⟨sameConfig, sameId, kept⟩ := serveEmptyGroup_frame enters
        exact ⟨sameConfig, sameId, fun e mem => (mem_filter.mp (kept e mem)).1⟩
      next start next first =>
        split at enters
        · obtain ⟨sameConfig, sameId, kept⟩ := serveEmptyGroup_frame enters
          exact ⟨sameConfig, sameId, fun e mem => (mem_filter.mp (kept e mem)).1⟩
        · cases finalized : next.toFinalizedGroup publisher.validatorNodeId with
          | error reason =>
            rw [finalized] at enters
            cases enters
          | ok group =>
            rw [finalized] at enters
            obtain rfl := Except.ok.inj enters
            exact ⟨rfl, rfl, fun e mem => (mem_filter.mp (mem_erase.mp mem).1).1⟩

theorem FormsGroups.enterRound (forms : FormsGroups config validatorId events publisher)
    (enters : { publisher with currRound := round }.enterRound round = .ok publisher') :
    FormsGroups config validatorId events publisher' := by
  obtain ⟨sameConfig, sameId, sub⟩ := enterRound_frame enters
  exact ⟨sameConfig.trans forms.sameConfig, sameId.trans forms.sameId, fun mem => forms.forming (sub _ mem)⟩

theorem advanceLoop_some {schedule : List (Round × GroupAsPublisher)} {group' : GroupAsPublisher}
    {invites : GroupInvites}
    (advances : advanceLoop now config validatorId schedule = .ok (some (key, group', invites))) :
    ∃ group, (key, group) ∈ schedule ∧ group.advanceInvites now config validatorId = .ok (some (group', invites)) := by
  induction schedule with
  | nil => cases advances
  | cons first rest ih =>
    obtain ⟨firstKey, group⟩ := first
    rw [advanceLoop] at advances
    cases result : group.advanceInvites now config validatorId with
    | error reason =>
      rw [result] at advances
      cases advances
    | ok sent =>
      rw [result] at advances
      cases sent with
      | none =>
        obtain ⟨group, mem, advances⟩ := ih advances
        exact ⟨group, .tail _ mem, advances⟩
      | some pair =>
        cases advances
        exact ⟨group, .head _, result⟩

/-- What goes out is an acceptable confirmation or no confirmation. -/
def SendsAcceptable (config : GroupSchedulingConfig) (validatorId : NodeId) (events : List Event)
    (sent : Option GroupInvites) : Prop :=
  ∀ confirm recipients, sent = some (.confirmGroup confirm, recipients) →
    recipients = confirm.peers ∧ Acceptable config validatorId events confirm

variable (forms : FormsGroups config validatorId events publisher)

include forms

theorem FormsGroups.insert {more : List Event}
    {group : GroupAsPublisher} (forming : Forming config validatorId (events ++ more) group) :
    FormsGroups config validatorId (events ++ more)
      { publisher with groupSchedule := publisher.groupSchedule.insert key group } := by
  refine ⟨forms.sameConfig, forms.sameId, fun {other otherGroup} mem => ?_⟩
  obtain ⟨rfl, rfl⟩ | ⟨old, -⟩ := pair_mem_insert.mp mem
  · exact forming
  · exact (forms.forming old).append more

theorem FormsGroups.append (more : List Event) : FormsGroups config validatorId (events ++ more) publisher :=
  ⟨forms.sameConfig, forms.sameId, fun mem => (forms.forming mem).append more⟩

theorem FormsGroups.stepUntil {shuffle : List NodeId → List NodeId} {sent : Option GroupInvites}
    (steps : publisher.stepUntil shuffle now = .ok (publisher', sent)) :
    FormsGroups config validatorId (events ++ [.enterRound round sent]) publisher' ∧
      SendsAcceptable config validatorId events sent := by
  have sends : ∀ {group group' : GroupAsPublisher} {invites : GroupInvites}, Forming config validatorId events group →
      group.advanceInvites now config validatorId = .ok (some (group', invites)) →
        Forming config validatorId (events ++ [.enterRound round (some invites)]) group' ∧
          SendsAcceptable config validatorId events (some invites) := by
    intro group group' invites forming advances
    obtain ⟨forming', confirms⟩ := forming.advanceInvites round advances
    exact ⟨forming', fun confirm recipients same => confirms confirm recipients (some.inj same)⟩
  obtain rfl := forms.sameConfig
  obtain rfl := forms.sameId
  rw [Publisher.stepUntil] at steps
  cases looped : advanceLoop now publisher.schedulingCfg publisher.validatorNodeId publisher.groupSchedule.entries with
  | error reason =>
    rw [looped] at steps
    cases steps
  | ok result =>
    rw [looped] at steps
    cases result with
    | some found =>
      obtain ⟨key, group', invites⟩ := found
      obtain ⟨rfl, rfl⟩ := Prod.mk.inj (Except.ok.inj steps)
      obtain ⟨group, mem, advances⟩ := advanceLoop_some looped
      obtain ⟨forming', acceptable⟩ := sends (forms.forming mem) advances
      exact ⟨forms.insert forming', acceptable⟩
    | none =>
      dsimp only [bind, Except.bind] at steps
      split at steps
      · cases steps
      next horizon _ =>
        split at steps
        · split at steps
          · cases steps
          next newGroup made =>
            have forming : Forming publisher.schedulingCfg publisher.validatorNodeId events newGroup :=
              .newRandomized made
            split at steps
            · cases steps
            next sent' advanced =>
              cases sent' with
              | none =>
                obtain ⟨rfl, rfl⟩ := Prod.mk.inj (Except.ok.inj steps)
                exact ⟨forms.insert (forming.append _), by simp [SendsAcceptable]⟩
              | some pair =>
                obtain ⟨rfl, rfl⟩ := Prod.mk.inj (Except.ok.inj steps)
                obtain ⟨forming', acceptable⟩ := sends forming advanced
                exact ⟨forms.insert forming', acceptable⟩
        · obtain ⟨rfl, rfl⟩ := Prod.mk.inj (Except.ok.inj steps)
          exact ⟨forms.append _, by simp [SendsAcceptable]⟩

omit forms

/-- The answers that a publisher takes are solicited ones. -/
def TakesSolicited (publisher : Publisher) : Event → Prop
  | .candidateResponse (.prepareGroupResponse response) =>
    ∀ group, publisher.groupSchedule.get? response.req.startRound = some group → group.isLocked = false →
      response.nodeId ∈ group.fullNodesCandidates → response.nodeId ∉ group.fullNodesAccepted → response.accept = true →
        Forming.Solicited publisher.schedulingCfg publisher.validatorNodeId group response
  | .candidateResponse (.prepareGroup _) => True
  | .candidateResponse (.confirmGroup _) => True
  | .enterRound _ _ => True
  | .updateAlwaysAsk _ => True
  | .upsertPeers _ => True

def Event.sent : Event → Option GroupInvites
  | .enterRound _ sent => sent
  | .candidateResponse _ => none
  | .updateAlwaysAsk _ => none
  | .upsertPeers _ => none

theorem FormsGroups.step (forms : FormsGroups config validatorId events publisher) {event : Event}
    (solicited : TakesSolicited publisher event) (step : Handles publisher event publisher') :
    FormsGroups config validatorId (events ++ [event]) publisher' ∧
      SendsAcceptable config validatorId events event.sent := by
  have silent : SendsAcceptable config validatorId events none := by simp [SendsAcceptable]
  cases step with
  | @enterRound _ shuffle round sent returns =>
    rw [enterRoundAndStepUntil] at returns
    split at returns
    · obtain ⟨rfl, rfl⟩ := Prod.mk.inj (Except.ok.inj returns)
      exact ⟨forms.append _, silent⟩
    · dsimp only [bind, Except.bind] at returns
      split at returns
      · cases returns
      · split at returns
        · cases returns
        next entered enters => exact (forms.enterRound enters).stepUntil returns
  | candidateResponse message =>
    refine ⟨?_, silent⟩
    cases message with
    | prepareGroup _ => exact forms.append _
    | confirmGroup _ => exact forms.append _
    | prepareGroupResponse response =>
      rw [onCandidateResponse]
      split
      · exact forms.append _
      next group found =>
        have forming := forms.forming (get?_eq_some_iff.mp found)
        have taken := solicited group found
        rw [forms.sameConfig, forms.sameId] at taken
        exact forms.insert (forming.onCandidateResponse taken)
  | updateAlwaysAsk nodes => exact ⟨⟨forms.sameConfig, forms.sameId, fun mem => (forms.forming mem).append _⟩, silent⟩
  | upsertPeers nodes =>
    obtain ⟨peers, same⟩ := publisher.upsertPeerDiscFullNodes_eq nodes
    rw [same]
    exact ⟨⟨forms.sameConfig, forms.sameId, fun mem => (forms.forming mem).append _⟩, silent⟩

/-- A step of a publisher that takes solicited answers only. -/
def HandlesSolicited (publisher : Publisher) (event : Event) (publisher' : Publisher) : Prop :=
  Handles publisher event publisher' ∧ TakesSolicited publisher event

theorem FormsGroups.of_trace {prioritized : List NodeId} {initial : Publisher}
    (made : Publisher.new validatorId prioritized config = .ok initial)
    (run : Trace HandlesSolicited initial events publisher) : FormsGroups config validatorId events publisher := by
  induction run with
  | nil =>
    obtain rfl := new_eq_ok made
    exact ⟨rfl, rfl, fun mem => absurd mem (not_mem_empty _)⟩
  | snoc _ step ih => exact (ih.step step.2 step.1).1

end Publisher

/-- A client that remembers the invite, is listed and has not reached the group's rounds confirms the group. -/
theorem Acceptable.confirmed {config : GroupSchedulingConfig} {validatorId : NodeId} {events : List Publisher.Event}
    {confirm : ConfirmGroup} (acceptable : Acceptable config validatorId events confirm) {client : Client}
    (files : client.Files) (held : client.heldInvite confirm.prepare.startRound validatorId = some confirm.prepare)
    (listed : client.clientNodeId ∈ confirm.peers) :
    ∃ group invites, client.Confirms confirm group invites ∧ group.validatorId = some validatorId ∧
      group.roundSpan = confirm.prepare.span := by
  obtain ⟨-, -, nonempty, future⟩ := files held
  rw [Client.heldInvite, bind_eq_some_iff] at held
  obtain ⟨invites, found, invited⟩ := held
  rw [← acceptable.validatorId] at invited
  obtain ⟨group, made⟩ : ∃ group, Group.newFullnodeGroup confirm.peers client.clientNodeId confirm.prepare.validatorId
      confirm.prepare.span = some group := by
    rw [Group.newFullnodeGroup]
    split
    · exact ⟨_, rfl⟩
    · exact ⟨_, rfl⟩
  obtain ⟨sameId, sameSpan⟩ := Group.newFullnodeGroup_eq_some made
  refine ⟨group, invites, ⟨nonempty, future, found, invited, ?_, listed, made⟩, ?_, sameSpan⟩
  · rw [acceptable.size]
    exact acceptable.bounded
  · rw [sameId, acceptable.validatorId]

/-- In every run in which a publisher takes solicited answers only, each confirmation that it sends goes to the listed
full nodes, which are distinct, not too many, and were sent this invite and agreed to it; and each of their clients that
still holds the invite confirms the group. -/
theorem confirmations_are_acceptable {validatorId : NodeId} {prioritized : List NodeId} {config : GroupSchedulingConfig}
    {initial publisher : Publisher} (made : Publisher.new validatorId prioritized config = .ok initial)
    {events : List Publisher.Event} (run : Trace Publisher.HandlesSolicited initial events publisher)
    {before after : List Publisher.Event} {round : Round} {confirm : ConfirmGroup} {recipients : List NodeId}
    (sends : events = before ++ .enterRound round (some (.confirmGroup confirm, recipients)) :: after) :
    recipients = confirm.peers ∧ Acceptable config validatorId before confirm ∧
      ∀ {clientNodeId clientConfig start newClient clientEvents client}, Client.new clientNodeId clientConfig start =
        .ok newClient → Trace Client.Handles newClient clientEvents client →
        client.heldInvite confirm.prepare.startRound validatorId = some confirm.prepare →
        client.clientNodeId ∈ confirm.peers → client.currRound < confirm.prepare.startRound →
          ∀ now, ∃ group invites, client.handleConfirmGroupMessage now confirm =
            .ok (client.confirmed now confirm group invites, if client.isReceivingProposals now then [] else [group]) ∧
            group.validatorId = some validatorId ∧ group.roundSpan = confirm.prepare.span := by
  subst sends
  obtain ⟨sending, sent, first, step, -⟩ := run.split_cons
  obtain ⟨goesTo, acceptable⟩ :=
    ((Publisher.FormsGroups.of_trace made first).step step.2 step.1).2 confirm recipients rfl
  refine ⟨goesTo, acceptable, ?_⟩
  intro clientNodeId clientConfig start newClient clientEvents client madeClient clientRun held listed _ now
  obtain ⟨group, invites, confirms, sameId, sameSpan⟩ := acceptable.confirmed
    (Client.Files.of_trace madeClient clientRun) held listed
  refine ⟨group, invites, ?_, sameId, sameSpan⟩
  rw [Client.handleConfirmGroupMessage, Client.checkConfirmGroup_some.mpr confirms]
  rfl

namespace TwoCandidates

open Publisher

/-- Groups of one full node, to which nodes 2 and 3 are invited one after the other. -/
def config : GroupSchedulingConfig := ⟨1, 10, 25, 1, 1, 10⟩

def initial : Publisher := ⟨1, config, .empty, [2, 3], [], 0, .empty⟩

def invite : PrepareGroup := ⟨1, 1, 10, 20⟩

def forming (round : Round) (accepted : List NodeId) (sent : Nat) (next : Round) : Publisher :=
  ⟨1, config, ⟨[(10, ⟨accepted, [2, 3], sent, 0, 10, 20, next⟩)], by simp⟩, [2, 3], [], round, ⟨some 1, ⟨0, 10⟩, []⟩⟩

def invites (round : Round) (peer : NodeId) : Event := .enterRound round (some (.prepareGroup invite, [peer]))

def agrees (req : PrepareGroup) (peer : NodeId) : Event := .candidateResponse (.prepareGroupResponse ⟨req, peer, true⟩)

def confirms (round : Round) (peers : List NodeId) : Event := .enterRound round
    (some (.confirmGroup ⟨invite, peers⟩, peers))

theorem invites_two : Handles initial (invites 0 2) (forming 0 [] 1 1) := by
  have enters : initial.enterRoundAndStepUntil id 0 = .ok (forming 0 [] 1 1, some (.prepareGroup invite, [2])) := rfl
  exact .enterRound enters

theorem confirms_one (peer : NodeId) : Handles (forming 0 [peer] 1 1) (confirms 1 [peer])
    (forming 1 [peer] 1 maxRound) := by
  have enters : (forming 0 [peer] 1 1).enterRoundAndStepUntil id 1 =
      .ok (forming 1 [peer] 1 maxRound, some (.confirmGroup ⟨invite, [peer]⟩, [peer])) := rfl
  exact .enterRound enters

theorem solicited_two : TakesSolicited (forming 0 [] 1 1) (agrees invite 2) := by
  intro group found _ _ _ _
  obtain rfl := some.inj found
  exact ⟨by decide, rfl, by decide⟩

def clientConfig : ClientConfig := ⟨3, 50, 1, 600, 10⟩

def fresh (node : NodeId) : Client := ⟨node, clientConfig, [], .empty, 0, -10⟩

theorem holds_invite (node : NodeId) :
    Trace Client.Handles (fresh node) [.receive 0 (.prepareGroup invite)] ((fresh node).remember invite) := by
  have valid : (fresh node).validatePrepareGroupMessage 0 invite = .ok true := by
    simp [Client.validatePrepareGroupMessage, fresh, invite, Client.outOfBounds, clientConfig, addRound, maxRound, bind,
      Except.bind, pure, Except.pure, Client.countConfirmed, Client.invitesOf, empty, Client.countPending]
  have receives : (fresh node).onReceiveGroupMessage 0 (.prepareGroup invite) =
      .ok ((fresh node).remember invite, [], some (.prepareGroupResponse ⟨invite, node, true⟩, 1)) := by
    rw [Client.onReceiveGroupMessage, Client.handlePrepareGroupMessage, valid]
    rfl
  exact .snoc .nil (.receive receives)

/-- Node 2 is invited, agrees, is confirmed, and confirms the group. -/
theorem confirms_the_invited : Acceptable config 1 [invites 0 2, agrees invite 2] ⟨invite, [2]⟩ ∧
    ∃ group invites, ((fresh 2).remember invite).handleConfirmGroupMessage 5 ⟨invite, [2]⟩ =
      .ok (((fresh 2).remember invite).confirmed 5 ⟨invite, [2]⟩ group invites, [group]) := by
  have made : Publisher.new 1 [2, 3] config = .ok initial := rfl
  have run : Trace HandlesSolicited initial [invites 0 2, agrees invite 2, confirms 1 [2]] (forming 1 [2] 1 maxRound) :=
    .snoc (.snoc (.snoc .nil ⟨invites_two, trivial⟩) ⟨.candidateResponse _ _, solicited_two⟩) ⟨confirms_one 2, trivial⟩
  have sends : [invites 0 2, agrees invite 2, confirms 1 [2]] =
      [invites 0 2, agrees invite 2] ++ .enterRound 1 (some (.confirmGroup ⟨invite, [2]⟩, [2])) :: [] := rfl
  obtain ⟨-, acceptable, accepts⟩ := confirmations_are_acceptable made run sends
  have madeClient : Client.new 2 clientConfig 0 = .ok (fresh 2) := rfl
  obtain ⟨group, invites, handled, -⟩ := accepts madeClient (holds_invite 2) rfl (by decide) (by decide) 5
  exact ⟨acceptable, group, invites, handled⟩

/-- Nodes 2 and 3 both agree, the first of them late: both are confirmed and the client of node 2, which holds the
invite, rejects the group. Node 3 agrees without having been invited and is confirmed. And node 2 agrees to another
invite of the same start round and is confirmed for this one. -/
theorem unsolicited_answers :
    (Trace Handles initial [invites 0 2, invites 1 3, agrees invite 2, agrees invite 3, confirms 2 [2, 3]]
        (forming 2 [2, 3] 2 maxRound) ∧
      config.maxGroupSize < [2, 3].length ∧
      Trace Client.Handles (fresh 2) [.receive 0 (.prepareGroup invite)] ((fresh 2).remember invite) ∧
      ((fresh 2).remember invite).checkConfirmGroup ⟨invite, [2, 3]⟩ = .ok none) ∧
    (Trace Handles initial [invites 0 2, agrees invite 3, confirms 1 [3]] (forming 1 [3] 1 maxRound) ∧
      ¬ Invited [invites 0 2, agrees invite 3] invite 3) ∧
    (Trace Handles initial [invites 0 2, agrees ⟨1, 1, 10, 99⟩ 2, confirms 1 [2]] (forming 1 [2] 1 maxRound) ∧
      ¬ Agreed [invites 0 2, agrees ⟨1, 1, 10, 99⟩ 2] invite 2) := by
  have second : (forming 0 [] 1 1).enterRoundAndStepUntil id 1 =
      .ok (forming 1 [] 2 2, some (.prepareGroup invite, [3])) := rfl
  have confirmed : (forming 1 [2, 3] 2 2).enterRoundAndStepUntil id 2 =
      .ok (forming 2 [2, 3] 2 maxRound, some (.confirmGroup ⟨invite, [2, 3]⟩, [2, 3])) := rfl
  refine ⟨⟨?_, by decide, holds_invite 2, rfl⟩, ⟨?_, ?_⟩, ?_, ?_⟩
  · exact .snoc (.snoc (.snoc (.snoc (.snoc .nil invites_two) (.enterRound second)) (.candidateResponse _ _))
      (.candidateResponse _ _)) (.enterRound confirmed)
  · exact .snoc (.snoc (.snoc .nil invites_two) (.candidateResponse _ _)) (confirms_one 3)
  · rintro ⟨round, recipients, mem, listed⟩
    simp [invites, agrees] at mem
    simp [mem] at listed
  · exact .snoc (.snoc (.snoc .nil invites_two) (.candidateResponse _ _)) (confirms_one 2)
  · rintro ⟨before, after, split, -⟩
    have mem : agrees invite 2 ∈ [invites 0 2, agrees ⟨1, 1, 10, 99⟩ 2] := by
      rw [split]
      exact List.mem_append_right _ (.head _)
    simp [invites, agrees, invite] at mem

end TwoCandidates

end MonadBft
