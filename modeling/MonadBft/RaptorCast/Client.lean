import MonadBft.Lib.Outcome
import MonadBft.Lib.SortedMap
import MonadBft.RaptorCast.Groups

/-! # The full-node client

`client.rs`: a full node that validators invite to groups. It answers invites, checks confirmations against the
invites it remembers, and hands the groups of the rounds it enters to the primary instance.
-/

namespace MonadBft

open Option Except

/-- `RaptorCastConfigSecondaryClient`. -/
structure ClientConfig where
  maxNumGroup : Nat
  maxGroupSize : Nat
  inviteFutureDistMin : Round
  inviteFutureDistMax : Round
  inviteAcceptHeartbeat : Nat
deriving DecidableEq, Repr

structure Client where
  clientNodeId : NodeId
  config : ClientConfig
  /-- The interval map, by the span of each group. -/
  confirmedGroups : List Group
  pendingConfirms : SortedMap Round (SortedMap NodeId PrepareGroup)
  currRound : Round
  lastRoundHeartbeat : Int

namespace Client

variable (client : Client)

def new (clientNodeId : NodeId) (config : ClientConfig) (now : Int) : SecondaryResult Client :=
  if config.maxNumGroup = 0 then .error .noGroups
  else .ok ⟨clientNodeId, config, [], .empty, genesisRound, now - config.inviteAcceptHeartbeat⟩

/-- `enter_round`, with the groups that go to the primary instance. -/
def enterRound (now : Int) (round : Round) : SecondaryResult (Client × List Group) :=
  if round < client.currRound then .ok (client, [])
  else do
    -- the sum is only compared for a log line
    let _ ← addRound client.currRound 1
    let consumeEnd ← addRound round 1
    let sent := client.confirmedGroups.filter fun group => group.roundSpan.overlaps ⟨round, consumeEnd⟩
    .ok ({ client with
      currRound := round
      lastRoundHeartbeat := now
      pendingConfirms := client.pendingConfirms.filter fun start _ => round < start
      confirmedGroups := client.confirmedGroups.filter fun group => ¬ group.roundSpan.start < consumeEnd }, sent)

def isReceivingProposals (now : Int) : Bool := now < client.lastRoundHeartbeat + client.config.inviteAcceptHeartbeat

def overlaps (start stop : Round) (invite : PrepareGroup) : SecondaryResult Bool :=
  if stop < start ∨ invite.endRound < invite.startRound then .error .invertedSpan
  else .ok (invite.startRound < stop ∧ start < invite.endRound)

/-! ## Invites -/

def outOfBounds (invite : PrepareGroup) : SecondaryResult Bool := do
  let low ← addRound client.currRound client.config.inviteFutureDistMin
  if invite.startRound < low then .ok true
  else do
    let high ← addRound client.currRound client.config.inviteFutureDistMax
    .ok (high < invite.startRound)

/-- The loop over the confirmed groups in the span of an invite: `none` if it is rejected, otherwise how many
there are. -/
def countConfirmed (maxNumGroup : Nat) (validatorId : NodeId) : List Group → Nat → Option Nat
  | [], numCurrentGroups => some numCurrentGroups
  | group :: rest, numCurrentGroups =>
    if group.validatorId = some validatorId then none
    else if maxNumGroup < numCurrentGroups + 1 + 1 then none
    else countConfirmed maxNumGroup validatorId rest (numCurrentGroups + 1)

/-- The loop over the pending invites. -/
def countPending (maxNumGroup : Nat) (invite : PrepareGroup) : List PrepareGroup → Nat → SecondaryResult (Option Nat)
  | [], numCurrentGroups => .ok (some numCurrentGroups)
  | other :: rest, numCurrentGroups => do
    if ← overlaps other.startRound other.endRound invite then
      if maxNumGroup < numCurrentGroups + 1 + 1 then .ok none
      else countPending maxNumGroup invite rest (numCurrentGroups + 1)
    else countPending maxNumGroup invite rest numCurrentGroups

def invitesOf (entries : List (Round × SortedMap NodeId PrepareGroup)) : List PrepareGroup :=
  entries.flatMap fun e => e.2.entries.map Prod.snd

def pendingInvites : List PrepareGroup := invitesOf client.pendingConfirms.entries

def validatePrepareGroupMessage (now : Int) (invite : PrepareGroup) : SecondaryResult Bool :=
  if invite.endRound ≤ invite.startRound then .ok false
  else if invite.startRound ≤ client.currRound then .ok false
  else do
    if (← client.outOfBounds invite) && client.isReceivingProposals now then .ok false
    else if client.config.maxGroupSize < invite.maxGroupSize then .ok false
    else
      match countConfirmed client.config.maxNumGroup invite.validatorId
          (client.confirmedGroups.filter fun group => group.roundSpan.overlaps invite.span) 0 with
      | none => .ok false
      | some numCurrentGroups =>
        -- the keys from the end of the invite on are left out
        let others := invitesOf (client.pendingConfirms.entries.takeWhile fun e => e.1 < invite.endRound)
        return (← countPending client.config.maxNumGroup invite others numCurrentGroups).isSome

def remember (invite : PrepareGroup) : Client :=
  { client with
    pendingConfirms := client.pendingConfirms.insert invite.startRound
      (((client.pendingConfirms.get? invite.startRound).getD .empty).insert invite.validatorId invite) }

def handlePrepareGroupMessage (now : Int) (invite : PrepareGroup) :
    SecondaryResult (Client × PrepareGroupResponse) := do
  let accept ← client.validatePrepareGroupMessage now invite
  .ok (if accept then client.remember invite else client, ⟨invite, client.clientNodeId, accept⟩)

/-! ## Confirmations -/

/-- The checks of a confirmation: the group to confirm, with the invites of its start round. -/
def checkConfirmGroup (confirm : ConfirmGroup) : SecondaryResult (Option (Group × SortedMap NodeId PrepareGroup)) :=
  match RoundSpan.new confirm.prepare.startRound confirm.prepare.endRound with
  | none => .ok none
  | some roundSpan =>
    if confirm.prepare.startRound ≤ client.currRound then .ok none
    else
      match client.pendingConfirms.get? confirm.prepare.startRound with
      | none => .ok none
      | some invites =>
        match invites.get? confirm.prepare.validatorId with
        | none => .ok none
        | some oldInvite =>
          if oldInvite ≠ confirm.prepare then .ok none
          else if confirm.prepare.maxGroupSize < confirm.peers.length then .ok none
          else if client.clientNodeId ∉ confirm.peers then .ok none
          else
            match Group.newFullnodeGroup confirm.peers client.clientNodeId confirm.prepare.validatorId roundSpan with
            | none => .error .ownNodeId
            | some group => .ok (some (group, invites))

/-- `handle_confirm_group_message`, with the groups that go to the primary instance. -/
def handleConfirmGroupMessage (now : Int) (confirm : ConfirmGroup) : SecondaryResult (Client × List Group) := do
  match ← client.checkConfirmGroup confirm with
  | none => .ok (client, [])
  | some (group, invites) =>
    let receiving := client.isReceivingProposals now
    .ok ({ client with
      lastRoundHeartbeat := if receiving then client.lastRoundHeartbeat else now
      confirmedGroups := client.confirmedGroups ++ [group]
      pendingConfirms := client.pendingConfirms.insert confirm.prepare.startRound
        (invites.erase confirm.prepare.validatorId) }, if receiving then [] else [group])

/-- `on_receive_group_message`, with the groups for the primary instance and the reply. -/
def onReceiveGroupMessage (now : Int) :
    FullNodesGroupMessage → SecondaryResult (Client × List Group × Option (FullNodesGroupMessage × NodeId))
  | .prepareGroup invite => do
    let (client, response) ← client.handlePrepareGroupMessage now invite
    .ok (client, [], some (.prepareGroupResponse response, invite.validatorId))
  | .confirmGroup confirm => do
    let (client, sent) ← client.handleConfirmGroupMessage now confirm
    .ok (client, sent, none)
  | .prepareGroupResponse _ => .ok (client, [], none)

def heldInvite (start : Round) (validatorId : NodeId) : Option PrepareGroup :=
  (client.pendingConfirms.get? start).bind fun invites => invites.get? validatorId

inductive Event where
  | enterRound (now : Int) (round : Round)
  | receive (now : Int) (message : FullNodesGroupMessage)

inductive Handles : Client → Event → Client → Prop where
  | enterRound {client client' : Client} {now : Int} {round : Round} {sent : List Group}
      (returns : client.enterRound now round = .ok (client', sent)) : Handles client (.enterRound now round) client'
  | receive {client client' : Client} {now : Int} {message : FullNodesGroupMessage} {sent : List Group}
      {reply : Option (FullNodesGroupMessage × NodeId)}
      (returns : client.onReceiveGroupMessage now message = .ok (client', sent, reply)) :
      Handles client (.receive now message) client'

/-! ## What a step can do -/

section Steps

variable {client} {client' : Client} {now : Int}

variable {clientNodeId : NodeId} {config : ClientConfig} {sent : List Group} {invite : PrepareGroup}
  {confirm : ConfirmGroup} {group : Group} {invites : SortedMap NodeId PrepareGroup}

theorem new_eq_ok (made : Client.new clientNodeId config now = .ok client) : 0 < config.maxNumGroup ∧
      client = ⟨clientNodeId, config, [], .empty, genesisRound, now - config.inviteAcceptHeartbeat⟩ := by
  rw [Client.new] at made
  split at made
  · cases made
  next positive => exact ⟨Nat.pos_of_ne_zero positive, (ok.inj made).symm⟩

/-- What `enter_round` leaves and sends when it moves on. -/
structure Enters (client : Client) (now : Int) (round : Round) (client' : Client) (sent : List Group) : Prop where
  later : client.currRound ≤ round
  left : client' = { client with
    currRound := round
    lastRoundHeartbeat := now
    pendingConfirms := client.pendingConfirms.filter fun start _ => round < start
    confirmedGroups := client.confirmedGroups.filter fun group => round < group.roundSpan.start }
  sends : sent = client.confirmedGroups.filter fun group => group.roundSpan.contains round

theorem enterRound_cases {round : Round} (returns : client.enterRound now round = .ok (client', sent)) :
    (round < client.currRound ∧ client' = client ∧ sent = []) ∨ Enters client now round client' sent := by
  rw [enterRound] at returns
  split at returns
  next backwards =>
    obtain ⟨rfl, rfl⟩ := Prod.mk.inj (ok.inj returns)
    exact .inl ⟨backwards, rfl, rfl⟩
  next notBackwards =>
    cases sum : addRound client.currRound 1 with
    | error reason =>
      rw [sum] at returns
      cases returns
    | ok next =>
      cases fits : addRound round 1 with
      | error reason =>
        rw [sum, fits] at returns
        cases returns
      | ok consumeEnd =>
        rw [sum, fits] at returns
        obtain rfl : consumeEnd = round + 1 := by
          rw [addRound] at fits
          split at fits
          · exact (ok.inj fits).symm
          · cases fits
        obtain ⟨rfl, rfl⟩ := Prod.mk.inj (ok.inj returns)
        refine .inr ⟨not_lt.mp notBackwards, ?_, ?_⟩
        · simp only [Nat.lt_succ_iff, not_le]
        · refine List.filter_congr fun group _ => decide_eq_decide.mpr ?_
          rw [RoundSpan.overlaps, RoundSpan.contains, Nat.lt_succ_iff]

/-- The invites that a client agrees to. -/
structure Agrees (client : Client) (invite : PrepareGroup) : Prop where
  nonempty : invite.startRound < invite.endRound
  future : client.currRound < invite.startRound
  counted : ∃ confirmed pending,
    countConfirmed client.config.maxNumGroup invite.validatorId
      (client.confirmedGroups.filter fun group => group.roundSpan.overlaps invite.span) 0 = some confirmed ∧
    countPending client.config.maxNumGroup invite
      (invitesOf (client.pendingConfirms.entries.takeWhile fun e => e.1 < invite.endRound)) confirmed = .ok
        (some pending)

theorem validatePrepareGroupMessage_true (valid : client.validatePrepareGroupMessage now invite = .ok true) :
    Agrees client invite := by
  rw [validatePrepareGroupMessage] at valid
  split at valid
  · cases valid
  next nonempty =>
    split at valid
    · cases valid
    next future =>
      cases bounds : client.outOfBounds invite with
      | error reason =>
        rw [bounds] at valid
        cases valid
      | ok outside =>
        rw [bounds] at valid
        dsimp only [bind, Except.bind] at valid
        split at valid
        · cases valid
        · split at valid
          · cases valid
          · split at valid
            · cases valid
            next confirmed counted =>
              split at valid
              · cases valid
              next pending countedPending =>
                cases pending with
                | none => cases valid
                | some pending => exact ⟨not_le.mp nonempty, not_le.mp future, confirmed, pending, counted,
                  countedPending⟩

theorem handlePrepareGroupMessage_cases {response : PrepareGroupResponse}
    (returns : client.handlePrepareGroupMessage now invite = .ok (client', response)) :
    (response = ⟨invite, client.clientNodeId, false⟩ ∧ client' = client) ∨
      (response = ⟨invite, client.clientNodeId, true⟩ ∧ client' = client.remember invite ∧
        client.validatePrepareGroupMessage now invite = .ok true) := by
  rw [handlePrepareGroupMessage] at returns
  cases valid : client.validatePrepareGroupMessage now invite with
  | error reason =>
    rw [valid] at returns
    cases returns
  | ok accept =>
    rw [valid] at returns
    obtain ⟨rfl, rfl⟩ := Prod.mk.inj (ok.inj returns)
    cases accept with
    | false => exact .inl ⟨rfl, rfl⟩
    | true => exact .inr ⟨rfl, rfl, rfl⟩

/-- The confirmations that a client acts on. -/
structure Confirms (client : Client) (confirm : ConfirmGroup) (group : Group)
    (invites : SortedMap NodeId PrepareGroup) : Prop where
  nonempty : confirm.prepare.startRound < confirm.prepare.endRound
  future : client.currRound < confirm.prepare.startRound
  found : client.pendingConfirms.get? confirm.prepare.startRound = some invites
  invited : invites.get? confirm.prepare.validatorId = some confirm.prepare
  size : confirm.peers.length ≤ confirm.prepare.maxGroupSize
  member : client.clientNodeId ∈ confirm.peers
  made : Group.newFullnodeGroup confirm.peers client.clientNodeId confirm.prepare.validatorId confirm.prepare.span =
    some group

theorem checkConfirmGroup_some :
    client.checkConfirmGroup confirm = .ok (some (group, invites)) ↔ Confirms client confirm group invites := by
  constructor
  · intro checked
    rw [checkConfirmGroup] at checked
    split at checked
    · cases checked
    next roundSpan spanned =>
      obtain ⟨rfl, nonempty⟩ := RoundSpan.new_eq_some spanned
      split at checked
      · cases checked
      next future =>
        split at checked
        · cases checked
        next found foundInvites =>
          split at checked
          · cases checked
          next oldInvite foundInvite =>
            split at checked
            · cases checked
            next same =>
              split at checked
              · cases checked
              next size =>
                split at checked
                · cases checked
                next member =>
                  split at checked
                  · cases checked
                  next made =>
                    obtain ⟨rfl, rfl⟩ := Prod.mk.inj (some.inj (ok.inj checked))
                    obtain rfl := not_not.mp same
                    exact ⟨nonempty, not_le.mp future, foundInvites, foundInvite, not_lt.mp size, not_not.mp member,
                      made⟩
  · rintro ⟨nonempty, future, foundInvites, foundInvite, size, member, made⟩
    rw [PrepareGroup.span] at made
    rw [checkConfirmGroup, RoundSpan.new_of_lt nonempty]
    dsimp only
    rw [if_neg (not_le.mpr future), foundInvites]
    dsimp only
    rw [foundInvite]
    dsimp only
    rw [if_neg (not_not.mpr rfl), if_neg (not_lt.mpr size), if_neg (not_not.mpr member), made]

/-- What a confirmation changes. -/
def confirmed (client : Client) (now : Int) (confirm : ConfirmGroup) (group : Group)
    (invites : SortedMap NodeId PrepareGroup) : Client :=
  { client with
    lastRoundHeartbeat := if client.isReceivingProposals now then client.lastRoundHeartbeat else now
    confirmedGroups := client.confirmedGroups ++ [group]
    pendingConfirms := client.pendingConfirms.insert confirm.prepare.startRound
      (invites.erase confirm.prepare.validatorId) }

theorem handleConfirmGroupMessage_cases (returns : client.handleConfirmGroupMessage now confirm = .ok (client', sent)) :
    (client' = client ∧ sent = [] ∧ client.checkConfirmGroup confirm = .ok none) ∨
      ∃ group invites, Confirms client confirm group invites ∧ client' = client.confirmed now confirm group invites ∧
        sent = if client.isReceivingProposals now then [] else [group] := by
  rw [handleConfirmGroupMessage] at returns
  cases checked : client.checkConfirmGroup confirm with
  | error reason =>
    rw [checked] at returns
    cases returns
  | ok result =>
    rw [checked] at returns
    cases result with
    | none =>
      obtain ⟨rfl, rfl⟩ := Prod.mk.inj (ok.inj returns)
      exact .inl ⟨rfl, rfl, rfl⟩
    | some pair =>
      obtain ⟨group, invites⟩ := pair
      obtain ⟨rfl, rfl⟩ := Prod.mk.inj (ok.inj returns)
      exact .inr ⟨group, invites, checkConfirmGroup_some.mp checked, rfl, rfl⟩

/-- The cases of a received message. -/
theorem onReceiveGroupMessage_cases {message : FullNodesGroupMessage} {reply : Option (FullNodesGroupMessage × NodeId)}
    (returns : client.onReceiveGroupMessage now message = .ok (client', sent, reply)) :
    (∃ invite response, message = .prepareGroup invite ∧ sent = [] ∧
        client.handlePrepareGroupMessage now invite = .ok (client', response) ∧
        reply = some (.prepareGroupResponse response, invite.validatorId)) ∨
      (∃ confirm, message = .confirmGroup confirm ∧ client.handleConfirmGroupMessage now confirm = .ok
        (client', sent)) ∨
      (∃ response, message = .prepareGroupResponse response ∧ client' = client ∧ sent = []) := by
  cases message with
  | prepareGroup invite =>
    rw [onReceiveGroupMessage] at returns
    cases handled : client.handlePrepareGroupMessage now invite with
    | error reason =>
      rw [handled] at returns
      cases returns
    | ok result =>
      rw [handled] at returns
      obtain ⟨rfl, rfl, rfl⟩ : result.1 = client' ∧ [] = sent ∧ _ = reply := by
        simpa [bind, Except.bind] using returns
      exact .inl ⟨invite, result.2, rfl, rfl, handled, rfl⟩
  | confirmGroup confirm =>
    rw [onReceiveGroupMessage] at returns
    cases handled : client.handleConfirmGroupMessage now confirm with
    | error reason =>
      rw [handled] at returns
      cases returns
    | ok result =>
      rw [handled] at returns
      obtain ⟨rfl, rfl, -⟩ : result.1 = client' ∧ result.2 = sent ∧ none = reply := by
        simpa [bind, Except.bind] using returns
      exact .inr (.inl ⟨confirm, rfl, handled⟩)
  | prepareGroupResponse response =>
    obtain ⟨rfl, rfl, -⟩ : client = client' ∧ [] = sent ∧ none = reply := by
      simpa [onReceiveGroupMessage] using returns
    exact .inr (.inr ⟨response, rfl, rfl, rfl⟩)

/-! ## Remembered invites -/

theorem heldInvite_remember (client : Client) (invite : PrepareGroup) (start : Round) (validatorId : NodeId) :
    (client.remember invite).heldInvite start validatorId =
      if start = invite.startRound ∧ validatorId = invite.validatorId then some invite
      else client.heldInvite start validatorId := by
  rw [heldInvite, remember, SortedMap.get?_insert]
  by_cases sameStart : start = invite.startRound
  · subst sameStart
    rw [if_pos rfl, bind_some, SortedMap.get?_insert, heldInvite]
    by_cases sameId : validatorId = invite.validatorId
    · rw [if_pos sameId, if_pos ⟨rfl, sameId⟩]
    · rw [if_neg sameId, if_neg fun same => sameId same.2]
      cases client.pendingConfirms.get? invite.startRound with
      | none => rfl
      | some invites => rfl
  · rw [if_neg sameStart, if_neg fun same => sameStart same.1, heldInvite]

theorem heldInvite_confirmed (confirms : Confirms client confirm group invites) (now : Int) (start : Round)
    (validatorId : NodeId) : (client.confirmed now confirm group invites).heldInvite start validatorId =
      if start = confirm.prepare.startRound ∧ validatorId = confirm.prepare.validatorId then none
      else client.heldInvite start validatorId := by
  rw [heldInvite, confirmed, SortedMap.get?_insert]
  by_cases sameStart : start = confirm.prepare.startRound
  · subst sameStart
    rw [if_pos rfl, bind_some, SortedMap.get?_erase, heldInvite, confirms.found, bind_some]
    by_cases sameId : validatorId = confirm.prepare.validatorId
    · rw [if_pos sameId, if_pos ⟨rfl, sameId⟩]
    · rw [if_neg sameId, if_neg fun same => sameId same.2]
  · rw [if_neg sameStart, if_neg fun same => sameStart same.1, heldInvite]

theorem Enters.heldInvite_eq_some {round start : Round} {validatorId : NodeId}
    (enters : Enters client now round client' sent) :
    client'.heldInvite start validatorId = some invite ↔ round < start ∧
      client.heldInvite start validatorId = some invite := by
  rw [enters.left, heldInvite, heldInvite, SortedMap.get?_filter]
  cases client.pendingConfirms.get? start with
  | none => simp
  | some invites => by_cases later : round < start <;> simp [Option.filter, later]

theorem Confirms.heldInvite (confirms : Confirms client confirm group invites) :
    client.heldInvite confirm.prepare.startRound confirm.prepare.validatorId = some confirm.prepare := by
  rw [Client.heldInvite, confirms.found, bind_some, confirms.invited]

/-- The invites are filed under their start round and validator, and have not begun. -/
def Files (client : Client) : Prop :=
  ∀ {start validatorId invite}, client.heldInvite start validatorId = some invite →
    invite.startRound = start ∧ invite.validatorId = validatorId ∧ invite.startRound < invite.endRound ∧
      client.currRound < start

theorem Files.step (files : Files client) {event : Event} (step : Handles client event client') : Files client' := by
  cases step with
  | enterRound returns =>
    obtain ⟨-, rfl, -⟩ | enters := enterRound_cases returns
    · exact files
    · intro start validatorId invite held
      obtain ⟨later, before⟩ := enters.heldInvite_eq_some.mp held
      obtain ⟨sameStart, sameId, nonempty, -⟩ := files before
      rw [enters.left]
      exact ⟨sameStart, sameId, nonempty, later⟩
  | receive returns =>
    obtain ⟨invite, response, -, -, handled, -⟩ | ⟨confirm, -, handled⟩ | ⟨-, -, rfl, -⟩ :=
      onReceiveGroupMessage_cases returns
    · obtain ⟨-, rfl⟩ | ⟨-, rfl, valid⟩ := handlePrepareGroupMessage_cases handled
      · exact files
      · have agrees := validatePrepareGroupMessage_true valid
        intro start validatorId other held
        rw [heldInvite_remember] at held
        split at held
        next same =>
          obtain ⟨rfl, rfl⟩ := same
          obtain rfl := some.inj held
          exact ⟨rfl, rfl, agrees.nonempty, agrees.future⟩
        next => exact files held
    · obtain ⟨rfl, -⟩ | ⟨group, invites, confirms, rfl, -⟩ := handleConfirmGroupMessage_cases handled
      · exact files
      · intro start validatorId other held
        rw [heldInvite_confirmed confirms] at held
        split at held
        · cases held
        · exact files held
    · exact files

theorem Files.of_trace {initial : Client} (made : Client.new clientNodeId config now = .ok initial)
    {events : List Event} (run : Trace Handles initial events client) :
    Files client := by
  induction run with
  | nil =>
    obtain ⟨-, rfl⟩ := new_eq_ok made
    intro start validatorId invite held
    cases held
  | snoc _ step ih => exact ih.step step

end Steps

end Client

end MonadBft
