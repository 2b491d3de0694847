import MonadBft.Lib.SortedMapSum
import MonadBft.RaptorCast.Client

/-! # The limits of a full node

A client counts the groups that it has confirmed and the invites that are pending before it agrees to another one. The
groups that have started are not in its table any more, and pending invites of the same validator are not compared: with
these counted and compared, no round lies in too many confirmed groups and the groups of one validator do not overlap.
A confirmed group goes to the primary instance once, in the first round of it that is entered.
-/

namespace MonadBft

open SortedMap Client List

namespace Client

variable {client client' : Client} {now : Int}

/-! ## The counts of an invite -/

variable {maxNumGroup n m : Nat} {validatorId : NodeId} {invite : PrepareGroup}

theorem countConfirmed_some {groups : List Group} (counts : countConfirmed maxNumGroup validatorId groups n = some m) :
    (∀ group ∈ groups, group.validatorId ≠ some validatorId) ∧ m = n + groups.length ∧
    (m = n ∨ m + 1 ≤ maxNumGroup) := by
  induction groups generalizing n with
  | nil =>
    obtain rfl := Option.some.inj counts
    exact ⟨by simp, rfl, .inl rfl⟩
  | cons group rest ih =>
    rw [countConfirmed] at counts
    split at counts
    · cases counts
    next other =>
      split at counts
      · cases counts
      next room =>
        obtain ⟨others, rfl, -⟩ := ih counts
        refine ⟨?_, by rw [length_cons]; omega, ?_⟩
        · rintro group (_ | ⟨_, mem⟩)
          · exact other
          · exact others _ mem
        · obtain ⟨-, -, same | room'⟩ := ih counts
          · exact .inr (by omega)
          · exact .inr room'

theorem countPending_some {others : List PrepareGroup}
    (counts : countPending maxNumGroup invite others n = .ok (some m)) :
    m = n + others.countP (fun other => other.span.overlaps invite.span) ∧ (m = n ∨ m + 1 ≤ maxNumGroup) := by
  induction others generalizing n with
  | nil =>
    obtain rfl := Option.some.inj (Except.ok.inj counts)
    exact ⟨rfl, .inl rfl⟩
  | cons other rest ih =>
    rw [countPending, overlaps] at counts
    split at counts
    · cases counts
    · have same : (decide (invite.startRound < other.endRound ∧ other.startRound < invite.endRound)) =
          decide (other.span.overlaps invite.span) := decide_eq_decide.mpr And.comm
      rw [same] at counts
      dsimp only [bind, Except.bind] at counts
      rw [countP_cons]
      split at counts
      next here =>
        split at counts
        · cases counts
        · obtain ⟨rfl, room⟩ := ih counts
          rw [if_pos here]
          omega
      next apart =>
        obtain ⟨rfl, room⟩ := ih counts
        rw [if_neg apart]
        omega

/-! ## The pending invites -/

theorem mem_invitesOf {entries : List (Round × SortedMap NodeId PrepareGroup)} :
    invite ∈ invitesOf entries ↔ ∃ start invites validatorId, (start, invites) ∈ entries ∧
      (validatorId, invite) ∈ invites := by
  simp only [invitesOf, mem_flatMap, mem_map, Prod.exists, exists_eq_right, mem_def]
  constructor
  · rintro ⟨start, invites, mem, validatorId, held⟩
    exact ⟨start, invites, validatorId, mem, held⟩
  · rintro ⟨start, invites, validatorId, mem, held⟩
    exact ⟨start, invites, mem, validatorId, held⟩

theorem heldInvite_eq_some {start : Round} : client.heldInvite start validatorId = some invite ↔
      ∃ invites, (start, invites) ∈ client.pendingConfirms ∧ (validatorId, invite) ∈ invites := by
  simp only [heldInvite, Option.bind_eq_some_iff, get?_eq_some_iff]

theorem mem_pendingInvites :
    invite ∈ client.pendingInvites ↔ ∃ start validatorId, client.heldInvite start validatorId = some invite := by
  simp only [pendingInvites, mem_invitesOf, heldInvite_eq_some, ← mem_def]
  constructor
  · rintro ⟨start, invites, validatorId, mem, held⟩
    exact ⟨start, validatorId, invites, mem, held⟩
  · rintro ⟨start, validatorId, invites, mem, held⟩
    exact ⟨start, invites, validatorId, mem, held⟩

def weightAt (round : Round) (invite : PrepareGroup) : Nat := if invite.span.contains round then 1 else 0

/-- How many pending invites have a round in their span. -/
def pendingAt (client : Client) (round : Round) : Nat :=
  client.pendingConfirms.sum fun invites => invites.sum (weightAt round)

theorem countP_values (invites : SortedMap NodeId PrepareGroup) (round : Round) :
    (invites.entries.map Prod.snd).countP (fun invite => invite.span.contains round) =
      invites.sum (weightAt round) := by
  rw [SortedMap.sum]
  induction invites.entries with
  | nil => rfl
  | cons e rest ih =>
    rw [map_cons, countP_cons, ih, map_cons, sum_cons, Nat.add_comm]
    simp only [weightAt, decide_eq_true_eq]

theorem countP_invitesOf (entries : List (Round × SortedMap NodeId PrepareGroup)) (round : Round) :
    (invitesOf entries).countP (fun invite => invite.span.contains round) =
      (entries.map fun e => e.2.sum (weightAt round)).sum := by
  rw [invitesOf, countP_flatMap]
  congr 1
  exact map_congr_left fun e _ => countP_values e.2 round

theorem le_of_mem_dropWhile {V : Type} {stop : Round} {entries : List (Round × V)}
    (sorted : entries.Pairwise (fun a b => a.1 < b.1))
    {e : Round × V} (mem : e ∈ entries.dropWhile fun e => e.1 < stop) : stop ≤ e.1 := by
  induction entries with
  | nil => cases mem
  | cons first rest ih =>
    obtain ⟨above, sortedRest⟩ := pairwise_cons.mp sorted
    rw [dropWhile_cons] at mem
    split at mem
    next => exact ih sortedRest mem
    next reached =>
      have reached := not_lt.mp fun before => reached (decide_eq_true before)
      obtain rfl | inRest := mem_cons.mp mem
      · exact reached
      · exact le_trans reached (le_of_lt (above e inRest))

/-- The break of the loop over the pending invites leaves out none that has a round before the end of the invite. -/
theorem pendingAt_le_countP {round : Round} (files : client.Files) (contains : invite.span.contains round) :
    client.pendingAt round ≤
      (invitesOf (client.pendingConfirms.entries.takeWhile fun e => e.1 < invite.endRound)).countP
        (fun other => other.span.overlaps invite.span) := by
  have split := takeWhile_append_dropWhile (p := fun e => decide (e.1 < invite.endRound))
    (l := client.pendingConfirms.entries)
  have later : (invitesOf (client.pendingConfirms.entries.dropWhile fun e => e.1 < invite.endRound)).countP
      (fun other => other.span.contains round) = 0 := by
    rw [countP_eq_zero]
    intro other mem
    obtain ⟨start, invites, validatorId, inEntries, held⟩ := mem_invitesOf.mp mem
    have reached := le_of_mem_dropWhile client.pendingConfirms.sorted inEntries
    have filed := files (heldInvite_eq_some.mpr ⟨invites, (dropWhile_sublist _).mem inEntries, held⟩)
    have before : round < invite.endRound := contains.2
    simp only [decide_eq_true_eq]
    intro contains'
    have after : other.startRound ≤ round := contains'.1
    lia
  calc client.pendingAt round
      = (invitesOf client.pendingConfirms.entries).countP (fun other => other.span.contains round) :=
        (countP_invitesOf _ round).symm
    _ = (invitesOf (client.pendingConfirms.entries.takeWhile fun e => e.1 < invite.endRound)).countP
          (fun other => other.span.contains round) := by
        conv_lhs => rw [← split, invitesOf, flatMap_append, countP_append]
        rw [← invitesOf, ← invitesOf, later, Nat.add_zero]
    _ ≤ _ := by
        refine countP_mono_left fun other _ contains' => ?_
        exact decide_eq_true (RoundSpan.overlaps_of_contains (of_decide_eq_true contains') contains)

theorem pendingAt_remember_le (client : Client) (invite : PrepareGroup) (round : Round) :
    (client.remember invite).pendingAt round ≤ client.pendingAt round + weightAt round invite := by
  rw [pendingAt, pendingAt, remember]
  dsimp only
  cases found : client.pendingConfirms.get? invite.startRound with
  | none =>
    have inner := sum_insert_le (.empty : SortedMap NodeId PrepareGroup) invite.validatorId invite (weightAt round)
    have none : (.empty : SortedMap NodeId PrepareGroup).sum (weightAt round) = 0 := rfl
    rw [sum_insert_of_get?_none found, Option.getD_none]
    omega
  | some invites =>
    have inner := sum_insert_le invites invite.validatorId invite (weightAt round)
    have outer := sum_insert_of_get? found (invites.insert invite.validatorId invite) fun invites =>
      invites.sum (weightAt round)
    rw [Option.getD_some]
    omega

theorem Confirms.pendingAt {confirm : ConfirmGroup} {group : Group} {invites : SortedMap NodeId PrepareGroup}
    (confirms : Confirms client confirm group invites) (now : Int) (round : Round) :
    (client.confirmed now confirm group invites).pendingAt round + weightAt round confirm.prepare =
      client.pendingAt round := by
  rw [Client.pendingAt, Client.pendingAt, confirmed]
  have inner := sum_erase_of_get? confirms.invited (weightAt round)
  have outer := sum_insert_of_get? confirms.found (invites.erase confirm.prepare.validatorId) fun invites =>
    invites.sum (weightAt round)
  dsimp only
  omega

end Client

/-! ## The history of a client -/

/-- A client with the groups it has confirmed (and whether it was receiving proposals then), the groups it has handed to
the primary instance, and the rounds it has entered. -/
structure Session where
  client : Client
  confirmed : List (Group × Bool)
  handed : List Group
  entered : List Round

namespace Session

def newlyConfirmed (client : Client) (now : Int) : FullNodesGroupMessage → List (Group × Bool)
  | .confirmGroup confirm =>
    match client.checkConfirmGroup confirm with
    | .ok (some (group, _)) => [(group, client.isReceivingProposals now)]
    | .ok none => []
    | .error _ => []
  | .prepareGroup _ => []
  | .prepareGroupResponse _ => []

inductive Handles : Session → Client.Event → Session → Prop where
  | enterRound {session : Session} {client' : Client} {now : Int} {round : Round} {sent : List Group}
      (returns : session.client.enterRound now round = .ok (client', sent)) :
      Handles session (.enterRound now round)
        ⟨client', session.confirmed, session.handed ++ sent, session.entered ++ [round]⟩
  | receive {session : Session} {client' : Client} {now : Int} {message : FullNodesGroupMessage} {sent : List Group}
      {reply : Option (FullNodesGroupMessage × NodeId)}
      (returns : session.client.onReceiveGroupMessage now message = .ok (client', sent, reply)) :
      Handles session (.receive now message)
        ⟨client', session.confirmed ++ newlyConfirmed session.client now message, session.handed ++ sent,
          session.entered⟩

/-- What a step can do to a session. -/
inductive Moves (session : Session) (event : Client.Event) (session' : Session) : Prop where
  | stays (same : session' = session)
  | backwards {now : Int} {round : Round} (called : event = .enterRound now round)
      (before : round < session.client.currRound)
      (left : session' = { session with entered := session.entered ++ [round] })
  | enters {now : Int} {round : Round} {client' : Client} {sent : List Group} (called : event = .enterRound now round)
      (enters : session.client.Enters now round client' sent)
      (left : session' = ⟨client', session.confirmed, session.handed ++ sent, session.entered ++ [round]⟩)
  | invited {now : Int} {invite : PrepareGroup} (received : event = .receive now (.prepareGroup invite))
      (valid : session.client.validatePrepareGroupMessage now invite = .ok true)
      (left : session' = { session with client := session.client.remember invite })
  | confirms {now : Int} {confirm : ConfirmGroup} {group : Group} {invites : SortedMap NodeId PrepareGroup}
      (confirms : session.client.Confirms confirm group invites)
      (left : session' = ⟨session.client.confirmed now confirm group invites,
        session.confirmed ++ [(group, session.client.isReceivingProposals now)],
        session.handed ++ (if session.client.isReceivingProposals now then [] else [group]), session.entered⟩)

variable {session session' : Session}

variable {event : Client.Event} {now : Int} {entry : Group × Bool} {confirm : ConfirmGroup}
  {invites : SortedMap NodeId PrepareGroup} {round : Round}

theorem Handles.moves (step : Handles session event session') : Moves session event session' := by
  cases step with
  | enterRound returns =>
    obtain ⟨before, rfl, rfl⟩ | enters := enterRound_cases returns
    · exact .backwards rfl before (by rw [append_nil])
    · exact .enters rfl enters rfl
  | receive returns =>
    obtain ⟨invite, response, rfl, rfl, handled, -⟩ | ⟨confirm, rfl, handled⟩ | ⟨response, rfl, rfl, rfl⟩ :=
      onReceiveGroupMessage_cases returns
    · simp only [newlyConfirmed, append_nil]
      obtain ⟨-, rfl⟩ | ⟨-, rfl, valid⟩ := handlePrepareGroupMessage_cases handled
      · exact .stays rfl
      · exact .invited rfl valid rfl
    · obtain ⟨rfl, rfl, checked⟩ | ⟨group, invites, confirms, rfl, rfl⟩ := handleConfirmGroupMessage_cases handled
      · simp only [newlyConfirmed, checked, append_nil]
        exact .stays rfl
      · rw [newlyConfirmed, checkConfirmGroup_some.mpr confirms]
        exact .confirms confirms rfl
    · simp only [newlyConfirmed, append_nil]
      exact .stays rfl

/-! ## What every session keeps -/

def key (entry : Group × Bool) : Option NodeId × Round := (entry.1.validatorId, entry.1.roundSpan.start)

/-- The confirmed groups that have not started are the client's table; a group is confirmed once. -/
structure Tracked (session : Session) : Prop where
  files : session.client.Files
  table : session.client.confirmedGroups =
    (session.confirmed.map Prod.fst).filter fun group => session.client.currRound < group.roundSpan.start
  spans : ∀ entry ∈ session.confirmed, genesisRound < entry.1.roundSpan.start ∧
    entry.1.roundSpan.start < entry.1.roundSpan.stop
  distinct : (session.confirmed.map key).Nodup
  unconfirmed : ∀ {start validatorId invite}, session.client.heldInvite start validatorId = some invite →
    (some validatorId, start) ∉ session.confirmed.map key

theorem Tracked.of_new {clientNodeId : NodeId} {config : ClientConfig} {client : Client}
    (made : Client.new clientNodeId config now = .ok client) : Tracked ⟨client, [], [], []⟩ := by
  obtain ⟨-, rfl⟩ := new_eq_ok made
  refine ⟨?_, rfl, by simp, .nil, by simp⟩
  intro start validatorId invite held
  cases held

section

variable {invite : PrepareGroup} {group : Group} (tracked : Tracked session)

include tracked

/-- A group that has not started is in the table. -/
theorem Tracked.mem_table (mem : entry ∈ session.confirmed)
    (future : session.client.currRound < entry.1.roundSpan.start) : entry.1 ∈ session.client.confirmedGroups := by
  rw [tracked.table]
  exact List.mem_filter.mpr ⟨mem_map_of_mem mem, decide_eq_true future⟩

/-- The groups of the table that overlap an invite are of other validators. -/
theorem Tracked.other_validator (agrees : session.client.Agrees invite)
    (mem : entry ∈ session.confirmed) (future : session.client.currRound < entry.1.roundSpan.start)
    (overlap : entry.1.roundSpan.overlaps invite.span) : entry.1.validatorId ≠ some invite.validatorId := by
  obtain ⟨confirmed, pending, counted, -⟩ := agrees.counted
  exact (countConfirmed_some counted).1 _
    (List.mem_filter.mpr ⟨tracked.mem_table mem future, decide_eq_true overlap⟩)

theorem Tracked.step (moves : Moves session event session') (files : session'.client.Files) : Tracked session' := by
  cases moves with
  | stays same =>
    rw [same]
    exact tracked
  | backwards _ before left =>
    subst left
    exact ⟨files, tracked.table, tracked.spans, tracked.distinct, tracked.unconfirmed⟩
  | @enters now round client' sent _ enters left =>
    subst left
    refine ⟨files, ?_, tracked.spans, tracked.distinct, fun held => tracked.unconfirmed
      (enters.heldInvite_eq_some.mp held).2⟩
    have later := enters.later
    rw [enters.left]
    dsimp only
    rw [tracked.table, filter_filter]
    refine filter_congr fun group _ => ?_
    by_cases after : round < group.roundSpan.start
    · simp [after, lt_of_le_of_lt later after]
    · simp [after]
  | @invited now invite _ valid left =>
    subst left
    have agrees := validatePrepareGroupMessage_true valid
    refine ⟨files, tracked.table, tracked.spans, tracked.distinct, fun {start validatorId other} held => ?_⟩
    dsimp only at held
    rw [heldInvite_remember] at held
    split at held
    next same =>
      obtain ⟨rfl, rfl⟩ := same
      intro confirmed
      obtain ⟨entry, mem, sameKey⟩ := mem_map.mp confirmed
      obtain ⟨sameId, sameStart⟩ := Prod.mk.inj sameKey
      have spans := (tracked.spans entry mem).2
      have nonempty := agrees.nonempty
      refine tracked.other_validator agrees mem (sameStart ▸ agrees.future) ⟨?_, ?_⟩ sameId
      · change entry.1.roundSpan.start < invite.endRound
        lia
      · change invite.startRound < entry.1.roundSpan.stop
        lia
    next => exact tracked.unconfirmed held
  | @confirms now confirm group invites confirms left =>
    subst left
    obtain ⟨sameId, sameSpan⟩ := Group.newFullnodeGroup_eq_some confirms.made
    have groupKey : key (group, session.client.isReceivingProposals now) =
        (some confirm.prepare.validatorId, confirm.prepare.startRound) := by
      rw [key, sameId, sameSpan]
      rfl
    refine ⟨files, ?_, ?_, ?_, fun {start validatorId other} held => ?_⟩
    · dsimp only [Client.confirmed]
      rw [tracked.table, map_append, filter_append]
      have future : session.client.currRound < group.roundSpan.start := by
        rw [sameSpan]
        exact confirms.future
      exact congrArg _ (by simp [future])
    · intro entry mem
      obtain old | new := mem_append.mp mem
      · exact tracked.spans entry old
      · obtain rfl := mem_singleton.mp new
        rw [sameSpan]
        exact ⟨lt_of_le_of_lt (Nat.zero_le _) confirms.future, confirms.nonempty⟩
    · rw [map_append, map_singleton, groupKey]
      exact nodup_append_comm.mp (nodup_cons.mpr ⟨tracked.unconfirmed confirms.heldInvite, tracked.distinct⟩)
    · dsimp only at held
      rw [heldInvite_confirmed confirms] at held
      split at held
      · cases held
      next differs =>
        rw [map_append, mem_append, map_singleton, groupKey, mem_singleton]
        rintro (old | new)
        · exact tracked.unconfirmed held old
        · obtain ⟨sameId', sameStart'⟩ := Prod.mk.inj new
          exact differs ⟨sameStart', Option.some.inj sameId'⟩

omit tracked in
theorem Handles.client (step : Handles session event session') :
    Client.Handles session.client event session'.client := by
  cases step with
  | enterRound returns => exact .enterRound returns
  | receive returns => exact .receive returns

/-! ## Handed to the primary once -/

def InOrder (session : Session) : Client.Event → Prop
  | .enterRound _ round => ∀ entered ∈ session.entered, entered ≤ round
  | .receive _ _ => True

/-- A group that was confirmed while the client was receiving proposals has been handed on once if a round of it was
entered, and not at all otherwise. -/
structure Handing (session : Session) : Prop where
  reached : session.client.currRound = genesisRound ∨ session.client.currRound ∈ session.entered
  upTo : ∀ round ∈ session.entered, round ≤ session.client.currRound
  known : ∀ group ∈ session.handed, ∃ receiving, (group, receiving) ∈ session.confirmed
  once : ∀ {group}, (group, true) ∈ session.confirmed →
    ((∃ round ∈ session.entered, group.roundSpan.contains round) ∧ session.handed.count group = 1) ∨
      ((∀ round ∈ session.entered, ¬ group.roundSpan.contains round) ∧ session.handed.count group = 0)

theorem Tracked.nodup_table : session.client.confirmedGroups.Nodup := by
  rw [tracked.table]
  refine List.Nodup.filter _ ?_
  refine List.Nodup.of_map (fun group : Group => (group.validatorId, group.roundSpan.start)) ?_
  rw [map_map]
  exact tracked.distinct

/-- Two confirmed entries of one group are the same. -/
theorem Tracked.not_mem_of_confirms (confirms : session.client.Confirms confirm group invites) (receiving : Bool) :
    (group, receiving) ∉ session.confirmed := by
  intro mem
  obtain ⟨sameId, sameSpan⟩ := Group.newFullnodeGroup_eq_some confirms.made
  apply tracked.unconfirmed confirms.heldInvite
  refine mem_map.mpr ⟨_, mem, ?_⟩
  rw [key, sameId, sameSpan]
  rfl

theorem Handing.enters (handing : Handing session) {client' : Client} {sent : List Group}
    (enters : session.client.Enters now round client' sent) {group : Group} (mem : (group, true) ∈ session.confirmed) :
    ((∃ entered ∈ session.entered ++ [round], group.roundSpan.contains entered) ∧
      (session.handed ++ sent).count group = 1) ∨
      ((∀ entered ∈ session.entered ++ [round], ¬ group.roundSpan.contains entered) ∧
        (session.handed ++ sent).count group = 0) := by
  have later := enters.later
  rw [enters.sends, count_append]
  by_cases started : group.roundSpan.start ≤ session.client.currRound
  · -- it has left the table
    have absent : group ∉ session.client.confirmedGroups.filter fun group => group.roundSpan.contains round := by
      rw [tracked.table]
      intro mem
      have future := of_decide_eq_true (List.mem_filter.mp (List.mem_filter.mp mem).1).2
      exact absurd started (not_le.mpr future)
    rw [count_eq_zero_of_not_mem absent, Nat.add_zero]
    obtain ⟨⟨entered, inEntered, contains⟩, once⟩ | ⟨none, zero⟩ := handing.once mem
    · exact .inl ⟨⟨entered, mem_append_left _ inEntered, contains⟩, once⟩
    · refine .inr ⟨fun entered inEntered contains => ?_, zero⟩
      obtain old | new := mem_append.mp inEntered
      · exact none entered old contains
      · obtain rfl := mem_singleton.mp new
        -- the current round was entered and is not in the span, so the span has ended
        obtain genesis | current := handing.reached
        · have after := (tracked.spans _ mem).1
          lia
        · exact none _ current ⟨started, lt_of_le_of_lt later contains.2⟩
  · have future := not_le.mp started
    have unentered : ∀ entered ∈ session.entered, ¬ group.roundSpan.contains entered := by
      intro entered inEntered contains
      exact absurd (le_trans contains.1 (handing.upTo entered inEntered)) started
    have zero : session.handed.count group = 0 := by
      obtain ⟨⟨entered, inEntered, contains⟩, -⟩ | ⟨-, zero⟩ := handing.once mem
      · exact absurd contains (unentered entered inEntered)
      · exact zero
    rw [zero, Nat.zero_add]
    by_cases contains : group.roundSpan.contains round
    · refine .inl ⟨⟨round, mem_append_right _ (.head _), contains⟩, ?_⟩
      have counted : (session.client.confirmedGroups.filter fun group => group.roundSpan.contains round).count group =
          session.client.confirmedGroups.count group := count_filter (by simpa using contains)
      rw [counted]
      exact count_eq_one_of_mem tracked.nodup_table (tracked.mem_table mem future)
    · refine .inr ⟨fun entered inEntered contains' => ?_, ?_⟩
      · obtain old | new := mem_append.mp inEntered
        · exact unentered entered old contains'
        · obtain rfl := mem_singleton.mp new
          exact contains contains'
      · refine count_eq_zero_of_not_mem fun mem => contains ?_
        exact of_decide_eq_true (List.mem_filter.mp mem).2

theorem Handing.step (handing : Handing session) (inOrder : InOrder session event)
    (moves : Moves session event session') : Handing session' := by
  cases moves with
  | stays same =>
    rw [same]
    exact handing
  | @backwards now round called before left =>
    -- a round below the current one would come after it
    subst called
    obtain genesis | current := handing.reached
    · rw [genesis] at before
      exact absurd before (Nat.not_lt_zero _)
    · exact absurd (inOrder _ current) (not_le.mpr before)
  | @enters now round client' sent called enters left =>
    subst left
    have later := enters.later
    have atRound : client'.currRound = round := by rw [enters.left]
    refine ⟨.inr ?_, ?_, ?_, fun mem => handing.enters tracked enters mem⟩
    · dsimp only
      rw [atRound]
      exact mem_append_right _ (.head _)
    · intro entered mem
      dsimp only
      rw [atRound]
      obtain old | new := mem_append.mp mem
      · exact le_trans (handing.upTo entered old) later
      · exact le_of_eq (mem_singleton.mp new)
    · intro group mem
      obtain old | new := mem_append.mp mem
      · exact handing.known group old
      · rw [enters.sends, tracked.table] at new
        obtain ⟨⟨group, receiving⟩, confirmed, rfl⟩ := mem_map.mp (List.mem_filter.mp (List.mem_filter.mp new).1).1
        exact ⟨receiving, confirmed⟩
  | invited _ _ left =>
    subst left
    exact ⟨handing.reached, handing.upTo, handing.known, handing.once⟩
  | @confirms now confirm group invites confirms left =>
    subst left
    have future : session.client.currRound < group.roundSpan.start := by
      rw [(Group.newFullnodeGroup_eq_some confirms.made).2]
      exact confirms.future
    refine ⟨handing.reached, handing.upTo, ?_, fun {other} mem => ?_⟩
    · intro other mem
      obtain old | new := mem_append.mp mem
      · obtain ⟨receiving, mem⟩ := handing.known other old
        exact ⟨receiving, mem_append_left _ mem⟩
      · split at new
        · cases new
        · obtain rfl := mem_singleton.mp new
          exact ⟨_, mem_append_right _ (.head _)⟩
    · dsimp only at mem ⊢
      rw [count_append]
      obtain old | new := mem_append.mp mem
      · have apart : other ≠ group := by
          rintro rfl
          exact tracked.not_mem_of_confirms confirms _ old
        have none : (if session.client.isReceivingProposals now then [] else [group]).count other = 0 := by
          split
          · rfl
          · exact count_eq_zero_of_not_mem fun mem => apart (mem_singleton.mp mem)
        rw [none, Nat.add_zero]
        exact handing.once old
      · obtain ⟨rfl, receiving⟩ := Prod.mk.inj (mem_singleton.mp new)
        refine .inr ⟨fun round mem contains => ?_, ?_⟩
        · exact absurd (le_trans contains.1 (handing.upTo round mem)) (not_le.mpr future)
        · rw [if_pos receiving.symm, count_nil, Nat.add_zero]
          refine count_eq_zero_of_not_mem fun mem => ?_
          obtain ⟨receiving, mem⟩ := handing.known _ mem
          exact tracked.not_mem_of_confirms confirms _ mem

/-! ## The limits -/

/-- What the check of an invite leaves out: the groups that have started, and the pending invites of the validator. -/
structure Room (session : Session) (invite : PrepareGroup) : Prop where
  counted :
    (∀ entry ∈ session.confirmed, entry.1.roundSpan.start ≤ session.client.currRound →
      ¬ entry.1.roundSpan.overlaps invite.span) ∨
    session.confirmed.countP (fun entry => entry.1.roundSpan.overlaps invite.span) +
      session.client.pendingInvites.countP (fun other => other.span.overlaps invite.span) + 1 ≤
        session.client.config.maxNumGroup
  startedApart : ∀ entry ∈ session.confirmed, entry.1.roundSpan.start ≤ session.client.currRound →
    entry.1.validatorId = some invite.validatorId → ¬ entry.1.roundSpan.overlaps invite.span
  pendingApart : ∀ other ∈ session.client.pendingInvites, other.validatorId = invite.validatorId →
    other.startRound ≠ invite.startRound → ¬ other.span.overlaps invite.span

/-- The invites that the client agrees to have room. -/
def HasRoom (session : Session) : Client.Event → Prop
  | .receive now (.prepareGroup invite) =>
    session.client.validatePrepareGroupMessage now invite = .ok true → Room session invite
  | .receive _ (.confirmGroup _) => True
  | .receive _ (.prepareGroupResponse _) => True
  | .enterRound _ _ => True

structure Limited (session : Session) : Prop where
  positive : 0 < session.client.config.maxNumGroup
  fits : ∀ round, session.confirmed.countP (fun entry => entry.1.roundSpan.contains round) +
    session.client.pendingAt round ≤ session.client.config.maxNumGroup
  apart : session.confirmed.Pairwise fun entry other =>
    entry.1.validatorId = other.1.validatorId → ¬ entry.1.roundSpan.overlaps other.1.roundSpan
  pendingApart : ∀ {start validatorId invite}, session.client.heldInvite start validatorId = some invite →
    ∀ entry ∈ session.confirmed, entry.1.validatorId = some validatorId → ¬ entry.1.roundSpan.overlaps invite.span
  pendingPairs : ∀ {start start' validatorId invite invite'},
    session.client.heldInvite start validatorId = some invite →
    session.client.heldInvite start' validatorId = some invite' → start ≠ start' → ¬ invite.span.overlaps invite'.span

variable (limited : Limited session)

include limited

/-- With room, a round of the invite lies in fewer groups and pending invites than the limit. -/
theorem Limited.room
    (agrees : session.client.Agrees invite) (room : Room session invite) (contains : invite.span.contains round) :
    session.confirmed.countP (fun entry => entry.1.roundSpan.contains round) + session.client.pendingAt round + 1 ≤
      session.client.config.maxNumGroup := by
  obtain unstarted | counted := room.counted
  · obtain ⟨confirmed, pending, countedConfirmed, countedPending⟩ := agrees.counted
    obtain ⟨-, numConfirmed, roomConfirmed⟩ := countConfirmed_some countedConfirmed
    obtain ⟨numPending, roomPending⟩ := countPending_some countedPending
    -- the groups in the table are counted by the client itself
    have inTable : session.confirmed.countP (fun entry => entry.1.roundSpan.contains round) ≤
        (session.client.confirmedGroups.filter fun group => group.roundSpan.overlaps invite.span).length := by
      rw [tracked.table, ← countP_eq_length_filter, countP_filter, countP_map]
      refine countP_mono_left fun entry mem contains' => ?_
      have overlap := RoundSpan.overlaps_of_contains (of_decide_eq_true contains') contains
      have future := not_le.mp fun started => unstarted entry mem started overlap
      simp [overlap, future]
    have inPending := pendingAt_le_countP tracked.files contains
    have positive := limited.positive
    omega
  · have inConfirmed : session.confirmed.countP (fun entry => entry.1.roundSpan.contains round) ≤
        session.confirmed.countP (fun entry => entry.1.roundSpan.overlaps invite.span) :=
      countP_mono_left fun entry _ contains' =>
        decide_eq_true (RoundSpan.overlaps_of_contains (of_decide_eq_true contains') contains)
    have inPending : session.client.pendingAt round ≤
        session.client.pendingInvites.countP (fun other => other.span.overlaps invite.span) := by
      rw [pendingAt, SortedMap.sum, ← countP_invitesOf]
      exact countP_mono_left fun other _ contains' =>
        decide_eq_true (RoundSpan.overlaps_of_contains (of_decide_eq_true contains') contains)
    omega

theorem Limited.invited (valid : session.client.validatePrepareGroupMessage now invite = .ok true)
    (room : Room session invite) : Limited { session with client := session.client.remember invite } := by
  have agrees := validatePrepareGroupMessage_true valid
  have confirmedApart : ∀ entry ∈ session.confirmed, entry.1.validatorId = some invite.validatorId →
      ¬ entry.1.roundSpan.overlaps invite.span := by
    intro entry mem sameId overlap
    by_cases started : entry.1.roundSpan.start ≤ session.client.currRound
    · exact room.startedApart entry mem started sameId overlap
    · exact tracked.other_validator agrees mem (not_le.mp started) overlap sameId
  have pendingApart : ∀ {start other}, session.client.heldInvite start invite.validatorId = some other →
      start ≠ invite.startRound → ¬ other.span.overlaps invite.span := by
    intro start other held differs
    obtain ⟨sameStart, sameId, -⟩ := tracked.files held
    exact room.pendingApart other (mem_pendingInvites.mpr ⟨start, _, held⟩) sameId (sameStart ▸ differs)
  refine ⟨limited.positive, fun round => ?_, limited.apart, fun {start validatorId other} held entry mem sameId => ?_,
    fun {start start' validatorId other other'} held held' differs => ?_⟩
  · have added := session.client.pendingAt_remember_le invite round
    have before := limited.fits round
    change _ + (session.client.remember invite).pendingAt round ≤ session.client.config.maxNumGroup
    rw [weightAt] at added
    split at added
    next contains =>
      have room := limited.room tracked agrees room contains
      dsimp only
      omega
    next =>
      dsimp only
      omega
  · dsimp only at held
    rw [heldInvite_remember] at held
    split at held
    next same =>
      obtain ⟨rfl, rfl⟩ := same
      obtain rfl := Option.some.inj held
      exact confirmedApart entry mem sameId
    next => exact limited.pendingApart held entry mem sameId
  · dsimp only at held held'
    rw [heldInvite_remember] at held held'
    split at held
    next same =>
      obtain ⟨rfl, rfl⟩ := same
      obtain rfl := Option.some.inj held
      rw [if_neg fun same => differs same.1.symm] at held'
      rw [RoundSpan.overlaps_comm]
      exact pendingApart held' differs.symm
    next other =>
      split at held'
      next same =>
        obtain ⟨rfl, rfl⟩ := same
        obtain rfl := Option.some.inj held'
        exact pendingApart held differs
      next => exact limited.pendingPairs held held' differs

omit tracked in
theorem Limited.confirms
    (confirms : session.client.Confirms confirm group invites) (receiving : Bool) (handed : List Group) :
    Limited ⟨session.client.confirmed now confirm group invites, session.confirmed ++ [(group, receiving)], handed,
      session.entered⟩ := by
  obtain ⟨sameId, sameSpan⟩ := Group.newFullnodeGroup_eq_some confirms.made
  have groupApart := limited.pendingApart confirms.heldInvite
  refine ⟨limited.positive, fun round => ?_, ?_, fun {start validatorId other} held entry mem sameId' => ?_,
    fun {start start' validatorId other other'} held held' differs => ?_⟩
  · have moved := confirms.pendingAt now round
    have before := limited.fits round
    have weighs : weightAt round confirm.prepare = if group.roundSpan.contains round then 1 else 0 := by
      rw [sameSpan]
      rfl
    change (session.confirmed ++ [(group, receiving)]).countP _ +
      (session.client.confirmed now confirm group invites).pendingAt round ≤ session.client.config.maxNumGroup
    rw [countP_append, countP_singleton]
    simp only [decide_eq_true_eq]
    omega
  · refine pairwise_append.mpr ⟨limited.apart, pairwise_singleton _ _, ?_⟩
    intro entry mem other new sameId'
    obtain rfl := mem_singleton.mp new
    rw [sameSpan]
    exact groupApart entry mem (sameId'.trans sameId)
  · dsimp only at held
    rw [heldInvite_confirmed confirms] at held
    split at held
    · cases held
    next differs =>
      obtain old | new := mem_append.mp mem
      · exact limited.pendingApart held entry old sameId'
      · obtain rfl := mem_singleton.mp new
        obtain rfl := Option.some.inj (sameId.symm.trans sameId')
        rw [sameSpan]
        exact limited.pendingPairs confirms.heldInvite held fun same => differs ⟨same.symm, rfl⟩
  · dsimp only at held held'
    rw [heldInvite_confirmed confirms] at held held'
    split at held
    · cases held
    · split at held'
      · cases held'
      · exact limited.pendingPairs held held' differs

theorem Limited.step (room : HasRoom session event) (moves : Moves session event session') : Limited session' := by
  cases moves with
  | stays same =>
    rw [same]
    exact limited
  | backwards _ _ left =>
    subst left
    exact ⟨limited.positive, limited.fits, limited.apart, limited.pendingApart, limited.pendingPairs⟩
  | @enters now round client' sent called enters left =>
    subst left
    have sameConfig : client'.config = session.client.config := by rw [enters.left]
    refine ⟨?_, fun round => ?_, limited.apart, fun held => ?_, fun held held' => ?_⟩
    · exact sameConfig ▸ limited.positive
    · have fewer : client'.pendingAt round ≤ session.client.pendingAt round := by
        rw [enters.left, pendingAt, pendingAt]
        dsimp only
        exact sum_filter_le session.client.pendingConfirms _ _
      have before := limited.fits round
      dsimp only
      rw [sameConfig]
      omega
    · exact limited.pendingApart (enters.heldInvite_eq_some.mp held).2
    · exact limited.pendingPairs (enters.heldInvite_eq_some.mp held).2 (enters.heldInvite_eq_some.mp held').2
  | invited received valid left =>
    subst left received
    exact limited.invited tracked valid (room valid)
  | confirms confirms left =>
    subst left
    exact limited.confirms confirms _ _

end

theorem Moves.config_eq (moves : Moves session event session') :
    session'.client.config = session.client.config := by
  cases moves with
  | stays same => rw [same]
  | backwards _ _ left => rw [left]
  | enters _ enters left => rw [left, enters.left]
  | invited _ _ left => rw [left, remember]
  | confirms _ left => rw [left, Client.confirmed]

def Reaches (client : Client) (allowed : Session → Client.Event → Prop) (events : List Client.Event)
    (session : Session) : Prop :=
  Trace (fun session event session' => Handles session event session' ∧ allowed session event)
    ⟨client, [], [], []⟩ events session

section Run

variable {clientNodeId : NodeId} {config : ClientConfig} {now : Int} {client : Client} {events : List Client.Event}

variable (made : Client.new clientNodeId config now = .ok client)

include made

theorem Tracked.of_reaches {allowed : Session → Client.Event → Prop}
    (reaches : Reaches client allowed events session) : Tracked session ∧ session.client.config = config := by
  induction reaches with
  | nil =>
    obtain ⟨-, rfl⟩ := new_eq_ok made
    exact ⟨.of_new made, rfl⟩
  | snoc _ step ih =>
    have moves := step.1.moves
    exact ⟨ih.1.step moves (Client.Files.step ih.1.files step.1.client), moves.config_eq.trans ih.2⟩

theorem Handing.of_reaches (reaches : Reaches client InOrder events session) : Handing session := by
  induction reaches with
  | nil =>
    obtain ⟨-, rfl⟩ := new_eq_ok made
    exact ⟨.inl rfl, by simp, by simp, by simp⟩
  | snoc before step ih => exact ih.step (Tracked.of_reaches made before).1 step.2 step.1.moves

theorem Limited.of_reaches (reaches : Reaches client HasRoom events session) : Limited session := by
  induction reaches with
  | nil =>
    obtain ⟨positive, rfl⟩ := new_eq_ok made
    refine ⟨positive, fun round => Nat.zero_le _, .nil, by simp, ?_⟩
    intro start start' validatorId invite invite' held
    cases held
  | snoc before step ih => exact ih.step (Tracked.of_reaches made before).1 step.2 step.1.moves

end Run

/-- In every session whose rounds do not go back, a group that is confirmed while proposals are received is handed on
exactly once if a round of it is entered. In every session whose accepted invites have room, no round lies in more
confirmed groups than the limit and the groups of one validator do not overlap. -/
theorem group_limits_hold {clientNodeId : NodeId} {config : ClientConfig} {now : Int} {client : Client}
    (made : Client.new clientNodeId config now = .ok client) :
    (∀ {events session}, Reaches client InOrder events session → ∀ group, (group, true) ∈ session.confirmed →
      (∃ round ∈ session.entered, group.roundSpan.contains round) → session.handed.count group = 1) ∧
    (∀ {events session}, Reaches client HasRoom events session →
      (∀ round, session.confirmed.countP (fun entry => entry.1.roundSpan.contains round) ≤ config.maxNumGroup) ∧
      session.confirmed.Pairwise fun entry other =>
        entry.1.validatorId = other.1.validatorId → ¬ entry.1.roundSpan.overlaps other.1.roundSpan) := by
  constructor
  · intro events session reaches group mem entered
    obtain ⟨-, once⟩ | ⟨none, -⟩ := (Handing.of_reaches made reaches).once mem
    · exact once
    · obtain ⟨round, mem, contains⟩ := entered
      exact absurd contains (none round mem)
  · intro events session reaches
    have limited := Limited.of_reaches made reaches
    refine ⟨fun round => ?_, limited.apart⟩
    have fits := limited.fits round
    rw [(Tracked.of_reaches made reaches).2] at fits
    omega

namespace Overlapping

def config (maxNumGroup : Nat) : ClientConfig := ⟨maxNumGroup, 5, 1, 60, 10⟩

def fresh (maxNumGroup : Nat) : Client := ⟨2, config maxNumGroup, [], .empty, 0, -10⟩

def invite (validatorId : NodeId) (start : Round) : PrepareGroup := ⟨validatorId, 1, start, start + 10⟩

def group (validatorId : NodeId) (start : Round) : Group := ⟨some validatorId, ⟨start, start + 10⟩, []⟩

def prepares (validatorId : NodeId) (start : Round) : Client.Event :=
    .receive 1 (.prepareGroup (invite validatorId start))

def confirms (validatorId : NodeId) (start : Round) : Client.Event :=
  .receive 1 (.confirmGroup ⟨invite validatorId start, [2]⟩)

def served : Session := ⟨⟨2, config 1, [], ⟨[], .nil⟩, 12, 3⟩, [(group 1 10, true)], [group 1 10], [1, 12]⟩

/-- It is handed on once, within a limit of one group. -/
theorem within_limits : served.handed.count (group 1 10) = 1 ∧
    served.confirmed.countP (fun entry => entry.1.roundSpan.contains 12) ≤ 1 := by
  have made : Client.new 2 (config 1) 0 = .ok (fresh 1) := rfl
  have inOrder : Reaches (fresh 1) InOrder [.enterRound 0 1, prepares 1 10, confirms 1 10, .enterRound 3 12] served :=
    .snoc (.snoc (.snoc (.snoc .nil ⟨.enterRound rfl, by simp [InOrder]⟩) ⟨.receive rfl, trivial⟩)
      ⟨.receive rfl, trivial⟩) ⟨.enterRound rfl, by simp [InOrder]⟩
  have room : Reaches (fresh 1) HasRoom [.enterRound 0 1, prepares 1 10, confirms 1 10, .enterRound 3 12] served :=
    .snoc (.snoc (.snoc (.snoc .nil ⟨.enterRound rfl, trivial⟩)
      ⟨.receive rfl, fun _ => ⟨.inl fun _ mem => absurd mem not_mem_nil, fun _ mem => absurd mem not_mem_nil,
        fun _ mem => absurd mem not_mem_nil⟩⟩) ⟨.receive rfl, trivial⟩) ⟨.enterRound rfl, trivial⟩
  obtain ⟨once, limits⟩ := group_limits_hold made
  exact ⟨once inOrder (group 1 10) (.head _) ⟨12, by decide, by decide⟩, (limits room).1 12⟩

/-- With a limit of one, a group of another validator is confirmed while the first one is running; and two pending
invites of one validator overlap and are both confirmed. -/
theorem exceeds_limits : (∃ session, Reaches (fresh 1) InOrder
        [.enterRound 0 1, prepares 1 10, confirms 1 10, .enterRound 3 10, prepares 3 12, confirms 3 12] session ∧
      1 < session.confirmed.countP fun entry => entry.1.roundSpan.contains 15) ∧
    (∃ session, Reaches (fresh 2) InOrder [.enterRound 0 1, prepares 1 10, prepares 1 15, confirms 1 10,
      confirms 1 15] session ∧
      ¬ session.confirmed.Pairwise fun entry other =>
        entry.1.validatorId = other.1.validatorId → ¬ entry.1.roundSpan.overlaps other.1.roundSpan) := by
  constructor
  · refine ⟨⟨⟨2, config 1, [group 3 12], ⟨[(12, ⟨[], .nil⟩)], by simp⟩, 10, 3⟩,
      [(group 1 10, true), (group 3 12, true)], [group 1 10], [1, 10]⟩, ?_, by decide⟩
    exact .snoc (.snoc (.snoc (.snoc (.snoc (.snoc .nil ⟨.enterRound rfl, by simp [InOrder]⟩) ⟨.receive rfl, trivial⟩)
      ⟨.receive rfl, trivial⟩) ⟨.enterRound rfl, by simp [InOrder]⟩) ⟨.receive rfl, trivial⟩) ⟨.receive rfl, trivial⟩
  · refine ⟨⟨⟨2, config 2, [group 1 10, group 1 15], ⟨[(10, ⟨[], .nil⟩), (15, ⟨[], .nil⟩)], by simp⟩, 1, 0⟩,
      [(group 1 10, true), (group 1 15, true)], [], [1]⟩, ?_, by decide⟩
    exact .snoc (.snoc (.snoc (.snoc (.snoc .nil ⟨.enterRound rfl, by simp [InOrder]⟩) ⟨.receive rfl, trivial⟩)
      ⟨.receive rfl, trivial⟩) ⟨.receive rfl, trivial⟩) ⟨.receive rfl, trivial⟩

end Overlapping

end Session

end MonadBft
