import MonadBft.RaptorCast.Publisher

/-! # The publisher's schedule

The current group and the scheduled ones cover adjacent spans of rounds, whatever rounds are entered. The publisher
serves the scheduled group of the round it enters, unless another scheduled group ends exactly there: that one has
ended, but it is kept and becomes the current group for a round that is not its own.
-/

namespace MonadBft

open SortedMap List

/-! ## Adjacent spans -/

/-- Scheduled groups that follow each other without a gap, from a round on. -/
def Adjacent : Round → List (Round × GroupAsPublisher) → Prop
  | _, [] => True
  | start, (key, group) :: rest =>
    key = start ∧ group.startRound = start ∧ start < group.endRound ∧ Adjacent group.endRound rest

/-- Where the last of them ends. -/
def endOf : Round → List (Round × GroupAsPublisher) → Round
  | start, [] => start
  | _, (_, group) :: rest => endOf group.endRound rest

namespace Adjacent

variable {start round : Round} {schedule : List (Round × GroupAsPublisher)}

variable (adjacent : Adjacent start schedule)

include adjacent

theorem le_endOf : start ≤ endOf start schedule := by
  induction schedule generalizing start with
  | nil => exact le_rfl
  | cons e rest ih =>
    obtain ⟨-, -, lt, later⟩ := adjacent
    exact le_trans (le_of_lt lt) (ih later)

variable {e : Round × GroupAsPublisher} {group : GroupAsPublisher}

theorem mem (mem : e ∈ schedule) :
    e.2.startRound = e.1 ∧ start ≤ e.1 ∧ e.1 < e.2.endRound ∧ e.2.endRound ≤ endOf start schedule := by
  induction schedule generalizing start with
  | nil => cases mem
  | cons first rest ih =>
    obtain ⟨rfl, same, lt, later⟩ := adjacent
    cases mem with
    | head => exact ⟨same, le_rfl, lt, later.le_endOf⟩
    | tail _ inRest =>
      obtain ⟨same', above, lt', upto⟩ := ih later inRest
      exact ⟨same', le_trans (le_of_lt lt) above, lt', upto⟩

omit adjacent in
/-- A later group does not start before an earlier one ends. -/
theorem head_endRound_le {key : Round} {rest : List (Round × GroupAsPublisher)}
    (adjacent : Adjacent start ((key, group) :: rest)) (mem : e ∈ (key, group) :: rest) :
    e = (key, group) ∨ group.endRound ≤ e.1 := by
  cases mem with
  | head => exact .inl rfl
  | tail _ inRest => exact .inr (adjacent.2.2.2.mem inRest).2.1

theorem append (same : group.startRound = endOf start schedule)
    (lt : group.startRound < group.endRound) : Adjacent start (schedule ++ [(endOf start schedule, group)]) := by
  induction schedule generalizing start with
  | nil =>
    rw [same] at lt
    exact ⟨rfl, same, lt, trivial⟩
  | cons e rest ih =>
    obtain ⟨key, first, before, later⟩ := adjacent
    exact ⟨key, first, before, ih later same⟩

theorem insertEntry {key : Round} {group group' : GroupAsPublisher}
    (mem : (key, group) ∈ schedule) (sameStart : group'.startRound = group.startRound)
    (sameEnd : group'.endRound = group.endRound) :
    Adjacent start (insertEntry key group' schedule) ∧ endOf start (insertEntry key group' schedule) =
      endOf start schedule := by
  induction schedule generalizing start with
  | nil => cases mem
  | cons first rest ih =>
    obtain ⟨firstKey, firstGroup⟩ := first
    obtain ⟨rfl, same, lt, later⟩ := adjacent
    by_cases here : key = firstKey
    · obtain rfl : group = firstGroup := by
        obtain sameEntry | inRest := mem_cons.mp mem
        · exact (Prod.mk.inj sameEntry).2
        · have above := (later.mem inRest).2.1
          lia
      rw [here, insertEntry, if_neg (lt_irrefl firstKey), if_pos rfl]
      refine ⟨⟨rfl, sameStart.trans same, by rwa [sameEnd], by rwa [sameEnd]⟩, ?_⟩
      rw [endOf, endOf, sameEnd]
    · have inRest := (mem_cons.mp mem).resolve_left fun sameEntry => here (Prod.mk.inj sameEntry).1
      have above := (later.mem inRest).2.1
      rw [insertEntry, if_neg (by lia), if_neg here]
      obtain ⟨kept, sameLast⟩ := ih later inRest
      exact ⟨⟨rfl, same, lt, kept⟩, sameLast⟩

/-- The groups that have not ended before a round: the first of them starts no later than the round. -/
theorem filter (started : start ≤ round) :
    (∃ start', start' ≤ round ∧ Adjacent start' (schedule.filter fun e => round ≤ e.2.endRound)) := by
  induction schedule generalizing start with
  | nil => exact ⟨start, started, trivial⟩
  | cons first rest ih =>
    obtain ⟨key, group⟩ := first
    obtain ⟨rfl, same, lt, later⟩ := adjacent
    by_cases ongoing : round ≤ group.endRound
    · -- this group has not ended, so none of the later ones has
      have all : ∀ e ∈ rest, decide (round ≤ e.2.endRound) = true := by
        intro e inRest
        have bounds := later.mem inRest
        exact decide_eq_true (by lia)
      refine ⟨key, started, ?_⟩
      rw [filter_cons, if_pos (decide_eq_true ongoing), filter_eq_self.mpr all]
      exact ⟨rfl, same, lt, later⟩
    · rw [filter_cons, if_neg (by simpa using ongoing)]
      exact ih later (by lia)

end Adjacent

/-! ## Far from the last round -/

/-- A round so far below `Round::MAX` that no sum with the times of the configuration overflows. -/
def GroupSchedulingConfig.Far (config : GroupSchedulingConfig) (round : Round) : Prop :=
  round + config.initEmptyRoundSpan + config.inviteLookahead + config.roundSpan + config.maxInviteWait +
    config.deadlineRoundDist < maxRound

namespace GroupAsPublisher

variable {group : GroupAsPublisher} {config : GroupSchedulingConfig} {now : Round} {validatorId : NodeId}

theorem advanceInvites_ok (group : GroupAsPublisher) (validatorId : NodeId) (far : config.Far now) :
    ∃ result, group.advanceInvites now config validatorId = .ok result ∧
      ∀ group' invites, result = some (group', invites) →
        group'.startRound = group.startRound ∧ group'.endRound = group.endRound := by
  rw [GroupSchedulingConfig.Far] at far
  rw [advanceInvites]
  split
  · exact ⟨none, rfl, by simp⟩
  · split
    · refine ⟨_, rfl, ?_⟩
      rintro _ _ ⟨⟩
      exact ⟨rfl, rfl⟩
    · rw [addRound_eq (by lia)]
      dsimp only [bind, Except.bind]
      split
      · refine ⟨_, rfl, ?_⟩
        rintro _ _ ⟨⟩
        exact ⟨rfl, rfl⟩
      · rw [inviteMore, addRound_eq (by lia)]
        refine ⟨_, rfl, ?_⟩
        rintro _ _ ⟨⟩
        exact ⟨rfl, rfl⟩

end GroupAsPublisher

theorem Group.ofValidator_of_lt (validatorId : NodeId) (peers : List NodeId) {start stop : Round} (lt : start < stop) :
    ∃ group, Group.ofValidator validatorId peers start stop = .ok group ∧ group.roundSpan = ⟨start, stop⟩ := by
  rw [ofValidator, RoundSpan.new_of_lt lt]
  dsimp only
  rw [newFullnodeGroup, if_pos rfl]
  exact ⟨_, rfl, rfl⟩

namespace Publisher

variable {publisher publisher' : Publisher}

theorem advanceLoop_ok {now : Round} {config : GroupSchedulingConfig} (validatorId : NodeId) (far : config.Far now)
    (schedule : List (Round × GroupAsPublisher)) :
    ∃ result, advanceLoop now config validatorId schedule = .ok result ∧
      ∀ key group' invites, result = some (key, group', invites) →
        ∃ group, (key, group) ∈ schedule ∧ group'.startRound = group.startRound ∧ group'.endRound = group.endRound := by
  induction schedule with
  | nil => exact ⟨none, rfl, by simp⟩
  | cons first rest ih =>
    obtain ⟨key, group⟩ := first
    obtain ⟨result, advanced, same⟩ := group.advanceInvites_ok validatorId far
    rw [advanceLoop, advanced]
    dsimp only [bind, Except.bind]
    cases result with
    | none =>
      obtain ⟨result, later, same⟩ := ih
      refine ⟨result, later, fun key' group' invites found => ?_⟩
      obtain ⟨old, mem, same⟩ := same key' group' invites found
      exact ⟨old, .tail _ mem, same⟩
    | some pair =>
      refine ⟨_, rfl, ?_⟩
      rintro _ _ _ ⟨⟩
      exact ⟨group, .head _, same _ _ rfl⟩

/-! ## The invariant -/

/-- The current group has started and the scheduled groups follow it. -/
structure Scheduled (publisher : Publisher) : Prop where
  started : publisher.currGroup.roundSpan.start ≤ publisher.currRound
  ordered : publisher.currGroup.roundSpan.start ≤ publisher.currGroup.roundSpan.stop
  adjacent : Adjacent publisher.currGroup.roundSpan.stop publisher.groupSchedule.entries

theorem scheduleEnd_eq :
    publisher.scheduleEnd = endOf publisher.currGroup.roundSpan.stop publisher.groupSchedule.entries := by
  rw [scheduleEnd]
  generalize publisher.currGroup.roundSpan.stop = start
  induction publisher.groupSchedule.entries generalizing start with
  | nil => rfl
  | cons first rest ih =>
    rw [endOf, ← ih]
    cases rest with
    | nil => rfl
    | cons second rest =>
      rw [getLast?_cons_cons, getLast?_eq_some_getLast (cons_ne_nil second rest)]

variable {key round : Round} {group : GroupAsPublisher}

section

variable (scheduled : Scheduled publisher)

include scheduled

theorem Scheduled.insert_group {group group' : GroupAsPublisher}
    (mem : (key, group) ∈ publisher.groupSchedule.entries) (sameStart : group'.startRound = group.startRound)
    (sameEnd : group'.endRound = group.endRound) :
    Scheduled { publisher with groupSchedule := publisher.groupSchedule.insert key group' } :=
  ⟨scheduled.started, scheduled.ordered, (scheduled.adjacent.insertEntry mem sameStart sameEnd).1⟩

theorem Scheduled.append_group (last : key = publisher.scheduleEnd)
    (same : group.startRound = key) (lt : group.startRound < group.endRound) :
    Scheduled { publisher with groupSchedule := publisher.groupSchedule.insert key group } := by
  refine ⟨scheduled.started, scheduled.ordered, ?_⟩
  rw [scheduleEnd_eq] at last
  have above : ∀ e ∈ publisher.groupSchedule.entries, e.1 < key := by
    intro e mem
    have bounds := scheduled.adjacent.mem mem
    lia
  dsimp only
  rw [entries_insert_of_lt above, last]
  exact scheduled.adjacent.append (same.trans last) lt

theorem Scheduled.stepUntil (spans : 1 ≤ publisher.schedulingCfg.roundSpan)
    (shuffle : List NodeId → List NodeId) (far : publisher.schedulingCfg.Far round) :
    ∃ publisher' invites, publisher.stepUntil shuffle round = .ok (publisher', invites) ∧ Scheduled publisher' ∧
      publisher'.currGroup = publisher.currGroup ∧ publisher'.currRound = publisher.currRound ∧
      publisher'.schedulingCfg = publisher.schedulingCfg ∧ publisher'.validatorNodeId = publisher.validatorNodeId := by
  have sums := far
  rw [GroupSchedulingConfig.Far] at sums
  rw [Publisher.stepUntil]
  obtain ⟨result, advanced, same⟩ := advanceLoop_ok publisher.validatorNodeId far publisher.groupSchedule.entries
  rw [advanced]
  dsimp only [bind, Except.bind]
  cases result with
  | some triple =>
    obtain ⟨key, group', invites⟩ := triple
    obtain ⟨group, mem, sameStart, sameEnd⟩ := same key group' invites rfl
    exact ⟨_, _, rfl, scheduled.insert_group mem sameStart sameEnd, rfl, rfl, rfl, rfl⟩
  | none =>
    rw [addRound_eq (by lia)]
    dsimp only
    split
    next near =>
      rw [GroupAsPublisher.newRandomized, addRound_eq (by lia)]
      dsimp only [bind, Except.bind]
      obtain ⟨result, advanced, same⟩ := GroupAsPublisher.advanceInvites_ok
        ⟨[], publisher.alwaysAskFullNodes ++ shuffle publisher.peerDiscFullNodes, 0, 0, publisher.scheduleEnd,
          publisher.scheduleEnd + publisher.schedulingCfg.roundSpan, 0⟩ publisher.validatorNodeId far
      rw [advanced]
      cases result with
      | none =>
        refine ⟨_, _, rfl, scheduled.append_group rfl rfl ?_, rfl, rfl, rfl, rfl⟩
        dsimp only
        lia
      | some pair =>
        obtain ⟨sameStart, sameEnd⟩ := same _ _ rfl
        refine ⟨_, _, rfl, scheduled.append_group sameStart rfl ?_, rfl, rfl, rfl, rfl⟩
        rw [sameStart, sameEnd]
        dsimp only
        lia
    next => exact ⟨_, _, rfl, scheduled, rfl, rfl, rfl, rfl⟩

/-! ## Entering a round -/

omit scheduled in
theorem serveEmptyGroup_eq (publisher : Publisher) (init : 1 ≤ publisher.schedulingCfg.initEmptyRoundSpan)
    (far : publisher.schedulingCfg.Far round) :
    ∃ currGroup, publisher.serveEmptyGroup round = .ok { publisher with currGroup } ∧
      currGroup.roundSpan.start = round ∧ currGroup.roundSpan.start ≤ currGroup.roundSpan.stop := by
  rw [GroupSchedulingConfig.Far] at far
  rw [serveEmptyGroup, newEmptyGroup, addRound_eq (by lia)]
  obtain ⟨currGroup, made, span⟩ := Group.ofValidator_of_lt publisher.validatorNodeId []
    (show round < round + publisher.schedulingCfg.initEmptyRoundSpan by lia)
  refine ⟨currGroup, ?_, ?_⟩
  · dsimp only [bind, Except.bind]
    rw [made]
  · rw [span]
    exact ⟨rfl, Nat.le_add_right _ _⟩

/-- What a call to `enter_round` does to the current group. -/
inductive Entered (publisher : Publisher) (round : Round) (publisher' : Publisher) : Prop where
  | stays (inside : round < publisher.currGroup.roundSpan.stop) (same : publisher'.currGroup = publisher.currGroup)
  | empty (ended : publisher.currGroup.roundSpan.stop ≤ round)
      (none : publisher.groupSchedule.entries.filter (fun e => round ≤ e.2.endRound) = [])
  | next (ended : publisher.currGroup.roundSpan.stop ≤ round) {key : Round} {group : GroupAsPublisher}
      {rest : List (Round × GroupAsPublisher)}
      (first : publisher.groupSchedule.entries.filter (fun e => round ≤ e.2.endRound) = (key, group) :: rest)
      (served : group.toFinalizedGroup publisher.validatorNodeId = .ok publisher'.currGroup)
      (span : publisher'.currGroup.roundSpan = ⟨group.startRound, group.endRound⟩)

theorem Scheduled.enterRound (init : 1 ≤ publisher.schedulingCfg.initEmptyRoundSpan)
    (later : publisher.currRound ≤ round) (far : publisher.schedulingCfg.Far round) :
    ∃ publisher', { publisher with currRound := round }.enterRound round = .ok publisher' ∧ Scheduled publisher' ∧
      publisher'.currRound = round ∧ publisher'.schedulingCfg = publisher.schedulingCfg ∧
      publisher'.validatorNodeId = publisher.validatorNodeId ∧ Entered publisher round publisher' := by
  have sums := far
  rw [GroupSchedulingConfig.Far] at sums
  rw [Publisher.enterRound, if_neg (show round ≠ maxRound by lia)]
  have started := le_trans scheduled.started later
  by_cases inside : round < publisher.currGroup.roundSpan.stop
  · rw [if_pos inside, if_neg (show ¬ round < publisher.currGroup.roundSpan.start from not_lt.mpr started)]
    exact ⟨_, rfl, ⟨started, scheduled.ordered, scheduled.adjacent⟩, rfl, rfl, rfl, .stays inside rfl⟩
  · rw [if_neg inside]
    have ended := not_lt.mp inside
    obtain ⟨start', before, adjacent⟩ := scheduled.adjacent.filter ended
    set left := publisher.groupSchedule.filter fun _ group => round ≤ group.endRound with leftEq
    have entriesEq : left.entries = publisher.groupSchedule.entries.filter fun e => round ≤ e.2.endRound := rfl
    rw [← entriesEq] at adjacent
    dsimp only
    cases shape : left.entries with
    | nil =>
      -- nothing is scheduled any more
      rw [head?_nil]
      dsimp only
      obtain ⟨currGroup, serves, starts, ordered⟩ := serveEmptyGroup_eq
        { publisher with currRound := round, groupSchedule := left } init far
      refine ⟨_, serves, ⟨le_of_eq starts, ordered, ?_⟩, rfl, rfl, rfl, .empty ended (entriesEq ▸ shape)⟩
      dsimp only
      rw [shape]
      trivial
    | cons first rest =>
      obtain ⟨key, group⟩ := first
      rw [shape] at adjacent
      obtain ⟨rfl, same, lt, follows⟩ := adjacent
      rw [head?_cons]
      dsimp only
      rw [if_neg (not_lt.mpr before)]
      obtain ⟨currGroup, serves, span⟩ := Group.ofValidator_of_lt publisher.validatorNodeId group.fullNodesAccepted
        (show group.startRound < group.endRound by rwa [same])
      rw [← GroupAsPublisher.toFinalizedGroup] at serves
      rw [serves]
      refine ⟨_, rfl, ⟨?_, ?_, ?_⟩, rfl, rfl, rfl, .next ended (entriesEq ▸ shape) serves span⟩
      · dsimp only
        rwa [span, same]
      · dsimp only
        rw [span, same]
        exact le_of_lt lt
      · dsimp only
        rwa [entries_erase_of_head shape, span]

/-- A group that is served has ended when its last round is exactly the one entered. -/
theorem Entered.served_iff (entered : Entered publisher round publisher')
    (at_round : publisher'.currRound = round) (mem : (key, group) ∈ publisher.groupSchedule.entries)
    (contains : RoundSpan.contains ⟨group.startRound, group.endRound⟩ round) :
    ∃ served, group.toFinalizedGroup publisher.validatorNodeId = .ok served ∧
      (publisher'.getCurrentRaptorcastGroup = some served ↔ ∀ e ∈ publisher.groupSchedule.entries,
        e.2.endRound ≠ round) := by
  obtain ⟨same, follows, lt, -⟩ := scheduled.adjacent.mem mem
  obtain ⟨from', upto⟩ := contains
  dsimp only at same follows lt from' upto
  cases entered with
  | stays inside _ => lia
  | empty _ none =>
    rw [filter_eq_nil_iff] at none
    exact absurd (decide_eq_true (le_of_lt upto)) (none _ mem)
  | @next ended first firstGroup rest shape serves span =>
    obtain ⟨start', -, adjacent⟩ := scheduled.adjacent.filter ended
    rw [shape] at adjacent
    have inFilter : ∀ e ∈ publisher.groupSchedule.entries, round ≤ e.2.endRound → e ∈ (first, firstGroup) :: rest := by
      intro e mem le
      rw [← shape]
      exact List.mem_filter.mpr ⟨mem, decide_eq_true le⟩
    obtain here | ends := adjacent.head_endRound_le (inFilter _ mem (le_of_lt upto))
    · -- the group is the first one left
      obtain ⟨rfl, rfl⟩ := Prod.mk.inj here
      refine ⟨_, serves, iff_of_true ?_ ?_⟩
      · rw [getCurrentRaptorcastGroup, at_round, span, if_pos ⟨from', upto⟩]
      · intro e inSchedule ends
        have bounds := scheduled.adjacent.mem inSchedule
        obtain rfl | after := adjacent.head_endRound_le (inFilter e inSchedule (le_of_eq ends.symm))
        · exact absurd ends upto.ne'
        · lia
    · -- the first one left ends where this one starts
      have kept : (first, firstGroup) ∈ publisher.groupSchedule.entries.filter fun e => round ≤ e.2.endRound := by
        rw [shape]
        exact .head _
      obtain ⟨inSchedule, notBefore⟩ := List.mem_filter.mp kept
      have notBefore := of_decide_eq_true notBefore
      have endsHere : firstGroup.endRound = round := by lia
      obtain ⟨served, finalized, -⟩ := Group.ofValidator_of_lt publisher.validatorNodeId group.fullNodesAccepted
        (show group.startRound < group.endRound by rwa [same])
      refine ⟨served, finalized, iff_of_false ?_ fun noneEnds => noneEnds _ inSchedule endsHere⟩
      rw [getCurrentRaptorcastGroup, at_round, span, if_neg fun contains => absurd contains.2 (by simp [endsHere])]
      simp

/-! ## Whole runs -/

/-- Entering a round that is far enough from the last one. -/
def Event.Far (config : GroupSchedulingConfig) : Event → Prop
  | .enterRound round _ => config.Far round
  | .candidateResponse _ => True
  | .updateAlwaysAsk _ => True
  | .upsertPeers _ => True

theorem Scheduled.enterRoundAndStepUntil
    (init : 1 ≤ publisher.schedulingCfg.initEmptyRoundSpan) (spans : 1 ≤ publisher.schedulingCfg.roundSpan)
    (shuffle : List NodeId → List NodeId) (later : publisher.currRound ≤ round)
    (far : publisher.schedulingCfg.Far round) :
    ∃ publisher' invites, publisher.enterRoundAndStepUntil shuffle round = .ok (publisher', invites) ∧
      Scheduled publisher' ∧ publisher'.currRound = round ∧ publisher'.schedulingCfg = publisher.schedulingCfg ∧
      publisher'.validatorNodeId = publisher.validatorNodeId ∧ Entered publisher round publisher' := by
  have sums := far
  rw [GroupSchedulingConfig.Far] at sums
  obtain ⟨entered, enters, inOrder, atRound, sameConfig, sameId, moved⟩ := scheduled.enterRound init later far
  rw [Publisher.enterRoundAndStepUntil, if_neg (not_lt.mpr later), addRound_eq (by lia)]
  dsimp only [bind, Except.bind]
  rw [enters]
  obtain ⟨publisher', invites, steps, inOrder', sameGroup, sameRound, sameConfig', sameId'⟩ :=
    inOrder.stepUntil (by rwa [sameConfig]) shuffle (sameConfig ▸ far)
  refine ⟨publisher', invites, steps, inOrder', sameRound.trans atRound, sameConfig'.trans sameConfig,
    sameId'.trans sameId, ?_⟩
  cases moved with
  | stays inside same => exact .stays inside (sameGroup.trans same)
  | empty ended none => exact .empty ended none
  | next ended first served span => exact .next ended first (sameGroup ▸ served) (sameGroup ▸ span)

theorem Scheduled.onCandidateResponse (message : FullNodesGroupMessage) :
    Scheduled (publisher.onCandidateResponse message) := by
  cases message with
  | prepareGroup _ => exact scheduled
  | confirmGroup _ => exact scheduled
  | prepareGroupResponse response =>
    rw [Publisher.onCandidateResponse]
    split
    · exact scheduled
    next group found =>
      apply scheduled.insert_group (get?_eq_some_iff.mp found) <;> rw [GroupAsPublisher.onCandidateResponse] <;>
        split_ifs <;> rfl

end

/-- The schedule is in order and nothing but the schedule and the peers has changed. -/
structure Runs (validatorId : NodeId) (config : GroupSchedulingConfig) (publisher : Publisher) : Prop where
  scheduled : Scheduled publisher
  config : publisher.schedulingCfg = config
  validatorId : publisher.validatorNodeId = validatorId

section Run

variable {validatorId : NodeId} {config : GroupSchedulingConfig}

theorem Runs.step (init : 1 ≤ config.initEmptyRoundSpan) (spans : 1 ≤ config.roundSpan)
    (runs : Runs validatorId config publisher) {event : Event} (far : event.Far config)
    (step : Handles publisher event publisher') : Runs validatorId config publisher' := by
  obtain ⟨scheduled, rfl, sameId⟩ := runs
  cases step with
  | @enterRound _ shuffle round invites returns =>
    by_cases later : publisher.currRound ≤ round
    · obtain ⟨entered, sent, enters, inOrder, -, sameConfig, sameId', -⟩ :=
        scheduled.enterRoundAndStepUntil init spans shuffle later far
      obtain ⟨rfl, -⟩ := Prod.mk.inj (Except.ok.inj (returns.symm.trans enters))
      exact ⟨inOrder, sameConfig, sameId'.trans sameId⟩
    · rw [enterRoundAndStepUntil, if_pos (not_le.mp later)] at returns
      obtain ⟨rfl, -⟩ := Prod.mk.inj (Except.ok.inj returns)
      exact ⟨scheduled, rfl, sameId⟩
  | candidateResponse message =>
    obtain ⟨groupSchedule, eq⟩ := publisher.onCandidateResponse_eq message
    have inOrder := scheduled.onCandidateResponse message
    rw [eq] at inOrder ⊢
    exact ⟨inOrder, rfl, sameId⟩
  | updateAlwaysAsk nodes => exact ⟨⟨scheduled.started, scheduled.ordered, scheduled.adjacent⟩, rfl, sameId⟩
  | upsertPeers nodes =>
    obtain ⟨peers, eq⟩ := publisher.upsertPeerDiscFullNodes_eq nodes
    rw [eq]
    exact ⟨⟨scheduled.started, scheduled.ordered, scheduled.adjacent⟩, rfl, sameId⟩

theorem Runs.of_trace {prioritized : List NodeId} {initial : Publisher}
    (made : Publisher.new validatorId prioritized config = .ok initial) (init : 1 ≤ config.initEmptyRoundSpan)
    (spans : 1 ≤ config.roundSpan) {events : List Event} (run : Trace Handles initial events publisher)
    (far : ∀ event ∈ events, event.Far config) : Runs validatorId config publisher := by
  induction run with
  | nil =>
    obtain rfl := new_eq_ok made
    exact ⟨⟨le_rfl, le_rfl, trivial⟩, rfl, rfl⟩
  | @snoc _ _ _ event run step ih =>
    exact (ih fun event mem => far event (mem_append_left _ mem)).step init spans
      (far event (mem_append_right _ (.head _))) step

end Run

/-- The group that a publisher is to serve in the round it has entered. -/
def Serves (publisher : Publisher) (round : Round) (publisher' : Publisher) : Prop :=
  (publisher.currGroup.roundSpan.contains round → publisher'.getCurrentRaptorcastGroup = some publisher.currGroup) ∧
    ∀ key group, (key, group) ∈ publisher.groupSchedule →
      RoundSpan.contains ⟨group.startRound, group.endRound⟩ round →
        ∃ served, group.toFinalizedGroup publisher.validatorNodeId = .ok served ∧
          publisher'.getCurrentRaptorcastGroup = some served

/-- No scheduled group ends at a round that lies in another one. -/
def NotAtBoundary (publisher : Publisher) (round : Round) : Prop :=
  ∀ ended ∈ publisher.groupSchedule.entries, ∀ next ∈ publisher.groupSchedule.entries,
    ended.2.endRound = round → ¬ RoundSpan.contains ⟨next.2.startRound, next.2.endRound⟩ round

theorem Entered.serves_iff (scheduled : Scheduled publisher) (entered : Entered publisher round publisher')
    (atRound : publisher'.currRound = round) : Serves publisher round publisher' ↔ NotAtBoundary publisher round := by
  have stays : publisher.currGroup.roundSpan.contains round →
      publisher'.getCurrentRaptorcastGroup = some publisher.currGroup := by
    intro contains
    cases entered with
    | stays _ same => rw [getCurrentRaptorcastGroup, same, atRound, if_pos contains]
    | empty ended _ => exact absurd contains.2 (not_lt.mpr ended)
    | next ended _ _ _ => exact absurd contains.2 (not_lt.mpr ended)
  constructor
  · intro serves ended isEnded next isNext atEnd contains
    obtain ⟨served, finalized, iff⟩ := entered.served_iff scheduled atRound isNext contains
    obtain ⟨served', finalized', current⟩ := serves.2 next.1 next.2 isNext contains
    obtain rfl := Except.ok.inj (finalized.symm.trans finalized')
    exact iff.mp current ended isEnded atEnd
  · intro apart
    refine ⟨stays, fun key group mem contains => ?_⟩
    obtain ⟨served, finalized, iff⟩ := entered.served_iff scheduled atRound mem contains
    exact ⟨served, finalized, iff.mpr fun e isEnded atEnd => apart e isEnded _ mem atEnd contains⟩

/-- The first round can be entered only if the empty group of the start has a round. -/
theorem enters_first_iff {validatorId : NodeId} {prioritized : List NodeId} {config : GroupSchedulingConfig}
    (made : Publisher.new validatorId prioritized config = .ok publisher) (spans : 1 ≤ config.roundSpan)
    (shuffle : List NodeId → List NodeId) (far : config.Far round) :
    (∃ result, publisher.enterRoundAndStepUntil shuffle round = .ok result) ↔ 1 ≤ config.initEmptyRoundSpan := by
  obtain rfl := new_eq_ok made
  constructor
  · rintro ⟨result, enters⟩
    rw [GroupSchedulingConfig.Far] at far
    by_contra short
    have zero : config.initEmptyRoundSpan = 0 := by lia
    have fails : Publisher.enterRound
        ⟨validatorId, config, .empty, prioritized.eraseDups, [], round, .empty⟩ round = .error .roundSpan := by
      have ended : ¬ round < Group.empty.roundSpan.stop := Nat.not_lt_zero round
      rw [Publisher.enterRound, if_neg (show round ≠ maxRound by lia), if_neg ended]
      change Publisher.serveEmptyGroup _ round = _
      rw [serveEmptyGroup, newEmptyGroup, zero, addRound_eq (by lia)]
      dsimp only [bind, Except.bind]
      rw [Group.ofValidator, RoundSpan.new, if_pos (show round + 0 ≤ round by lia)]
    rw [enterRoundAndStepUntil, if_neg (show ¬ round < 0 by lia), addRound_eq (by simp [maxRound])] at enters
    dsimp only [bind, Except.bind] at enters
    rw [fails] at enters
    cases enters
  · intro init
    have scheduled : Scheduled ⟨validatorId, config, .empty, prioritized.eraseDups, [], 0, .empty⟩ :=
      ⟨le_rfl, le_rfl, trivial⟩
    obtain ⟨publisher', invites, enters, -⟩ :=
      scheduled.enterRoundAndStepUntil init spans shuffle (Nat.zero_le round) far
    exact ⟨_, enters⟩

/-- Every run of a publisher keeps its groups adjacent and enters every later round without a panic, given that its
empty groups have a round; after that the publisher serves the group of the round exactly if no scheduled group ends
there while another one has begun. -/
theorem serves_the_scheduled_group {validatorId : NodeId} {prioritized : List NodeId} {config : GroupSchedulingConfig}
    {initial : Publisher} (made : Publisher.new validatorId prioritized config = .ok initial)
    (spans : 1 ≤ config.roundSpan) : (∀ shuffle round, config.Far round →
      ((∃ result, initial.enterRoundAndStepUntil shuffle round = .ok result) ↔ 1 ≤ config.initEmptyRoundSpan)) ∧
    (1 ≤ config.initEmptyRoundSpan → ∀ {events publisher}, Trace Handles initial events publisher →
      (∀ event ∈ events, event.Far config) →
        Adjacent publisher.currGroup.roundSpan.stop publisher.groupSchedule.entries ∧
        ∀ shuffle round, publisher.currRound ≤ round → config.Far round →
          ∃ publisher' invites, publisher.enterRoundAndStepUntil shuffle round = .ok (publisher', invites) ∧
            (Serves publisher round publisher' ↔ NotAtBoundary publisher round)) := by
  refine ⟨fun shuffle round far => enters_first_iff made spans shuffle far, fun init events publisher run far => ?_⟩
  obtain ⟨scheduled, rfl, -⟩ := Runs.of_trace made init spans run far
  refine ⟨scheduled.adjacent, fun shuffle round later farRound => ?_⟩
  obtain ⟨publisher', invites, enters, -, atRound, -, -, entered⟩ :=
    scheduled.enterRoundAndStepUntil init spans shuffle later farRound
  exact ⟨publisher', invites, enters, entered.serves_iff scheduled atRound⟩

namespace Boundary

def config : GroupSchedulingConfig := ⟨1, 10, 25, 1, 1, 10⟩

def scheduled : Publisher :=
  ⟨1, config, ⟨[(10, ⟨[], [], 0, 0, 10, 20, maxRound⟩), (20, ⟨[], [], 0, 0, 20, 30, maxRound⟩)], by decide⟩, [], [], 1,
    ⟨some 1, ⟨0, 10⟩, []⟩⟩

def confirmed (start stop : Round) : Event :=
  .enterRound (start / 10 - 1) (some (.confirmGroup ⟨⟨1, 1, start, stop⟩, []⟩, []))

theorem runs : Trace Handles ⟨1, config, .empty, [], [], 0, .empty⟩ [confirmed 10 20, confirmed 20 30] scheduled := by
  have first : Publisher.enterRoundAndStepUntil ⟨1, config, .empty, [], [], 0, .empty⟩ id 0 =
      .ok (⟨1, config, ⟨[(10, ⟨[], [], 0, 0, 10, 20, maxRound⟩)], by decide⟩, [], [], 0, ⟨some 1, ⟨0, 10⟩, []⟩⟩,
        some (.confirmGroup ⟨⟨1, 1, 10, 20⟩, []⟩, [])) := rfl
  have second : Publisher.enterRoundAndStepUntil
      ⟨1, config, ⟨[(10, ⟨[], [], 0, 0, 10, 20, maxRound⟩)], by decide⟩, [], [], 0, ⟨some 1, ⟨0, 10⟩, []⟩⟩ id 1 =
      .ok (scheduled, some (.confirmGroup ⟨⟨1, 1, 20, 30⟩, []⟩, [])) := rfl
  exact .snoc (.snoc .nil (.enterRound first)) (.enterRound second)

theorem far {round : Round} (small : round ≤ 100) : config.Far round := by
  rw [GroupSchedulingConfig.Far]
  simp only [config, maxRound]
  lia

/-- Round 15 lies in the first scheduled group, so the publisher serves it. -/
theorem serves_from_the_middle : ∃ publisher' invites,
    scheduled.enterRoundAndStepUntil id 15 = .ok (publisher', invites) ∧ Serves scheduled 15 publisher' := by
  have made : Publisher.new 1 [] config = .ok ⟨1, config, .empty, [], [], 0, .empty⟩ := rfl
  obtain ⟨-, served⟩ := (serves_the_scheduled_group made (by decide)).2 (by decide) runs
    (by simp [confirmed, Event.Far, far])
  obtain ⟨publisher', invites, enters, iff⟩ := served id 15 (by decide) (far (by decide))
  refine ⟨publisher', invites, enters, iff.mpr ?_⟩
  simp [NotAtBoundary, scheduled]

/-- After rounds 0 and 1 the publisher enters round 20, where the first scheduled group ends and the second begins: it
takes the ended one and serves nobody. And a configuration without rounds for the empty group is accepted, but panics
in the first round. -/
theorem ended_group_is_served :
    (∃ publisher', Trace Handles ⟨1, config, .empty, [], [], 0, .empty⟩ [confirmed 10 20, confirmed 20 30] scheduled ∧
      scheduled.enterRoundAndStepUntil id 20 = .ok (publisher', some (.confirmGroup ⟨⟨1, 1, 30, 40⟩, []⟩, [])) ∧
      ¬ Serves scheduled 20 publisher') ∧
    ∃ publisher, Publisher.new 1 [] ⟨1, 10, 25, 0, 0, 0⟩ = .ok publisher ∧
      publisher.enterRoundAndStepUntil id 0 = .error .roundSpan := by
  refine ⟨⟨_, runs, rfl, fun serves => ?_⟩, _, rfl, rfl⟩
  obtain ⟨served, -, current⟩ := serves.2 20 ⟨[], [], 0, 0, 20, 30, maxRound⟩ (.tail _ (.head _)) (by decide)
  cases current

end Boundary

end Publisher

end MonadBft
