import MonadBft.Proposing

/-! # The epoch of the current round

The pacemaker looks up the epoch of a round when a certificate enters the round. A commit
may schedule the start of the next epoch later, at a round that the replica has already
reached; the pacemaker then stays in the old epoch until the next certificate.
-/

namespace MonadBft

open ConsensusState Option

/-- None of the blocks ends an epoch so early that the current round is already in the next one. -/
def ConsensusState.KeepsEpoch (s : ConsensusState) (blocks : List ConsensusFullBlock) : Prop :=
  ∀ b ∈ blocks, ¬ s.epochManager.Moves b.getSeqNum b.getBlockRound s.getCurrentRound s.getCurrentEpoch

/-- The condition after one more step: entering a round starts it again, a commit has to keep the epoch. -/
def EpochKept.next (kept : Prop) : ConsensusState × Label → Prop
  | (_, ⟨_, .advance _, _⟩) => True
  | (s, ⟨_, .commit _ blocks, _⟩) => kept ∧ s.KeepsEpoch blocks
  | _ => kept

/-- Every commit since the current round was entered kept the epoch. -/
def EpochKept (steps : List (ConsensusState × Label)) : Prop := steps.foldl EpochKept.next True

/-- The epoch and round of a vote, timeout, proposal or recovery request that a command signs. -/
def ConsensusCommand.signedFor : ConsensusCommand → Option (Epoch × Round)
  | .publish _ u =>
    match u.obj.message with
    | .vote m => some (m.vote.epoch, m.vote.round)
    | .timeout m => some (m.tminfo.epoch, m.tminfo.round)
    | .proposal p => some (p.proposalEpoch, p.proposalRound)
    | .roundRecovery m => some (m.epoch, m.round)
    | .noEndorsement _ | .advanceRound _ => none
  | .createProposal request => some (request.epoch, request.round)
  | _ => none

/-! ## Steps -/

section Steps

variable {K : Evidence} {net : Network} {node : Node} {s s' : ConsensusState} {label : Label}

theorem Bookkeeping.epochCurrent_iff {crypto : Crypto} {commands : List ConsensusCommand}
    (quiet : Bookkeeping K crypto s s' commands) : s'.EpochCurrent ↔ s.EpochCurrent := by
  obtain ⟨pending, same⟩ := quiet.pacemaker
  simp [ConsensusState.EpochCurrent, getCurrentRound, getCurrentEpoch,
    Pacemaker.getCurrentRound, same, quiet.epochManager]

/-- A schedule never moves a round back, so that a replica left behind by a commit stays behind. -/
theorem epochCurrent_commit_iff (marks : Marks s) {bt : BlockTree} {em : EpochManager}
    {blocks : List ConsensusFullBlock} (scheduled : scheduleEpochStarts s.epochManager blocks = some em) :
    ConsensusState.EpochCurrent { s with pendingBlockTree := bt, epochManager := em } ↔
      s.EpochCurrent ∧ s.KeepsEpoch blocks := by
  obtain ⟨e, known, le⟩ := marks.epoch
  obtain ⟨e', known', le', same⟩ := getEpoch_scheduleEpochStarts scheduled known
  have after : ConsensusState.EpochCurrent { s with pendingBlockTree := bt, epochManager := em } ↔
      e' = s.getCurrentEpoch := by
    change em.getEpoch s.getCurrentRound = some s.getCurrentEpoch ↔ _
    rw [known', some_inj]
  have before : s.EpochCurrent ↔ e = s.getCurrentEpoch := by
    rw [ConsensusState.EpochCurrent, known, some_inj]
  rw [after, before]
  constructor
  · intro current
    have unchanged : e = s.getCurrentEpoch := le_antisymm (current ▸ le') le
    refine ⟨unchanged, ?_⟩
    have kept := same.mp (current.trans unchanged.symm)
    rwa [unchanged] at kept
  · rintro ⟨rfl, kept⟩
    exact same.mpr kept

variable (taken : Step K net node s label s')

include taken

theorem Step.epochCurrent_iff (marks : Marks s) : s'.EpochCurrent ↔ EpochKept.next s.EpochCurrent (s, label) := by
  cases taken with
  | advance now evidence newer known => exact iff_of_true known trivial
  | proposeTip now basis done =>
    obtain ⟨_, _, rfl⟩ := proposed_of_proposeTip done
    exact Iff.rfl
  | proposeFresh now basis looked known leads inEpoch done =>
    obtain ⟨_, _, rfl⟩ := proposed_of_proposeFresh done
    exact Iff.rfl
  | commit evidence parent committable done scheduled => exact epochCurrent_commit_iff marks scheduled
  | bookkeeping quiet => exact quiet.epochCurrent_iff
  | vote | sendVote | timeout | noEndorse | addBlock | markCoherent => exact Iff.rfl

/-- A vote of the current round that waits for the timer is for the current epoch. -/
def ConsensusState.VoteInEpoch (s : ConsensusState) : Prop :=
  ∀ vote, s.scheduledVote = some (.voteReady vote) → vote.round = s.getCurrentRound → vote.epoch = s.getCurrentEpoch

theorem Step.voteInEpoch (marks : Marks s) (inEpoch : s.VoteInEpoch) : s'.VoteInEpoch := by
  have frame := taken.frame
  cases taken with
  | advance now evidence newer known =>
    -- a vote that still waits is for an earlier round
    intro vote ready sameRound
    have voted := (marks.scheduled ready).trans marks.voted
    simp only [getCurrentRound, Pacemaker.getCurrentRound] at sameRound voted
    lia
  | vote now handled evidence inRound processed coherent voted =>
    rintro vote ⟨⟩ -
    rfl
  | timeout | noEndorse => exact inEpoch
  | _ =>
    have frame := frame trivial
    intro vote ready sameRound
    exact (inEpoch vote (frame.scheduled ready) (sameRound.trans frame.round)).trans frame.epoch.symm

/-- While the epoch is current, what the replica signs for the current round carries it. -/
theorem Step.signedFor_eq (current : s.EpochCurrent) (inEpoch : s.VoteInEpoch)
    {c : ConsensusCommand} (emits : c ∈ label.commands) {epoch : Epoch}
    (signed : c.signedFor = some (epoch, s.getCurrentRound)) : epoch = s.getCurrentEpoch := by
  have emission := taken.emission emits
  generalize label.action = action at emission
  cases emission with
  | mute mute => cases c <;> first | exact absurd mute id | cases signed
  | advance isAdvance left carries =>
    obtain ⟨target, rfl⟩ | ⟨-, epoch', -, rfl⟩ := carries
    · simp [ConsensusCommand.signedFor, isAdvance] at signed
    · cases signed
  | vote ready =>
    obtain ⟨rfl, sameRound⟩ := Prod.mk.inj (some.inj signed)
    exact inEpoch _ ready sameRound
  | timeout | recovery | proposal => exact (Prod.mk.inj (some.inj signed)).1.symm
  | noEndorse => cases signed
  | create basis looked known leads looked' =>
    obtain ⟨rfl, -⟩ := Prod.mk.inj (some.inj signed)
    exact le_antisymm (looked'.2 _ current) looked'.1

end Steps

/-! ## Runs -/

section Runs

variable {K : Evidence} {net : Network} {node : Node} {s s₀ : ConsensusState} {steps : List (ConsensusState × Label)}

theorem voteInEpoch_of_trace {labels : List Label} (run : Trace (Step K net node) s₀ labels s) (marks : Marks s₀)
    (inEpoch : s₀.VoteInEpoch) : s.VoteInEpoch := by
  induction run with
  | nil => exact inEpoch
  | snoc before taken ih => exact taken.voteInEpoch (marks_of_trace before marks) ih

theorem epochCurrent_iff_of_trace (run : Trace (Trace.Recorded (Step K net node)) s₀ steps s) (marks : Marks s₀)
    (current : s₀.EpochCurrent) : s.EpochCurrent ↔ EpochKept steps := by
  induction run with
  | nil => exact iff_of_true current trivial
  | @snoc steps t t' entry before taken ih =>
    obtain ⟨t, label⟩ := entry
    obtain ⟨rfl, step⟩ := taken
    rw [step.epochCurrent_iff (marks_of_trace before.of_recorded marks), propext ih, EpochKept, EpochKept,
      List.foldl_concat]

variable {em : EpochManager} {root : RootInfo} {highCertificate : RoundCertificate} {history : List Replica.Handled}
  {r : Replica}

/-- Every run is a run of steps, and at each point of it the pacemaker's epoch is that of the epoch manager exactly if
every commit since the current round was entered kept the epoch. What the replica then signs for its current round
carries the epoch that `verify_epoch` looks up. -/
theorem epochCurrent_iff_epochKept (run : Replica.RunFrom net node em root highCertificate history r) :
    ∃ s₀ steps, ConsensusState.new em root highCertificate = some s₀ ∧
      Trace (Trace.Recorded (Step (.wellFormed fun _ => True) net node)) s₀ steps r.consensus ∧
      Replica.Explains (steps.map Prod.snd) history ∧
      (r.consensus.EpochCurrent ↔ EpochKept steps) ∧
      ∀ before s l after, steps = before ++ (s, l) :: after → (s.EpochCurrent ↔ EpochKept before) ∧
        (EpochKept before → ∀ c ∈ l.commands, ∀ epoch, c.signedFor = some (epoch, s.getCurrentRound) →
          verifyEpoch s.epochManager epoch s.getCurrentRound = .ok ()) := by
  obtain ⟨s₀, labels, started, trace, explains⟩ := run.steps
  obtain ⟨steps, recorded, rfl⟩ := trace.recorded
  have marks := marks_new started
  obtain ⟨pacemaker, entered, rfl⟩ := map_eq_some_iff.mp started
  obtain ⟨epoch₀, known, rfl⟩ := map_eq_some_iff.mp entered
  refine ⟨_, steps, started, recorded, explains, epochCurrent_iff_of_trace recorded marks known, ?_⟩
  rintro before s l after rfl
  obtain ⟨reaches, s', taken⟩ := recorded.recorded_at
  have current := epochCurrent_iff_of_trace reaches marks known
  refine ⟨current, fun kept c emits epoch signed => ?_⟩
  have inEpoch := voteInEpoch_of_trace reaches.of_recorded marks (by rintro vote ⟨⟩)
  rw [verifyEpoch_eq_ok, taken.signedFor_eq (current.mpr kept) inEpoch emits signed]
  exact current.mpr kept

end Runs

section Examples

open FourValidators

/-- Epochs of two blocks, that start three rounds after the last block of the epoch before. -/
def shortEpochs : EpochManager where
  epochLength := 2
  epochStartDelay := 3
  epochStarts := epochManager.epochStarts
  epochLength_pos := by decide

def everyEpoch : Env := { env 0 with net := { net with valEpochMap := fun _ => some (validators, mapping) } }

def shortEpochReplica : Replica :=
  { genesisReplica with consensus := { genesisReplica.consensus with epochManager := shortEpochs } }

theorem new_eq_shortEpochReplica :
    Replica.new shortEpochs genesisRoot (.qc crypto.genesisQc) = some shortEpochReplica := rfl

/-- Three blocks in a row; the first one ends its epoch. -/
def chain₁ : ConsensusFullBlock := block 1 crypto.genesisQc 1 0
def chain₂ : ConsensusFullBlock := block 2 (qcFor 1 chain₁) 2 0
def chain₃ : ConsensusFullBlock := block 3 (qcFor 2 chain₂) 3 0

/-- The first block is committed when round three is entered, a round before its epoch ends. -/
theorem epochCurrent_iff_epochKept_inTime : ∃ history r s₀ steps,
    Replica.RunFrom everyEpoch.net everyEpoch.node shortEpochs genesisRoot (.qc crypto.genesisQc) history r ∧
      history.map (·.event) = [proposal 1 chain₁ none none, proposal 2 chain₂ none none, proposal 3 chain₃ none none] ∧
      Trace (Trace.Recorded (Step (.wellFormed fun _ => True) everyEpoch.net everyEpoch.node)) s₀ steps r.consensus ∧
      Replica.Explains (steps.map Prod.snd) history ∧ r.consensus.epochManager.getEpoch 4 = some 2 ∧
      r.consensus.EpochCurrent ∧ EpochKept steps := by
  obtain ⟨history, r, run, events, check⟩ := Replica.exists_runFrom_of_replay everyEpoch new_eq_shortEpochReplica
    [proposal 1 chain₁ none none, proposal 2 chain₂ none none, proposal 3 chain₃ none none]
    (fun r _ => decide (r.consensus.epochManager.getEpoch 4 = some 2 ∧
      r.consensus.epochManager.getEpoch r.consensus.getCurrentRound = some r.consensus.getCurrentEpoch))
    (by decide +kernel)
  obtain ⟨moved, current⟩ := of_decide_eq_true check
  obtain ⟨s₀, steps, -, trace, explains, kept, -⟩ := epochCurrent_iff_epochKept run
  exact ⟨history, r, s₀, steps, run, events, trace, explains, moved, current, kept.mp current⟩

/-- The replica gets the third block, enters round four, and only then gets the first two; then it times out. -/
def lateBoundary : List ConsensusEvent :=
  [proposal 3 chain₃ none none, advanceRound (.qc (qcFor 3 chain₃)),
   .blockSync ⟨encodeHeader chain₂.header, 1⟩ [chain₂], .blockSync ⟨encodeHeader chain₁.header, 1⟩ [chain₁],
   .timeout 4]

/-- The commit moves round four to epoch two, but the pacemaker stays in epoch one and signs its timeout for it. -/
theorem epoch_left_behind : ∃ history r, Replica.RunFrom everyEpoch.net everyEpoch.node shortEpochs genesisRoot
      (.qc crypto.genesisQc) history r ∧ r.consensus.getCurrentRound = 4 ∧ r.consensus.getCurrentEpoch = 1 ∧
      r.consensus.epochManager.getEpoch 4 = some 2 ∧
      (∃ c ∈ Replica.emitted history, c.signedFor = some (1, 4)) ∧
      verifyEpoch r.consensus.epochManager 1 4 ≠ .ok () := by
  obtain ⟨history, r, run, -, check⟩ := Replica.exists_runFrom_of_replay everyEpoch new_eq_shortEpochReplica
    lateBoundary (fun r history => decide (r.consensus.getCurrentRound = 4 ∧ r.consensus.getCurrentEpoch = 1 ∧
      r.consensus.epochManager.getEpoch 4 = some 2 ∧
      (∃ c ∈ Replica.emitted history, c.signedFor = some (1, 4)) ∧
      verifyEpoch r.consensus.epochManager 1 4 ≠ .ok ())) (by decide +kernel)
  exact ⟨history, r, run, of_decide_eq_true check⟩

end Examples

end MonadBft
