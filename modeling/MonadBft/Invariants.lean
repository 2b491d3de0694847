import MonadBft.Steps

/-! # What every step keeps

The marks of the safety module do not pass the current round, what the state holds stays
backed by evidence, and rounds only grow.
-/

namespace MonadBft

open ConsensusState Option

variable {em em' : EpochManager} {blocks : List ConsensusFullBlock}

section

variable (h : scheduleEpochStarts em blocks = some em')

include h

/-- `schedule_epoch_start` for each of the blocks. -/
theorem getEpoch_scheduleEpochStarts {round : Round} {e : Epoch} (known : em.getEpoch round = some e) :
    ∃ e', em'.getEpoch round = some e' ∧ e ≤ e' ∧
      (e' = e ↔ ∀ b ∈ blocks, ¬ em.Moves b.getSeqNum b.getBlockRound round e) := by
  induction blocks generalizing em e with
  | nil =>
    obtain rfl := some.inj h
    exact ⟨e, known, le_rfl, by simp⟩
  | cons block rest ih =>
    obtain ⟨em₁, scheduled, later⟩ := bind_eq_some_iff.mp h
    obtain ⟨e', known', le', same'⟩ := ih later (EpochManager.getEpoch_scheduleEpochStart scheduled known)
    obtain ⟨length, delay⟩ := EpochManager.scheduleEpochStart_params scheduled
    by_cases moves : em.Moves block.getSeqNum block.getBlockRound round e
    · -- epochs do not come back
      rw [if_pos moves] at le'
      have higher := moves.2.2.trans_le le'
      refine ⟨e', known', higher.le, iff_of_false higher.ne' fun none => none block (by simp) moves⟩
    · rw [if_neg moves] at le' same'
      have sameMoves : ∀ n r, em₁.Moves n r round e ↔ em.Moves n r round e := by
        simp [EpochManager.Moves, length, delay]
      refine ⟨e', known', le', same'.trans ?_⟩
      simp only [List.forall_mem_cons, sameMoves]
      exact (and_iff_right moves).symm

theorem extends_scheduleEpochStarts :
    em.Extends em' := fun _ _ known =>
  have ⟨e', known', le', _⟩ := getEpoch_scheduleEpochStarts h known
  ⟨e', known', le'⟩

end

/-- The marks of a replica are not ahead of its current round, and its epoch is not ahead of the schedule. -/
structure Marks (s : ConsensusState) : Prop where
  voted : s.safety.highestVote ≤ s.getCurrentRound
  noEndorsed : s.safety.highestNoEndorse.round ≤ s.getCurrentRound
  scheduled : ∀ {vote}, s.scheduledVote = some (.voteReady vote) → vote.round ≤ s.safety.highestVote
  epoch : ∃ e, s.epochManager.getEpoch s.getCurrentRound = some e ∧ s.getCurrentEpoch ≤ e

/-- Actions that do not enter a round, vote, time out or no-endorse. -/
def Action.IsFrame : Action → Prop
  | .advance _ | .vote _ | .timeout | .noEndorse _ _ => False
  | _ => True

/-- What the other actions leave as it is. -/
structure Frame (s s' : ConsensusState) : Prop where
  round : s'.getCurrentRound = s.getCurrentRound
  epoch : s'.getCurrentEpoch = s.getCurrentEpoch
  certificate : s'.pacemaker.highCertificate = s.pacemaker.highCertificate
  qcRound : s'.safety.highCertificateQcRound = s.safety.highCertificateQcRound
  voted : s'.safety.highestVote = s.safety.highestVote
  noEndorsed : s'.safety.highestNoEndorse = s.safety.highestNoEndorse
  tip : s'.safety.maybeHighTip = s.safety.maybeHighTip
  proposed : s'.safety.highestPropose = s.safety.highestPropose ∨ s'.safety.highestPropose = s.getCurrentRound
  scheduled : ∀ {vote}, s'.scheduledVote = some (.voteReady vote) → s.scheduledVote = some (.voteReady vote)
  epochs : s.epochManager.Extends s'.epochManager

theorem Frame.refl (s : ConsensusState) : Frame s s :=
  ⟨rfl, rfl, rfl, rfl, rfl, rfl, rfl, .inl rfl, id, .refl _⟩

section Steps

variable {K : Evidence} {net : Network} {node : Node} {s s' : ConsensusState} {label : Label}

variable (taken : Step K net node s label s')

include taken

theorem Step.frame (isFrame : label.action.IsFrame) : Frame s s' := by
  cases taken with
  | advance | vote | timeout | noEndorse => cases isFrame
  | sendVote => exact { Frame.refl s with scheduled := nofun }
  | proposeTip now basis done =>
    obtain ⟨rfl, -⟩ | ⟨-, -, rfl, -⟩ | ⟨-, -, rfl, -⟩ := proposeTip_eq_ok done
    exacts [.refl _, { Frame.refl s with }, { Frame.refl s with proposed := .inr rfl }]
  | proposeFresh now basis looked known leads inEpoch done =>
    obtain ⟨rfl, -⟩ | ⟨-, rfl, -⟩ := proposeFresh_eq_ok done
    exacts [.refl _, { Frame.refl s with proposed := .inr rfl }]
  | addBlock | markCoherent => exact { Frame.refl s with }
  | commit evidence parent committable done scheduled =>
    exact { Frame.refl s with epochs := extends_scheduleEpochStarts scheduled }
  | bookkeeping quiet =>
    obtain ⟨_, safety⟩ := quiet.safety
    obtain ⟨_, pacemaker⟩ := quiet.pacemaker
    constructor <;> try simp [safety, pacemaker, getCurrentRound, getCurrentEpoch, Pacemaker.getCurrentRound]
    · intro vote ready
      obtain same | fired := quiet.scheduledVote
      · exact same ▸ ready
      · simp [fired] at ready
    · exact quiet.epochManager ▸ .refl _

theorem Step.round_mono : s.getCurrentRound ≤ s'.getCurrentRound := by
  have frame := taken.frame
  cases taken with
  | advance now evidence newer known =>
    simp only [getCurrentRound, Pacemaker.getCurrentRound]
    lia
  | vote | timeout | noEndorse => exact le_rfl
  | _ => exact (frame trivial).round.ge

theorem Step.marks (marks : Marks s) : Marks s' := by
  obtain ⟨voted, noEndorsed, scheduled, epoch⟩ := marks
  have mono := taken.round_mono
  have frame := taken.frame
  cases taken with
  | advance now evidence newer known =>
    exact ⟨voted.trans mono, noEndorsed.trans mono, scheduled, _, known, le_rfl⟩
  | vote now handled evidence inRound processed coherent vote =>
    obtain ⟨safe, rfl⟩ := Safety.vote_eq_ok vote
    exact ⟨le_rfl, noEndorsed, by simp, epoch⟩
  | timeout now safe allowed =>
    exact ⟨le_rfl, noEndorsed, fun ready => (scheduled ready).trans voted, epoch⟩
  | noEndorse now author handled evidence inRound isTip done =>
    obtain ⟨-, -, rfl⟩ := Safety.noEndorse_eq_ok done
    exact ⟨voted, inRound.le, scheduled, epoch⟩
  | _ =>
    have frame := frame trivial
    obtain ⟨e, known, le⟩ := epoch
    obtain ⟨e', known', le'⟩ := frame.epochs _ _ known
    refine ⟨frame.voted ▸ voted.trans mono, frame.noEndorsed ▸ noEndorsed.trans mono, fun ready => ?_, e', ?_, ?_⟩
    · exact frame.voted ▸ scheduled (frame.scheduled ready)
    · rwa [frame.round]
    · exact frame.epoch ▸ le.trans le'

omit taken in
/-- Changing the block tree keeps the support of a state whose blocks have evidence. -/
theorem Supported.setTree (supported : Supported K net.crypto s) {bt : BlockTree} {em : EpochManager}
    (entry : ∀ {k e}, bt.tree.get k = some e →
      (net.crypto.getId e.validatedBlock.header = k ∧ K.block e.validatedBlock.header ∧
        e.validatedBlock.BodyMatches net.crypto) ∨
        ∃ e₀, s.pendingBlockTree.tree.get k = some e₀ ∧ e.validatedBlock = e₀.validatedBlock) :
    Supported K net.crypto { s with pendingBlockTree := bt, epochManager := em } := by
  refine { supported with keyed := ?_, blocks := ?_, bodies := ?_ }
  · intro k e found
    obtain ⟨key, -⟩ | ⟨e₀, found₀, same⟩ := entry found
    · exact key
    · exact same ▸ supported.keyed k e₀ found₀
  · intro k e found
    obtain ⟨-, evidence, -⟩ | ⟨e₀, found₀, same⟩ := entry found
    · exact evidence
    · exact same ▸ supported.blocks found₀
  · intro k e found
    obtain ⟨-, -, body⟩ | ⟨e₀, found₀, same⟩ := entry found
    · exact body
    · exact same ▸ supported.bodies found₀

theorem Step.supported (supported : Supported K net.crypto s) : Supported K net.crypto s' := by
  cases taken with
  | advance now evidence newer known =>
    refine { supported with certificate := evidence, timeouts := ?_, together := ?_, highTip := ?_ }
    · intro a t pending
      exact absurd pending (SortedMap.not_mem_empty _)
    · intro a t a' t' pending
      exact absurd pending (SortedMap.not_mem_empty _)
    · intro tip kept
      exact supported.highTip (filter_eq_some_iff.mp kept).1
  | vote now handled evidence inRound processed coherent vote =>
    obtain ⟨-, rfl⟩ := Safety.vote_eq_ok vote
    refine { supported with highTip := ?_ }
    intro tip high
    simp only at high
    split at high
    · exact ⟨_, evidence, some.inj high⟩
    · cases high
  | noEndorse now author handled evidence inRound isTip done =>
    obtain ⟨-, -, rfl⟩ := Safety.noEndorse_eq_ok done
    exact { supported with }
  | proposeTip now basis done =>
    obtain ⟨_, _, rfl⟩ := proposed_of_proposeTip done
    exact { supported with }
  | proposeFresh now basis looked known leads inEpoch done =>
    obtain ⟨_, _, rfl⟩ := proposed_of_proposeFresh done
    exact { supported with }
  | bookkeeping quiet => exact quiet.supported supported
  | sendVote | timeout => exact { supported with }
  | addBlock source evidence body done =>
    refine supported.setTree fun {k e} found => ?_
    obtain ⟨rfl, rfl, -⟩ | ⟨e₀, found₀, same, -⟩ := (BlockTree.add_eq_ok done).2 k e found
    · exact .inl ⟨rfl, evidence, body⟩
    · exact .inr ⟨e₀, found₀, same⟩
  | markCoherent now done =>
    refine supported.setTree fun {k e} found => ?_
    obtain ⟨e₀, found₀, same, -⟩ := (BlockTree.tryUpdateCoherency_eq_ok supported.keyed done).entry k e found
    exact .inr ⟨e₀, found₀, same⟩
  | commit evidence parent committable done scheduled =>
    refine supported.setTree fun {k e} found => ?_
    exact .inr ⟨e, (BlockTree.prune_eq_ok supported.keyed done).kept k e found, rfl⟩

end Steps

end MonadBft
