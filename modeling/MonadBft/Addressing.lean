import MonadBft.Instance

/-! # Where votes are sent

`send_vote_and_reset_timer` sends a vote to the leaders of the round it is called with and
of the next one. `try_vote` calls it with the round of the vote, but a vote timer calls it
with the round that the timer was started for.
-/

namespace MonadBft

open List

namespace ConsensusCommand

/-- The vote of a published vote message, and where it is sent. -/
def voteSent : ConsensusCommand → Option (Vote × RouterTarget)
  | .publish target u =>
    match u.obj.message with
    | .vote m => some (m.vote, target)
    | _ => none
  | _ => none

def voteTimer : ConsensusCommand → Option Round
  | .scheduleVote _ round => some round
  | _ => none

end ConsensusCommand

/-- The commands send the vote to the leader of the round after its own, and to that of its own round if this is
another one, and start the vote timer of the round after its own. -/
def ConsensusState.AddressesVote (env : Env) (s : ConsensusState) (v : Vote) (commands : List ConsensusCommand) :
    Prop :=
  ∃ next current, s.leaderOf env (v.round + 1) = some next ∧ s.leaderOf env v.round = some current ∧
    commands.filterMap (·.voteSent) = (v, .pointToPoint next) ::
      (if current ≠ next then [(v, .pointToPoint current)] else []) ∧
    commands.filterMap (·.voteTimer) = [v.round + 1]

section Steps

variable {K : Evidence} {net : Network} {node : Node} {s s' : ConsensusState} {label : Label}

variable {v : Vote}

/-- Vote messages are only sent by `send_vote_and_reset_timer`. -/
theorem Step.sendVote_of_voteSent (taken : Step K net node s label s') {c : ConsensusCommand}
    (emits : c ∈ label.commands)
    {target : RouterTarget} (sends : c.voteSent = some (v, target)) : label.action = .sendVote v := by
  have emission := taken.emission emits
  generalize label.action = action at emission ⊢
  cases emission with
  | mute mute => cases c <;> first | exact absurd mute id | cases sends
  | advance isAdvance left carries =>
    obtain ⟨target, rfl⟩ | ⟨-, epoch, -, rfl⟩ := carries
    · simp [ConsensusCommand.voteSent, isAdvance] at sends
    · cases sends
  | vote ready =>
    obtain ⟨rfl, -⟩ := Prod.mk.inj (Option.some.inj sends)
    rfl
  | timeout | noEndorse | recovery | proposal | create => cases sends

/-- What `send_vote_and_reset_timer` does for a vote, called with some round. -/
theorem ConsensusState.sendVoteAndResetTimer_sends {env : Env} {round : Round} {commands : List ConsensusCommand}
    (done : s.sendVoteAndResetTimer env round v = .ok s' commands) :
    ∃ next current, s.leaderOf env (round + 1) = some next ∧ s.leaderOf env round = some current ∧
      commands.filterMap (·.voteSent) = (v, .pointToPoint next) ::
        (if current ≠ next then [(v, .pointToPoint current)] else []) ∧
      commands.filterMap (·.voteTimer) = [round + 1] := by
  simp only [ConsensusState.sendVoteAndResetTimer] at done
  split at done
  case h_2 => cases done
  case h_1 next current nextLeads currentLeads =>
    obtain ⟨-, rfl⟩ := Outcome.ok.inj done
    refine ⟨next, current, nextLeads, currentLeads, ?_, ?_⟩
    all_goals
      by_cases same : current = next
      · simp [same, ConsensusCommand.voteSent, ConsensusCommand.voteTimer, Env.sign, Env.newVoteMessage]
      · simp [same, ConsensusCommand.voteSent, ConsensusCommand.voteTimer, Env.sign, Env.newVoteMessage]

/-- The timers tell the rounds apart, also when the leaders are the same. -/
theorem Step.addressesVote_iff (taken : Step K net node s label s') (action : label.action = .sendVote v)
    (now : Surroundings) :
    s.AddressesVote ⟨net, node, now⟩ v label.commands ↔ ∀ round, label.event = .sendVote round → round = v.round := by
  cases taken with
  | @sendVote event s round vote commands now' ready sent source done =>
    obtain rfl := Action.sendVote.inj action
    have sends := ConsensusState.sendVoteAndResetTimer_sends done
    constructor
    · rintro ⟨-, -, -, -, -, timer⟩ k fired
      obtain ⟨-, -, -, -, -, timer'⟩ := sends
      have sameRound : round = vote.round := by simpa [timer'] using timer
      obtain started | ⟨-, other⟩ := source
      · exact (ConsensusEvent.sendVote.inj (fired.symm.trans started)).trans sameRound
      · exact absurd fired (other k)
    · intro inRound
      have sameRound : round = vote.round := by
        obtain started | ⟨same, -⟩ := source
        · exact inRound round started
        · exact same
      subst sameRound
      exact sends
  | _ => cases action

end Steps

section Runs

variable {net : Network} {node : Node} {em : EpochManager} {root : RootInfo} {highCertificate : RoundCertificate}
  {history : List Replica.Handled} {r : Replica}

end Runs

section Examples

open FourValidators

/-- The four validators, with a leader that changes in round five. -/
def newLeaderEnv : Env := { env 0 with net := { net with getLeader := fun round _ => if round < 5 then 3 else 0 } }

def block₃ : ConsensusFullBlock := block 3 (qcFor 2 block₂) 2 0
def block₄ : ConsensusFullBlock := block 4 (qcFor 3 block₃) 3 0

def vote₂ : Vote := ⟨encodeHeader block₂.header, 1, 2⟩
def vote₄ : Vote := ⟨encodeHeader block₄.header, 1, 4⟩

/-- The replica votes in round two and starts the timer of round three. It enters round four with a certificate, gets
the block of round three from block sync, and its vote for round four waits when that timer fires. -/
def skippedRound₃ : List ConsensusEvent :=
  [proposal 2 block₂ (noTip tc₁) (some tc₁), advanceRound (.qc (qcFor 3 block₃)),
   .blockSync ⟨encodeHeader block₃.header, 1⟩ [block₃], proposal 4 block₄ none none, .sendVote 3]

end Examples

end MonadBft
