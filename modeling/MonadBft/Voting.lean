import MonadBft.Instance

/-! # What one replica signs

A replica never fails an assertion of its safety module, and signs votes for at most one
block in a round.
-/

namespace MonadBft

open List Option

section Assertions

variable {net : Network} {node : Node} {em : EpochManager} {root : RootInfo} {highCertificate : RoundCertificate}
  {history : List Replica.Handled} {r : Replica}

/-- No event makes a reachable replica fail an assertion of the safety module, of the pacemaker or of the
vote scheduler. -/
theorem update_no_protocolAssertion (run : Replica.RunFrom net node em root highCertificate history r)
    (now : Surroundings) (e : ConsensusEvent) :
    ¬ ∃ reason : Panic, reason.isProtocolAssertion = true ∧ r.update ⟨net, node, now⟩ e = .panic reason := by
  rintro ⟨reason, isAssertion, panics⟩
  exact absurd isAssertion (by simp [(run.panicFrom panics).1])

end Assertions

open FourValidators in
/-- The replica has voted in round two and timed out, and times out again. -/
theorem votedReplica_no_protocolAssertion : ∃ history r,
    Replica.RunFrom net (node 0) epochManager genesisRoot (.qc crypto.genesisQc) history r ∧
    r.consensus.safety.highestVote = 2 ∧
    ¬ ∃ reason : Panic, reason.isProtocolAssertion = true ∧ r.update (env 0) (.timeout 2) = .panic reason := by
  obtain ⟨history, r, run, -, check⟩ := exists_run 0 [proposal 2 block₂ (noTip tc₁) (some tc₁), .timeout 2]
    (fun r _ => decide (r.consensus.safety.highestVote = 2)) (by decide +kernel)
  exact ⟨history, r, run, of_decide_eq_true check, update_no_protocolAssertion run now (.timeout 2)⟩

/-! ## Signed votes -/

/-- What a command carries signatures of, made with the certificate key of the replica that emits it. -/
def ConsensusCommand.signed (crypto : Crypto) : ConsensusCommand → List SignedMessage
  | .publish _ m =>
    match m.obj.message with
    | .vote v => [.vote v.vote]
    | .timeout t =>
      .timeout t.tminfo :: match t.highExtend with
        | .tip tip _ => [.vote (Evidence.voteOf crypto t tip)]
        | .qc _ => []
    | .noEndorsement n => [.noEndorsement n.msg]
    | _ => []
  | _ => []

def signedIn (crypto : Crypto) (commands : List ConsensusCommand) : List SignedMessage :=
  commands.flatMap (·.signed crypto)

@[simp] theorem signedIn_nil (crypto : Crypto) : signedIn crypto [] = [] := rfl

@[simp] theorem signedIn_append (crypto : Crypto) (l₁ l₂ : List ConsensusCommand) :
    signedIn crypto (l₁ ++ l₂) = signedIn crypto l₁ ++ signedIn crypto l₂ := flatMap_append

def ConsensusState.tipVote (crypto : Crypto) (s : ConsensusState) (tip : ConsensusTip) : Vote where
  id := crypto.getId tip.blockHeader
  epoch := s.getCurrentEpoch
  round := s.getCurrentRound

section Signed

variable {K : Evidence} {net : Network} {node : Node} {s s' : ConsensusState} {label : Label}

variable {msg : SignedMessage}

/-- A timeout signs its rounds, and a vote for the high tip if there is one. -/
theorem signed_timeout {now : Surroundings} {target : RouterTarget}
    (mem : msg ∈ (ConsensusCommand.publish target (Env.sign ⟨net, node, now⟩
      (.timeout (Env.newTimeoutMessage ⟨net, node, now⟩
      (s.pacemaker.timeoutInfo s.safety) (s.pacemaker.highExtend s.safety)
      (s.pacemaker.lastRoundCertificate s.safety))))).signed net.crypto) :
    msg = .timeout (s.pacemaker.timeoutInfo s.safety) ∨
      ∃ tip, s.safety.maybeHighTip = some tip ∧ msg = .vote (s.tipVote net.crypto tip) := by
  cases high : s.safety.maybeHighTip with
  | none =>
    left
    simpa [ConsensusCommand.signed, Env.sign, Env.newTimeoutMessage, Pacemaker.highExtend, high] using mem
  | some tip =>
    simp only [ConsensusCommand.signed, Env.sign, Env.newTimeoutMessage, Pacemaker.highExtend, high, mem_cons,
      not_mem_nil, or_false] at mem
    obtain rfl | rfl := mem
    · exact .inl (by simp [Pacemaker.timeoutInfo, Pacemaker.highExtend, high])
    · exact .inr ⟨tip, rfl, rfl⟩

/-- A step signs only what its action says. -/
theorem Step.signed_cases (taken : Step K net node s label s') (mem : msg ∈ signedIn net.crypto label.commands) :
    (∃ vote, label.action = .sendVote vote ∧ s.scheduledVote = some (.voteReady vote) ∧ msg = .vote vote) ∨
    (label.action = .timeout ∧ (msg = .timeout (s.pacemaker.timeoutInfo s.safety) ∨
      ∃ tip, s.safety.maybeHighTip = some tip ∧ msg = .vote (s.tipVote net.crypto tip))) ∨
    (∃ m tip epoch, label.action = .noEndorse m tip ∧
      msg = .noEndorsement { epoch, round := m.round, tipQcRound := tip.blockHeader.qc.getRound }) := by
  obtain ⟨c, emits, signed⟩ := mem_flatMap.mp mem
  have emission := taken.emission emits
  generalize label.action = action at emission ⊢
  cases emission with
  | mute mute => cases c <;> first | exact absurd mute id | cases signed
  | advance isAdvance left carries =>
    obtain ⟨target, rfl⟩ | ⟨-, epoch, -, rfl⟩ := carries
    · simp [ConsensusCommand.signed, isAdvance] at signed
    · cases signed
  | vote ready =>
    obtain rfl := mem_singleton.mp signed
    exact .inl ⟨_, rfl, ready, rfl⟩
  | timeout => exact .inr (.inl ⟨rfl, signed_timeout signed⟩)
  | noEndorse inRound newer =>
    obtain rfl := mem_singleton.mp signed
    exact .inr (.inr ⟨_, _, _, rfl, rfl⟩)
  | recovery | proposal | create => cases signed

end Signed

/-! ## One vote in a round -/

/-- A vote that was signed, or waits for the vote timer. -/
def Pledged (signed : List SignedMessage) (s : ConsensusState) (v : Vote) : Prop :=
  .vote v ∈ signed ∨ s.scheduledVote = some (.voteReady v)

structure OneVote (crypto : Crypto) (signed : List SignedMessage) (s : ConsensusState) : Prop where
  past : ∀ {v}, Pledged signed s v → v.round ≤ s.safety.highestVote
  tip : ∀ {v tip}, Pledged signed s v → v.round = s.getCurrentRound → s.safety.maybeHighTip = some tip →
    v.id = crypto.getId tip.blockHeader
  agree : ∀ {v w}, Pledged signed s v → Pledged signed s w → v.round = w.round → v.id = w.id

section OneVote

variable {K : Evidence} {net : Network} {node : Node} {s s' : ConsensusState} {label : Label}
  {signed signed' : List SignedMessage}

/-- Without new pledges the invariant survives entering rounds and dropping the high tip. -/
theorem OneVote.keep (h : OneVote net.crypto signed s) (marks : Marks s)
    (old : ∀ v, Pledged signed' s' v → Pledged signed s v) (voted : s.safety.highestVote ≤ s'.safety.highestVote)
    (round : s.getCurrentRound ≤ s'.getCurrentRound)
    (tip : ∀ t, s'.safety.maybeHighTip = some t → s.safety.maybeHighTip = some t) : OneVote net.crypto signed' s' where
  past := fun pledged => (h.past (old _ pledged)).trans voted
  tip := by
    intro v t pledged inRound high
    have := h.past (old v pledged)
    have := marks.voted
    refine h.tip (old v pledged) ?_ (tip t high)
    lia
  agree := fun pledged pledged' => h.agree (old _ pledged) (old _ pledged')

/-- A new vote in the current round, for the high tip if one is held. -/
theorem OneVote.pledge (h : OneVote net.crypto signed s) (marks : Marks s) (w : Vote)
    (pledges : ∀ v, Pledged signed' s' v → Pledged signed s v ∨ v = w) (inRound : w.round = s.getCurrentRound)
    (round : s'.getCurrentRound = s.getCurrentRound) (voted : s'.safety.highestVote = s.getCurrentRound)
    (tip : ∀ t, s'.safety.maybeHighTip = some t → w.id = net.crypto.getId t.blockHeader)
    (same : ∀ v, Pledged signed s v → v.round = s.getCurrentRound → v.id = w.id) : OneVote net.crypto signed' s' where
  past := by
    intro v pledged
    obtain old | rfl := pledges v pledged
    · have := h.past old
      have := marks.voted
      lia
    · lia
  tip := by
    intro v t pledged inRound' high
    obtain old | rfl := pledges v pledged
    · exact (same v old (inRound'.trans round)).trans (tip t high)
    · exact tip t high
  agree := by
    intro v v' pledged pledged' sameRound
    obtain old | rfl := pledges v pledged <;> obtain old' | rfl := pledges v' pledged'
    · exact h.agree old old' sameRound
    · exact same v old (sameRound.trans inRound)
    · exact (same v' old' (sameRound.symm.trans inRound)).symm
    · rfl

/-- A new pledge comes from a vote for a proposal, or from a timeout with a high tip. -/
theorem Step.pledged_cases (taken : Step K net node s label s') {v : Vote}
    (pledged : Pledged (signed ++ signedIn net.crypto label.commands) s' v) :
    Pledged signed s v ∨ (∃ p, label.action = .vote p ∧ v = s.tipVote net.crypto p.tip) ∨
      (label.action = .timeout ∧ ∃ tip, s.safety.maybeHighTip = some tip ∧ v = s.tipVote net.crypto tip) := by
  obtain mem | ready := pledged
  · obtain old | new := mem_append.mp mem
    · exact .inl (.inl old)
    · obtain ⟨w, -, waits, same⟩ | ⟨timedOut, info | ⟨tip, high, same⟩⟩ | ⟨_, _, _, -, same⟩ := taken.signed_cases new
      · exact .inl (.inr (SignedMessage.vote.inj same ▸ waits))
      · cases info
      · exact .inr (.inr ⟨timedOut, tip, high, SignedMessage.vote.inj same⟩)
      · cases same
  · have frame := taken.frame
    cases taken with
    | vote => exact .inr (.inl ⟨_, rfl, by simpa [ConsensusState.tipVote] using ready.symm⟩)
    | advance | timeout | noEndorse => exact .inl (.inr ready)
    | _ => exact .inl (.inr ((frame trivial).scheduled ready))

theorem Step.oneVote (taken : Step K net node s label s') (marks : Marks s) (h : OneVote net.crypto signed s) :
    OneVote net.crypto (signed ++ signedIn net.crypto label.commands) s' := by
  have mono := taken.round_mono
  have frame := taken.frame
  have pledges : ∀ v, Pledged (signed ++ signedIn net.crypto label.commands) s' v → _ := fun _ => taken.pledged_cases
  cases taken with
  | advance now evidence newer known =>
    refine h.keep marks (by simpa using pledges) le_rfl mono fun t high => ?_
    exact (filter_eq_some_iff.mp high).1
  | @vote event _ p _ now handled evidence inRound processed coherent vote =>
    obtain ⟨safe, rfl⟩ := Safety.vote_eq_ok vote
    have fresh := Safety.lt_of_isSafeToVote safe
    refine h.pledge marks (s.tipVote net.crypto p.tip) (by simpa using pledges) rfl rfl rfl ?_ ?_
    · intro t high
      simp only at high
      split at high
      · rw [← some.inj high]
        rfl
      · cases high
    · intro v old sameRound
      have := h.past old
      lia
  | timeout now safe allowed =>
    cases high : s.safety.maybeHighTip with
    | none => exact h.keep marks (by simpa [high] using pledges) marks.voted le_rfl fun t held => by simp [high] at held
    | some tip =>
      refine h.pledge marks (s.tipVote net.crypto tip) (by simpa [high] using pledges) rfl rfl rfl ?_
        fun v old sameRound => h.tip old sameRound high
      intro t held
      obtain rfl : tip = t := some.inj (high.symm.trans held)
      rfl
  | noEndorse now author handled evidence inRound isTip done =>
    obtain ⟨-, -, rfl⟩ := Safety.noEndorse_eq_ok done
    exact h.keep marks (by simpa using pledges) le_rfl mono fun t high => high
  | _ =>
    have frame := frame trivial
    exact h.keep marks (by simpa using pledges) frame.voted.ge mono fun t high => frame.tip ▸ high

/-- The votes of a run of steps. -/
theorem oneVote_of_trace {labels : List Label} (run : Trace (Step K net node) s labels s') (marks : Marks s)
    (start : OneVote net.crypto [] s) : OneVote net.crypto (signedIn net.crypto (labels.flatMap (·.commands))) s' := by
  induction run with
  | nil => exact start
  | snoc before taken ih =>
    rw [flatMap_append, signedIn_append]
    simpa using taken.oneVote (marks_of_trace before marks) ih

theorem oneVote_new {em : EpochManager} {root : RootInfo} {highCertificate : RoundCertificate}
    (started : ConsensusState.new em root highCertificate = some s) : OneVote net.crypto [] s := by
  have none : ∀ {v}, ¬ Pledged [] s v := by
    rintro v (mem | ready)
    · cases mem
    · obtain ⟨pacemaker, -, rfl⟩ := map_eq_some_iff.mp started
      cases ready
  exact ⟨fun h => (none h).elim, fun h => (none h).elim, fun h => (none h).elim⟩

end OneVote

section OneVotePerRound

variable {net : Network} {node : Node} {em : EpochManager} {root : RootInfo} {highCertificate : RoundCertificate}
  {history : List Replica.Handled} {r : Replica}

/-- All vote signatures of one replica for one round are for one block, whether published in a vote message or
embedded in a timeout. -/
theorem votes_of_round_unique (run : Replica.RunFrom net node em root highCertificate history r) {v w : Vote}
    (signedV : .vote v ∈ signedIn net.crypto (Replica.emitted history))
    (signedW : .vote w ∈ signedIn net.crypto (Replica.emitted history)) (sameRound : v.round = w.round) :
    v.id = w.id := by
  obtain ⟨s₀, labels, started, trace, explains⟩ := run.steps
  rw [explains.emitted] at signedV signedW
  have votes := oneVote_of_trace trace (ConsensusState.marks_new started) (oneVote_new started)
  exact votes.agree (.inl signedV) (.inl signedW) sameRound

end OneVotePerRound

/-- The event at `i` made the replica sign the message. -/
def FourValidators.signsAt (history : List Replica.Handled) (i : Nat) (message : SignedMessage) : Bool :=
  history[i]?.any fun h => decide (message ∈ signedIn crypto h.commands)

open FourValidators in
/-- A replica votes in round two with a vote message, and again in its timeout. -/
theorem votes_of_round_unique_timeout :
    ∃ voted timedOut r, Replica.RunFrom net (node 0) epochManager genesisRoot (.qc crypto.genesisQc)
      [voted, timedOut] r ∧
      ∃ v w, .vote v ∈ signedIn crypto voted.commands ∧ .vote w ∈ signedIn crypto timedOut.commands ∧ v.id = w.id := by
  let vote : Vote := ⟨encodeHeader block₂.header, 1, 2⟩
  obtain ⟨history, r, run, events, check⟩ := exists_run 0 [proposal 2 block₂ (noTip tc₁) (some tc₁), .timeout 2]
    (fun _ history => signsAt history 0 (.vote vote) && signsAt history 1 (.vote vote)) (by decide +kernel)
  simp only [map_eq_cons_iff, map_eq_nil_iff] at events
  obtain ⟨voted, _, rfl, -, timedOut, _, rfl, -, rfl⟩ := events
  obtain ⟨signed, signed'⟩ : .vote vote ∈ signedIn crypto voted.commands ∧
    .vote vote ∈ signedIn crypto timedOut.commands := by
    simpa [signsAt] using check
  refine ⟨voted, timedOut, r, run, vote, vote, signed, signed', votes_of_round_unique run ?_ ?_ rfl⟩
  · simp [Replica.emitted, signed, net]
  · simp [Replica.emitted, signed', net]

end MonadBft
