import MonadBft.Voting

/-! # Votes of a round with a no-endorsement

A replica that no-endorsed the tip of a timeout certificate should vote in that round only
for proposals that answer the same certificate. The vote of a later timeout escapes this:
it is for the high tip, which may be older than the no-endorsement.
-/

namespace MonadBft

open ConsensusState Replica List

/-- The state in which a timeout signs a vote for a high tip that was not voted for in this round, although
the replica no-endorsed in it. -/
def ConsensusState.holdsStaleTip (s : ConsensusState) : Bool :=
  s.safety.highestNoEndorse.round = s.getCurrentRound ∧ s.safety.highestVote < s.getCurrentRound ∧
    s.safety.maybeHighTip.isSome

/-- The event times the replica out: its timer fires, or it accepts a timeout message after which an honest
validator has timed out. -/
def Replica.timesOut (net : Network) (r : Replica) : ConsensusEvent → Bool
  | .timeout round => r.consensus.getCurrentRound ≤ round
  | .message m =>
    match (verifyAndValidate net r.consensus.epochManager r.certificateCache m).1, m.obj.message with
    | some author, .timeout t =>
      t.tminfo.round = r.consensus.getCurrentRound &&
        match (r.consensus.epochManager.getEpoch t.tminfo.round).bind net.valEpochMap with
        | some (validators, _) =>
          validators.hasHonestVote (r.consensus.pacemaker.pendingTimeouts.insert author t).keys = .ok true
        | none => false
    | _, _ => false
  | _ => false

def Replica.timesOutStale (net : Network) (r : Replica) (e : ConsensusEvent) : Bool :=
  r.timesOut net e && r.consensus.holdsStaleTip

/-- The proposal carries a timeout certificate whose high tip is the block `id`. -/
def ProposalMessage.Answers (crypto : Crypto) (p : ProposalMessage) (id : BlockId) : Prop :=
  ∃ tc tip, p.lastRoundTc = some tc ∧ tc.highExtend = .tip tip ∧ crypto.getId tip.blockHeader = id

theorem ConsensusState.tcTip_eq_some (env : Env) {p : ProposalMessage} {id : BlockId}
    (h : tcTip env p.lastRoundTc = some id) : p.Answers env.net.crypto id := by
  unfold tcTip at h
  split at h
  · cases h
  case h_2 tc isTc =>
    split at h
    · cases h
    case h_2 tip isTip => exact ⟨tc, tip, isTc, isTip, Option.some.inj h⟩

/-! ## The invariant -/

/-- The steps contain a vote for the block of `v`, in the round of `v`, in answer to a certificate with high
tip `tip`. -/
def Follows (crypto : Crypto) (labels : List Label) (tip : ConsensusTip) (v : Vote) : Prop :=
  ∃ l ∈ labels, ∃ p, l.action = .vote p ∧ p.proposalRound = v.round ∧ crypto.getId p.tip.blockHeader = v.id ∧
    p.Answers crypto (crypto.getId tip.blockHeader)

def NoEndorses (labels : List Label) (m : RoundRecoveryMessage) (tip : ConsensusTip) : Prop :=
  ∃ l ∈ labels, l.action = .noEndorse m tip

structure Endorsing (crypto : Crypto) (labels : List Label) (signed : List SignedMessage) (s : ConsensusState) :
    Prop where
  latest : ∀ {m tip}, NoEndorses labels m tip → m.round ≤ s.safety.highestNoEndorse.round ∧
    (m.round = s.safety.highestNoEndorse.round → s.safety.highestNoEndorse.tip = crypto.getId tip.blockHeader)
  votes : ∀ {m tip v}, NoEndorses labels m tip → Pledged signed s v → v.round = m.round → Follows crypto labels tip v
  /-- A timeout after the vote of the round repeats that vote. -/
  highTip : ∀ {m tip high}, NoEndorses labels m tip → m.round = s.getCurrentRound →
    s.getCurrentRound ≤ s.safety.highestVote → s.safety.maybeHighTip = some high →
    Follows crypto labels tip (s.tipVote crypto high)

theorem Follows.append {crypto : Crypto} {labels labels' : List Label} {tip : ConsensusTip} {v : Vote}
    (h : Follows crypto labels tip v) : Follows crypto (labels ++ labels') tip v := by
  obtain ⟨l, mem, rest⟩ := h
  exact ⟨l, mem_append_left _ mem, rest⟩

theorem noEndorses_snoc {labels : List Label} {label : Label} {m : RoundRecoveryMessage} {tip : ConsensusTip} :
    NoEndorses (labels ++ [label]) m tip ↔ NoEndorses labels m tip ∨ label.action = .noEndorse m tip := by
  simp [NoEndorses, or_and_right, exists_or]

section Steps

variable {K : Evidence} {net : Network} {node : Node} {s s' : ConsensusState} {labels : List Label} {label : Label}
  {signed signed' : List SignedMessage}

/-- A step without a new no-endorsement or vote, that enters a round or keeps the vote and the high tip. -/
theorem Endorsing.keep (h : Endorsing net.crypto labels signed s) (marks : Marks s)
    (quiet : ∀ m tip, label.action ≠ .noEndorse m tip) (old : ∀ v, Pledged signed' s' v → Pledged signed s v)
    (same : s'.safety.highestNoEndorse = s.safety.highestNoEndorse)
    (frame : s.getCurrentRound < s'.getCurrentRound ∨ (s'.getCurrentRound = s.getCurrentRound ∧
      s'.safety.highestVote = s.safety.highestVote ∧ s'.safety.maybeHighTip = s.safety.maybeHighTip)) :
    Endorsing net.crypto (labels ++ [label]) signed' s' := by
  have before : ∀ {m tip}, NoEndorses (labels ++ [label]) m tip → NoEndorses labels m tip := fun noEndorses =>
    (noEndorses_snoc.mp noEndorses).resolve_right (quiet _ _)
  refine ⟨fun noEndorses => same ▸ h.latest (before noEndorses), ?_, ?_⟩
  · intro m tip v noEndorses pledged inRound
    exact (h.votes (before noEndorses) (old v pledged) inRound).append
  · intro m tip high noEndorses inRound voted held
    obtain later | ⟨round, vote, tip⟩ := frame
    · have := (h.latest (before noEndorses)).1
      have := marks.noEndorsed
      lia
    · obtain ⟨l, mem, p, isVote, proposed, sameId, answers⟩ :=
        h.highTip (before noEndorses) (inRound.trans round) (by rwa [round, vote] at voted) (tip ▸ held)
      exact ⟨l, mem_append_left _ mem, p, isVote, proposed.trans round.symm, sameId, answers⟩

theorem Step.endorsing (taken : Step K net node s label s') (fresh : ∀ {s}, K.mayTimeOut s → s.holdsStaleTip = false)
    (marks : Marks s) (oneVote : OneVote net.crypto signed s) (h : Endorsing net.crypto labels signed s) :
    Endorsing net.crypto (labels ++ [label]) (signed ++ signedIn net.crypto label.commands) s' := by
  have pledges : ∀ v, Pledged (signed ++ signedIn net.crypto label.commands) s' v → _ := fun _ => taken.pledged_cases
  have frame := taken.frame
  cases taken with
  | advance now evidence newer known =>
    exact h.keep marks (by simp) (by simpa using pledges) rfl (.inl (Nat.succ_lt_succ newer))
  | @vote event _ p _ now handled evidence inRound processed coherent voted =>
    obtain ⟨safe, rfl⟩ := Safety.vote_eq_ok voted
    have before : ∀ {m tip}, NoEndorses (labels ++ [⟨event, .vote p, []⟩]) m tip → NoEndorses labels m tip :=
      fun noEndorses => (noEndorses_snoc.mp noEndorses).resolve_right (by simp)
    -- the check of the vote compares the certificate with the one that was no-endorsed
    have follows : ∀ {m tip}, NoEndorses labels m tip → m.round = s.getCurrentRound →
        Follows net.crypto (labels ++ [⟨event, .vote p, []⟩]) tip (s.tipVote net.crypto p.tip) := by
      intro m tip noEndorses atRound
      obtain ⟨bound, latest⟩ := h.latest noEndorses
      have current : s.getCurrentRound = s.safety.highestNoEndorse.round :=
        le_antisymm (atRound ▸ bound) marks.noEndorsed
      refine ⟨⟨event, .vote p, []⟩, by simp, p, rfl, inRound, rfl, ?_⟩
      rw [← latest (atRound.trans current)]
      refine tcTip_eq_some ⟨net, node, now⟩ ?_
      by_contra differs
      rw [Safety.isSafeToVote, if_pos ⟨current, differs⟩] at safe
      cases safe
    refine ⟨fun noEndorses => h.latest (before noEndorses), ?_, ?_⟩
    · intro m tip v noEndorses pledged atRound
      obtain old | ⟨q, isVote, rfl⟩ | ⟨isTimeout, -⟩ := pledges v pledged
      · exact (h.votes (before noEndorses) old atRound).append
      · cases isVote
        exact follows (before noEndorses) atRound.symm
      · cases isTimeout
    · intro m tip high noEndorses atRound _ held
      simp only at held
      split at held
      · cases held
        exact follows (before noEndorses) atRound
      · cases held
  | timeout now safe allowed =>
    -- the high tip was voted for in this round, or the timeout is not allowed
    have follows : ∀ {m tip high}, NoEndorses labels m tip → m.round = s.getCurrentRound →
        s.safety.maybeHighTip = some high → Follows net.crypto labels tip (s.tipVote net.crypto high) := by
      intro m tip high noEndorses atRound held
      have current : s.safety.highestNoEndorse.round = s.getCurrentRound :=
        le_antisymm marks.noEndorsed (atRound ▸ (h.latest noEndorses).1)
      refine h.highTip noEndorses atRound (not_lt.mp fun notVoted => ?_) held
      simpa [holdsStaleTip, current, notVoted, held] using fresh allowed
    refine ⟨fun noEndorses => h.latest ((noEndorses_snoc.mp noEndorses).resolve_right (by simp)), ?_, ?_⟩
    · intro m tip v noEndorses pledged atRound
      have noEndorses := (noEndorses_snoc.mp noEndorses).resolve_right (by simp)
      obtain old | ⟨q, isVote, -⟩ | ⟨-, high, held, rfl⟩ := pledges v pledged
      · exact (h.votes noEndorses old atRound).append
      · cases isVote
      · exact (follows noEndorses atRound.symm held).append
    · intro m tip high noEndorses atRound _ held
      exact (follows ((noEndorses_snoc.mp noEndorses).resolve_right (by simp)) atRound held).append
  | noEndorse now author handled evidence inRound isTip done =>
    obtain ⟨endorsed, voted, rfl⟩ := Safety.noEndorse_eq_ok done
    have notVoted : ¬ s.getCurrentRound ≤ s.safety.highestVote := by lia
    refine ⟨?_, ?_, fun _ _ voted => absurd voted notVoted⟩
    · intro m tip noEndorses
      obtain old | new := noEndorses_snoc.mp noEndorses
      · have bound := (h.latest old).1
        exact ⟨bound.trans endorsed.le, fun same => by simp only at same; lia⟩
      · cases new
        exact ⟨le_rfl, fun _ => rfl⟩
    · intro m tip v noEndorses pledged atRound
      have old : Pledged signed s v := by simpa using pledges v pledged
      obtain before | new := noEndorses_snoc.mp noEndorses
      · exact (h.votes before old atRound).append
      · -- nothing was voted for in this round
        cases new
        have := oneVote.past old
        lia
  | _ =>
    have frame := frame trivial
    exact h.keep marks (by simp) (by simpa using pledges) frame.noEndorsed (.inr ⟨frame.round, frame.voted, frame.tip⟩)

theorem endorsing_of_trace (run : Trace (Step K net node) s labels s')
    (fresh : ∀ {s}, K.mayTimeOut s → s.holdsStaleTip = false) (marks : Marks s) (start : OneVote net.crypto [] s) :
    Endorsing net.crypto labels (signedIn net.crypto (labels.flatMap (·.commands))) s' := by
  induction run with
  | nil =>
    have none : ∀ {m tip}, ¬ NoEndorses [] m tip := by simp [NoEndorses]
    exact ⟨fun h => (none h).elim, fun h => (none h).elim, fun h => (none h).elim⟩
  | snoc before taken ih =>
    rw [flatMap_append, signedIn_append]
    simpa using taken.endorsing fresh (marks_of_trace before marks) (oneVote_of_trace before marks start) ih

/-- A vote or a no-endorsement answers the message that is being handled. -/
theorem handled_of_trace (run : Trace (Step K net node) s labels s') :
    (∀ {l p}, l ∈ labels → l.action = .vote p → l.event.message? = some (.proposal p)) ∧
    (∀ {l m tip}, l ∈ labels → l.action = .noEndorse m tip →
      l.event.message? = some (.roundRecovery m) ∧ m.tc.highExtend = .tip tip) ∧
    (∀ {l msg}, l ∈ labels → .noEndorsement msg ∈ signedIn net.crypto l.commands →
      ∃ m tip, l.action = .noEndorse m tip ∧ msg.round = m.round) := by
  refine ⟨?_, ?_, ?_⟩
  · intro l p mem isVote
    obtain ⟨-, _, _, -, taken⟩ := run.exists_of_mem mem
    cases taken <;> cases isVote
    assumption
  · intro l m tip mem isNoEndorse
    obtain ⟨-, _, _, -, taken⟩ := run.exists_of_mem mem
    cases taken <;> cases isNoEndorse
    exact ⟨by assumption, by assumption⟩
  · intro l msg mem signed
    obtain ⟨-, _, _, -, taken⟩ := run.exists_of_mem mem
    obtain ⟨_, -, -, same⟩ | ⟨-, same | ⟨_, -, same⟩⟩ | ⟨m, tip, epoch, isNoEndorse, same⟩ := taken.signed_cases signed
    · cases same
    · cases same
    · cases same
    · cases same
      exact ⟨m, tip, isNoEndorse, rfl⟩

end Steps

/-! ## Runs -/

/-- The replica answered a recovery request of `round` with a no-endorsement of `tip`. -/
def Replica.NoEndorsed (crypto : Crypto) (history : List Replica.Handled) (round : Round) (tip : ConsensusTip) : Prop :=
  ∃ h ∈ history, ∃ m msg, h.event.message? = some (.roundRecovery m) ∧ m.tc.highExtend = .tip tip ∧
    .noEndorsement msg ∈ signedIn crypto h.commands ∧ msg.round = round

/-- The replica got a proposal of `round` for the block `id`, in answer to a certificate with high tip `tip`. -/
def Replica.GotProposal (crypto : Crypto) (history : List Replica.Handled) (round : Round) (id : BlockId)
    (tip : ConsensusTip) : Prop :=
  ∃ h ∈ history, ∃ p, h.event.message? = some (.proposal p) ∧ p.proposalRound = round ∧
    crypto.getId p.tip.blockHeader = id ∧ p.Answers crypto (crypto.getId tip.blockHeader)

/-- Every vote of a round with a no-endorsement is for a proposal with the no-endorsed certificate. -/
def Replica.VotesAsNoEndorsed (crypto : Crypto) (history : List Replica.Handled) : Prop :=
  ∀ round tip v, Replica.NoEndorsed crypto history round tip →
    .vote v ∈ signedIn crypto (emitted history) → v.round = round →
    Replica.GotProposal crypto history round v.id tip

section NoEndorsed

variable {net : Network} {node : Node} {em : EpochManager} {root : RootInfo} {highCertificate : RoundCertificate}
  {history : List Replica.Handled} {r : Replica}

/-- An event that does not time the replica out with a stale tip, as evidence for the steps. -/
theorem wellFormed_event_of_timesOutStale {e : ConsensusEvent}
    (run : Replica.RunFrom net node em root highCertificate history r) (fresh : r.timesOutStale net e = false) :
    (Evidence.wellFormed fun s => s.holdsStaleTip = false).event net r e := by
  have notStale : r.timesOut net e = true → r.consensus.holdsStaleTip = false := by
    simpa [timesOutStale] using fresh
  have marks := run.invariants.1
  refine Evidence.wellFormed_event_with (P := fun _ => True) (fun _ _ _ _ _ _ _ => trivial) ?_ ?_
  · rintro round rfl notOld
    exact notStale (by simpa [timesOut] using notOld)
  · rintro m author cache t rfl accepted isTimeout s' validators mapping unsigned inRound known honest
    by_contra notFresh
    have stale : s'.holdsStaleTip = true := Bool.of_not_eq_false notFresh
    obtain ⟨noEndorsed, notVoted, held⟩ : s'.safety.highestNoEndorse.round = s'.getCurrentRound ∧
        s'.safety.highestVote < s'.getCurrentRound ∧ s'.safety.maybeHighTip.isSome = true := by
      simpa [holdsStaleTip] using stale
    rw [unsigned.noEndorsed] at noEndorsed
    rw [unsigned.voted] at notVoted
    -- the no-endorsement was made in the round the handler started in
    obtain ⟨sameRound, samePending⟩ | ⟨later, -⟩ := unsigned.timeouts
    · have held' : r.consensus.safety.maybeHighTip.isSome = true := by
        obtain same | none := unsigned.tip
        · rwa [same] at held
        · simp [none] at held
      rw [samePending] at honest
      rw [sameRound] at noEndorsed notVoted inRound
      have timesOut : r.timesOut net (.message m) = true := by
        simp [timesOut, accepted, isTimeout, inRound, inRound ▸ known, honest]
      simpa [holdsStaleTip, noEndorsed, notVoted, held'] using notStale timesOut
    · have := marks.noEndorsed
      lia

/-- In a run in which the replica never times out with a stale tip, its votes of a round follow its
no-endorsement. -/
theorem votes_follow_noEndorsement
    (run : Replica.GuardedRun net node em root highCertificate (fun r e => r.timesOutStale net e = false) history r) :
    Replica.VotesAsNoEndorsed net.crypto history := by
  obtain ⟨-, s₀, labels, started, trace, explains⟩ := run.simulates (Evidence.wellFormed_closed net)
    (CertPreds.any_sound net) (Evidence.wellFormed_cert _) fun past h r _ before _ fresh =>
      wellFormed_event_of_timesOutStale before.runFrom fresh
  have endorsing := endorsing_of_trace trace id (marks_new started) (oneVote_new started)
  obtain ⟨proposals, recoveries, noEndorsements⟩ := handled_of_trace trace
  rintro round tip v ⟨h, mem, m, msg, isRecovery, isTip, signed, rfl⟩ voted inRound
  -- the step that signed the no-endorsement answers the recovery request of its event
  obtain ⟨c, emits, signed⟩ := mem_flatMap.mp signed
  obtain ⟨l, known, sameEvent, carries⟩ := explains.step mem emits
  obtain ⟨m', tip', isNoEndorse, sameRound⟩ := noEndorsements known (mem_flatMap.mpr ⟨c, carries, signed⟩)
  obtain ⟨answers, isTip'⟩ := recoveries known isNoEndorse
  rw [sameEvent, isRecovery] at answers
  cases answers
  obtain rfl : tip = tip' := by simpa using isTip.symm.trans isTip'
  rw [explains.emitted] at voted
  obtain ⟨l', known', p, isVote, proposed, sameId, answers⟩ :=
    endorsing.votes ⟨l, known, isNoEndorse⟩ (.inl voted) (inRound.trans sameRound)
  obtain ⟨h', mem', sameEvent'⟩ := explains.event known'
  exact ⟨h', mem', p, sameEvent' ▸ proposals known' isVote, proposed.trans inRound, sameId, answers⟩

end NoEndorsed

section Conflict

open FourValidators

/-- The leader's recovery request of round three, for a certificate with the tip `fork₂`. -/
def recovery₃ : RoundRecoveryMessage := recovery (tcWithTip 2 (tip fork₂ (noTip tc₁)))

/-- A replica that voted for `block₂` no-endorses `fork₂`, and then votes for it when the leader reproposes it. -/
theorem votes_follow_noEndorsement_reproposal :
    ∃ history r v, Replica.GuardedRun net (node 0) epochManager genesisRoot (.qc crypto.genesisQc)
        (fun r e => r.timesOutStale net e = false) history r ∧
      Replica.NoEndorsed crypto history 3 (tip fork₂ (noTip tc₁)) ∧
      .vote v ∈ signedIn crypto (emitted history) ∧ v.round = 3 ∧
      Replica.GotProposal crypto history 3 v.id (tip fork₂ (noTip tc₁)) := by
  let vote : Vote := ⟨encodeHeader fork₂.header, 1, 3⟩
  let noEndorsement : NoEndorsement := ⟨1, 3, 0⟩
  obtain ⟨history, r, run, events, check⟩ := Replica.exists_guardedRun_of_replay (env 0) new_eq_genesisReplica
    (fun r e => !r.timesOutStale net e) [proposal 2 block₂ (noTip tc₁) (some tc₁),
      signedBy 3 (.roundRecovery recovery₃), proposal 3 fork₂ (noTip tc₁) (some recovery₃.tc), .timeout 3]
    (fun _ history => signsAt history 1 (.noEndorsement noEndorsement) && signsAt history 2 (.vote vote))
      (by decide +kernel)
  simp only [map_eq_cons_iff, map_eq_nil_iff] at events
  obtain ⟨first, _, rfl, -, answered, _, rfl, isRecovery, voted, _, rfl, -, last, _, rfl, -, rfl⟩ := events
  obtain ⟨signed, signed'⟩ : .noEndorsement noEndorsement ∈ signedIn crypto answered.commands ∧
      .vote vote ∈ signedIn crypto voted.commands := by simpa [signsAt] using check
  have run : Replica.GuardedRun net (node 0) epochManager genesisRoot (.qc crypto.genesisQc)
      (fun r e => r.timesOutStale net e = false) [first, answered, voted, last] r := by
    simpa [env] using run
  have noEndorsed : Replica.NoEndorsed crypto [first, answered, voted, last] 3 (tip fork₂ (noTip tc₁)) :=
    ⟨answered, by simp, recovery₃, noEndorsement, by rw [isRecovery]; rfl, rfl, signed, rfl⟩
  have votes : .vote vote ∈ signedIn crypto (emitted [first, answered, voted, last]) := by
    simp [emitted, signed']
  exact ⟨_, r, vote, run, noEndorsed, votes, rfl, votes_follow_noEndorsement run 3 _ vote noEndorsed votes rfl⟩

/-- The timeout of round three carries a vote for the old high tip. -/
theorem timeout_votes_against_noEndorsement :
    ∃ history r, Replica.RunFrom net (node 0) epochManager genesisRoot (.qc crypto.genesisQc) history r ∧
      ¬ Replica.VotesAsNoEndorsed crypto history := by
  let vote : Vote := ⟨encodeHeader block₂.header, 1, 3⟩
  let noEndorsement : NoEndorsement := ⟨1, 3, 0⟩
  obtain ⟨history, r, run, events, check⟩ := exists_run 0
    [proposal 2 block₂ (noTip tc₁) (some tc₁), signedBy 3 (.roundRecovery recovery₃), .timeout 3]
    (fun _ history => signsAt history 1 (.noEndorsement noEndorsement) && signsAt history 2 (.vote vote))
      (by decide +kernel)
  simp only [map_eq_cons_iff, map_eq_nil_iff] at events
  obtain ⟨first, _, rfl, isProposal, answered, _, rfl, isRecovery, last, _, rfl, isTimeout, rfl⟩ := events
  obtain ⟨signed, signed'⟩ : .noEndorsement noEndorsement ∈ signedIn crypto answered.commands ∧
      .vote vote ∈ signedIn crypto last.commands := by simpa [signsAt] using check
  have noEndorsed : Replica.NoEndorsed crypto [first, answered, last] 3 (tip fork₂ (noTip tc₁)) :=
    ⟨answered, by simp, recovery₃, noEndorsement, by rw [isRecovery]; rfl, rfl, signed, rfl⟩
  have votes : .vote vote ∈ signedIn crypto (emitted [first, answered, last]) := by
    simp [emitted, signed']
  refine ⟨_, r, run, fun follows => ?_⟩
  -- no proposal of round three was received
  obtain ⟨h, mem, p, isMessage, inRound, -⟩ := follows 3 _ vote noEndorsed votes rfl
  simp only [mem_cons, not_mem_nil, or_false] at mem
  obtain rfl | rfl | rfl := mem
  · rw [isProposal] at isMessage
    cases isMessage
    cases inRound
  · rw [isRecovery] at isMessage
    cases isMessage
  · rw [isTimeout] at isMessage
    cases isMessage

end Conflict

end MonadBft
