import MonadBft.Process
import MonadBft.Voting

/-! # Restarts

The safety module is not written to disk. A validator that restarts relies on its
checkpoint: it never votes, no-endorses or proposes up to the round after its certificate.
That is enough as long as no message of a higher round had left before the crash, and as
long as state sync does not replace the certificate by an older one. Neither holds in
every life of a validator.
-/

namespace MonadBft

open ConsensusState Life Replica Outcome ConsensusCommand MonadBft.MonadState Evidence List Option

/-! ## Messages -/

/-- Votes, no-endorsements and proposals. A timeout with a tip carries a vote. -/
def ConsensusMessage.isBinding (msg : ConsensusMessage) : Bool :=
  match msg.message with
  | .proposal _ | .vote _ | .noEndorsement _ => true
  | .timeout t =>
    match t.highExtend with
    | .tip _ _ => true
    | .qc _ => false
  | .roundRecovery _ | .advanceRound _ => false

def ConsensusMessage.votes (crypto : Crypto) (msg : ConsensusMessage) : List Vote :=
  match msg.message with
  | .vote v => [v.vote]
  | .timeout t =>
    match t.highExtend with
    | .tip tip _ => [voteOf crypto t tip]
    | .qc _ => []
  | _ => []

section Messages

variable {crypto : Crypto} {msg : ConsensusMessage} {v : Vote}

theorem ConsensusMessage.binding_of_mem_votes (mem : v ∈ msg.votes crypto) : msg.isBinding = true ∧
    v.round = msg.getRound := by
  obtain ⟨version, message⟩ := msg
  cases message with
  | vote m =>
    obtain rfl := mem_singleton.mp mem
    exact ⟨rfl, rfl⟩
  | timeout t =>
    simp only [votes] at mem
    split at mem
    case h_1 tip sig isTip =>
      obtain rfl := mem_singleton.mp mem
      exact ⟨by simp [isBinding, isTip], rfl⟩
    case h_2 => cases mem
  | proposal | roundRecovery | noEndorsement | advanceRound => cases mem

/-- Published votes are signed. -/
theorem ConsensusCommand.signed_of_published {c : ConsensusCommand} (sent : msg ∈ c.published)
    (mem : v ∈ msg.votes crypto) : .vote v ∈ c.signed crypto := by
  cases c with
  | publish target m =>
    obtain rfl := mem_singleton.mp sent
    simp only [ConsensusMessage.votes] at mem
    simp only [signed]
    split at mem
    case h_1 vote isVote =>
      rw [mem_singleton.mp mem, isVote]
      exact mem_singleton_self _
    case h_2 t isTimeout =>
      rw [isTimeout]
      split at mem
      case h_1 tip sig isTip =>
        rw [mem_singleton.mp mem]
        simp [isTip]
      case h_2 => cases mem
    case h_3 => cases mem
  | publishToFullNodes epoch m =>
    simp only [published] at sent
    split at sent
    case h_1 a isAdvance =>
      obtain rfl := mem_singleton.mp sent
      simp [ConsensusMessage.votes, isAdvance] at mem
    case h_2 => cases sent
  | _ => cases sent

end Messages

/-! ## The rounds that a replica speaks for -/

/-- What has bound the replica so far, and what may bind it in its current round, is above round `n`. -/
structure Above (n : Round) (s : ConsensusState) : Prop where
  voted : n ≤ s.safety.highestVote
  noEndorsed : n ≤ s.safety.highestNoEndorse.round
  proposed : n ≤ s.safety.highestPropose
  scheduled : ∀ {vote}, s.scheduledVote = some (.voteReady vote) → n < vote.round
  tip : ∀ {t}, s.safety.maybeHighTip = some t → n < s.getCurrentRound

section Steps

variable {K : Evidence} {net : Network} {node : Node} {s s' : ConsensusState} {label : Label} {n : Round}

section

variable (taken : Step K net node s label s')

include taken

theorem Step.above (marks : Marks s) (above : Above n s) : Above n s' := by
  have mono := taken.round_mono
  have frame := taken.frame
  have inRound := above.voted.trans marks.voted
  obtain ⟨voted, noEndorsed, proposed, scheduled, tip⟩ := above
  cases taken with
  | advance now evidence newer known =>
    exact ⟨voted, noEndorsed, proposed, scheduled, fun high => (tip (filter_eq_some_iff.mp high).1).trans_le mono⟩
  | vote now handled evidence inRound processed coherent vote =>
    obtain ⟨safe, rfl⟩ := Safety.vote_eq_ok vote
    have fresh := voted.trans_lt (Safety.lt_of_isSafeToVote safe)
    refine ⟨fresh.le, noEndorsed, proposed, fun ready => ?_, fun _ => fresh⟩
    cases ready
    exact fresh
  | timeout now safe allowed => exact ⟨voted.trans safe, noEndorsed, proposed, scheduled, tip⟩
  | noEndorse now author handled evidence inRound isTip done =>
    obtain ⟨newer, -, rfl⟩ := Safety.noEndorse_eq_ok done
    exact ⟨voted, (noEndorsed.trans_lt newer).le, proposed, scheduled, tip⟩
  | _ =>
    obtain ⟨round, -, -, -, sameVote, sameNoEndorse, sameTip, proposes, waits⟩ := frame trivial
    refine ⟨sameVote ▸ voted, sameNoEndorse ▸ noEndorsed, ?_, fun ready => scheduled (waits ready), fun high => ?_⟩
    · obtain same | current := proposes
      · exact same ▸ proposed
      · exact current ▸ inRound
    · exact (tip (sameTip ▸ high)).trans_eq round.symm

/-- A message is for a round that has been entered, and binds the replica only above `n`. -/
theorem Step.speaks (marks : Marks s) (above : Above n s) {c : ConsensusCommand}
    (mem : c ∈ label.commands) {m : ConsensusMessage} (sent : m ∈ c.published) :
    m.getRound ≤ s'.getCurrentRound ∧ (m.isBinding = true → n < m.getRound) := by
  have mono := taken.round_mono
  have emission := taken.emission mem
  generalize label.action = action at emission
  cases emission with
  | mute mute =>
    cases c with
    | publishToFullNodes epoch m =>
      obtain ⟨p, isProposal⟩ := mute
      simp [published, isProposal] at sent
    | _ => first | exact absurd mute id | cases sent
  | @advance _ _ u a isAdvance left carries =>
    obtain rfl : m = u.obj := by
      obtain ⟨_, rfl⟩ | ⟨-, _, -, rfl⟩ := carries <;> simpa [published, isAdvance] using sent
    refine ⟨?_, fun binding => by simp [ConsensusMessage.isBinding, isAdvance] at binding⟩
    simpa [ConsensusMessage.getRound, isAdvance] using left.le
  | vote ready =>
    obtain rfl := mem_singleton.mp sent
    exact ⟨((marks.scheduled ready).trans marks.voted).trans mono, fun _ => above.scheduled ready⟩
  | timeout =>
    obtain rfl := mem_singleton.mp sent
    refine ⟨mono, fun binding => ?_⟩
    cases high : s.safety.maybeHighTip with
    | none => simp [ConsensusMessage.isBinding, Env.sign, Env.newTimeoutMessage, Pacemaker.highExtend, high] at binding
    | some tip => exact above.tip high
  | noEndorse inRound newer =>
    obtain rfl := mem_singleton.mp sent
    exact ⟨inRound.le.trans mono, fun _ => above.noEndorsed.trans_lt newer⟩
  | recovery basis =>
    obtain rfl := mem_singleton.mp sent
    exact ⟨mono, fun binding => by cases binding⟩
  | proposal basis found safe =>
    obtain rfl := mem_singleton.mp sent
    exact ⟨mono, fun _ => above.proposed.trans_lt safe⟩
  | create => cases sent

theorem Step.creates (above : Above n s) {request : ProposalRequest}
    (mem : .createProposal request ∈ label.commands) : n < request.round ∧ request.round ≤ s'.getCurrentRound := by
  have emission := taken.emission mem
  generalize label.action = action at emission
  cases emission with
  | mute mute => exact absurd mute id
  | advance _ _ carries => obtain ⟨_, same⟩ | ⟨-, _, -, same⟩ := carries <;> cases same
  | create basis looked known leads inEpoch round safe =>
    exact ⟨round ▸ above.proposed.trans_lt safe, round.le.trans taken.round_mono⟩

end

/-- The messages and the requests of a run of steps. -/
structure Spoken (n : Round) (s : ConsensusState) (commands : List ConsensusCommand) : Prop where
  sent : ∀ c ∈ commands, ∀ m ∈ c.published, m.getRound ≤ s.getCurrentRound ∧ (m.isBinding = true → n < m.getRound)
  created : ∀ request, .createProposal request ∈ commands → n < request.round ∧ request.round ≤ s.getCurrentRound

theorem spoken_of_trace {labels : List Label} (run : Trace (Step K net node) s labels s') (marks : Marks s)
    (above : Above n s) : Above n s' ∧ Spoken n s' (labels.flatMap (·.commands)) := by
  induction run with
  | nil => exact ⟨above, by simp, by simp⟩
  | @snoc labels t t' label before taken ih =>
    obtain ⟨above, spoken⟩ := ih
    have marks := marks_of_trace before marks
    have mono := taken.round_mono
    refine ⟨taken.above marks above, ?_, ?_⟩
    · intro c mem m sent
      simp only [flatMap_append, flatMap_cons, flatMap_nil, append_nil, mem_append] at mem
      obtain old | new := mem
      · exact (spoken.sent c old m sent).imp_left (·.trans mono)
      · exact taken.speaks marks above new sent
    · intro request mem
      simp only [flatMap_append, flatMap_cons, flatMap_nil, append_nil, mem_append] at mem
      obtain old | new := mem
      · exact (spoken.created request old).imp_right (·.trans mono)
      · exact taken.creates above new

theorem above_new {em : EpochManager} {root : RootInfo} {highCertificate : RoundCertificate}
    (started : ConsensusState.new em root highCertificate = some s) :
    Above (highCertificate.round + 1) s ∧ s.getCurrentRound = highCertificate.round + 1 := by
  obtain ⟨pacemaker, known, rfl⟩ := map_eq_some_iff.mp started
  obtain ⟨epoch, -, rfl⟩ := map_eq_some_iff.mp known
  exact ⟨⟨le_rfl, le_rfl, le_rfl, by simp, by simp [Safety.new]⟩, rfl⟩

end Steps

/-! ## Live calls are runs of steps -/

/-- A call of live consensus from `s` is a run of steps with its commands. -/
def RunsSteps (net : Network) (node : Node) (s : ConsensusState) (call : Outcome MonadPanic Replica Command) : Prop :=
  Marks s → Supported (.wellFormed fun _ => True) net.crypto s → ∀ r commands, call = .ok r commands →
    ∃ labels, Trace (Step (.wellFormed fun _ => True) net node) s labels r.consensus ∧
      ∀ c, .consensus c ∈ commands → c ∈ labels.flatMap (·.commands)

/-- A call before the role of the node is looked at. -/
def EmitsSteps (m : MonadEnv) (s : ConsensusState) (call : ReplicaCall) : Prop :=
  Marks s → Supported (.wellFormed fun _ => True) m.env.net.crypto s →
    call.Sat (PanicFrom (.wellFormed fun _ => True) m.env s) fun r commands =>
      ∃ labels, Trace (Step (.wellFormed fun _ => True) m.env.net m.env.node) s labels r.consensus ∧
        commands = labels.flatMap (·.commands)

section Live

variable {net : Network} {node : Node} {m : MonadEnv} {s : ConsensusState}

theorem RunsSteps.rest {r : Replica} {commands : List Command} (silent : ∀ c, .consensus c ∉ commands) :
    RunsSteps net node r.consensus (.ok r commands) := by
  intro _ _ r' commands' done
  obtain ⟨rfl, rfl⟩ := ok.inj done
  exact ⟨[], .nil, fun c mem => absurd mem (silent c)⟩

theorem RunsSteps.andThen {call : Outcome MonadPanic Replica Command}
    {next : Replica → Outcome MonadPanic Replica Command}
    (first : RunsSteps net node s call) (second : ∀ r, RunsSteps net node r.consensus (next r)) :
    RunsSteps net node s (call.andThen next) := by
  intro marks supported r commands done
  obtain ⟨r₁, commands₁, commands₂, done₁, done₂, rfl⟩ := andThen_eq_ok.mp done
  obtain ⟨labels₁, run₁, emitted₁⟩ := first marks supported r₁ commands₁ done₁
  obtain ⟨labels₂, run₂, emitted₂⟩ :=
    second r₁ (marks_of_trace run₁ marks) (supported_of_trace run₁ supported) r commands₂ done₂
  refine ⟨labels₁ ++ labels₂, run₁.append run₂, fun c mem => ?_⟩
  rw [flatMap_append]
  obtain old | new := mem_append.mp mem
  · exact mem_append_left _ (emitted₁ c old)
  · exact mem_append_right _ (emitted₂ c new)

/-- The role of the node only drops commands. -/
theorem Replica.filtered_runs {call : ReplicaCall} (simulated : EmitsSteps m s call) :
    RunsSteps m.env.net m.env.node s (filtered m call) := by
  intro marks supported r commands done
  unfold filtered at done
  split at done
  · cases done
  case h_2 r' all =>
    split at done
    · cases done
    · obtain ⟨rfl, rfl⟩ := ok.inj done
      obtain ⟨labels, run, rfl⟩ := simulated marks supported
      refine ⟨labels, run, fun c mem => ?_⟩
      obtain ⟨c', kept, same⟩ := mem_map.mp mem
      obtain rfl := Command.consensus.inj same
      exact (List.mem_filter.mp kept).1

theorem Replica.update_runs (r : Replica) (event : ConsensusEvent) :
    RunsSteps m.env.net m.env.node r.consensus (filtered m (r.update m.env event)) := by
  refine filtered_runs fun marks supported => ?_
  refine (update_simulates (wellFormed_closed m.env.net) (wellFormed_event_any m.env.net r event)
    marks supported).mono (fun _ panics => panics) ?_
  rintro r' commands ⟨labels, run, emitted, -⟩
  exact ⟨labels, run, emitted⟩

theorem Replica.updateLive_runs (r : Replica) (event : ConsensusEvent) :
    RunsSteps m.env.net m.env.node r.consensus (r.updateLive m event) := by
  intro marks supported r' commands done
  unfold updateLive at done
  split at done
  · cases done
  case h_2 r₁ commands₁ updated =>
    obtain ⟨labels, run, emitted⟩ := update_runs r event marks supported r₁ commands₁ updated
    split at done
    · split at done
      · cases done
      · obtain ⟨rfl, rfl⟩ := ok.inj done
        exact ⟨labels, run, fun c mem => emitted c (by simpa using mem)⟩
    · obtain ⟨rfl, rfl⟩ := ok.inj done
      exact ⟨labels, run, emitted⟩

/-- A call of a handler, from its simulation. -/
theorem Emits.runs {e : ConsensusEvent} {x : Call} {Q : ConsensusState → Prop} {cache : CertificateCache}
    (emits : Emits (.wellFormed fun _ => True) m.env e s x Q) :
    EmitsSteps m s (x.lift fun consensus => { consensus, certificateCache := cache }) := by
  intro marks supported
  refine .lift ((emits marks supported).mono (fun _ panics => panics) ?_)
  rintro s' commands ⟨labels, run, emitted, -⟩
  exact ⟨labels, run, emitted⟩

theorem Replica.handleValidatedProposals_runs (r : Replica) (proposals : List (NodeId × ProposalMessage)) :
    RunsSteps m.env.net m.env.node r.consensus (r.handleValidatedProposals m proposals) := by
  induction proposals generalizing r with
  | nil => exact .rest (by simp)
  | cons p rest ih =>
    obtain ⟨author, proposal⟩ := p
    -- the event that brought the proposal during sync
    let event : ConsensusEvent :=
      .message { obj := { version := m.env.net.version, message := .proposal proposal }, authorSignature := [] }
    refine (filtered_runs ?_).andThen ih
    exact Emits.runs (e := event) (handleProposalMessage_emits (wellFormed_closed m.env.net) rfl trivial)

theorem Replica.requestBlocksIfMissingAncestor_runs (r : Replica) :
    RunsSteps m.env.net m.env.node r.consensus r.requestBlocksIfMissingAncestor := by
  intro marks supported r' commands done
  have emits : Emits (.wellFormed fun _ => True) m.env (.timeout 0) r.consensus
      r.consensus.requestBlocksIfMissingAncestor _ := requestBlocksIfMissingAncestor_emits (wellFormed_closed m.env.net)
  unfold requestBlocksIfMissingAncestor at done
  split at done
  · cases done
  case h_2 consensus all returned =>
    obtain ⟨rfl, rfl⟩ := ok.inj done
    obtain ⟨labels, run, rfl, -⟩ := (emits marks supported).of_ok returned
    exact ⟨labels, run, by simp⟩

end Live

/-! ## Going live -/

/-- A command that neither comes from live consensus nor writes a checkpoint. -/
def Command.isSilent : Command → Bool
  | .consensus _ | .checkpoint _ _ => false
  | _ => true

/-- Live consensus has started from a certificate and taken steps to `r`. -/
structure Started (net : Network) (node : Node) (highCertificate : RoundCertificate) (labels : List Label)
    (r : Replica) : Prop where
  run : ∃ em root s₀, ConsensusState.new em root highCertificate = some s₀ ∧
    Trace (Step (.wellFormed fun _ => True) net node) s₀ labels r.consensus

namespace SyncMode

variable {m : MonadEnv} {s : SyncMode} {state : MonadState} {commands : List Command}

theorem started_of_goLive {root : RootInfo} (live : s.goLive m root = .ok state commands) :
    ∃ r labels, state = .live r ∧ Started m.env.net m.env.node s.highCertificate labels r ∧
      ∀ c, .consensus c ∈ commands → c ∈ labels.flatMap (·.commands) := by
  simp only [goLive] at live
  split at live
  · cases live
  split at live
  · cases live
  case h_2 consensus new =>
    obtain ⟨r, done, rfl⟩ := lift_eq_ok.mp live
    have runs := (updateLive_runs (m := m) ⟨consensus, s.certificateCache⟩ (.timeout consensus.getCurrentRound)).andThen
      fun r => (handleValidatedProposals_runs r s.blockBuffer.proposalBuffer).andThen
        requestBlocksIfMissingAncestor_runs
    obtain ⟨r₀, before, after, first, rest, rfl⟩ := andThen_eq_ok.mp done
    obtain ⟨rfl, rfl⟩ := ok.inj first
    obtain ⟨labels, run, emitted⟩ := runs (marks_new new)
      (supported_new new (wellFormed_cert _)) r after rest
    refine ⟨r, labels, rfl, ⟨_, _, _, new, run⟩, fun c mem => ?_⟩
    obtain old | new := mem_append.mp mem
    · simp at old
    · exact emitted c new

/-- A call in sync mode stays there without a word, or goes live from the certificate `highCertificate`. -/
def StaysOrStarts (m : MonadEnv) (highCertificate : RoundCertificate) (state : MonadState) (commands : List Command) :
    Prop :=
  (∃ s, state = .sync s ∧ s.highCertificate = highCertificate ∧ ∀ c ∈ commands, c.isSilent = true) ∨
  ∃ r labels, state = .live r ∧ Started m.env.net m.env.node highCertificate labels r ∧
    ∀ c, .consensus c ∈ commands → c ∈ labels.flatMap (·.commands)

theorem StaysOrStarts.stay {s' : SyncMode} {sent : List Command}
    (done : (.ok (.sync s') sent : MonadCall) = .ok state commands)
    (kept : s'.highCertificate = s.highCertificate) (silent : ∀ c ∈ sent, c.isSilent = true) :
    StaysOrStarts m s.highCertificate state commands := by
  obtain ⟨rfl, rfl⟩ := ok.inj done
  exact .inl ⟨s', rfl, kept, silent⟩

theorem staysOrStarts_doneSync {n : SeqNum} (done : s.doneSync m n = .ok state commands) :
    StaysOrStarts m s.highCertificate state commands := by
  unfold doneSync at done
  split at done
  · cases done
  split at done
  · exact .stay done rfl (by simp)
  simp only at done
  split at done
  · exact .stay done rfl (by simp)
  split at done
  · cases done
  split at done
  · cases done
  split at done
  · exact .stay done rfl (by simp [Command.isSilent])
  split at done
  · cases done
  · exact .inr (started_of_goLive done)

theorem staysOrStarts_maybeStartConsensus (done : s.maybeStartConsensus m = .ok state commands) :
    StaysOrStarts m s.highCertificate state commands := by
  unfold maybeStartConsensus at done
  split at done
  · exact .stay done rfl (by simp [Command.isSilent])
  split at done
  · cases done
  split at done
  · exact .stay done rfl (by simp)
  · exact .inr (started_of_goLive done)
  simp only at done
  split at done
  · cases done
  split at done
  · split at done
    · cases done
    · exact .stay done rfl (by simp [Command.isSilent])
    · cases done
  split at done
  · cases done
  · exact staysOrStarts_doneSync (s := { s with dbStatus := .started }) done

/-- The certificate that an event leaves in sync mode. -/
def certificateAfter (s : SyncMode) : MonadEvent → RoundCertificate
  | .requestSync _ highQc => .qc highQc
  | _ => s.highCertificate

theorem staysOrStarts_update {event : MonadEvent} (done : update m (.sync s) event = .ok state commands) :
    StaysOrStarts m (s.certificateAfter event) state commands := by
  cases event with
  | consensus event =>
    obtain ⟨s', rfl, kept, asked⟩ := updateSync_eq_ok done
    refine .inl ⟨s', rfl, kept, fun c mem => ?_⟩
    obtain ⟨root, highQc, rfl⟩ := asked c mem
    rfl
  | requestSync root highQc => exact staysOrStarts_maybeStartConsensus done
  | doneSync n => exact staysOrStarts_doneSync done
  | blockSync blocks =>
    let buffer := blocks.foldl (BlockBuffer.handleBlocksync m.env.net.crypto) s.blockBuffer
    exact staysOrStarts_maybeStartConsensus (s := { s with blockBuffer := buffer }) done
  | mempool event => cases done

end SyncMode

variable {commands : List Command} {cfg : ProcessConfig}

/-- An event of a live node, other than a block from the transaction pool. -/
theorem MonadState.runs_update {m : MonadEnv} {r : Replica} {event : MonadEvent} {state : MonadState}
    (noBlock : ∀ e, event ≠ .mempool e) (done : update m (.live r) event = .ok state commands) :
    ∃ r', state = .live r' ∧ RunsSteps m.env.net m.env.node r.consensus (.ok r' commands) := by
  cases event with
  | consensus event =>
    obtain ⟨r', updated, rfl⟩ := lift_eq_ok.mp done
    exact ⟨r', rfl, updated ▸ updateLive_runs r event⟩
  | blockSync blocks =>
    obtain ⟨rfl, rfl⟩ := ok.inj done
    exact ⟨r, rfl, .rest (by simp)⟩
  | requestSync | doneSync => cases done
  | mempool e => exact absurd rfl (noBlock e)

variable (silent : ∀ c ∈ commands, c.isSilent = true)

include silent

theorem Command.published_of_silent : commands.flatMap Command.published = [] := by
  refine flatMap_eq_nil_iff.mpr fun c mem => ?_
  have isSilent := silent c mem
  cases c with
  | consensus => cases isSilent
  | _ => rfl

theorem Command.created_of_silent : commands.filterMap Command.created = [] := by
  refine filterMap_eq_nil_iff.mpr fun c mem => ?_
  have isSilent := silent c mem
  cases c with
  | consensus => cases isSilent
  | _ => rfl

theorem Checkpoint.after_silent {checkpoint : Checkpoint} : checkpoint.after commands = checkpoint := by
  induction commands with
  | nil => rfl
  | cons c rest ih =>
    have isSilent := silent c (by simp)
    have kept := ih fun c mem => silent c (mem_cons_of_mem _ mem)
    cases c with
    | checkpoint => cases isSilent
    | _ => exact kept

omit silent

/-! ## Whole lives -/

/-- No two votes of a round are for different blocks, and after a restart the validator does not bind itself in a round
at most that of an earlier message. -/
structure NoEquivocation (crypto : Crypto) (history : List Occurrence) : Prop where
  votes : ∀ m m' v w, .sent m ∈ history → .sent m' ∈ history → v ∈ m.votes crypto → w ∈ m'.votes crypto →
    v.round = w.round → v.id = w.id
  fresh : ∀ before after, history = before ++ .restarted :: after → ∀ m m', .sent m ∈ before → .sent m' ∈ after →
    m'.isBinding = true → m.getRound < m'.getRound

theorem NoEquivocation.append {crypto : Crypto} {before current : List Occurrence} (safe : NoEquivocation crypto before)
    (oneLife : .restarted ∉ current)
    (later : ∀ {m m'}, .sent m ∈ before → .sent m' ∈ current → m'.isBinding = true → m.getRound < m'.getRound)
    (agree : ∀ {m m' v w}, .sent m ∈ current → .sent m' ∈ current → v ∈ m.votes crypto → w ∈ m'.votes crypto →
      v.round = w.round → v.id = w.id) :
    NoEquivocation crypto (before ++ .restarted :: current) := by
  have mem_iff : ∀ {m}, .sent m ∈ before ++ .restarted :: current ↔ .sent m ∈ before ∨ .sent m ∈ current := by simp
  constructor
  · intro m m' v w mem mem' inM inM' sameRound
    obtain ⟨binding, round⟩ := ConsensusMessage.binding_of_mem_votes inM
    obtain ⟨binding', round'⟩ := ConsensusMessage.binding_of_mem_votes inM'
    obtain old | new := mem_iff.mp mem <;> obtain old' | new' := mem_iff.mp mem'
    · exact safe.votes m m' v w old old' inM inM' sameRound
    · exact absurd sameRound (round ▸ round' ▸ (later old new' binding').ne)
    · exact absurd sameRound (round ▸ round' ▸ (later old' new binding).ne')
    · exact agree new new' inM inM' sameRound
  · intro earlier after split m m' mem mem' binding
    -- the restart of the split is the last one, or an earlier one
    obtain ⟨middle, rfl, shape⟩ | ⟨middle, rfl, shape⟩ := append_eq_append_iff.mp split
    · cases middle with
      | nil =>
        obtain rfl := (List.cons.inj shape).2
        exact later (by simpa using mem) mem' binding
      | cons o rest => exact absurd (by simp [(List.cons.inj shape).2]) oneLife
    · cases middle with
      | nil =>
        obtain rfl := (List.cons.inj shape).2
        exact later (by simpa using mem) mem' binding
      | cons o rest =>
        obtain ⟨rfl, rfl⟩ := List.cons.inj shape
        obtain old | new := mem_append.mp mem'
        · exact safe.fresh earlier rest rfl m m' mem old binding
        · exact later (mem_append_left _ mem) (by simpa using new) binding

/-- The certificate that a live node has entered its round with. -/
def MonadState.liveCertificate : MonadState → Option RoundCertificate
  | .live r => some r.consensus.pacemaker.highCertificate
  | .sync _ => none

/-- What has to hold of an incident: a crash finds a checkpoint with a certificate at least as high as that of the node,
and state sync does not go back behind the certificate of the checkpoint. -/
def Life.Safe (life : Life) : Incident → Prop
  | .crash => ∀ c ∈ life.process.bind (·.state.liveCertificate), c.round ≤ life.durable.highCertificate.round
  | .event (.requestSync _ highQc) => life.durable.highCertificate.round ≤ highQc.getRound
  | _ => True

instance (life : Life) (incident : Incident) : Decidable (life.Safe incident) :=
  match incident with
  | .crash => inferInstanceAs (Decidable (∀ c ∈ life.process.bind (·.state.liveCertificate), _))
  | .event (.requestSync _ highQc) => inferInstanceAs (Decidable (_ ≤ highQc.getRound))
  | .event (.consensus _) | .event (.doneSync _) | .event (.blockSync _) | .event
    (.mempool _) | .restart | .answer _ _ _ | .exec =>
    isTrue trivial

/-- What a live node has sent since it was started. -/
structure Speaking (net : Network) (node : Node) (before current : List Occurrence) (requests : List ProposalRequest)
    (highCertificate : RoundCertificate) (labels : List Label) (r : Replica) : Prop where
  started : Started net node highCertificate labels r
  earlier : ∀ m, .sent m ∈ before → m.getRound ≤ highCertificate.round + 1
  sent : ∀ o ∈ current, ∃ m, o = .sent m ∧ ((∃ c ∈ labels.flatMap (·.commands), m ∈ c.published) ∨
    ∃ request p, .createProposal request ∈ labels.flatMap (·.commands) ∧ m.message = .proposal p ∧
      p.proposalRound = request.round)
  created : ∀ request ∈ requests, .createProposal request ∈ labels.flatMap (·.commands)

section Speaking

variable {net : Network} {node : Node} {before current : List Occurrence} {requests : List ProposalRequest}
  {highCertificate : RoundCertificate} {labels : List Label} {r : Replica}

variable {m : ConsensusMessage} {requests' : List ProposalRequest}

variable (speaking : Speaking net node before current requests highCertificate labels r)

include speaking

/-- What was sent is for rounds up to the current one, and binds the node only after the round it started in. -/
theorem Speaking.rounds (mem : .sent m ∈ current) : m.getRound ≤ r.consensus.getCurrentRound ∧
      (m.isBinding = true → highCertificate.round + 1 < m.getRound) := by
  obtain ⟨em, root, s₀, new, run⟩ := speaking.started.run
  obtain ⟨-, spoken⟩ := spoken_of_trace run (marks_new new) (above_new new).1
  obtain ⟨m', same, ⟨c, emitted, published⟩ | ⟨request, p, created, isProposal, sameRound⟩⟩ := speaking.sent _ mem
  · obtain rfl := Occurrence.sent.inj same
    exact spoken.sent c emitted m published
  · obtain rfl := Occurrence.sent.inj same
    have isRound : m.getRound = request.round := by rw [ConsensusMessage.getRound, isProposal, ← sameRound]
    obtain ⟨above, entered⟩ := spoken.created request created
    exact ⟨isRound ▸ entered, fun _ => isRound ▸ above⟩

theorem Speaking.votes_agree
    {m m' : ConsensusMessage} {v w : Vote} (mem : .sent m ∈ current) (mem' : .sent m' ∈ current)
    (inM : v ∈ m.votes net.crypto) (inM' : w ∈ m'.votes net.crypto) (sameRound : v.round = w.round) : v.id = w.id := by
  obtain ⟨em, root, s₀, new, run⟩ := speaking.started.run
  have votes := oneVote_of_trace run (marks_new new) (oneVote_new new)
  have signed : ∀ {m v}, .sent m ∈ current → v ∈ m.votes net.crypto → .vote v ∈ signedIn net.crypto
    (labels.flatMap (·.commands)) := by
    intro m v mem inM
    obtain ⟨m', same, ⟨c, emitted, published⟩ | ⟨request, p, -, isProposal, -⟩⟩ := speaking.sent _ mem
    · obtain rfl := Occurrence.sent.inj same
      exact mem_flatMap.mpr ⟨c, emitted, signed_of_published published inM⟩
    · obtain rfl := Occurrence.sent.inj same
      simp [ConsensusMessage.votes, isProposal] at inM
  exact votes.agree (.inl (signed mem inM)) (.inl (signed mem' inM')) sameRound

theorem Speaking.noEquivocation
    (safe : NoEquivocation net.crypto before) : NoEquivocation net.crypto (before ++ .restarted :: current) := by
  refine safe.append ?_ ?_ speaking.votes_agree
  · intro mem
    obtain ⟨_, isSent, -⟩ := speaking.sent _ mem
    cases isSent
  · exact fun mem mem' binding => (speaking.earlier _ mem).trans_lt ((speaking.rounds mem').2 binding)

theorem Speaking.entered : highCertificate.round + 1 ≤ r.consensus.getCurrentRound := by
  obtain ⟨em, root, s₀, new, run⟩ := speaking.started.run
  exact (above_new new).2 ▸ round_mono_of_trace run

/-- More steps of the node. -/
theorem Speaking.more {r' : Replica} {labels' : List Label} {commands : List Command}
    (run : Trace (Step (.wellFormed fun _ => True) net node) r.consensus labels' r'.consensus)
    (emitted : ∀ c, .consensus c ∈ commands → c ∈ labels'.flatMap (·.commands))
    (asked : ∀ request ∈ requests', request ∈ requests ∨ request ∈ commands.filterMap Command.created) :
    Speaking net node before (current ++ (commands.flatMap Command.published).map .sent) requests' highCertificate
      (labels ++ labels') r' where
  started := by
    obtain ⟨em, root, s₀, new, run₀⟩ := speaking.started.run
    exact ⟨em, root, s₀, new, run₀.append run⟩
  earlier := speaking.earlier
  sent := by
    rw [flatMap_append]
    intro o mem
    obtain old | new := mem_append.mp mem
    · obtain ⟨m, isSent, ⟨c, known, published⟩ | ⟨request, p, known, isProposal, sameRound⟩⟩ := speaking.sent o old
      · exact ⟨m, isSent, .inl ⟨c, mem_append_left _ known, published⟩⟩
      · exact ⟨m, isSent, .inr ⟨request, p, mem_append_left _ known, isProposal, sameRound⟩⟩
    · obtain ⟨m, isSent, rfl⟩ := mem_map.mp new
      obtain ⟨c, mem, published⟩ := mem_flatMap.mp isSent
      cases c with
      | consensus c => exact ⟨m, rfl, .inl ⟨c, mem_append_right _ (emitted c mem), published⟩⟩
      | _ => cases published
  created := by
    rw [flatMap_append]
    intro request mem
    obtain old | new := asked request mem
    · exact mem_append_left _ (speaking.created request old)
    · obtain ⟨c, mem, isRequest⟩ := mem_filterMap.mp new
      unfold Command.created at isRequest
      split at isRequest
      · exact mem_append_right _ (emitted _ (some.inj isRequest ▸ mem))
      · cases isRequest

/-- The answer to a request. -/
theorem Speaking.answer
    {request : ProposalRequest} (asked : request ∈ requests) (kept : requests' ⊆ requests) {p : ProposalMessage}
    (isProposal : m.message = .proposal p) (sameRound : p.proposalRound = request.round) :
    Speaking net node before (current ++ [.sent m]) requests' highCertificate labels r where
  started := speaking.started
  earlier := speaking.earlier
  sent := by
    intro o mem
    obtain old | new := mem_append.mp mem
    · exact speaking.sent o old
    · exact ⟨m, mem_singleton.mp new, .inr ⟨request, p, speaking.created request asked, isProposal, sameRound⟩⟩
  created := fun request mem => speaking.created request (kept mem)

end Speaking

/-! ## The invariant of a life -/

/-- The validator has not equivocated, and what it sent is covered by its checkpoint, or by the certificate that it runs
on. -/
inductive Life.Consistent (cfg : ProcessConfig) (life : Life) : Prop where
  | down (stopped : life.process = none) (safe : NoEquivocation cfg.net.crypto life.history)
      (covered : ∀ m, .sent m ∈ life.history → m.getRound ≤ life.durable.highCertificate.round + 1)
  | syncing {p : Process} {s : SyncMode} {before : List Occurrence} (running : life.process = some p)
      (mode : p.state = .sync s)
      (silent : ∀ c ∈ p.pending, c.isSilent = true) (idle : p.requests = [])
        (history : life.history = before ++ [.restarted])
      (safe : NoEquivocation cfg.net.crypto before)
      (covered : ∀ m, .sent m ∈ before → m.getRound ≤ life.durable.highCertificate.round + 1)
      (certificate : life.durable.highCertificate.round ≤ s.highCertificate.round)
  | live {p : Process} {r : Replica} {before current : List Occurrence} {highCertificate : RoundCertificate}
      {labels : List Label}
      (running : life.process = some p) (mode : p.state = .live r)
        (history : life.history = before ++ .restarted :: current)
      (safe : NoEquivocation cfg.net.crypto before)
      (speaking : Speaking cfg.net cfg.node before current (p.requests ++
        p.pending.filterMap Command.created) highCertificate labels r)

theorem Life.Consistent.noEquivocation {life : Life} (consistent : life.Consistent cfg) :
    NoEquivocation cfg.net.crypto life.history := by
  cases consistent with
  | down stopped safe covered => exact safe
  | syncing running mode silent idle history safe covered certificate =>
    rw [history]
    exact safe.append (by simp) (by simp) (by simp)
  | live running mode history safe speaking =>
    rw [history]
    exact speaking.noEquivocation safe

section Incidents

variable {cfg : ProcessConfig} {moment : Moment} {life life' : Life}

variable {requests : List ProposalRequest}

/-- After a call in sync mode. -/
theorem Life.consistent_of_staysOrStarts {before : List Occurrence} {highCertificate : RoundCertificate}
    {state : MonadState} {commands : List Command}
    (h : SyncMode.StaysOrStarts (cfg.env moment) highCertificate state commands) (idle : requests = [])
    (history : life.history = before ++ [.restarted]) (safe : NoEquivocation cfg.net.crypto before)
    (covered : ∀ m, .sent m ∈ before → m.getRound ≤ life.durable.highCertificate.round + 1)
    (certificate : life.durable.highCertificate.round ≤ highCertificate.round) :
    Life.Consistent cfg { life with
      process := some { state, requests, pending := commands }
      history := life.history ++ (commands.flatMap Command.published).map .sent } := by
  subst idle
  obtain ⟨s, rfl, rfl, silent⟩ | ⟨r, labels, rfl, started, emitted⟩ := h
  · refine .syncing rfl rfl silent rfl ?_ safe covered certificate
    simpa [Command.published_of_silent silent] using history
  · obtain ⟨em, root, s₀, new, run⟩ := started.run
    have first : Speaking cfg.net cfg.node before [] [] highCertificate [] ⟨s₀, .empty⟩ :=
      ⟨⟨em, root, s₀, new, .nil⟩, fun m mem => (covered m mem).trans (Nat.succ_le_succ certificate), by simp, by simp⟩
    refine .live rfl rfl ?_ safe (first.more run emitted fun request mem => .inr (by simpa using mem))
    simp [history]

theorem Life.update_eq_some {call : MonadCall} (updated : life.update requests call = some life') :
    ∃ state commands, call = .ok state commands ∧ life' = { life with
      process := some { state, requests, pending := commands }
      history := life.history ++ (commands.flatMap Command.published).map .sent } := by
  unfold update at updated
  split at updated
  · cases updated
  · exact ⟨_, _, rfl, (some.inj updated).symm⟩

theorem Life.Consistent.restart (consistent : life.Consistent cfg)
    (handled : life.handle cfg moment .restart = some life') : life'.Consistent cfg := by
  simp only [handle] at handled
  split at handled
  · cases handled
  case h_2 stopped =>
    obtain ⟨em, -, updated⟩ := bind_eq_some_iff.mp handled
    cases consistent with
    | down _ safe covered =>
      obtain ⟨state, commands, built, rfl⟩ := update_eq_some updated
      exact consistent_of_staysOrStarts (SyncMode.staysOrStarts_maybeStartConsensus built) rfl rfl safe covered le_rfl
    | syncing running | live running => simp [stopped] at running

theorem Life.handle_event {event : MonadEvent} (handled : life.handle cfg moment (.event event) = some life') :
    ∃ p, life.process = some p ∧ (∀ e, event ≠ .mempool e) ∧ p.pending = [] ∧
      life.update p.requests (p.state.update (cfg.env moment) event) = some life' := by
  simp only [handle] at handled
  split at handled
  · cases handled
  · cases handled
  case h_3 p running noBlock =>
    split at handled
    case isFalse => cases handled
    case isTrue ready => exact ⟨p, running, noBlock, ready, handled⟩

variable (consistent : life.Consistent cfg)

include consistent

theorem Life.Consistent.event {event : MonadEvent} (safe : life.Safe (.event event))
    (handled : life.handle cfg moment (.event event) = some life') : life'.Consistent cfg := by
  obtain ⟨p, running, noBlock, ready, updated⟩ := handle_event handled
  obtain ⟨state, commands, done, rfl⟩ := update_eq_some updated
  cases consistent with
  | down stopped => simp [stopped] at running
  | @syncing p' s before running' mode silent idle history before_safe covered certificate =>
    obtain rfl := some.inj (running.symm.trans running')
    rw [mode] at done
    refine consistent_of_staysOrStarts (SyncMode.staysOrStarts_update done) idle history before_safe covered ?_
    cases event with
    | requestSync root highQc => exact safe
    | _ => exact certificate
  | @live p' r before current highCertificate labels running' mode history before_safe speaking =>
    obtain rfl := some.inj (running.symm.trans running')
    rw [mode] at done
    obtain ⟨r', rfl, runs⟩ := runs_update noBlock done
    obtain ⟨em, root, s₀, new, run⟩ := speaking.started.run
    obtain ⟨labels', run', emitted⟩ := runs (marks_of_trace run (marks_new new))
      (supported_of_trace run (supported_new new (wellFormed_cert _))) r' commands rfl
    refine .live rfl rfl ?_ before_safe (speaking.more run' emitted fun request mem => ?_)
    · simp [history]
    · simpa [ready] using mem

theorem Life.Consistent.answer {request : ProposalRequest} {executionInputs executionBody : Bytes}
    (handled : life.handle cfg moment (.answer request executionInputs executionBody) = some life') :
      life'.Consistent cfg := by
  simp only [handle] at handled
  split at handled
  · cases handled
  case h_2 p running =>
    split at handled
    case isFalse => cases handled
    case isTrue asked =>
      obtain ⟨state, commands, done, rfl⟩ := update_eq_some handled
      cases consistent with
      | down stopped => simp [stopped] at running
      | syncing running' mode silent idle =>
        obtain rfl := some.inj (running.symm.trans running')
        simp [idle] at asked
      | @live p' r before current highCertificate labels running' mode history before_safe speaking =>
        obtain rfl := some.inj (running.symm.trans running')
        rw [mode] at done
        obtain ⟨rfl, rfl⟩ := ok.inj done
        let message := (cfg.env moment).env.newProposalMessage (request.answer executionInputs executionBody)
        refine .live rfl rfl ?_ before_safe (speaking.answer (m := ⟨cfg.net.version, .proposal message⟩)
          (mem_append_left _ asked.2) ?_ rfl rfl)
        · simp only [history, append_assoc, cons_append]
          rfl
        · intro request' mem
          obtain kept | created := mem_append.mp mem
          · exact mem_append_left _ (mem_of_mem_erase kept)
          · cases created

theorem Life.Consistent.exec (handled : life.handle cfg moment .exec = some life') : life'.Consistent cfg := by
  simp only [handle] at handled
  split at handled
  · cases handled
  case h_2 p running =>
    obtain rfl := some.inj handled
    cases consistent with
    | down stopped => simp [stopped] at running
    | syncing running' mode silent idle history before_safe covered certificate =>
      obtain rfl := some.inj (running.symm.trans running')
      rw [Checkpoint.after_silent silent, Command.created_of_silent silent]
      exact .syncing rfl mode (by simp) (by simp [idle]) history before_safe covered certificate
    | live running' mode history before_safe speaking =>
      obtain rfl := some.inj (running.symm.trans running')
      exact .live rfl mode history before_safe (by simpa using speaking)

/-- Every safe incident keeps the invariant. -/
theorem Life.Consistent.handle {incident : Incident} (safe : life.Safe incident)
    (handled : life.handle cfg moment incident = some life') : life'.Consistent cfg := by
  cases incident with
  | restart => exact consistent.restart handled
  | event event => exact consistent.event safe handled
  | answer request executionInputs executionBody => exact consistent.answer handled
  | exec => exact consistent.exec handled
  | crash =>
    obtain rfl := some.inj handled
    refine .down rfl consistent.noEquivocation ?_
    cases consistent with
    | down stopped safe covered => exact covered
    | syncing running mode silent idle history _ covered certificate =>
      intro m mem
      exact covered m (by simpa [history] using mem)
    | @live p r before current _ _ running mode history _ speaking =>
      have saved := safe r.consensus.pacemaker.highCertificate (by simp [running, mode, liveCertificate])
      intro m mem
      have atMost : m.getRound ≤ r.consensus.getCurrentRound := by
        obtain old | new : .sent m ∈ before ∨ .sent m ∈ current := by simpa [history] using mem
        · exact (speaking.earlier m old).trans speaking.entered
        · exact (speaking.rounds new).1
      exact atMost.trans (Nat.succ_le_succ saved)

end Incidents

/-! ## Runs -/

/-- The incident happens, at some moment. -/
def Life.Handles (cfg : ProcessConfig) (life : Life) (incident : Incident) (life' : Life) : Prop :=
  ∃ moment, life.handle cfg moment incident = some life'

/-- A life that starts from a checkpoint, with the state in which every incident happened. -/
def Life.Run (cfg : ProcessConfig) (checkpoint : Checkpoint) : List (Life × Incident) → Life → Prop :=
  Trace (Trace.Recorded (Life.Handles cfg)) (start checkpoint)

/-- A validator whose incidents are all safe does not equivocate. -/
theorem Life.noEquivocation_of_safe {cfg : ProcessConfig} {checkpoint : Checkpoint} {incidents : List (Life × Incident)}
    {life : Life} (run : Life.Run cfg checkpoint incidents life) (safe : ∀ entry ∈ incidents, entry.1.Safe entry.2) :
    NoEquivocation cfg.net.crypto life.history := by
  have consistent : life.Consistent cfg := by
    induction run with
    | nil => exact .down rfl ⟨by simp [start], by simp [start]⟩ (by simp [start])
    | snoc _ taken ih =>
      obtain ⟨rfl, moment, handled⟩ := taken
      have before := ih fun entry mem => safe entry (mem_append_left _ mem)
      exact before.handle (safe _ (by simp)) handled
  exact consistent.noEquivocation

def Life.replay (cfg : ProcessConfig) (life : Life) : List (Moment × Incident) → Option (List (Life × Incident) × Life)
  | [] => some ([], life)
  | (moment, incident) :: rest =>
    (life.handle cfg moment incident).bind fun life' =>
      (life'.replay cfg rest).map fun (entries, final) => ((life, incident) :: entries, final)

theorem Life.trace_of_replay {life final : Life} {incidents : List (Moment × Incident)}
    {entries : List (Life × Incident)} (h : life.replay cfg incidents = some (entries, final)) :
    Trace (Trace.Recorded (Life.Handles cfg)) life entries final := by
  induction incidents generalizing life entries with
  | nil =>
    obtain ⟨rfl, rfl⟩ : [] = entries ∧ life = final := by simpa [replay] using h
    exact .nil
  | cons first rest ih =>
    obtain ⟨life', handled, later⟩ := bind_eq_some_iff.mp h
    obtain ⟨⟨entries', final'⟩, replayed, same⟩ := map_eq_some_iff.mp later
    obtain ⟨rfl, rfl⟩ := Prod.mk.inj same
    exact (ih replayed).cons ⟨rfl, first.1, handled⟩

/-- A run with a decidable property, found by replaying incidents. -/
theorem Life.exists_run_of_replay (cfg : ProcessConfig) (checkpoint : Checkpoint) (incidents : List (Moment × Incident))
    (P : List (Life × Incident) → Life → Bool)
    (h : ((start checkpoint).replay cfg incidents).map (fun (entries, life) => P entries life) = some true) :
    ∃ entries life, Life.Run cfg checkpoint entries life ∧ P entries life = true := by
  obtain ⟨⟨entries, life⟩, replayed, holds⟩ := map_eq_some_iff.mp h
  exact ⟨entries, life, trace_of_replay replayed, holds⟩

section Examples

open FourValidators

def processConfig (i : NodeId) : ProcessConfig where
  net := net
  node := node i
  executionDelay := 1
  statesyncToLiveThreshold := 0
  epochLength := 1000000
  epochStartDelay := 0
  epochLength_pos := epochManager.epochLength_pos

def chainBlock₁ : ConsensusFullBlock := block 1 crypto.genesisQc 1 0
def chainBlock₂ : ConsensusFullBlock := block 2 (qcFor 1 chainBlock₁) 2 0
def chainBlock₃ : ConsensusFullBlock := block 3 (qcFor 2 chainBlock₂) 3 0
def chainBlock₄ : ConsensusFullBlock := block 4 (qcFor 3 chainBlock₃) 4 0

def executedFirst : Moment := ⟨now, ⟨some 0, some 1⟩⟩

def completely (event : MonadEvent) : List (Moment × Incident) :=
    [(executedFirst, .event event), (executedFirst, .exec)]

def votesFor (round : Round) (b : ConsensusFullBlock) : List (Moment × Incident) :=
  let tc := tcOverQc (round - 1) b.header.qc
  completely (.consensus (proposal round b (noTip tc) (some tc))) ++ completely (.consensus (.sendVote round))

def voteFor (round : Round) (b : ConsensusFullBlock) : ConsensusMessage :=
  ⟨1, .vote ⟨⟨encodeHeader b.header, 1, round⟩, [0]⟩⟩

/-- Restart, and go live on the first block. -/
def liveOnFirst : List (Moment × Incident) :=
  [(executedFirst, .restart), (executedFirst, .exec)] ++ completely (.blockSync [chainBlock₁])

def crash : List (Moment × Incident) := [(executedFirst, .crash)]

def checkpoint₁ : Checkpoint := ⟨encodeHeader chainBlock₁.header, .qc (qcFor 1 chainBlock₁), [⟨1, 0⟩]⟩

def onFirst₆ : ConsensusFullBlock := block 6 (qcFor 1 chainBlock₁) 2 1
def onFirst₇ : ConsensusFullBlock := block 7 (qcFor 1 chainBlock₁) 2 1

/-- A vote in round six, a restart from the certificate of round five, and a vote in round seven. -/
theorem noEquivocation_of_safe_restarted : ∃ incidents life, Life.Run (processConfig 0) checkpoint₁ incidents life ∧
    (∀ entry ∈ incidents, entry.1.Safe entry.2) ∧
    (.sent (voteFor 6 onFirst₆) ∈ life.history ∧ .sent (voteFor 7 onFirst₇) ∈ life.history) ∧
    NoEquivocation crypto life.history := by
  obtain ⟨incidents, life, run, check⟩ := exists_run_of_replay (processConfig 0) checkpoint₁
    (liveOnFirst ++ votesFor 6 onFirst₆ ++ crash ++ liveOnFirst ++ votesFor 7 onFirst₇)
    (fun entries life => decide ((∀ entry ∈ entries, entry.1.Safe entry.2) ∧
      .sent (voteFor 6 onFirst₆) ∈ life.history ∧ .sent (voteFor 7 onFirst₇) ∈ life.history)) (by decide +kernel)
  obtain ⟨safe, sent⟩ := of_decide_eq_true check
  exact ⟨incidents, life, run, safe, sent, noEquivocation_of_safe run safe⟩

def onSecond₆ : ConsensusFullBlock := block 6 (qcFor 2 chainBlock₂) 3 1

/-- After the restart old proposals finalize the second block, and state sync moves there with the QC of round three. -/
def liveOnSecond : List (Moment × Incident) :=
  [(executedFirst, .restart), (executedFirst, .exec)] ++ completely (.consensus (proposal 2 chainBlock₂ none none)) ++
    completely (.consensus (proposal 3 chainBlock₃ none none)) ++ completely
      (.consensus (proposal 4 chainBlock₄ none none)) ++
    completely (.requestSync chainBlock₂.header (qcFor 3 chainBlock₃)) ++ completely (.blockSync [chainBlock₂])

def genesisCheckpoint : Checkpoint := ⟨genesisBlockId, .qc crypto.genesisQc, [⟨1, 0⟩]⟩

def executedGenesis : Moment := ⟨now, ⟨some 0, some 0⟩⟩

/-- The leader proposes the tip of round one again in round two, and crashes before the checkpoint is written. -/
def reproposes : List (Moment × Incident) :=
  [(executedGenesis, .restart), (executedGenesis, .exec)] ++ completely
    (.consensus (proposal 1 chainBlock₁ none none)) ++
    [(executedGenesis, .event (.consensus (advanceRound (.tc (tcWithTip 1 (tip chainBlock₁ none)))))),
      (executedGenesis, .crash)]

def reproposal₂ : ConsensusMessage := ⟨1, .proposal (proposalMessage 2 chainBlock₁ none
    (some (tcWithTip 1 (tip chainBlock₁ none))))⟩

/-- A validator votes for two blocks of round six when state sync takes it back behind its checkpoint, and a leader
proposes twice in round two when it crashes between the router and the checkpoint executor. -/
theorem equivocates_after_restart : (∃ incidents life, Life.Run (processConfig 0) checkpoint₁ incidents life ∧
      .sent (voteFor 6 onFirst₆) ∈ life.history ∧ .sent (voteFor 6 onSecond₆) ∈ life.history ∧
      ¬ NoEquivocation crypto life.history) ∧
    ∃ incidents life before after, Life.Run (processConfig 3) genesisCheckpoint incidents life ∧
      life.history = before ++ .restarted :: after ∧ .sent reproposal₂ ∈ before ∧ .sent reproposal₂ ∈ after ∧
      ¬ NoEquivocation crypto life.history := by
  constructor
  · obtain ⟨incidents, life, run, check⟩ := exists_run_of_replay (processConfig 0) checkpoint₁
      (liveOnFirst ++ votesFor 6 onFirst₆ ++ crash ++ liveOnSecond ++ votesFor 6 onSecond₆)
      (fun _ life => decide (.sent (voteFor 6 onFirst₆) ∈ life.history ∧ .sent (voteFor 6 onSecond₆) ∈ life.history))
      (by decide +kernel)
    obtain ⟨first, second⟩ := of_decide_eq_true check
    refine ⟨incidents, life, run, first, second, fun none => ?_⟩
    have same := none.votes _ _ ⟨encodeHeader onFirst₆.header, 1, 6⟩ ⟨encodeHeader onSecond₆.header, 1, 6⟩ first second
      (mem_singleton_self _) (mem_singleton_self _) rfl
    exact absurd same (by decide)
  · obtain ⟨incidents, life, run, check⟩ := exists_run_of_replay (processConfig 3) genesisCheckpoint
      (reproposes ++ reproposes)
      (fun _ life => decide (life.history = life.history.take 4 ++ .restarted :: life.history.drop 5 ∧
        .sent reproposal₂ ∈ life.history.take 4 ∧ .sent reproposal₂ ∈ life.history.drop 5)) (by decide +kernel)
    obtain ⟨split, first, second⟩ := of_decide_eq_true check
    refine ⟨incidents, life, _, _, run, split, first, second, fun none => ?_⟩
    exact absurd (none.fresh _ _ split _ _ first second rfl) (lt_irrefl _)

end Examples

end MonadBft
