import MonadBft.Simulation.Handlers
import MonadBft.Validation.Sound

/-! # Runs of one replica

A run is a sequence of events that a replica handled without a panic. Every run is a run
of elementary steps with the same commands, once there is evidence for what the events
brought.
-/

namespace MonadBft

open ConsensusState Evidence List Option CertPreds

namespace Evidence

/-- Evidence for a message that a replica in state `s` accepted. -/
def message (K : Evidence) (net : Network) (s : ConsensusState) (author : NodeId) : ProtocolMessage → Prop
  | .proposal p => K.proposal p
  | .vote v => K.vote author v.vote
  | .timeout t => ConsensusState.TimeoutEvidence K net s author t
  | .roundRecovery m => K.recovery m
  | .noEndorsement _ => True
  | .advanceRound a => K.cert a.lastRoundCertificate

/-- Evidence for what an event brings to a replica. -/
def event (K : Evidence) (net : Network) (r : Replica) : ConsensusEvent → Prop
  | .message m => ∀ author cache,
      verifyAndValidate net r.consensus.epochManager r.certificateCache m = (some author, cache) →
        K.message net r.consensus author m.obj.message
  | .blockSync range fullBlocks =>
      (∀ header, net.crypto.getId header = range.lastBlockId → K.block header) → ∀ b ∈ fullBlocks, K.block b.header
  | .timeout round => r.consensus.getCurrentRound ≤ round → K.mayTimeOut r.consensus
  | .sendVote _ => True

end Evidence

variable {K : Evidence} {net : Network} {em : EpochManager} {V : CertPreds} {node : Node}

theorem ConsensusState.handleMessage_emits {env : Env} {s : ConsensusState} (closed : K.Closed env.net)
    {e : ConsensusEvent} {author : NodeId} {m : Unverified} (handled : e.message? = some m.obj.message)
    (evidence : K.message env.net s author m.obj.message) :
    Emits K env e s (s.handleMessage env author m) fun _ => True := by
  unfold handleMessage
  split
  case h_1 p isProposal =>
    rw [isProposal] at handled evidence
    refine (handleProposalMessage_emits closed handled evidence).andThen fun s₁ _ _ => ?_
    refine .step (.bookkeeping ⟨rfl, rfl, ⟨_, rfl⟩, ⟨_, rfl⟩, .inl rfl, .none, ?_, by simp, id⟩) trivial
    simp [ConsensusCommand.IsQuiet, isProposal]
  case h_2 isVote =>
    rw [isVote] at evidence
    exact (handleVoteMessage_emits closed evidence).mono fun _ _ _ => trivial
  case h_3 isTimeout =>
    rw [isTimeout] at evidence
    exact handleTimeoutMessage_emits closed evidence
  case h_4 isRecovery =>
    rw [isRecovery] at handled evidence
    exact handleRoundRecoveryMessage_emits closed handled evidence
  case h_5 => exact handleNoEndorsementMessage_emits closed
  case h_6 isAdvance =>
    rw [isAdvance] at evidence
    exact (processRoundCertificate_emits closed evidence).mono fun _ _ _ => trivial

namespace Replica

variable {env : Env} {r final r₀ : Replica} {em : EpochManager} {root : RootInfo} {highCertificate : RoundCertificate}
  {guard : Replica → ConsensusEvent → Bool} {events : List ConsensusEvent}

/-- The commands of an event are those of a run of elementary steps, and the event hits no protocol assertion. -/
theorem update_simulates {K : Evidence} {e : ConsensusEvent} (closed : K.Closed env.net)
    (evidence : K.event env.net r e) (marks : Marks r.consensus) (supported : Supported K env.net.crypto r.consensus) :
    (r.update env e).Sat (PanicFrom K env r.consensus) fun r' commands =>
      ∃ labels, Trace (MonadBft.Step K env.net env.node) r.consensus labels r'.consensus ∧
        commands = labels.flatMap (·.commands) ∧ ∀ l ∈ labels, l.event = e := by
  have lift : ∀ {x : Call} {wrap : ConsensusState → Replica}, (∀ s, (wrap s).consensus = s) →
      Emits K env e r.consensus x (fun _ => True) →
      (x.lift wrap).Sat (PanicFrom K env r.consensus) fun r' commands =>
        ∃ labels, Trace (MonadBft.Step K env.net env.node) r.consensus labels r'.consensus ∧
          commands = labels.flatMap (·.commands) ∧ ∀ l ∈ labels, l.event = e := by
    intro x wrap same emits
    refine .lift ((emits marks supported).mono (fun _ h => h) ?_)
    rintro s commands ⟨labels, run, emitted, tagged, -⟩
    exact ⟨labels, (same s).symm ▸ run, emitted, tagged⟩
  cases e with
  | message m =>
    simp only [update]
    split
    · exact ⟨[], .nil, rfl, by simp⟩
    case h_2 author cache accepted =>
      exact lift (fun _ => rfl) (handleMessage_emits closed rfl (evidence author cache accepted))
  | timeout round => exact lift (fun _ => rfl) (handleTimeoutExpiry_emits evidence)
  | blockSync range fullBlocks => exact lift (fun _ => rfl) (handleBlockSync_emits closed (fun _ => id) evidence)
  | sendVote round => exact lift (fun _ => rfl) handleVoteTimer_emits

structure Handled where
  event : ConsensusEvent
  commands : List ConsensusCommand

def Handles (net : Network) (node : Node) (r : Replica) (handled : Handled) (r' : Replica) : Prop :=
  ∃ now, r.update ⟨net, node, now⟩ handled.event = .ok r' handled.commands

def emitted (run : List Handled) : List ConsensusCommand := run.flatMap (·.commands)

/-- A run of a replica that starts from a certificate and a committed block. -/
def RunFrom (net : Network) (node : Node) (em : EpochManager) (root : RootInfo) (highCertificate : RoundCertificate)
    (history : List Handled) (r : Replica) : Prop :=
  ∃ r₀, Replica.new em root highCertificate = some r₀ ∧ Trace (Handles net node) r₀ history r

/-- A run in which every event meets a condition on it and on the replica that gets it. -/
def GuardedRun (net : Network) (node : Node) (em : EpochManager) (root : RootInfo) (highCertificate : RoundCertificate)
    (guard : Replica → ConsensusEvent → Prop) (history : List Handled) (r : Replica) : Prop :=
  ∃ r₀, Replica.new em root highCertificate = some r₀ ∧
    Trace (fun r h r' => guard r h.event ∧ Handles net node r h r') r₀ history r

variable {history : List Handled}

theorem GuardedRun.runFrom {net : Network} {node : Node} {guard : Replica → ConsensusEvent → Prop}
    (run : GuardedRun net node em root highCertificate guard history r) :
    RunFrom net node em root highCertificate history r := by
  obtain ⟨r₀, fresh, trace⟩ := run
  exact ⟨r₀, fresh, trace.mono And.right⟩

def replay (env : Env) (guard : Replica → ConsensusEvent → Bool) (r : Replica) :
    List ConsensusEvent → Option (Replica × List Handled)
  | [] => some (r, [])
  | e :: rest =>
    match guard r e, r.update env e with
    | true, .ok r' commands =>
      (replay env guard r' rest).map fun (final, history) => (final, ⟨e, commands⟩ :: history)
    | _, _ => none

theorem trace_of_replay (h : r.replay env guard events = some (final, history)) :
    Trace (fun r h r' => guard r h.event = true ∧ Handles env.net env.node r h r') r history final ∧
      history.map (·.event) = events := by
  induction events generalizing r history with
  | nil =>
    obtain ⟨rfl, rfl⟩ : r = final ∧ [] = history := by simpa [replay] using h
    exact ⟨.nil, rfl⟩
  | cons e rest ih =>
    unfold replay at h
    split at h
    case h_2 => cases h
    case h_1 r' commands allowed updated =>
      obtain ⟨⟨final', history'⟩, rest', same⟩ := map_eq_some_iff.mp h
      obtain ⟨rfl, rfl⟩ := Prod.mk.inj same
      obtain ⟨run, events⟩ := ih rest'
      have handles : Handles env.net env.node r ⟨e, commands⟩ r' := ⟨env.now, updated⟩
      exact ⟨run.cons ⟨allowed, handles⟩, by simpa using events⟩

/-- A run with a decidable property, found by replaying events. -/
theorem exists_guardedRun_of_replay (env : Env) (fresh : Replica.new em root highCertificate = some r₀)
    (guard : Replica → ConsensusEvent → Bool) (events : List ConsensusEvent) (P : Replica → List Handled → Bool)
    (h : (r₀.replay env guard events).map (fun (r, history) => P r history) = some true) :
    ∃ history r, GuardedRun env.net env.node em root highCertificate (fun r e => guard r e = true) history r ∧
      history.map (·.event) = events ∧ P r history = true := by
  obtain ⟨⟨r, history⟩, replayed, holds⟩ := map_eq_some_iff.mp h
  obtain ⟨run, events⟩ := trace_of_replay replayed
  exact ⟨history, r, ⟨r₀, fresh, run⟩, events, holds⟩

theorem exists_runFrom_of_replay (env : Env) (fresh : Replica.new em root highCertificate = some r₀)
    (events : List ConsensusEvent) (P : Replica → List Handled → Bool)
    (h : (r₀.replay env (fun _ _ => true) events).map (fun (r, history) => P r history) = some true) :
    ∃ history r, RunFrom env.net env.node em root highCertificate history r ∧
      history.map (·.event) = events ∧ P r history = true := by
  obtain ⟨history, r, run, holds⟩ := exists_guardedRun_of_replay env fresh _ events P h
  exact ⟨history, r, run.runFrom, holds⟩

end Replica

/-! ## The cache of a run -/

/-- Nothing, as a bound on what has to be accepted. -/
def CertPreds.never : CertPreds := ⟨fun _ => False, fun _ => False, fun _ => False⟩

/-- What passes the checks, under any epoch schedule, satisfies `V`. -/
def CertPreds.Sound (V : CertPreds) (net : Network) : Prop := ∀ em, never.Bounds V net em

theorem verifyAndValidate_cached {cache : CertificateCache} {m : Unverified} (bounds : never.Bounds V net em)
    (cached : V.Cached cache) : V.Cached (verifyAndValidate net em cache m).2 ∧
      ∀ author, (verifyAndValidate net em cache m).1 = some author →
        m.verify net em = .ok author ∧ MessageChecked net em V m.obj.message := by
  have checks := m.obj.validate_checks bounds cache cached
  unfold verifyAndValidate
  split
  · exact ⟨cached, by simp⟩
  case h_2 author verified =>
    split
    case h_1 cache' run =>
      rw [run] at checks
      refine ⟨checks.1, ?_⟩
      rintro _ ⟨⟩
      exact ⟨verified, (checks.2.2 () rfl).2⟩
    case h_2 e cache' run =>
      rw [run] at checks
      exact ⟨checks.1, by simp⟩

theorem Replica.Handles.cached {r r' : Replica} {handled : Replica.Handled} (sound : V.Sound net)
    (step : Replica.Handles net node r handled r') (cached : V.Cached r.certificateCache) :
      V.Cached r'.certificateCache := by
  obtain ⟨now, update⟩ := step
  obtain ⟨event, commands⟩ := handled
  cases event with
  | message m =>
    have kept := (verifyAndValidate_cached (m := m) (sound r.consensus.epochManager) cached).1
    simp only [Replica.update] at update
    split at update
    case h_1 cache accepted =>
      rw [accepted] at kept
      obtain ⟨rfl, -⟩ := Outcome.ok.inj update
      exact kept
    case h_2 author cache accepted =>
      rw [accepted] at kept
      obtain ⟨s, -, rfl⟩ := Outcome.lift_eq_ok.mp update
      exact kept
  | timeout round =>
    obtain ⟨s, -, rfl⟩ := Outcome.lift_eq_ok.mp update
    exact cached
  | blockSync range fullBlocks =>
    obtain ⟨s, -, rfl⟩ := Outcome.lift_eq_ok.mp update
    exact cached
  | sendVote round =>
    obtain ⟨s, -, rfl⟩ := Outcome.lift_eq_ok.mp update
    exact cached

/-! ## Runs are runs of steps -/

section Start

variable {K : Evidence} {crypto : Crypto} {em : EpochManager} {root : RootInfo} {highCertificate : RoundCertificate}
  {s : ConsensusState}

variable (h : ConsensusState.new em root highCertificate = some s)

include h

theorem ConsensusState.marks_new : Marks s := by
  obtain ⟨pacemaker, started, rfl⟩ := map_eq_some_iff.mp h
  obtain ⟨epoch, known, rfl⟩ := map_eq_some_iff.mp started
  exact ⟨le_rfl, le_rfl, by simp, epoch, known, le_rfl⟩

theorem ConsensusState.supported_new (evidence : K.cert highCertificate) : Supported K crypto s := by
  obtain ⟨pacemaker, started, rfl⟩ := map_eq_some_iff.mp h
  obtain ⟨epoch, -, rfl⟩ := map_eq_some_iff.mp started
  refine ⟨evidence, ?_, ?_, ?_, ?_, ?_, ?_, ?_, ?_, ?_⟩
  · intro round roundState vote pending n mem
    exact absurd mem (SortedMap.not_mem_empty _)
  · intro a t mem
    exact absurd mem (SortedMap.not_mem_empty _)
  · intro a t a' t' mem
    exact absurd mem (SortedMap.not_mem_empty _)
  · intro id e found
    cases found
  · intro id e found
    cases found
  · intro id e found
    cases found
  · intro round nec found
    cases found
  · intro id status header found
    cases found
  · intro tip high
    cases high

end Start

/-- The labels of a run of steps, against the events and commands of a run of the replica. -/
structure Replica.Explains (labels : List Label) (history : List Replica.Handled) : Prop where
  emitted : Replica.emitted history = labels.flatMap (·.commands)
  step : ∀ {h c}, h ∈ history → c ∈ h.commands → ∃ l ∈ labels, l.event = h.event ∧ c ∈ l.commands
  event : ∀ {l}, l ∈ labels → ∃ h ∈ history, h.event = l.event

variable {history : List Replica.Handled} {guard : Replica → ConsensusEvent → Prop}

theorem Replica.Explains.snoc {labels labels' : List Label} {h : Replica.Handled}
    (before : Replica.Explains labels history)
    (emitted : h.commands = labels'.flatMap (·.commands)) (tagged : ∀ l ∈ labels', l.event = h.event) :
    Replica.Explains (labels ++ labels') (history ++ [h]) where
  emitted := by
    rw [Replica.emitted, flatMap_append, flatMap_append, ← before.emitted]
    simp [emitted, Replica.emitted]
  step := by
    intro h' c mem emits
    obtain old | new := mem_append.mp mem
    · obtain ⟨l, known, same⟩ := before.step old emits
      exact ⟨l, mem_append_left _ known, same⟩
    · rw [mem_singleton.mp new, emitted] at emits
      obtain ⟨l, known, carries⟩ := mem_flatMap.mp emits
      exact ⟨l, mem_append_right _ known, (tagged l known).trans (mem_singleton.mp new ▸ rfl), carries⟩
  event := by
    intro l mem
    obtain old | new := mem_append.mp mem
    · obtain ⟨h', known, same⟩ := before.event old
      exact ⟨h', mem_append_left _ known, same⟩
    · exact ⟨h, by simp, (tagged l new).symm⟩

/-- Part of a run of a replica, as a run of elementary steps. Evidence is asked for in the states that it goes
through. -/
theorem Replica.simulates_of_trace {r₀ r : Replica}
    (run : Trace (fun r h r' => guard r h.event ∧ Replica.Handles net node r h r') r₀ history r) (closed : K.Closed net)
    (sound : V.Sound net) (marks : Marks r₀.consensus) (supported : Supported K net.crypto r₀.consensus)
    (cached₀ : V.Cached r₀.certificateCache) (evidence : ∀ past h r, past ++ [h] <+: history →
      Trace (fun r h r' => guard r h.event ∧ Replica.Handles net node r h r') r₀ past r →
      V.Cached r.certificateCache → guard r h.event → K.event net r h.event) :
    V.Cached r.certificateCache ∧ ∃ labels, Trace (Step K net node) r₀.consensus labels r.consensus ∧
      Replica.Explains labels history := by
  induction run with
  | nil => exact ⟨cached₀, [], .nil, rfl, by simp, by simp⟩
  | @snoc history r r' handled before taken ih =>
    obtain ⟨allowed, step⟩ := taken
    obtain ⟨cached, labels, trace, explains⟩ := ih fun past h r isPrefix =>
      evidence past h r (isPrefix.trans (prefix_append _ _))
    obtain ⟨now, update⟩ := id step
    have event := evidence history handled r (prefix_refl _) before cached allowed
    let env : Env := ⟨net, node, now⟩
    have closed' : K.Closed env.net := closed
    have simulated := Replica.update_simulates closed' event (marks_of_trace trace marks)
      (supported_of_trace trace supported)
    obtain ⟨labels', trace', emitted', tagged⟩ := simulated.of_ok update
    exact ⟨step.cached sound cached, labels ++ labels', trace.append trace', explains.snoc emitted' tagged⟩

/-- A run of a replica, as a run of elementary steps from the state it started in. -/
theorem Replica.GuardedRun.simulates {root : RootInfo} {highCertificate : RoundCertificate} {r : Replica}
    (run : Replica.GuardedRun net node em root highCertificate guard history r) (closed : K.Closed net)
    (sound : V.Sound net) (start : K.cert highCertificate) (evidence : ∀ past h r, past ++ [h] <+: history →
      Replica.GuardedRun net node em root highCertificate guard past r → V.Cached r.certificateCache →
      guard r h.event → K.event net r h.event) :
    V.Cached r.certificateCache ∧ ∃ s₀ labels, ConsensusState.new em root highCertificate = some s₀ ∧
      Trace (Step K net node) s₀ labels r.consensus ∧ Replica.Explains labels history := by
  obtain ⟨r₀, fresh, trace⟩ := run
  obtain ⟨s₀, started, rfl⟩ := map_eq_some_iff.mp fresh
  obtain ⟨cached, labels, steps, explains⟩ := Replica.simulates_of_trace trace closed sound
    (marks_new started) (supported_new started start) V.cached_empty
    fun past h r isPrefix before => evidence past h r isPrefix ⟨_, fresh, before⟩
  exact ⟨cached, s₀, labels, started, steps, explains⟩

/-! ## Evidence that every run has -/

/-- A timeout carries a certificate of the round before its own. -/
def TimeoutMessage.ShowsRound (t : TimeoutMessage) : Prop :=
  t.highExtend.getQc.getRound + 1 = t.tminfo.round ∨
    ∃ c, t.lastRoundCertificate = some c ∧ c.round + 1 = t.tminfo.round

theorem TimeoutMessage.showsRound_of_checked {t : TimeoutMessage} (checked : TimeoutChecked net em V t) :
    t.ShowsRound := by
  obtain ⟨-, last, -, -, wellFormed, -⟩ := checked
  unfold TimeoutMessage.wellFormedTimeout at wellFormed
  split at wellFormed
  case isTrue consecutive => exact .inl consecutive.symm
  case isFalse =>
    cases isLast : t.lastRoundCertificate with
    | none => simp [isLast] at wellFormed
    | some c => exact .inr ⟨c, isLast, (checkPreviousRound_eq_ok.mp (last c isLast).2).symm⟩

/-- The evidence that accepted messages give without any assumption on the network, with the states a replica may
time out in as a parameter. -/
def Evidence.wellFormed (mayTimeOut : ConsensusState → Prop) : Evidence where
  qc := fun _ => True
  tc := fun _ => True
  vote := fun _ _ => True
  timeout := fun _ t => t.ShowsRound
  together := fun _ _ => True
  proposal := fun _ => True
  recovery := fun _ => True
  block := fun _ => True
  mayTimeOut

section WellFormed

variable {may : ConsensusState → Prop}

theorem Evidence.wellFormed_cert (c : RoundCertificate) : (wellFormed may).cert c := by
  cases c <;> trivial

/-- With any property of proposals in its place. -/
theorem Evidence.wellFormed_closed_with (net : Network) (P : ProposalMessage → Prop) :
    { wellFormed may with proposal := P }.Closed net where
  qcOfVotes := fun _ _ _ _ => trivial
  tcOfTimeouts := fun _ _ _ _ _ => trivial
  qcOfTc := fun _ => trivial
  blockOfTc := fun _ _ _ => trivial
  qcOfBlock := fun _ => trivial
  certified := fun _ _ => trivial
  blockOfProposal := fun _ => trivial
  tcOfProposal := fun _ _ => trivial
  qcOfTimeout := fun _ => trivial
  certOfTimeout := fun {_ _ c} _ _ => by cases c <;> trivial
  voteOfTimeout := fun _ _ => trivial
  roundOfTimeout := id
  tcOfRecovery := fun _ => trivial

theorem Evidence.wellFormed_closed (net : Network) : (wellFormed may).Closed net :=
  wellFormed_closed_with net fun _ => True

def CertPreds.any : CertPreds := ⟨fun _ => True, fun _ => True, fun _ => True⟩

theorem CertPreds.any_sound (net : Network) : any.Sound net := fun _ =>
  ⟨False.elim, fun _ => trivial, False.elim, fun _ => trivial, False.elim, fun _ => trivial⟩

theorem CertPreds.any_cached (cache : CertificateCache) : any.Cached cache :=
  ⟨fun _ => trivial, fun _ => trivial, fun _ => trivial⟩

/-- The evidence of an event, given that of a proposal it may bring and the states it may time the replica out in. -/
theorem Evidence.wellFormed_event_with {net : Network} {r : Replica} {e : ConsensusEvent} {P : ProposalMessage → Prop}
    (proposals : ∀ m author cache p, e = .message m →
      verifyAndValidate net r.consensus.epochManager r.certificateCache m = (some author, cache) →
      m.obj.message = .proposal p → P p)
    (timer : ∀ round, e = .timeout round → r.consensus.getCurrentRound ≤ round → may r.consensus)
    (join : ∀ m author cache t, e = .message m →
      verifyAndValidate net r.consensus.epochManager r.certificateCache m = (some author, cache) →
      m.obj.message = .timeout t → ∀ {s' validators mapping}, ConsensusState.Unsigned r.consensus s' →
      t.tminfo.round = s'.getCurrentRound →
      (r.consensus.epochManager.getEpoch t.tminfo.round).bind net.valEpochMap = some (validators, mapping) →
      validators.hasHonestVote (s'.pacemaker.pendingTimeouts.insert author t).keys = .ok true →
      may { s' with pacemaker :=
        { s'.pacemaker with pendingTimeouts := s'.pacemaker.pendingTimeouts.insert author t } }) :
    { wellFormed may with proposal := P }.event net r e := by
  cases e with
  | message m =>
    intro author cache accepted
    have checked := (verifyAndValidate_cached (m := m) (any_sound net r.consensus.epochManager)
      (any_cached r.certificateCache)).2 author (by rw [accepted])
    cases isMessage : m.obj.message with
    | timeout t =>
      rw [isMessage] at checked
      exact ⟨TimeoutMessage.showsRound_of_checked checked.2, trivial, fun _ _ _ _ => ⟨trivial, trivial⟩,
        join m author cache t rfl accepted isMessage⟩
    | advanceRound a =>
      simp only [message]
      cases a.lastRoundCertificate <;> trivial
    | proposal p => exact proposals m author cache p rfl accepted isMessage
    | vote | roundRecovery | noEndorsement => trivial
  | blockSync range fullBlocks => exact fun _ _ _ => trivial
  | timeout round => exact timer round rfl
  | sendVote round => trivial

end WellFormed

/-- What every message gives, when any timeout is allowed. -/
theorem Evidence.wellFormed_event_any (net : Network) (r : Replica) (e : ConsensusEvent) :
    (wellFormed fun _ => True).event net r e :=
  wellFormed_event_with (P := fun _ => True) (fun _ _ _ _ _ _ _ => trivial) (fun _ _ _ => trivial)
    fun _ _ _ _ _ _ _ _ _ _ _ _ _ _ => trivial

section Reachable

variable {net : Network} {node : Node} {em : EpochManager} {root : RootInfo} {highCertificate : RoundCertificate}
  {history : List Replica.Handled} {r : Replica}

variable (run : Replica.RunFrom net node em root highCertificate history r)

include run

theorem Replica.RunFrom.guarded :
    Replica.GuardedRun net node em root highCertificate (fun _ _ => True) history r := by
  obtain ⟨r₀, fresh, trace⟩ := run
  exact ⟨r₀, fresh, trace.mono fun step => ⟨trivial, step⟩⟩

/-- Every run is a run of elementary steps. -/
theorem Replica.RunFrom.steps : ∃ s₀ labels, ConsensusState.new em root highCertificate = some s₀ ∧
      Trace (Step (.wellFormed fun _ => True) net node) s₀ labels r.consensus ∧ Replica.Explains labels history :=
  (run.guarded.simulates (wellFormed_closed net) (any_sound net) (wellFormed_cert _)
    fun _ _ r _ _ _ _ => wellFormed_event_any net r _).2

theorem Replica.RunFrom.invariants : Marks r.consensus ∧ Supported
    (.wellFormed fun _ => True) net.crypto r.consensus := by
  obtain ⟨s₀, labels, started, trace, -⟩ := run.steps
  exact ⟨marks_of_trace trace (marks_new started),
    supported_of_trace trace (supported_new started (wellFormed_cert _))⟩

theorem Replica.RunFrom.panicFrom {now : Surroundings} {e : ConsensusEvent} {reason : Panic}
    (panics : r.update ⟨net, node, now⟩ e = .panic reason) :
    PanicFrom (.wellFormed fun _ => True) ⟨net, node, now⟩ r.consensus reason := by
  obtain ⟨marks, supported⟩ := run.invariants
  have simulated : (r.update ⟨net, node, now⟩ e).Sat _ _ :=
    Replica.update_simulates (wellFormed_closed net) (wellFormed_event_any net r e) marks supported
  rwa [panics, Outcome.sat_panic] at simulated

end Reachable

end MonadBft
