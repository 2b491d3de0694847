import Mathlib.Data.List.Basic
import MonadBft.Lib.Outcome

/-! # The failover circuit breaker

`FallbackExecutor::execute` asks the breaker for the source, requests from it and records how the primary did, each
under its own lock, so that any number of calls interleave. The half-open state does not say whose request is under
way: a call that arrives meanwhile starts another one, and a success of a call from before the opening closes the
circuit.
-/

namespace MonadBft.CircuitBreaker

inductive State where
  | closed
  | opened
  | halfOpen
deriving DecidableEq, Repr

structure Config where
  failureThreshold : Nat
  recoveryTimeout : Nat

structure Breaker where
  state : State
  failureCount : Nat
  openedAt : Option Nat
deriving DecidableEq, Repr

inductive Choice where
  | primary
  | halfOpen
  | fallback
deriving DecidableEq, Repr

/-- `should_use_fallback` up to the read lock's release. -/
def Breaker.choose (config : Config) (now : Nat) (breaker : Breaker) : Choice :=
  match breaker.state, breaker.openedAt with
  | .closed, _ => .primary
  | .halfOpen, _ => .primary
  | .opened, none => .fallback
  | .opened, some openedAt => if config.recoveryTimeout ≤ now - openedAt then .halfOpen else .fallback

/-- The write lock of `should_use_fallback`. -/
def Breaker.tryHalfOpen (breaker : Breaker) : Breaker :=
  if breaker.state = .opened then { breaker with state := .halfOpen } else breaker

def Breaker.recordSuccess (breaker : Breaker) : Breaker :=
  match breaker.state with
  | .halfOpen => ⟨.closed, 0, none⟩
  | .closed => { breaker with failureCount := 0 }
  | .opened => { breaker with failureCount := 0 }

def Breaker.recordFailure (config : Config) (now : Nat) (breaker : Breaker) : Breaker :=
  let failureCount := (breaker.failureCount + 1) % 4294967296
  match breaker.state with
  | .closed =>
    if config.failureThreshold ≤ failureCount then ⟨.opened, failureCount, some now⟩ else { breaker with failureCount }
  | .halfOpen => ⟨.opened, failureCount, some now⟩
  | .opened => { breaker with failureCount }

/-- Where a call is; from the start of the primary request on with the time it was started. -/
inductive Phase (ε α : Type) where
  | ready
  | halfOpening
  | primary (start : Nat)
  | succeeded (start : Nat) (value : α)
  | failed (start : Nat)
  | fallback
  | returned (result : Except ε α)

/-- A lock taken by a call, or the end of one of its requests. -/
inductive Action (ε α : Type) where
  | read
  | write
  | primary (result : Except ε α)
  | record
  | fallback (result : Except ε α)

/-- All calls on an executor. `records` are the results recorded, the last one first, and `starts` the times of the
last opening of a closed circuit and of the primary requests started since then while it was not closed, the last one
first. -/
structure Executor (ε α : Type) where
  breaker : Breaker
  clock : Nat
  calls : Nat → Phase ε α
  records : List Bool
  starts : List Nat

variable {ε α : Type} {config : Config} {s s' : Executor ε α} {event : Nat × Nat × Action ε α}
  {events : List (Nat × Nat × Action ε α)}

def new : Executor ε α := ⟨⟨.closed, 0, none⟩, 0, fun _ => .ready, [], []⟩

def Executor.put (s : Executor ε α) (now call : Nat) (phase : Phase ε α) : Executor ε α :=
  { s with clock := now, calls := Function.update s.calls call phase }

def Executor.start (s : Executor ε α) (now call : Nat) : Executor ε α :=
  { s.put now call (.primary now) with starts := if s.breaker.state = .closed then s.starts else now :: s.starts }

/-- One action of one call of `execute`, at a time. -/
def step (config : Config) (s : Executor ε α) (event : Nat × Nat × Action ε α) : Option (Executor ε α) :=
  let (now, call, action) := event
  if now < s.clock then none
  else
    match action, s.calls call with
    | .read, .ready =>
      match s.breaker.choose config now with
      | .primary => some (s.start now call)
      | .halfOpen => some (s.put now call .halfOpening)
      | .fallback => some (s.put now call .fallback)
    | .write, .halfOpening => some ({ s with breaker := s.breaker.tryHalfOpen }.start now call)
    | .primary (.ok value), .primary start => some (s.put now call (.succeeded start value))
    | .primary (.error _), .primary start => some (s.put now call (.failed start))
    | .record, .succeeded _ value => some
        { s.put now call (.returned (.ok value)) with breaker := s.breaker.recordSuccess, records := true :: s.records }
    | .record, .failed _ => some
        { s.put now call .fallback with
          breaker := s.breaker.recordFailure config now, records := false :: s.records
          starts := if s.breaker.state = .closed then [now] else s.starts }
    | .fallback result, .fallback => some (s.put now call (.returned result))
    | _, _ => none

def Run (config : Config) : List (Executor ε α × Nat × Nat × Action ε α) → Executor ε α → Prop :=
  Trace (Trace.Recorded fun s event s' => step config s event = some s') new

/-- When the primary request of a call was started whose result is not recorded yet. -/
def Phase.started : Phase ε α → Option Nat
  | .primary start | .succeeded start _ | .failed start => some start
  | .ready | .halfOpening | .fallback | .returned _ => none

/-- The call is between choosing the primary and recording its result. -/
def Phase.InFlight (phase : Phase ε α) : Prop := phase = .halfOpening ∨ phase.started ≠ none

/-- A call that chooses the primary while the circuit is not closed is the only one in flight. -/
def Alone (config : Config) (s : Executor ε α) (event : Nat × Nat × Action ε α) : Prop :=
  event.2.2 = .read → s.breaker.state ≠ .closed → s.breaker.choose config event.1 ≠ .fallback →
    ∀ other, ¬(s.calls other).InFlight

def Spaced (config : Config) (starts : List Nat) : Prop :=
  starts.Pairwise fun later earlier => earlier + config.recoveryTimeout ≤ later

/-- One call at a time tries the primary while the circuit is not closed. -/
structure Probing (config : Config) (s : Executor ε α) : Prop where
  spaced : Spaced config s.starts
  past : ∀ start ∈ s.starts, start ≤ s.clock
  openedAt : s.breaker.state ≠ .closed → ∃ since, s.breaker.openedAt = some since ∧ since ≤ s.clock ∧
    (s.breaker.state = .opened → ∀ start ∈ s.starts, start ≤ since)
  halfOpening : ∀ call, s.calls call = .halfOpening → s.breaker.state = .opened ∧
    (∃ since, s.breaker.openedAt = some since ∧ since + config.recoveryTimeout ≤ s.clock) ∧
    ∀ other, (s.calls other).InFlight → other = call
  halfOpen : s.breaker.state = .halfOpen → ∃ call start since, (s.calls call).started = some start ∧
    s.breaker.openedAt = some since ∧ since + config.recoveryTimeout ≤ start ∧ ∀ other, (s.calls other).InFlight →
      other = call

/-- A call goes on without a new request, and not the one whose request may close the circuit. -/
theorem Probing.put (probing : Probing config s) (now call : Nat) (later : s.clock ≤ now) (phase : Phase ε α)
    (ne : phase ≠ .halfOpening) (fewer : phase.InFlight → (s.calls call).InFlight)
    (same : s.breaker.state = .halfOpen → phase.started = (s.calls call).started) :
    Probing config (s.put now call phase) := by
  obtain ⟨spaced, past, openedAt, halfOpening, halfOpen⟩ := probing
  have inFlight : ∀ other, (Function.update s.calls call phase other).InFlight → (s.calls other).InFlight := by grind
  refine ⟨spaced, fun start mem => Nat.le_trans (past start mem) later, fun isOpen => ?_, fun other moved => ?_,
    fun isOpen => ?_⟩
  · obtain ⟨since, isAt, le, starts⟩ := openedAt isOpen
    exact ⟨since, isAt, Nat.le_trans le later, starts⟩
  · have opening : ∀ other, Function.update s.calls call phase other = .halfOpening →
        s.calls other = .halfOpening := by grind
    obtain ⟨opened, ⟨since, isAt, waited⟩, only⟩ := halfOpening other (opening other moved)
    exact ⟨opened, ⟨since, isAt, Nat.le_trans waited later⟩, fun other moved => only other (inFlight other moved)⟩
  · obtain ⟨prober, start, since, started, isAt, waited, only⟩ := halfOpen isOpen
    have same := same isOpen
    have started' : (Function.update s.calls call phase prober).started = some start := by grind
    exact ⟨prober, start, since, started', isAt, waited, fun other moved => only other (inFlight other moved)⟩

theorem probing_step (probing : Probing config s) (alone : Alone config s event)
    (taken : step config s event = some s') : Probing config s' := by
  obtain ⟨now, call, action⟩ := event
  simp only [step] at taken
  split at taken
  · cases taken
  next early =>
  have later := Nat.not_lt.mp early
  have goesOn := probing.put now call later
  obtain ⟨spaced, past, openedAt, halfOpening, halfOpen⟩ := probing
  have past' : ∀ start ∈ s.starts, start ≤ now := fun start mem => Nat.le_trans (past start mem) later
  split at taken
  case h_1 ready =>
    split at taken <;> cases taken
    case h_1 chosen =>
      -- the call that may close a half-open circuit would have kept this one from choosing the primary
      have closed : s.breaker.state = .closed := by
        by_contra isOpen
        have isHalfOpen : s.breaker.state = .halfOpen := by grind [Breaker.choose]
        obtain ⟨other, start, -, started, -⟩ := halfOpen isHalfOpen
        exact alone rfl isOpen (by simp [chosen]) other (.inr (by simp [started]))
      have none : ∀ other, Function.update s.calls call (.primary now) other ≠ .halfOpening := by grind
      rw [Executor.start, if_pos closed]
      exact ⟨spaced, past', absurd closed, fun other moved => (none other moved).elim, by simp [Executor.put, closed]⟩
    case h_2 chosen =>
      obtain ⟨opened, since, isAt, waited⟩ : s.breaker.state = .opened ∧
          ∃ since, s.breaker.openedAt = some since ∧ config.recoveryTimeout ≤ now - since := by grind [Breaker.choose]
      have none := alone rfl (by simp [opened]) (by simp [chosen])
      have mine : ∀ other, (Function.update s.calls call .halfOpening other).InFlight → other = call := by grind
      refine ⟨spaced, past', by grind [Executor.put], fun opening moved => ?_, by simp [Executor.put, opened]⟩
      obtain rfl := mine opening (.inl moved)
      have enough : since + config.recoveryTimeout ≤ now := by grind
      exact ⟨opened, ⟨since, isAt, enough⟩, mine⟩
    case h_3 => exact goesOn _ nofun (by simp [Phase.InFlight, Phase.started]) (by simp [ready, Phase.started])
  case h_2 opening =>
    obtain ⟨opened, ⟨since, isAt, waited⟩, only⟩ := halfOpening call opening
    have mine : ∀ other, (Function.update s.calls call (.primary now) other).InFlight → other = call := by grind
    cases taken
    rw [Breaker.tryHalfOpen, if_pos opened]
    refine ⟨List.pairwise_cons.mpr ⟨fun start mem => ?_, spaced⟩, List.forall_mem_cons.mpr ⟨Nat.le_refl _, past'⟩,
      fun _ => ⟨since, isAt, ?_, nofun⟩, fun other moved => ?_, fun _ => ⟨call, now, since, ?_, isAt, by omega, mine⟩⟩
    · -- the request starts a timeout after the opening, and so after all earlier ones
      have before : start ≤ since := by grind
      omega
    · show since ≤ now
      omega
    · obtain rfl := mine other (.inl moved)
      cases (Function.update_self ..).symm.trans moved
    · exact congrArg Phase.started (Function.update_self call (.primary now) s.calls)
  case h_3 isPrimary | h_4 isPrimary =>
    cases taken
    exact goesOn _ nofun (by simp [isPrimary, Phase.InFlight, Phase.started]) (by simp [isPrimary, Phase.started])
  case h_5 start value succeeded =>
    cases taken
    by_cases opened : s.breaker.state = .opened
    · -- a success does not close an open circuit
      obtain ⟨-, past, openedAt, halfOpening, halfOpen⟩ :=
        goesOn (.returned (.ok value)) nofun (by simp [Phase.InFlight, Phase.started]) (by simp [opened])
      have same : s.breaker.recordSuccess = { s.breaker with failureCount := 0 } := by
        simp [Breaker.recordSuccess, opened]
      rw [same]
      exact ⟨spaced, past, openedAt, halfOpening, halfOpen⟩
    · have closes : s.breaker.recordSuccess.state = .closed := by grind [Breaker.recordSuccess]
      have none : ∀ other, Function.update s.calls call (.returned (.ok value)) other ≠ .halfOpening := by
        grind [Phase.InFlight, Phase.started]
      exact ⟨spaced, past', absurd closes, fun other moved => (none other moved).elim, by simp [closes]⟩
  case h_6 start failed =>
    cases taken
    have none : ∀ other, Function.update s.calls call .fallback other ≠ .halfOpening := by
      grind [Phase.InFlight, Phase.started]
    cases isState : s.breaker.state with
    | closed =>
      have single : Spaced config [now] := List.pairwise_singleton ..
      simp only [Breaker.recordFailure, isState, if_true]
      split
      · exact ⟨single, by simp [Executor.put], fun _ => ⟨now, rfl, Nat.le_refl _, by simp⟩,
          fun other moved => (none other moved).elim, nofun⟩
      · exact ⟨single, by simp [Executor.put], absurd rfl, fun other moved => (none other moved).elim, nofun⟩
    | halfOpen =>
      simp only [Breaker.recordFailure, isState]
      exact ⟨spaced, past', fun _ => ⟨now, rfl, Nat.le_refl _, fun _ => past'⟩,
        fun other moved => (none other moved).elim, nofun⟩
    | opened =>
      obtain ⟨-, past, openedAt, halfOpening, halfOpen⟩ :=
        goesOn .fallback nofun (by simp [Phase.InFlight, Phase.started]) (by simp [isState])
      obtain ⟨failureCount, same⟩ : ∃ failureCount, s.breaker.recordFailure config now =
        { s.breaker with failureCount } := by
        simp [Breaker.recordFailure, isState]
      rw [same]
      exact ⟨spaced, past, openedAt, halfOpening, halfOpen⟩
  case h_7 isFallback =>
    cases taken
    exact goesOn _ nofun (by simp [Phase.InFlight, Phase.started]) (by simp [isFallback, Phase.started])
  case h_8 => cases taken

def failures : List Bool → Nat
  | [] | true :: _ => 0
  | false :: records => failures records + 1

/-- What the requests of a call have returned. -/
def Answers (events : List (Nat × Nat × Action ε α)) (call : Nat) : Phase ε α → Prop
  | .succeeded _ value => ∃ now, (now, call, .primary (.ok value)) ∈ events
  | .returned result => (∃ now value, result = .ok value ∧ (now, call, .primary result) ∈ events) ∨
      (∀ now value, (now, call, .primary (.ok value)) ∉ events) ∧ ∃ now, (now, call, .fallback result) ∈ events
  | _ => ∀ now value, (now, call, .primary (.ok value)) ∉ events

theorem Answers.other {call : Nat} {phase : Phase ε α} (answers : Answers events call phase)
    (other : call ≠ event.2.1) : Answers (events ++ [event]) call phase := by
  cases phase <;> grind [Answers]

theorem answers_step (answers : ∀ call, Answers events call (s.calls call)) (taken : step config s event = some s')
    (call : Nat) : Answers (events ++ [event]) call (s'.calls call) := by
  obtain ⟨now, mine, action⟩ := event
  have old := answers mine
  have frame : call ≠ mine → Answers (events ++ [(now, mine, action)]) call (s.calls call) :=
    fun other => (answers call).other other
  simp only [step] at taken
  split at taken
  · cases taken
  split at taken <;> try split at taken
  all_goals cases taken
  all_goals
    simp only [Executor.start, Executor.put, Function.update_apply]
    split
    next same =>
      subst same
      grind [Answers]
    next other => exact frame other

/-- A step makes the breaker half-open at most, or it records a result. -/
theorem breaker_step (taken : step config s event = some s') :
    s'.records = s.records ∧ (s'.breaker = s.breaker ∨ s'.breaker = s.breaker.tryHalfOpen) ∨
    (event.2.2 = .record ∧ (∃ start value, s.calls event.2.1 = .succeeded start value) ∧
      s'.records = true :: s.records ∧ s'.breaker = s.breaker.recordSuccess) ∨
    s'.records = false :: s.records ∧ s'.breaker = s.breaker.recordFailure config event.1 := by
  obtain ⟨now, call, action⟩ := event
  simp only [step] at taken
  split at taken
  · cases taken
  split at taken
  case h_1 => split at taken <;> cases taken <;> exact .inl ⟨rfl, .inl rfl⟩
  case h_2 =>
    cases taken
    exact .inl ⟨rfl, .inr rfl⟩
  case h_5 start value succeeded =>
    cases taken
    exact .inr (.inl ⟨rfl, ⟨start, value, succeeded⟩, rfl, rfl⟩)
  case h_6 =>
    cases taken
    exact .inr (.inr ⟨rfl, rfl⟩)
  case h_8 => cases taken
  all_goals
    cases taken
    exact .inl ⟨rfl, .inl rfl⟩

theorem counted_step (counted : s.breaker.failureCount ≤ failures s.records) (taken : step config s event = some s') :
    s'.breaker.failureCount ≤ failures s'.records := by
  obtain ⟨records, same | turns⟩ | ⟨-, -, records, breaker⟩ | ⟨records, breaker⟩ := breaker_step taken
  · rwa [records, same]
  · grind [Breaker.tryHalfOpen]
  · grind [Breaker.recordSuccess]
  · -- the count wraps, the number of failures does not
    have : s'.breaker.failureCount = (s.breaker.failureCount + 1) % 4294967296 := by grind [Breaker.recordFailure]
    rw [records, failures]
    omega

theorem opens_step (counted : s.breaker.failureCount ≤ failures s.records) (taken : step config s event = some s')
    (closed : s.breaker.state = .closed) (opens : s'.breaker.state ≠ .closed) :
    config.failureThreshold ≤ failures s'.records := by
  have counted' := counted_step counted taken
  obtain ⟨-, same | turns⟩ | ⟨-, -, -, breaker⟩ | ⟨-, breaker⟩ := breaker_step taken
  · exact absurd (same ▸ closed) opens
  · grind [Breaker.tryHalfOpen]
  · grind [Breaker.recordSuccess]
  · rw [breaker] at opens counted'
    simp only [Breaker.recordFailure, closed] at opens counted'
    split at opens
    next enough =>
      rw [if_pos enough] at counted'
      exact Nat.le_trans enough counted'
    next => exact absurd rfl opens

/-- Only the one call that tries the primary closes the circuit. -/
theorem closes_step (probing : Probing config s) (taken : step config s event = some s')
    (isOpen : s.breaker.state ≠ .closed) (closed : s'.breaker.state = .closed) : event.2.2 = .record ∧
      ∃ start value since, s.calls event.2.1 = .succeeded start value ∧ s.breaker.openedAt = some since ∧
        since + config.recoveryTimeout ≤ start := by
  obtain ⟨-, same | turns⟩ | ⟨records, ⟨start, value, succeeded⟩, -, breaker⟩ | ⟨-, breaker⟩ := breaker_step taken
  · exact absurd (same ▸ closed) isOpen
  · grind [Breaker.tryHalfOpen]
  · have halfOpen : s.breaker.state = .halfOpen := by grind [Breaker.recordSuccess]
    obtain ⟨call, start', since, started, isAt, waited, only⟩ := probing.halfOpen halfOpen
    obtain rfl := only event.2.1 (.inr (by simp [succeeded, Phase.started]))
    rw [succeeded] at started
    obtain rfl := Option.some.inj started
    exact ⟨records, start, value, since, succeeded, isAt, waited⟩
  · grind [Breaker.recordFailure]

/-- A closed circuit opens after enough failures in a row and every call returns the primary's answer or else the
fallback's. If calls that choose the primary while the circuit is not closed do so alone, the opening and the primary
requests after it are a timeout apart, and the circuit is closed by a request that was started a timeout after the
opening. -/
theorem circuit_recovers {entries : List (Executor ε α × Nat × Nat × Action ε α)} (run : Run config entries s) :
    (∀ event s', step config s event = some s' → s.breaker.state = .closed → s'.breaker.state ≠ .closed →
      config.failureThreshold ≤ failures s'.records) ∧
    (∀ call result, s.calls call = .returned result → Answers (entries.map Prod.snd) call (.returned result)) ∧
    ((∀ entry ∈ entries, Alone config entry.1 entry.2) → Spaced config s.starts ∧
      ∀ event s', step config s event = some s' → s.breaker.state ≠ .closed → s'.breaker.state = .closed →
        event.2.2 = .record ∧ ∃ start value since, s.calls event.2.1 = .succeeded start value ∧
          s.breaker.openedAt = some since ∧ since + config.recoveryTimeout ≤ start) := by
  have invariant : s.breaker.failureCount ≤ failures s.records ∧
      (∀ call, Answers (entries.map Prod.snd) call (s.calls call)) ∧
      ((∀ entry ∈ entries, Alone config entry.1 entry.2) → Probing config s) := by
    induction run with
    | nil => exact ⟨Nat.le_refl _, by simp [new, Answers], fun _ => by constructor <;> simp [new, Spaced]⟩
    | @snoc entries _ after entry _ taken ih =>
      obtain ⟨counted, answers, probing⟩ := ih
      obtain ⟨rfl, taken⟩ := taken
      refine ⟨counted_step counted taken, ?_, fun alone => ?_⟩
      · simpa using answers_step answers taken
      · exact probing_step (probing fun entry mem => alone entry (by simp [mem])) (alone entry (by simp)) taken
  obtain ⟨counted, answers, probing⟩ := invariant
  refine ⟨fun event s' taken => opens_step counted taken, fun call result isResult => isResult ▸ answers call, ?_⟩
  intro alone
  exact ⟨(probing alone).spaced, fun event s' taken => closes_step (probing alone) taken⟩

/-- Two failures open the circuit at time 3. A call within the timeout uses the fallback; the call at time 8 tries the
primary alone, and its success closes the circuit. -/
theorem circuit_recovers_after_probe : ∃ entries, ∃ s s' : Executor Unit Unit, Run ⟨2, 5⟩ entries s ∧
    entries.map Prod.snd = [(0, 0, .read), (1, 0, .primary (.error ())), (1, 0, .record), (2, 1, .read),
      (2, 1, .primary (.error ())), (3, 1, .record), (4, 2, .read), (8, 3, .read), (8, 3, .write),
        (9, 3, .primary (.ok ()))] ∧
    s.breaker.state = .halfOpen ∧ s.starts = [8, 3] ∧ Spaced ⟨2, 5⟩ s.starts ∧
    step ⟨2, 5⟩ s (9, 3, .record) = some s' ∧ s'.breaker.state = .closed ∧
    ∃ start value since, s.calls 3 = .succeeded start value ∧ s.breaker.openedAt = some since ∧ since + 5 ≤ start := by
  have run : Run ⟨2, 5⟩ [(_, 0, 0, .read), (_, 1, 0, .primary (.error ())), (_, 1, 0, .record), (_, 2, 1, .read),
      (_, 2, 1, .primary (.error ())), (_, 3, 1, .record), (_, 4, 2, .read), (_, 8, 3, .read), (_, 8, 3, .write),
      (_, 9, 3, .primary (.ok ()))] (_ : Executor Unit Unit) :=
    .cons ⟨rfl, rfl⟩ (.cons ⟨rfl, rfl⟩ (.cons ⟨rfl, rfl⟩ (.cons ⟨rfl, rfl⟩ (.cons ⟨rfl, rfl⟩ (.cons ⟨rfl, rfl⟩
      (.cons ⟨rfl, rfl⟩ (.cons ⟨rfl, rfl⟩ (.cons ⟨rfl, rfl⟩ (.single ⟨rfl, rfl⟩)))))))))
  obtain ⟨spaced, closes⟩ := (circuit_recovers run).2.2 (by
    simp only [List.forall_mem_cons]
    refine ⟨fun _ isOpen => absurd rfl isOpen, nofun, nofun, fun _ isOpen => absurd rfl isOpen, nofun, nofun,
      fun _ _ primary => absurd rfl primary, fun _ _ _ other => ?_, nofun, nofun, nofun⟩
    -- the three earlier calls are in or behind the fallback
    simp only [Executor.put, Executor.start, Function.update_apply]
    split_ifs <;> simp [Phase.InFlight, Phase.started, new])
  exact ⟨_, _, _, run, rfl, rfl, rfl, spaced, rfl, rfl, (closes (9, 3, .record) _ rfl nofun rfl).2⟩

/-- One failure opens the circuit, and two calls read before either writes: both start a primary request. A call from
before the opening then succeeds and closes the circuit. -/
theorem circuit_floods : ∃ s₁ s₂ s₃ : Executor Unit Unit,
    let config : Config := ⟨1, 5⟩
    let run := fun events s => events.foldlM (step config) s
    run [(0, 0, .read), (0, 1, .read), (0, 1, .primary (.error ())), (0, 1, .record), (5, 2, .read), (5, 3, .read),
      (5, 2, .write), (5, 3, .write)] new = some s₁ ∧ ¬Spaced config s₁.starts ∧
    run [(5, 0, .primary (.ok ()))] s₁ = some s₂ ∧ s₂.breaker.state = .halfOpen ∧ s₂.calls 0 = .succeeded 0 () ∧
    step config s₂ (5, 0, .record) = some s₃ ∧ s₃.breaker.state = .closed := by
  refine ⟨_, _, _, rfl, ?_, rfl, rfl, rfl, rfl, rfl⟩
  exact (by simp [Spaced] : ¬Spaced ⟨1, 5⟩ [5, 5, 0])

end MonadBft.CircuitBreaker
