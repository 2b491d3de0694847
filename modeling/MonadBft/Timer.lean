import Mathlib.Data.List.Basic
import MonadBft.Lib.Outcome

/-! # The timers of the executor

`TokioTimer::exec` spawns and aborts sleep tasks, which finish at any time, and `poll_next` collects those that
finished. To abort a task does not take back the result of one that has finished, and the flag that tells `exec` to wake
the poller is cleared by every `ScheduleReset`.
-/

namespace MonadBft

open Function

inductive TimerCommand (V E : Type) where
  | schedule (variant : V) (onTimeout : E)
  | scheduleReset (variant : V)

/-- A sleep task in the join set; it is absent before it is spawned and after it was collected. -/
inductive SleepTask (E : Type) where
  | absent
  | running (event : E)
  | aborted
  | finished (event : E)
  | cancelled

/-- The timers, with all commands run so far. A task has the number of the command that spawned it, a waker that of its
poll. `batch` is the call of `exec` under way: the commands left, those run, and its flag; `pending` is the waker of the
last poll if it returned `Pending`. -/
structure TokioTimer (V E : Type) where
  timers : Nat → SleepTask E
  aborts : V → Option Nat
  waker : Option Nat
  batch : Option (List (TimerCommand V E) × List (TimerCommand V E) × Bool)
  log : List (TimerCommand V E)
  polls : Nat
  pending : Option Nat
  returned : List Nat
  woken : List Nat

/-- `collects` are the results that `poll_join_next` gives in one poll. -/
inductive TimerAction (V E : Type) where
  | exec (commands : List (TimerCommand V E))
  | command
  | wake
  | finish (task : Nat)
  | poll (collects : List Nat)

variable {V E : Type}

def TimerCommand.variant : TimerCommand V E → V
  | .schedule variant _ | .scheduleReset variant => variant

def TimerCommand.isSchedule : TimerCommand V E → Bool
  | .schedule _ _ => true
  | .scheduleReset _ => false

/-- A task that has finished keeps its result. -/
def SleepTask.abort : SleepTask E → SleepTask E
  | .running _ => .aborted
  | task => task

namespace TokioTimer

def new : TokioTimer V E := ⟨fun _ => .absent, fun _ => none, none, none, [], 0, none, [], []⟩

def collect (timers : Nat → SleepTask E) : List Nat → Option (Option (Nat × E) × (Nat → SleepTask E))
  | [] => some (none, timers)
  | task :: rest =>
    match timers task with
    | .cancelled => collect (update timers task .absent) rest
    | .finished event => some (some (task, event), update timers task .absent)
    | _ => none

def pollNext (s : TokioTimer V E) (collects : List Nat) : Option (Option (Nat × E) × TokioTimer V E) :=
  match collect s.timers collects with
  | some (some (task, event), timers) => some (some (task, event),
      { s with timers, polls := s.polls + 1, pending := none, returned := task :: s.returned })
  | some (none, timers) => some (none,
      { s with timers, waker := some s.polls, polls := s.polls + 1, pending := some s.polls })
  | none => none

/-- A later command replaced or cancelled the timer. -/
def Superseded (log : List (TimerCommand V E)) (task : Nat) : Prop :=
  ∃ command ∈ log.drop (task + 1), log[task]?.map TimerCommand.variant = some command.variant

/-- A command does not find a timer of its variant that has finished and is not collected. -/
def Prompt (s : TokioTimer V E) (action : TimerAction V E) : Prop :=
  ∀ command rest run, action = .command → s.batch = some (command :: rest, run) →
    ∀ task event, s.timers task = .finished event → s.log[task]?.map TimerCommand.variant ≠ some command.variant

def EndsInSchedule (commands : List (TimerCommand V E)) : Prop := commands.getLast?.any TimerCommand.isSchedule = true

structure Invariant (s : TokioTimer V E) : Prop where
  fresh : ∀ task, s.log.length ≤ task → s.timers task = .absent
  gone : ∀ task ∈ s.returned, task < s.log.length ∧ s.timers task = .absent
  live : ∀ task event, s.timers task = .running event → ∃ variant, s.log[task]? = some (.schedule variant event) ∧
    s.aborts variant = some task ∧ ¬Superseded s.log task
  scheduled : ∀ task event, s.timers task = .finished event → ∃ variant, s.log[task]? = some (.schedule variant event)
  waiting : ∀ waker, s.pending = some waker → s.waker = some waker ∨ waker ∈ s.woken
  flag : ∀ rest run wake, s.batch = some (rest, run, wake) → (wake = true ↔ EndsInSchedule run)

variable {s s' : TokioTimer V E} {action : TimerAction V E} {log : List (TimerCommand V E)} {c : TimerCommand V E}
  {task : Nat} {event : E}

theorem superseded_append (spawned : task < log.length) : Superseded (log ++ [c]) task ↔
    Superseded log task ∨ log[task]?.map TimerCommand.variant = some c.variant := by
  simp only [Superseded, List.getElem?_append_left spawned, List.drop_append_of_le_length spawned, List.mem_append,
    List.mem_singleton, or_and_right, exists_or, exists_eq_left]

/-- Polls collect results and change no task that is left. -/
theorem collect_eq_some {timers timers' : Nat → SleepTask E} {collects : List Nat} {result : Option (Nat × E)}
    (collected : collect timers collects = some (result, timers')) :
    (∀ task, timers' task = timers task ∨ timers' task = .absent) ∧
      ∀ task event, result = some (task, event) → timers task = .finished event ∧ timers' task = .absent := by
  induction collects generalizing timers with
  | nil =>
    cases collected
    simp
  | cons first rest ih =>
    rw [collect] at collected
    split at collected
    case h_1 => grind [update_apply]
    case h_2 =>
      cases collected
      grind [update_apply]
    case h_3 => cases collected

/-- Tasks finish or are collected, and none is spawned or aborted. -/
def Advances (before after : Nat → SleepTask E) : Prop :=
  ∀ task, after task = before task ∨ after task = .absent ∨ (after task = .cancelled ∧ before task = .aborted) ∨
    ∃ event, after task = .finished event ∧ before task = .running event

theorem Invariant.advance (inv : Invariant s) {timers : Nat → SleepTask E} (advances : Advances s.timers timers) :
    Invariant { s with timers } ∧ ((∀ task event, s.timers task = .finished event → ¬Superseded s.log task) →
      ∀ task event, timers task = .finished event → ¬Superseded s.log task) := by
  have absent : ∀ task, s.timers task = .absent → timers task = .absent := by grind [Advances]
  have running : ∀ task event, timers task = .running event → s.timers task = .running event := by grind [Advances]
  have finished : ∀ task event, timers task = .finished event →
      s.timers task = .finished event ∨ s.timers task = .running event := by grind [Advances]
  refine ⟨⟨fun task above => absent task (inv.fresh task above), fun task mem => ?_, fun task event isRunning => ?_,
    fun task event isFinished => ?_, inv.waiting, inv.flag⟩, fun settled task event isFinished => ?_⟩
  · obtain ⟨spawned, isAbsent⟩ := inv.gone task mem
    exact ⟨spawned, absent task isAbsent⟩
  · exact inv.live task event (running task event isRunning)
  · obtain isFinished | isRunning := finished task event isFinished
    · exact inv.scheduled task event isFinished
    · obtain ⟨variant, isScheduled, -⟩ := inv.live task event isRunning
      exact ⟨variant, isScheduled⟩
  · obtain isFinished | isRunning := finished task event isFinished
    · exact settled task event isFinished
    · obtain ⟨-, -, -, isLive⟩ := inv.live task event isRunning
      exact isLive

def abort (s : TokioTimer V E) (variant : V) (task : Nat) : SleepTask E :=
  if s.aborts variant = some task then (s.timers task).abort else s.timers task

theorem abort_cases (s : TokioTimer V E) (variant : V) (task : Nat) :
    s.abort variant task = s.timers task ∧ (∀ event, s.timers task = .running event → s.aborts variant ≠ some task) ∨
    s.abort variant task = .aborted ∧ ∃ event, s.timers task = .running event := by
  rw [abort]
  split
  case isTrue =>
    cases s.timers task with
    | running event => exact .inr ⟨rfl, event, rfl⟩
    | _ => exact .inl ⟨rfl, nofun⟩
  case isFalse other => exact .inl ⟨rfl, fun _ _ => other⟩

variable [DecidableEq V]

def command (s : TokioTimer V E) : TimerCommand V E → TokioTimer V E
  | .schedule variant onTimeout =>
    { s with
      timers := update (s.abort variant) s.log.length (.running onTimeout)
      aborts := update s.aborts variant (some s.log.length) }
  | .scheduleReset variant => { s with timers := s.abort variant, aborts := update s.aborts variant none }

/-- Tasks finish at any time; a poll and the commands of a batch exclude each other. -/
def step (s : TokioTimer V E) (action : TimerAction V E) : Option (TokioTimer V E) :=
  match action, s.batch with
  | .exec commands, none => some { s with batch := some (commands, [], false) }
  | .command, some (command :: rest, run, _) => some
      { s.command command with batch := some (rest, run ++ [command], command.isSchedule), log := s.log ++ [command] }
  | .wake, some ([], _, true) => some { s with batch := none, waker := none, woken := s.waker.toList ++ s.woken }
  | .wake, some ([], _, false) => some { s with batch := none }
  | .finish task, _ =>
    match s.timers task with
    | .running event => some { s with timers := update s.timers task (.finished event) }
    | .aborted => some { s with timers := update s.timers task .cancelled }
    | _ => none
  | .poll collects, none => (s.pollNext collects).map Prod.snd
  | _, _ => none

def Run : List (TokioTimer V E × TimerAction V E) → TokioTimer V E → Prop :=
  Trace (Trace.Recorded fun s action s' => step s action = some s') new

/-- A command leaves a task as it is, aborts it or spawns it. -/
theorem timers_command (s : TokioTimer V E) (c : TimerCommand V E) (task : Nat) :
    (s.command c).timers task = s.timers task ∧ (∀ event, s.timers task = .running event →
      s.aborts c.variant ≠ some task) ∨
    (s.command c).timers task = .aborted ∧ (∃ event, s.timers task = .running event) ∨
    task = s.log.length ∧ ∃ variant event, c = .schedule variant event ∧
      (s.command c).timers task = .running event := by
  cases c with
  | schedule variant onTimeout =>
    by_cases spawned : task = s.log.length
    · exact .inr (.inr ⟨spawned, variant, onTimeout, rfl, spawned ▸ update_self ..⟩)
    · have same : (s.command (.schedule variant onTimeout)).timers task = s.abort variant task :=
        update_of_ne spawned ..
      rw [same]
      exact (abort_cases s variant task).imp_right .inl
  | scheduleReset variant => exact (abort_cases s variant task).imp_right .inl

theorem step_spec (inv : Invariant s) (taken : step s action = some s') : Invariant s' ∧
    ((∀ task event, s.timers task = .finished event → ¬Superseded s.log task) → Prompt s action →
      ∀ task event, s'.timers task = .finished event → ¬Superseded s'.log task) := by
  have advance := @Invariant.advance _ _ s inv
  obtain ⟨fresh, gone, live, scheduled, waiting, flag⟩ := inv
  unfold step at taken
  split at taken
  case h_1 =>
    cases taken
    exact ⟨⟨fresh, gone, live, scheduled, waiting, by simp [EndsInSchedule]⟩, fun settled _ => settled⟩
  case h_2 command rest run _ isBatch =>
    -- a command aborts at most the task of its variant
    cases taken
    have spec := timers_command s command
    have aborts : ∀ variant, variant ≠ command.variant → (s.command command).aborts variant = s.aborts variant := by
      cases command <;> exact fun variant other => update_of_ne other ..
    have frame : (s.command command).returned = s.returned ∧ (s.command command).pending = s.pending ∧
        (s.command command).waker = s.waker ∧ (s.command command).woken = s.woken := by cases command <;>
          simp [TokioTimer.command]
    have finishes : ∀ task event, (s.command command).timers task = .finished event →
      s.timers task = .finished event := by
      grind
    have absent : ∀ task, s.timers task = .absent → task ≠ s.log.length →
      (s.command command).timers task = .absent := by
      grind
    refine ⟨⟨fun task above => ?_, fun task mem => ?_, fun task event isRunning => ?_, fun task event finished => ?_,
      ?_, by simp [EndsInSchedule]⟩, fun settled prompt task event finished => ?_⟩
    · rw [List.length_append, List.length_singleton] at above
      exact absent task (fresh task (by omega)) (by omega)
    · obtain ⟨spawned, isAbsent⟩ := gone task (frame.1 ▸ mem)
      refine ⟨?_, absent task isAbsent (by omega)⟩
      rw [List.length_append]
      omega
    · obtain ⟨same, kept⟩ | ⟨aborted, -⟩ | ⟨rfl, variant, event', rfl, same⟩ := spec task
      · have isRunning := same.symm.trans isRunning
        obtain ⟨variant, isScheduled, handle, isLive⟩ := live task event isRunning
        have spawned := (List.getElem?_eq_some_iff.mp isScheduled).1
        have other : variant ≠ command.variant := fun same => kept event isRunning (same ▸ handle)
        refine ⟨variant, by rw [List.getElem?_append_left spawned, isScheduled], (aborts variant other).trans handle,
          ?_⟩
        rw [superseded_append spawned, isScheduled, not_or]
        exact ⟨isLive, fun same => other (Option.some.inj same)⟩
      · cases aborted.symm.trans isRunning
      · obtain rfl := SleepTask.running.inj (same.symm.trans isRunning)
        exact ⟨variant, by simp, update_self .., by simp [Superseded]⟩
    · obtain ⟨variant, isScheduled⟩ := scheduled task event (finishes task event finished)
      exact ⟨variant, by rw [List.getElem?_append_left (List.getElem?_eq_some_iff.mp isScheduled).1, isScheduled]⟩
    · obtain ⟨-, pending, waker, woken⟩ := frame
      rw [pending, waker, woken]
      exact waiting
    · have before := finishes task event finished
      obtain ⟨variant, isScheduled⟩ := scheduled task event before
      rw [superseded_append (List.getElem?_eq_some_iff.mp isScheduled).1, not_or]
      exact ⟨settled task event before, prompt command rest _ rfl isBatch task event before⟩
  case h_3 =>
    cases taken
    refine ⟨⟨fresh, gone, live, scheduled, fun waker pending => .inr ?_, by simp⟩, fun settled _ => settled⟩
    obtain held | woken := waiting waker pending <;> simp [*]
  case h_4 =>
    cases taken
    exact ⟨⟨fresh, gone, live, scheduled, waiting, by simp⟩, fun settled _ => settled⟩
  case h_5 first =>
    have changes (state : SleepTask E) (here : (state = .cancelled ∧ s.timers first = .aborted) ∨
        ∃ event, state = .finished event ∧ s.timers first = .running event) :
        Advances s.timers (update s.timers first state) := by
      intro task
      by_cases same : task = first
      · rw [same, update_self]
        exact .inr (.inr here)
      · exact .inl (update_of_ne same ..)
    split at taken
    case h_1 event running =>
      cases taken
      obtain ⟨inv, settled⟩ := advance (changes (.finished event) (.inr ⟨event, rfl, running⟩))
      exact ⟨inv, fun before _ => settled before⟩
    case h_2 aborted =>
      cases taken
      obtain ⟨inv, settled⟩ := advance (changes .cancelled (.inl ⟨rfl, aborted⟩))
      exact ⟨inv, fun before _ => settled before⟩
    case h_3 => cases taken
  case h_6 collects _ =>
    obtain ⟨⟨result, after⟩, polled, rfl⟩ := Option.map_eq_some_iff.mp taken
    unfold pollNext at polled
    split at polled
    case h_1 task event timers collected =>
      cases polled
      obtain ⟨kept, isFinished⟩ := collect_eq_some collected
      obtain ⟨finished, absent⟩ := isFinished task event rfl
      obtain ⟨inv, settled⟩ := advance fun task => (kept task).imp_right .inl
      obtain ⟨variant, isScheduled⟩ := scheduled task event finished
      refine ⟨⟨inv.fresh, ?_, inv.live, inv.scheduled, by simp, flag⟩, fun before _ => settled before⟩
      exact List.forall_mem_cons.mpr ⟨⟨(List.getElem?_eq_some_iff.mp isScheduled).1, absent⟩, inv.gone⟩
    case h_2 collected =>
      cases polled
      obtain ⟨inv, settled⟩ := advance fun task => ((collect_eq_some collected).1 task).imp_right .inl
      exact ⟨⟨inv.fresh, inv.gone, inv.live, inv.scheduled, by simp, flag⟩, fun before _ => settled before⟩
    case h_3 => cases polled
  case h_7 => cases taken

/-- A poll returns a scheduled timer that no poll returned before; unless a command came too late, it was neither
replaced nor cancelled. At the end of a batch the waker of a pending poll has been woken if it was before or the batch
ends in a `Schedule`, and otherwise it has not. -/
theorem timers_fire_once {entries : List (TokioTimer V E × TimerAction V E)} (run : Run entries s) :
    (∀ collects task event s', s.batch = none → s.pollNext collects = some (some (task, event), s') →
      (∃ variant, s.log[task]? = some (.schedule variant event)) ∧ task ∉ s.returned ∧
      ((∀ entry ∈ entries, Prompt entry.1 entry.2) → ¬Superseded s.log task)) ∧
    ∀ run wake waker s', s.batch = some ([], run, wake) → s.pending = some waker → step s .wake = some s' →
      (waker ∈ s'.woken ↔ waker ∈ s.woken ∨ EndsInSchedule run) := by
  have invariant : Invariant s ∧ ((∀ entry ∈ entries, Prompt entry.1 entry.2) →
      ∀ task event, s.timers task = .finished event → ¬Superseded s.log task) := by
    induction run with
    | nil => exact ⟨by constructor <;> simp [new], by simp [new]⟩
    | @snoc entries _ after entry _ taken ih =>
      obtain ⟨inv, settled⟩ := ih
      obtain ⟨rfl, taken⟩ := taken
      obtain ⟨inv', settled'⟩ := step_spec inv taken
      exact ⟨inv', fun prompt => settled' (settled fun entry mem => prompt entry (by simp [mem]))
        (prompt entry (by simp))⟩
  obtain ⟨inv, settled⟩ := invariant
  refine ⟨fun collects task event s' _ polled => ?_, fun run wake waker s' isBatch pending taken => ?_⟩
  · unfold pollNext at polled
    split at polled <;> cases polled
    case h_1 collected =>
      obtain ⟨-, result⟩ := collect_eq_some collected
      obtain ⟨isFinished, -⟩ := result task event rfl
      refine ⟨inv.scheduled task event isFinished, fun again => ?_, fun prompt => settled prompt task event isFinished⟩
      cases isFinished.symm.trans (inv.gone task again).2
  · have flag := inv.flag _ _ _ isBatch
    have held := inv.waiting waker pending
    cases wake <;> simp only [step, isBatch, Option.some.injEq] at taken <;> subst taken <;> grind

/-- A timer is replaced while a poll waits: the waker of the poll is woken, and the next poll returns the new timer. -/
theorem timers_fire_once_replaced : ∃ before after, ∃ s s' t t' : TokioTimer Bool Nat, Run before s ∧
    s.pending = some 0 ∧ step s .wake = some s' ∧ 0 ∈ s'.woken ∧ Run (before ++ after) t ∧ Superseded t.log 0 ∧
    t.pollNext [0, 1] = some (some (1, 8), t') ∧ 1 ∉ t.returned ∧ ¬Superseded t.log 1 := by
  have run : Run [(_, .exec [.schedule true 7]), (_, .command), (_, .wake), (_, .poll []),
      (_, .exec [.schedule true 8]), (_, .command)] (_ : TokioTimer Bool Nat) :=
    .cons ⟨rfl, rfl⟩ (.cons ⟨rfl, rfl⟩ (.cons ⟨rfl, rfl⟩ (.cons ⟨rfl, rfl⟩ (.cons ⟨rfl, rfl⟩ (.single ⟨rfl, rfl⟩)))))
  have run' : Run (_ ++ [(_, .wake), (_, .finish 0), (_, .finish 1)]) (_ : TokioTimer Bool Nat) :=
    run.append (.cons ⟨rfl, rfl⟩ (.cons ⟨rfl, rfl⟩ (.single ⟨rfl, rfl⟩)))
  have woken := ((timers_fire_once run).2 _ _ 0 _ rfl rfl rfl).mpr (.inr rfl)
  obtain ⟨-, fresh, kept⟩ := (timers_fire_once run').1 [0, 1] 1 8 _ rfl rfl
  refine ⟨_, _, _, _, _, _, run, rfl, rfl, woken, run', ⟨.schedule true 8, .head _, rfl⟩, rfl, fresh, kept ?_⟩
  -- at the second command the first timer has not finished
  simp [Prompt, new, TokioTimer.command, abort, update_apply, SleepTask.abort]
  grind

/-- A timer that finished before it was cancelled is returned, and a pending poll is not woken by a batch that schedules
a timer and cancels another one. -/
theorem timers_misfire : ∃ s₁ s₂ : TokioTimer Bool Unit,
    [.exec [.schedule true ()], .command, .wake, .finish 0, .exec [.scheduleReset true], .command,
      .wake].foldlM step new =
      some s₁ ∧ (∃ s, s₁.pollNext [0] = some (some (0, ()), s)) ∧ Superseded s₁.log 0 ∧
    [.poll [], .exec [.schedule true (), .scheduleReset false], .command, .command, .wake].foldlM step new = some s₂ ∧
      s₂.pending = some 0 ∧ s₂.woken = [] ∧ s₂.timers 0 = .running () ∧ ¬Superseded s₂.log 0 := by
  refine ⟨_, _, rfl, ⟨_, rfl⟩, ⟨.scheduleReset true, .head _, rfl⟩, rfl, rfl, rfl, rfl, ?_⟩
  rintro ⟨_, _ | ⟨_, ⟨⟩⟩, same⟩
  cases same

end TokioTimer

end MonadBft
