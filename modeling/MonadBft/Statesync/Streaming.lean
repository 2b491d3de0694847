import MonadBft.Statesync.Server

/-! # Sessions of the server

A session starts when a request is written to execution and ends with its `SyncDone`. One session is
served at a time; its responses go to the peer that asked, under one nonce and numbered from zero, and
carry what execution produced. A request that is not served is pending, or was dropped for a reason.
-/

namespace MonadBft.StreamState

open List Option

variable {s s' : StreamState} {poll : ServerPoll} {commands : List ServerCommand} {w : WipResponse}

abbrev History := List (StreamState × ServerHandled)

/-! ## What an iteration shows -/

/-- A response that was offered to the outbound channel. -/
structure Sent where
  recipient : NodeId
  response : StateSyncResponse
  room : Bool
deriving DecidableEq

def ServerCommand.sent? : ServerCommand → Option Sent
  | .writeResponse recipient response room => some ⟨recipient, response, room⟩
  | _ => none

def sent (commands : List ServerCommand) : List Sent := commands.filterMap ServerCommand.sent?

def sends (history : History) : List Sent := history.flatMap fun e => sent e.2.commands

def upserts : ServerEvent → List StateSyncUpsert
  | .execution (.syncUpsert upsertType data) => [⟨upsertType, data⟩]
  | _ => []

def produced (history : History) : List StateSyncUpsert := history.flatMap fun e => upserts e.2.poll.event

def IsDone (event : ServerEvent) : Prop := ∃ done, event = .execution (.syncDone done)

/-- A send failed, or the client did not acknowledge in time. -/
def Fails (e : StreamState × ServerHandled) : Prop :=
  e.2.poll.event = .tcpCompletion false ∨ e.2.poll.event = .clientTimeout ∨
    ∃ send ∈ sent e.2.commands, send.room = false

def Acknowledges (peer : NodeId) (nonce : Nat) (event : ServerEvent) : Prop :=
  event = .message peer (.completion nonce)

instance (peer : NodeId) (nonce : Nat) (event : ServerEvent) : Decidable (Acknowledges peer nonce event) :=
  inferInstanceAs (Decidable (_ = _))

def unacknowledged (peer : NodeId) (nonce : Nat) (history : History) : Nat :=
  history.foldl (fun n e => (if Acknowledges peer nonce e.2.poll.event then n - 1 else n) +
    (sent e.2.commands).length) 0

/-- The session of a pending request starts. -/
def Opens (e : StreamState × ServerHandled) (request : PendingRequest) : Prop :=
  e.2.after.wipResponse = some (.new e.2.poll.now e.2.poll.nonce request) ∧
    .writeExecutionRequest request.request.syncRequest ∈ e.2.commands

@[simp] theorem sends_append (h h' : History) : sends (h ++ h') = sends h ++ sends h' := flatMap_append

@[simp] theorem produced_append (h h' : History) : produced (h ++ h') = produced h ++ produced h' := flatMap_append

/-! ## One iteration of a session -/

/-- What an event does to the response in progress before a batch is sent. -/
structure Touched (event : ServerEvent) (w w' : WipResponse) : Prop where
  sender : w'.sender = w.sender
  response : w'.response = { w.response with response := w.response.response ++ upserts event }
  unacknowledged : w'.unacknowledgedResponses =
    if Acknowledges w.sender w.response.nonce event then w.unacknowledgedResponses - 1 else w.unacknowledgedResponses
  failed : w.pendingResponseCompletions = none → w'.pendingResponseCompletions = none
  sound : w.pendingResponseCompletions.isSome → event ≠ .tcpCompletion false → event ≠ .clientTimeout →
    w'.pendingResponseCompletions.isSome

theorem Touched.refl {event : ServerEvent} (silent : upserts event = [])
    (other : ¬Acknowledges w.sender w.response.nonce event) : Touched event w w where
  sender := rfl
  response := by rw [silent, append_nil]
  unacknowledged := (if_neg other).symm
  failed := id
  sound sound _ _ := sound

/-- A batch, or none. -/
inductive Batches (poll : ServerPoll) (w : WipResponse) : WipResponse → List ServerCommand → Prop where
  | none (commands : List ServerCommand) (silent : sent commands = []) : Batches poll w w commands
  | sent (pending : List Nat) (awaits : w.pendingResponseCompletions = some pending) (can : w.canSend) :
      Batches poll w
        { w.nextBatch poll.now with
          unacknowledgedResponses := w.unacknowledgedResponses + 1
          pendingResponseCompletions := some (pending ++ [w.response.responseIndex]) }
        [.writeResponse w.sender w.response poll.room]
  | dropped (failed : w.pendingResponseCompletions = Option.none) : Batches poll w (w.nextBatch poll.now) []

variable (serving : s.wipResponse = some w)

include serving

theorem sendBatch_batches (can : w.canSend) (returns : sendBatch poll s = .ok s' commands) :
    ∃ w', s' = { s with wipResponse := some w' } ∧ Batches poll w w' commands := by
  rw [sendBatch, serving] at returns
  dsimp only at returns
  split at returns
  next pending awaits =>
    cases returns
    exact ⟨_, rfl, .sent pending awaits can⟩
  next failed =>
    cases returns
    exact ⟨_, rfl, .dropped failed⟩

theorem maybeSendBatch_batches (returns : maybeSendBatch poll s = .ok s' commands) :
    ∃ w', s' = { s with wipResponse := some w' } ∧ Batches poll w w' commands := by
  rw [maybeSendBatch, serving] at returns
  dsimp only at returns
  split at returns
  next full =>
    rw [Bool.and_eq_true] at full
    exact sendBatch_batches serving full.2 returns
  next =>
    cases returns
    exact ⟨w, by rw [← serving], .none [] rfl⟩

variable {sender : NodeId} {request : PendingRequest} {nonce now requestTimeout : Nat} {during history : History}
  {done : SyncDone}

theorem handleRequest_serving {request : StateSyncRequest}
    (returns : handleRequest poll sender request s = .ok s' commands) :
    s'.wipResponse = some w ∧ sent commands = [] := by
  rw [handleRequest] at returns
  split at returns
  · cases returns
    exact ⟨serving, rfl⟩
  · dsimp only at returns
    split at returns
    · cases returns
      exact ⟨serving, rfl⟩
    · rw [tryQueueResponse, if_pos (by simp [serving])] at returns
      cases returns
      exact ⟨serving, rfl⟩

/-- An iteration within a session: the event reaches the response in progress, and a batch may follow. -/
theorem handle_serving (ready : s.Ready poll) (goesOn : ¬IsDone poll.event)
    (returns : s.handle poll = .ok s' commands) :
    ∃ w₁ w', Touched poll.event w w₁ ∧ Batches poll w₁ w' commands ∧ s'.wipResponse = some w' := by
  rw [handle] at returns
  cases event : poll.event with
  | execution message =>
    simp only [event] at returns
    cases message with
    | syncRequest request => cases returns
    | syncDone done => exact absurd ⟨done, event⟩ goesOn
    | syncUpsert upsertType data =>
      rw [handleExecutionMessage, serving] at returns
      obtain ⟨w', rfl, batches⟩ := maybeSendBatch_batches rfl returns
      refine ⟨_, w', ?_, batches, rfl⟩
      exact ⟨rfl, rfl, (if_neg (by simp [Acknowledges])).symm, id, fun sound _ _ => sound⟩
  | message sender message =>
    simp only [event] at returns
    cases message with
    | request request =>
      obtain ⟨same, silent⟩ := handleRequest_serving serving returns
      exact ⟨w, w, .refl rfl (by simp [Acknowledges]), .none commands silent, same⟩
    | completion sessionId =>
      rw [handleMessage, handleCompletion, serving] at returns
      obtain ⟨w', rfl, batches⟩ := maybeSendBatch_batches rfl returns
      refine ⟨_, w', ?_, batches, rfl⟩
      have same : Acknowledges w.sender w.response.nonce (.message sender (.completion sessionId)) ↔
          w.sender = sender ∧ w.response.nonce = sessionId := by
        simp [Acknowledges, eq_comm]
      exact ⟨rfl, by simp [upserts], by simp only [same], id, fun sound _ _ => sound⟩
    | response response =>
      cases returns
      exact ⟨w, w, .refl rfl (by simp [Acknowledges]), .none [] rfl, serving⟩
    | badVersion badVersion =>
      cases returns
      exact ⟨w, w, .refl rfl (by simp [Acknowledges]), .none [] rfl, serving⟩
  | tcpCompletion delivered =>
    simp only [event, handleTcpCompletion, serving] at returns
    obtain ⟨w', rfl, batches⟩ := maybeSendBatch_batches rfl returns
    refine ⟨_, w', ?_, batches, rfl⟩
    refine ⟨rfl, by simp [upserts], (if_neg (by simp [Acknowledges])).symm, ?_, ?_⟩
    · intro failed
      cases delivered <;> simp [failed]
    · intro sound fine _
      cases delivered with
      | false => exact absurd rfl fine
      | true => simpa using sound
  | timeout =>
    simp only [event] at returns
    have can : w.canSend := by
      rw [Ready, event] at ready
      obtain ⟨w', serving', can, -⟩ := ready
      cases serving.symm.trans serving'
      exact can
    obtain ⟨w', rfl, batches⟩ := sendBatch_batches serving can returns
    exact ⟨w, w', .refl rfl (by simp [Acknowledges]), batches, rfl⟩
  | clientTimeout =>
    simp only [event] at returns
    cases returns
    refine ⟨{ w with pendingResponseCompletions := none }, _, ?_, .none [] rfl, by rw [serving]; rfl⟩
    exact ⟨rfl, by simp [upserts], (if_neg (by simp [Acknowledges])).symm, fun _ => rfl,
      fun _ _ fine => absurd rfl fine⟩

omit serving

/-! ## Sessions -/

def sessionResponse (request : PendingRequest) (nonce index : Nat) (upserts : List StateSyncUpsert) (n : Nat) :
    StateSyncResponse where
  version := request.request.version
  nonce := nonce
  responseIndex := index
  request := request.request
  response := upserts
  responseN := n

/-- The response in progress after the iterations of a session. -/
structure InProgress (request : PendingRequest) (nonce : Nat) (during : History) (w : WipResponse) : Prop where
  sender : w.sender = request.sender
  response : w.response = sessionResponse request nonce w.response.responseIndex w.response.response 0
  responses : ∀ i send, (sends during)[i]? = some send →
    send.recipient = request.sender ∧ send.response = sessionResponse request nonce i send.response.response 0
  index : w.pendingResponseCompletions.isSome → w.response.responseIndex = (sends during).length
  faithful : (∀ e ∈ during, ¬Fails e) → w.pendingResponseCompletions.isSome ∧
    ((sends during).flatMap fun send => send.response.response) ++ w.response.response = produced during
  counted : w.unacknowledgedResponses = unacknowledged request.sender nonce during
  window : .v2 ≤ request.request.version → w.unacknowledgedResponses ≤ maxUnacknowledgedResponses

theorem inProgress_new (now nonce : Nat) (request : PendingRequest) : InProgress request nonce []
    (.new now nonce request) where
  sender := rfl
  response := rfl
  responses := nofun
  index _ := rfl
  faithful _ := ⟨rfl, rfl⟩
  counted := rfl
  window _ := Nat.zero_le _

theorem InProgress.step {w₁ w' : WipResponse} {t after : StreamState} (inv : InProgress request nonce during w)
    (touched : Touched poll.event w w₁) (batches : Batches poll w₁ w' commands) :
    InProgress request nonce (during ++ [(t, ⟨poll, commands, after⟩)]) w' := by
  have nonce_eq : w.response.nonce = nonce := by rw [inv.response]; rfl
  have one : sends [(t, ⟨poll, commands, after⟩)] = sent commands := by simp [sends]
  have more : produced [(t, ⟨poll, commands, after⟩)] = upserts poll.event := by simp [produced]
  have stillSound : w₁.pendingResponseCompletions.isSome → w.pendingResponseCompletions.isSome := by
    intro awaits
    by_contra failed
    rw [touched.failed (by simpa using failed)] at awaits
    cases awaits
  -- the invariant between the event and the batch
  have response₁ : w₁.response = sessionResponse request nonce w.response.responseIndex w₁.response.response 0 := by
    rw [touched.response, inv.response]
    rfl
  have next : (w₁.nextBatch poll.now).response = sessionResponse request nonce (w₁.response.responseIndex + 1)
    [] 0 := by
    simp only [WipResponse.nextBatch]
    rw [response₁]
    rfl
  have index₁ : w₁.response.responseIndex = w.response.responseIndex := by rw [touched.response]
  have faithful₁ : (∀ e ∈ during ++ [(t, ⟨poll, commands, after⟩)], ¬Fails e) → w₁.pendingResponseCompletions.isSome ∧
      ((sends during).flatMap fun send => send.response.response) ++ w₁.response.response =
        produced (during ++ [(t, ⟨poll, commands, after⟩)]) := by
    intro fine
    obtain ⟨awaits, same⟩ := inv.faithful fun e mem => fine e (mem_append_left _ mem)
    have here := fine (t, ⟨poll, commands, after⟩) (by simp)
    refine ⟨touched.sound awaits (fun h => here (.inl h)) fun h => here (.inr (.inl h)), ?_⟩
    rw [produced_append, more, ← same, touched.response, append_assoc]
  have unacknowledged₁ : w₁.unacknowledgedResponses + (sent commands).length =
      unacknowledged request.sender nonce (during ++ [(t, ⟨poll, commands, after⟩)]) := by
    rw [unacknowledged, foldl_concat, touched.unacknowledged, inv.sender, nonce_eq, inv.counted]
    rfl
  have window₁ : .v2 ≤ request.request.version → w₁.unacknowledgedResponses ≤ maxUnacknowledgedResponses := by
    intro newer
    have before := inv.window newer
    rw [touched.unacknowledged]
    split <;> omega
  cases batches with
  | none _ silent =>
    rw [silent, length_nil, Nat.add_zero] at unacknowledged₁
    have same : sends (during ++ [(t, ⟨poll, commands, after⟩)]) = sends during := by
      rw [sends_append, one, silent, append_nil]
    exact {
      sender := touched.sender.trans inv.sender
      response := index₁ ▸ response₁
      responses := same ▸ inv.responses
      index := fun awaits => by rw [same, index₁, inv.index (stillSound awaits)]
      faithful := same ▸ faithful₁
      counted := unacknowledged₁
      window := window₁ }
  | sent pending awaits can =>
    have index := inv.index (stillSound (by rw [awaits]; rfl))
    have now : sends (during ++ [(t, ⟨poll, [.writeResponse w₁.sender w₁.response poll.room], after⟩)]) =
        sends during ++ [⟨w₁.sender, w₁.response, poll.room⟩] := by
      rw [sends_append, one]
      rfl
    exact {
      sender := touched.sender.trans inv.sender
      response := next
      responses := by
        intro i send found
        rw [now, getElem?_append] at found
        split at found
        · exact inv.responses i send found
        next past =>
          obtain ⟨here, rfl⟩ := List.getElem?_eq_some_iff.mp found
          have last : i = w.response.responseIndex := by
            rw [length_singleton] at here
            omega
          refine ⟨by simp [touched.sender, inv.sender], ?_⟩
          simp only [getElem_singleton]
          rw [last]
          exact response₁
      index := by
        intro _
        rw [now, length_append, ← index, ← index₁]
        rfl
      faithful := by
        intro fine
        refine ⟨rfl, ?_⟩
        rw [← (faithful₁ fine).2, now, flatMap_append]
        simp [WipResponse.nextBatch]
      counted := unacknowledged₁
      window := by
        intro newer
        have version : w₁.response.version = request.request.version := by rw [response₁]; rfl
        simp only [WipResponse.canSend, awaits, all_some, Bool.and_eq_true, Bool.or_eq_true, decide_eq_true_iff,
          version, not_lt.mpr newer, false_or] at can
        exact can.2 }
  | dropped failed =>
    have same : sends (during ++ [(t, ⟨poll, [], after⟩)]) = sends during := by
      rw [sends_append, one]
      exact append_nil _
    exact {
      sender := touched.sender.trans inv.sender
      response := next
      responses := same ▸ inv.responses
      index := by
        intro awaits
        change w₁.pendingResponseCompletions.isSome at awaits
        rw [failed] at awaits
        cases awaits
      faithful := by
        intro fine
        have awaits := (faithful₁ fine).1
        rw [failed] at awaits
        cases awaits
      counted := unacknowledged₁
      window := window₁ }

theorem inProgress_of_run {t u : StreamState} (run : Trace (Trace.Recorded Handles) t during u)
    (opened : t.wipResponse = some (.new now nonce request)) (goesOn : ∀ e ∈ during, ¬IsDone e.2.poll.event) :
    ∃ w, u.wipResponse = some w ∧ InProgress request nonce during w := by
  induction run with
  | nil => exact ⟨_, opened, inProgress_new now nonce request⟩
  | @snoc during u u' e _ taken ih =>
    obtain ⟨t', poll, commands, after⟩ := e
    obtain ⟨rfl, -, ready, returns⟩ := taken
    obtain ⟨w, serving, inv⟩ := ih fun e mem => goesOn e (mem_append_left _ mem)
    obtain ⟨w₁, w', touched, batches, serving'⟩ := handle_serving serving ready (goesOn _ (by simp)) returns
    exact ⟨w', serving', inv.step touched batches⟩

/-! ## Pending requests -/

/-- What an iteration does to the pending requests. -/
inductive Queues (poll : ServerPoll) (s : StreamState) (commands : List ServerCommand) (s' : StreamState) : Prop where
  | quiet (other : ∀ sender request, poll.event = .message sender (.request request) →
      request.version.isCompatible = false)
      (same : s'.pendingRequests = s.pendingRequests) (silent : ∀ q, .writeExecutionRequest q ∉ commands)
  | done (isDone : IsDone poll.event) (c₁ c₂ : List ServerCommand) (silent : ∀ q, .writeExecutionRequest q ∉ c₁)
      (queued : tryQueueResponse poll { s with wipResponse := none } = .ok s' c₂) (split : commands = c₁ ++ c₂)
  | duplicate (sender : NodeId) (request : StateSyncRequest) (event : poll.event = .message sender (.request request))
      (compatible : request.version.isCompatible) (served : s.wipResponse.any fun w => w.response.request = request)
      (same : s'.pendingRequests = s.pendingRequests.filter fun pending => !replaces sender request pending)
      (silent : ∀ q, .writeExecutionRequest q ∉ commands)
  | request (sender : NodeId) (request : StateSyncRequest) (event : poll.event = .message sender (.request request))
      (compatible : request.version.isCompatible)
      (fresh : (s.wipResponse.any fun w => w.response.request = request) = false)
      (queued : tryQueueResponse poll { s with
        pendingRequests := (s.pendingRequests.filter fun pending => !replaces sender request pending) ++
          [⟨sender, poll.now, request⟩] } = .ok s' commands)

theorem sendBatch_quiet (poll : ServerPoll) (s : StreamState) : (sendBatch poll s).Sat (fun _ => False)
    fun s' commands =>
    s'.pendingRequests = s.pendingRequests ∧ ∀ q, .writeExecutionRequest q ∉ commands := by
  rw [sendBatch]
  split
  · exact ⟨rfl, nofun⟩
  · dsimp only
    split <;> exact ⟨rfl, by simp⟩

theorem maybeSendBatch_quiet (poll : ServerPoll) (s : StreamState) : (maybeSendBatch poll s).Sat (fun _ => False)
    fun s' commands =>
    s'.pendingRequests = s.pendingRequests ∧ ∀ q, .writeExecutionRequest q ∉ commands := by
  rw [maybeSendBatch]
  split
  · exact ⟨rfl, nofun⟩
  · split
    · exact sendBatch_quiet poll s
    · exact ⟨rfl, nofun⟩

theorem finish_eq_ok (finished : finish poll done w = .ok commands) :
    commands = if done.success ∧ w.pendingResponseCompletions.isSome then
      [.writeResponse w.sender { w.response with responseN := done.n } poll.room] else [] := by
  rw [finish] at finished
  split at finished
  next success =>
    split at finished
    · cases finished
    · split at finished
      next awaits =>
        cases finished
        rw [if_pos ⟨success, awaits⟩]
      next failed =>
        cases finished
        rw [if_neg fun both => failed both.2]
  next failed =>
    cases finished
    rw [if_neg fun both => failed both.1]

theorem finish_eq_error {reason : ServerPanic} (failed : finish poll done w = .error reason) :
    done.success ∧ w.response.request.statePrefix ≠ done.statePrefix := by
  rw [finish] at failed
  split at failed
  next success =>
    split at failed
    next differs => exact ⟨success, differs⟩
    next => split at failed <;> cases failed
  next => cases failed

theorem tryQueueResponse_ok (poll : ServerPoll) (s : StreamState) :
    ∃ s' commands, tryQueueResponse poll s = .ok s' commands := by
  rw [tryQueueResponse]
  split
  · exact ⟨_, _, rfl⟩
  · split <;> exact ⟨_, _, rfl⟩

/-- Execution answers with upserts and one `SyncDone`, which repeats the prefix of the request on success. -/
def Answers (s : StreamState) (event : ServerEvent) : Prop :=
  match event with
  | .execution (.syncRequest _) => False
  | .execution (.syncDone done) => done.success → ∀ w ∈ s.wipResponse, w.response.request.statePrefix = done.statePrefix
  | _ => True

/-- An iteration panics only if execution does not answer as it should. -/
theorem handle_sat (poll : ServerPoll) (s : StreamState) :
    (s.handle poll).Sat (fun _ => ¬(s.Ready poll ∧ Answers s poll.event)) fun s' commands =>
      Queues poll s commands s' := by
  have quiet {x : ServerOutcome} (other : ∀ sender request, poll.event ≠ .message sender (.request request))
      (calm : x.Sat (fun _ => False) fun s' commands =>
        s'.pendingRequests = s.pendingRequests ∧ ∀ q, .writeExecutionRequest q ∉ commands) :
      x.Sat (fun _ => ¬(s.Ready poll ∧ Answers s poll.event)) fun s' commands => Queues poll s commands s' :=
    calm.mono (fun _ => False.elim) fun _ _ ⟨same, silent⟩ =>
      .quiet (fun sender request event => absurd event (other sender request)) same silent
  rw [handle]
  split
  next message event =>
    have idle (none : s.wipResponse = none) : ¬s.Ready poll := by simp [Ready, event, none]
    cases message with
    | syncRequest request => exact fun both => by simpa [Answers, event] using both.2
    | syncUpsert upsertType data =>
      simp only [handleExecutionMessage]
      split
      next none => exact fun both => idle none both.1
      next => exact quiet (by simp [event]) (maybeSendBatch_quiet poll _)
    | syncDone done =>
      simp only [handleExecutionMessage]
      split
      next none => exact fun both => idle none both.1
      next w serving =>
        cases finished : finish poll done w with
        | error reason =>
          obtain ⟨success, differs⟩ := finish_eq_error finished
          rintro ⟨-, answers⟩
          rw [event] at answers
          exact differs (answers success w serving)
        | ok c₁ =>
          obtain ⟨s', c₂, queued⟩ := tryQueueResponse_ok poll { s with wipResponse := none }
          simp only [Outcome.andThen, queued]
          refine .done ⟨done, event⟩ c₁ c₂ (fun q mem => ?_) queued rfl
          rw [finish_eq_ok finished] at mem
          split at mem <;> simp at mem
  next sender message event =>
    cases message with
    | request request =>
      simp only [handleMessage, handleRequest]
      split
      next incompatible =>
        refine .quiet (fun sender' request' event' => ?_) rfl (by simp)
        cases event.symm.trans event'
        simpa using incompatible
      next compatible =>
        simp only [Bool.not_eq_true', Bool.not_eq_false] at compatible
        split
        next served => exact .duplicate sender request event compatible served rfl (by simp)
        next fresh =>
          obtain ⟨s', commands, queued⟩ := tryQueueResponse_ok poll { s with
            pendingRequests := (s.pendingRequests.filter fun pending => !replaces sender request pending) ++
              [⟨sender, poll.now, request⟩] }
          rw [queued]
          exact .request sender request event compatible (by simpa using fresh) queued
    | completion sessionId =>
      simp only [handleMessage, handleCompletion]
      split
      · exact .quiet (by simp [event]) rfl (by simp)
      · exact quiet (by simp [event]) (maybeSendBatch_quiet poll _)
    | response | badVersion => exact .quiet (by simp [event]) rfl (by simp)
  next event => exact quiet (by simp [event]) (sendBatch_quiet poll s)
  next delivered event =>
    rw [handleTcpCompletion]
    split
    · exact .quiet (by simp [event]) rfl (by simp)
    · exact quiet (by simp [event]) (maybeSendBatch_quiet poll _)
  next event => exact .quiet (by simp [event]) rfl (by simp)

theorem handle_queues (returns : s.handle poll = .ok s' commands) : Queues poll s commands s' :=
  (handle_sat poll s).of_ok returns

theorem handle_ok (ready : s.Ready poll) (answers : Answers s poll.event) : ∃ s' commands,
    s.handle poll = .ok s' commands :=
  ((handle_sat poll s).mono (fun _ fails => fails ⟨ready, answers⟩) fun _ _ => id).exists_ok

def Stale (requestTimeout now : Nat) (request : PendingRequest) : Prop := requestTimeout < now - request.rxTime

theorem popFresh_eq_none {pending : List PendingRequest} (none : popFresh requestTimeout now pending = none) :
    ∀ request ∈ pending, Stale requestTimeout now request := by
  induction pending with
  | nil => simp
  | cons first rest ih =>
    rw [popFresh] at none
    split at none
    next stale =>
      intro request mem
      cases mem with
      | head => exact stale
      | tail _ mem => exact ih none request mem
    next => cases none

theorem popFresh_eq_some {pending rest : List PendingRequest} {popped : PendingRequest}
    (some : popFresh requestTimeout now pending = some (popped, rest)) :
    ∃ stale, pending = stale ++ popped :: rest ∧ ∀ request ∈ stale, Stale requestTimeout now request := by
  induction pending with
  | nil => cases some
  | cons first later ih =>
    rw [popFresh] at some
    split at some
    next isStale =>
      obtain ⟨stale, rfl, all⟩ := ih some
      exact ⟨first :: stale, rfl, by simpa using ⟨isStale, all⟩⟩
    next =>
      cases some
      exact ⟨[], rfl, nofun⟩

section

variable (returns : tryQueueResponse poll s = .ok s' commands)

include returns

/-- `try_queue_response`: a session goes on, no fresh request is pending, or the session of the oldest one starts. -/
theorem tryQueueResponse_cases : (s' = s ∧ commands = [] ∧ s.wipResponse.isSome) ∨
    (s' = { s with pendingRequests := [] } ∧ commands = [] ∧
      ∀ request ∈ s.pendingRequests, Stale s.requestTimeout poll.now request) ∨
    ∃ stale popped rest, s.wipResponse = none ∧ s.pendingRequests = stale ++ popped :: rest ∧
      (∀ request ∈ stale, Stale s.requestTimeout poll.now request) ∧
      s' = { s with pendingRequests := rest, wipResponse := some (.new poll.now poll.nonce popped) } ∧
      commands = [.writeExecutionRequest popped.request.syncRequest] := by
  rw [tryQueueResponse] at returns
  split at returns
  next serving =>
    cases returns
    exact .inl ⟨rfl, rfl, serving⟩
  next idle =>
    split at returns
    next none =>
      cases returns
      exact .inr (.inl ⟨rfl, rfl, popFresh_eq_none none⟩)
    next popped rest some =>
      cases returns
      obtain ⟨stale, split, all⟩ := popFresh_eq_some some
      exact .inr (.inr ⟨stale, popped, rest, by simpa using idle, split, all, rfl, rfl⟩)

theorem tryQueueResponse_fate (pending : request ∈ s.pendingRequests) : request ∈ s'.pendingRequests ∨
      (s'.wipResponse = some (.new poll.now poll.nonce request) ∧
        .writeExecutionRequest request.request.syncRequest ∈ commands) ∨
      Stale s.requestTimeout poll.now request := by
  obtain ⟨rfl, -, -⟩ | ⟨-, -, stale⟩ | ⟨stale, popped, rest, -, split, all, rfl, rfl⟩ := tryQueueResponse_cases returns
  · exact .inl pending
  · exact .inr (.inr (stale request pending))
  · rw [split, mem_append, mem_cons] at pending
    obtain old | rfl | waits := pending
    · exact .inr (.inr (all request old))
    · exact .inr (.inl ⟨rfl, by simp⟩)
    · exact .inl waits

/-- The sender of a pending request sends the same request again, or one for another target. -/
def Supersedes (event : ServerEvent) (request : PendingRequest) : Prop :=
  ∃ later, event = .message request.sender (.request later) ∧ later.version.isCompatible ∧
    (later = request.request ∨ later.target ≠ request.request.target)

omit returns in
theorem supersedes_of_replaces {later : StateSyncRequest} (event : poll.event = .message sender (.request later))
    (compatible : later.version.isCompatible) (replaced : replaces sender later request) :
      Supersedes poll.event request := by
  simp only [replaces, Bool.and_eq_true, decide_eq_true_iff, Bool.or_eq_true] at replaced
  obtain ⟨rfl, other⟩ := replaced
  exact ⟨later, event, compatible, other.elim (fun target => .inr (Ne.symm target)) fun same => .inl same.symm⟩

omit returns in
/-- A pending request stays pending, its session starts, its sender replaces it, or it is stale. -/
theorem Queues.fate (queues : Queues poll s commands s') (pending : request ∈ s.pendingRequests) :
    request ∈ s'.pendingRequests ∨ Opens (s, ⟨poll, commands, s'⟩) request ∨ Supersedes poll.event request ∨
      Stale s.requestTimeout poll.now request := by
  cases queues with
  | quiet other same silent => exact .inl (same ▸ pending)
  | done isDone c₁ c₂ silent queued split =>
    obtain waits | ⟨serving, written⟩ | stale := tryQueueResponse_fate queued pending
    · exact .inl waits
    · exact .inr (.inl ⟨serving, by rw [split]; exact mem_append_right _ written⟩)
    · exact .inr (.inr (.inr stale))
  | duplicate sender later event compatible served same silent =>
    by_cases replaced : replaces sender later request
    · exact .inr (.inr (.inl (supersedes_of_replaces event compatible replaced)))
    · exact .inl (same ▸ List.mem_filter.mpr ⟨pending, by simpa using replaced⟩)
  | request sender later event compatible fresh queued =>
    by_cases replaced : replaces sender later request
    · exact .inr (.inr (.inl (supersedes_of_replaces event compatible replaced)))
    · have kept : request ∈ (s.pendingRequests.filter fun pending => !replaces sender later pending) ++
          [⟨sender, poll.now, later⟩] := mem_append_left _ (List.mem_filter.mpr ⟨pending, by simpa using replaced⟩)
      obtain waits | opened | stale := tryQueueResponse_fate queued kept
      · exact .inl waits
      · exact .inr (.inl opened)
      · exact .inr (.inr (.inr stale))

omit returns in
/-- A compatible request that arrives is queued or its session starts, unless an equal request is being served. -/
theorem Queues.arrival (queues : Queues poll s commands s') {request : StateSyncRequest}
    (event : poll.event = .message sender (.request request)) (compatible : request.version.isCompatible) :
    (∃ w ∈ s.wipResponse, w.response.request = request) ∨ ⟨sender, poll.now, request⟩ ∈ s'.pendingRequests ∨
      Opens (s, ⟨poll, commands, s'⟩) ⟨sender, poll.now, request⟩ := by
  cases queues with
  | quiet other same silent =>
    rw [other sender request event] at compatible
    cases compatible
  | done isDone c₁ c₂ silent queued split =>
    obtain ⟨done, other⟩ := isDone
    rw [event] at other
    cases other
  | duplicate sender' later event' compatible' served same silent =>
    rw [event] at event'
    cases event'
    obtain ⟨w, serving, same⟩ := (any_eq_true _ _).mp served
    exact .inl ⟨w, serving, of_decide_eq_true same⟩
  | request sender' later event' compatible' fresh queued =>
    rw [event] at event'
    cases event'
    obtain waits | opened | stale := tryQueueResponse_fate queued (mem_append_right _ (.head _))
    · exact .inr (.inl waits)
    · exact .inr (.inr opened)
    · simp [Stale] at stale

theorem tryQueueResponse_origin (pending : request ∈ s'.pendingRequests) : request ∈ s.pendingRequests := by
  obtain ⟨rfl, -, -⟩ | ⟨rfl, -, -⟩ | ⟨stale, popped, rest, -, split, -, rfl, -⟩ := tryQueueResponse_cases returns
  · exact pending
  · cases pending
  · rw [split]
    exact mem_append_right _ (.tail _ pending)

theorem tryQueueResponse_opens {q : SyncRequest} (written : .writeExecutionRequest q ∈ commands) :
    s.wipResponse = none ∧ ∃ popped ∈ s.pendingRequests, q = popped.request.syncRequest ∧
      s'.wipResponse = some (.new poll.now poll.nonce popped) := by
  obtain ⟨-, rfl, -⟩ | ⟨-, rfl, -⟩ | ⟨stale, popped, rest, idle, split, -, rfl, rfl⟩ := tryQueueResponse_cases returns
  · cases written
  · cases written
  · cases mem_singleton.mp written
    exact ⟨idle, popped, by simp [split], rfl, rfl⟩

end

theorem Queues.origin (queues : Queues poll s commands s') (pending : request ∈ s'.pendingRequests) :
    request ∈ s.pendingRequests ∨ poll.event = .message request.sender (.request request.request) := by
  cases queues with
  | quiet other same silent => exact .inl (same ▸ pending)
  | done isDone c₁ c₂ silent queued split =>
    have waits := tryQueueResponse_origin queued pending
    exact .inl waits
  | duplicate sender later event compatible served same silent =>
    rw [same] at pending
    exact .inl (List.mem_filter.mp pending).1
  | request sender later event compatible fresh queued =>
    obtain old | new := mem_append.mp (tryQueueResponse_origin queued pending)
    · exact .inl (List.mem_filter.mp old).1
    · cases mem_singleton.mp new
      exact .inr event

/-- What is written to execution opens the session of a request that its sender asked for; no session is open then,
or the open one ends. -/
theorem Queues.opens (queues : Queues poll s commands s') {q : SyncRequest}
    (written : .writeExecutionRequest q ∈ commands) : (s.wipResponse = none ∨ IsDone poll.event) ∧
      ∃ request, Opens (s, ⟨poll, commands, s'⟩) request ∧ q = request.request.syncRequest ∧
        (request ∈ s.pendingRequests ∨ poll.event = .message request.sender (.request request.request)) := by
  cases queues with
  | quiet other same silent => exact absurd written (silent q)
  | done isDone c₁ c₂ silent queued split =>
    rw [split, mem_append, or_iff_right (silent q)] at written
    obtain ⟨-, popped, waits, rfl, serving⟩ := tryQueueResponse_opens queued written
    exact ⟨.inr isDone, popped, ⟨serving, by rw [split]; exact mem_append_right _ written⟩, rfl, .inl waits⟩
  | duplicate sender later event compatible served same silent => exact absurd written (silent q)
  | request sender later event compatible fresh queued =>
    obtain ⟨idle, popped, waits, rfl, serving⟩ := tryQueueResponse_opens queued written
    refine ⟨.inl idle, popped, ⟨serving, written⟩, rfl, ?_⟩
    obtain old | new := mem_append.mp waits
    · exact .inl (List.mem_filter.mp old).1
    · cases mem_singleton.mp new
      exact .inr event

/-! ## Runs -/

abbrev Run (requestTimeout : Nat) (history : History) (s : StreamState) : Prop :=
  Trace (Trace.Recorded Handles) (new requestTimeout) history s

/-- The peer asked for what is pending or served in its name. -/
def Asked (history : History) (request : PendingRequest) : Prop :=
  ∃ e ∈ history, e.2.poll.event = .message request.sender (.request request.request)

theorem asked_of_run (run : Run requestTimeout history s) (pending : request ∈ s.pendingRequests) :
    Asked history request := by
  induction run with
  | nil => cases pending
  | @snoc history t t' e _ taken ih =>
    obtain ⟨t, entry⟩ := e
    obtain ⟨rfl, -, -, returns⟩ := taken
    obtain old | now := (handle_queues returns).origin pending
    · obtain ⟨e, mem, event⟩ := ih old
      exact ⟨e, mem_append_left _ mem, event⟩
    · exact ⟨(t, entry), by simp, now⟩

/-- The last iteration of a session. -/
theorem handle_done (serving : s.wipResponse = some w) (event : poll.event = .execution (.syncDone done))
    (returns : s.handle poll = .ok s' commands) :
    sent commands = if done.success ∧ w.pendingResponseCompletions.isSome then
      [⟨w.sender, { w.response with responseN := done.n }, poll.room⟩] else [] := by
  rw [handle, event] at returns
  simp only [handleExecutionMessage, serving] at returns
  split at returns
  · cases returns
  next c₁ finished =>
    obtain ⟨t, c, c₂, first, queued, rfl⟩ := Outcome.andThen_eq_ok.mp returns
    cases first
    have silent : sent c₂ = [] := by
      obtain ⟨-, rfl, -⟩ | ⟨-, rfl, -⟩ | ⟨stale, popped, rest, -, -, -, -, rfl⟩ := tryQueueResponse_cases queued <;> rfl
    have split : sent (c₁ ++ c₂) = sent c₁ := by rw [sent, filterMap_append, ← sent, ← sent, silent, append_nil]
    rw [split, finish_eq_ok finished]
    split <;> rfl

/-- A request that has left the queue: its session started, its sender replaced it, or it went stale. -/
def Leaves (e : StreamState × ServerHandled) (request : PendingRequest) : Prop :=
  Opens e request ∨ Supersedes e.2.poll.event request ∨ Stale e.1.requestTimeout e.2.poll.now request

theorem pending_or_leaves {t : StreamState} (run : Trace (Trace.Recorded Handles) t history s)
    (pending : request ∈ t.pendingRequests) :
    request ∈ s.pendingRequests ∨ ∃ e ∈ history, Leaves e request := by
  induction run with
  | nil => exact .inl pending
  | @snoc history u u' e _ taken ih =>
    obtain ⟨u, poll, commands, after⟩ := e
    obtain ⟨rfl, rfl, -, returns⟩ := taken
    obtain waits | ⟨e, mem, left⟩ := ih
    · obtain waits | left := (handle_queues returns).fate waits
      · exact .inl waits
      · exact .inr ⟨_, by simp, left⟩
    · exact .inr ⟨e, mem_append_left _ mem, left⟩

/-- The responses of a session that goes on. -/
structure Streams (request : PendingRequest) (nonce : Nat) (during : History) : Prop where
  responses : ∀ i send, (sends during)[i]? = some send →
    send.recipient = request.sender ∧ send.response = sessionResponse request nonce i send.response.response 0
  faithful : (∀ e ∈ during, ¬Fails e) → ((sends during).flatMap fun send => send.response.response) <+: produced during
  window : .v2 ≤ request.request.version → unacknowledged request.sender nonce during ≤ maxUnacknowledgedResponses

/-- The end of a session: `last` brings its `SyncDone`. -/
structure Concludes (request : PendingRequest) (nonce : Nat) (during : History) (last : StreamState × ServerHandled)
    (done : SyncDone) : Prop where
  final : sent last.2.commands = [] ∨ ∃ upserts room, sent last.2.commands =
    [⟨request.sender, sessionResponse request nonce (sends during).length upserts done.n, room⟩]
  faithful : done.success → (∀ e ∈ during, ¬Fails e) → sent last.2.commands ≠ [] ∧
    ((sends (during ++ [last])).flatMap fun send => send.response.response) = produced during

theorem InProgress.concludes (inv : InProgress request nonce during w) (serving : s.wipResponse = some w)
    (event : poll.event = .execution (.syncDone done)) (returns : s.handle poll = .ok s' commands) :
    Concludes request nonce during (s, ⟨poll, commands, s'⟩) done := by
  have last := handle_done serving event returns
  have one : sends [(s, ⟨poll, commands, s'⟩)] = sent commands := by simp [sends]
  constructor
  · dsimp only
    rw [last]
    split
    next both =>
      refine .inr ⟨w.response.response, poll.room, ?_⟩
      rw [inv.sender, ← inv.index both.2, inv.response]
      rfl
    next => exact .inl rfl
  · intro success fine
    obtain ⟨awaits, same⟩ := inv.faithful fine
    rw [if_pos ⟨success, awaits⟩] at last
    refine ⟨by simp [last], ?_⟩
    rw [sends_append, flatMap_append, one, last, ← same]
    simp

/-- The server streams faithfully, over every run of its loop. What is written to execution opens the session of a
request that a peer asked for. Two sessions are separated by a `SyncDone`. The responses of a session go to its
peer under its nonce, numbered from zero, and carry what execution produced; only the last one carries `responseN`.
A compatible request is served or pending, or is dropped for one of the reasons. No assertion fails. -/
theorem streams_sessions {requestTimeout : Nat} {history : History} (run : Run requestTimeout history s) :
    (∀ before e after q, history = before ++ e :: after → .writeExecutionRequest q ∈ e.2.commands →
      ∃ request, Opens e request ∧ q = request.request.syncRequest ∧ Asked (before ++ [e]) request) ∧
    (∀ before start during stop after request request', history = before ++ start :: (during ++ stop :: after) →
      Opens start request → Opens stop request' → ∃ e ∈ during ++ [stop], IsDone e.2.poll.event) ∧
    (∀ before start during after request, history = before ++ start :: (during ++ after) → Opens start request →
      (∀ e ∈ during, ¬IsDone e.2.poll.event) →
      Streams request start.2.poll.nonce during ∧
        ∀ last rest done, after = last :: rest → last.2.poll.event = .execution (.syncDone done) →
          Concludes request start.2.poll.nonce during last done) ∧
    (∀ before e after sender request, history = before ++ e :: after →
      e.2.poll.event = .message sender (.request request) → request.version.isCompatible →
      (∀ w ∈ e.1.wipResponse, w.response.request = request → w.sender = sender) →
      (∃ w ∈ e.1.wipResponse, w.response.request = request ∧ w.sender = sender) ∨
        ⟨sender, e.2.poll.now, request⟩ ∈ s.pendingRequests ∨
        ∃ e' ∈ e :: after, Leaves e' ⟨sender, e.2.poll.now, request⟩) ∧
    ∀ poll, s.Ready poll → Answers s poll.event → ∃ s' commands, s.handle poll = .ok s' commands := by
  -- the state after an iteration that opens a session
  have opened : ∀ before start rest, history = before ++ start :: rest →
      Trace (Trace.Recorded Handles) start.2.after rest s := by
    rintro before ⟨t, entry⟩ rest rfl
    obtain ⟨-, u, -, ⟨-, rfl, -⟩, later⟩ := run.split_cons
    exact later
  have serving : ∀ before start during after request, history = before ++ start :: (during ++ after) →
      Opens start request → (∀ e ∈ during, ¬IsDone e.2.poll.event) →
      ∃ u w, Trace (Trace.Recorded Handles) u after s ∧ u.wipResponse = some w ∧
        InProgress request start.2.poll.nonce during w := by
    intro before start during after request split opens goesOn
    obtain ⟨u, first, later⟩ := (opened before start _ split).split
    obtain ⟨w, serving, inv⟩ := inProgress_of_run first opens.1 goesOn
    exact ⟨u, w, later, serving, inv⟩
  refine ⟨?_, ?_, ?_, ?_, fun poll ready answers => handle_ok ready answers⟩
  · rintro before ⟨t, entry⟩ after q rfl written
    obtain ⟨t', u, reaches, ⟨rfl, rfl, -, returns⟩, -⟩ := run.split_cons
    obtain ⟨-, request, opens, same, waits | now⟩ := (handle_queues returns).opens written
    · obtain ⟨e, mem, event⟩ := asked_of_run reaches waits
      exact ⟨request, opens, same, e, mem_append_left _ mem, event⟩
    · exact ⟨request, opens, same, (t, entry), by simp, now⟩
  · rintro before start during ⟨t, entry⟩ after request request' split opens opens'
    by_contra none
    have goesOn : ∀ e ∈ during, ¬IsDone e.2.poll.event := fun e mem isDone =>
      none ⟨e, mem_append_left _ mem, isDone⟩
    obtain ⟨u, w, later, serving, -⟩ := serving before start during _ request split opens goesOn
    obtain ⟨u', ⟨rfl, -, -, returns⟩, -⟩ := later.cons_inv
    obtain idle | isDone := ((handle_queues returns).opens opens'.2).1
    · rw [serving] at idle
      cases idle
    · exact none ⟨(t, entry), by simp, isDone⟩
  · intro before start during after request split opens goesOn
    obtain ⟨u, w, later, serving, inv⟩ := serving before start during after request split opens goesOn
    refine ⟨⟨inv.responses, fun fine => ⟨_, (inv.faithful fine).2⟩, fun newer => inv.counted ▸ inv.window newer⟩, ?_⟩
    rintro ⟨t, poll, commands, t'⟩ rest done rfl event
    obtain ⟨u', ⟨rfl, rfl, -, returns⟩, -⟩ := later.cons_inv
    exact inv.concludes serving event returns
  · rintro before ⟨t, poll, commands, t'⟩ after sender request split event compatible own
    have later := opened before _ after split
    subst split
    obtain ⟨v, u, -, ⟨rfl, rfl, -, returns⟩, -⟩ := run.split_cons
    obtain ⟨w, serving, same⟩ | waits | opens := (handle_queues returns).arrival event compatible
    · exact .inl ⟨w, serving, same, own w serving same⟩
    · obtain waits | ⟨e, mem, left⟩ := pending_or_leaves later waits
      · exact .inr (.inl waits)
      · exact .inr (.inr ⟨e, .tail _ mem, left⟩)
    · exact .inr (.inr ⟨_, .head _, .inl opens⟩)

/-! ## One request -/

instance (poll : ServerPoll) (s : StreamState) : Decidable (s.Ready poll) :=
  match poll with
  | ⟨.message _ _, _, _, _⟩ => inferInstanceAs (Decidable True)
  | ⟨.execution _, _, _, _⟩ => inferInstanceAs (Decidable (∃ w ∈ s.wipResponse, _))
  | ⟨.timeout, _, _, _⟩ => inferInstanceAs (Decidable (∃ w ∈ s.wipResponse, _ ∧ _))
  | ⟨.clientTimeout, _, _, _⟩ => inferInstanceAs (Decidable (∃ w ∈ s.wipResponse, _ ∧ _ ∧ _ ∧ _))
  | ⟨.tcpCompletion _, _, _, _⟩ => inferInstanceAs (Decidable (∃ w ∈ s.wipResponse, ∃ pending ∈ _, _))

def replay : List ServerPoll → StreamState → Option (StreamState × History)
  | [], s => some (s, [])
  | poll :: rest, s =>
    if s.Ready poll then
      match s.handle poll with
      | .panic _ => none
      | .ok t commands => (replay rest t).map fun (s', history) => (s', (s, ⟨poll, commands, t⟩) :: history)
    else none

theorem trace_of_replay {polls : List ServerPoll} {s s' : StreamState}
    (replayed : replay polls s = some (s', history)) : Trace (Trace.Recorded Handles) s history s' := by
  induction polls generalizing s history with
  | nil =>
    obtain ⟨rfl, rfl⟩ := Prod.mk.inj (some.inj replayed)
    exact .nil
  | cons poll rest ih =>
    rw [replay] at replayed
    split at replayed
    next ready =>
      cases returns : s.handle poll with
      | panic reason => simp [returns] at replayed
      | ok t commands =>
        simp only [returns, map_eq_some_iff, Prod.exists, Prod.mk.injEq] at replayed
        obtain ⟨u, later, found, rfl, rfl⟩ := replayed
        exact (ih found).cons ⟨rfl, rfl, ready, returns⟩
    next => cases replayed

def oneRequest (success : Bool) : List ServerPoll := [
  ⟨.message 1 (.request ⟨.v2, 3, 1, 20, 0, 10, 0⟩), 0, 7, true⟩,
  ⟨.execution (.syncUpsert .account [5]), 1, 0, true⟩,
  ⟨.execution (.syncDone ⟨success, 3, 10⟩), 2, 0, true⟩]

instance (e : StreamState × ServerHandled) (request : PendingRequest) : Decidable (Opens e request) :=
  inferInstanceAs (Decidable (_ ∧ _))

instance (e : StreamState × ServerHandled) : Decidable (Fails e) := inferInstanceAs (Decidable (_ ∨ _ ∨ _))

def askedRequest : PendingRequest := ⟨1, 0, ⟨.v2, 3, 1, 20, 0, 10, 0⟩⟩

/-- The session of `oneRequest`: it starts with the first iteration and ends with the last one. -/
def isOneSession (success : Bool) : History → Bool
  | [start, upsert, last] =>
    decide (Opens start askedRequest ∧ upsert.2.poll.event = .execution (.syncUpsert .account [5]) ∧ ¬Fails upsert ∧
      last.2.poll.event = .execution (.syncDone ⟨success, 3, 10⟩) ∧ ¬Fails last ∧
      (success = false → sends [upsert, last] = []))
  | _ => false

theorem oneRequest_session (success : Bool) :
    ∃ start upsert last s, Run 1000 [start, upsert, last] s ∧ Opens start askedRequest ∧
      upsert.2.poll.event = .execution (.syncUpsert .account [5]) ∧ ¬Fails upsert ∧
      last.2.poll.event = .execution (.syncDone ⟨success, 3, 10⟩) ∧ ¬Fails last ∧
      (success = false → sends [upsert, last] = []) := by
  have found : ((replay (oneRequest success) (new 1000)).any fun r => isOneSession success r.2) = true := by
    cases success <;> decide +kernel
  obtain ⟨⟨s, history⟩, replayed, session⟩ := (any_eq_true _ _).mp found
  have run := trace_of_replay replayed
  unfold isOneSession at session
  split at session
  next start upsert last shape =>
    rw [show history = _ from shape] at run
    exact ⟨start, upsert, last, s, run, of_decide_eq_true session⟩
  next => cases session

theorem streams_account :
    ∃ start during last s, Run 1000 (start :: (during ++ [last])) s ∧ Opens start askedRequest ∧
      ((sends (during ++ [last])).flatMap fun send => send.response.response) = [⟨.account, [5]⟩] := by
  obtain ⟨start, upsert, last, s, run, opens, produces, fine, isLast, -⟩ := oneRequest_session true
  have goesOn : ∀ e ∈ [upsert], ¬IsDone e.2.poll.event := by simp [IsDone, produces]
  obtain ⟨-, concludes⟩ := (streams_sessions run).2.2.1 [] start [upsert] [last] askedRequest rfl opens goesOn
  have all := ((concludes last [] _ rfl isLast).faithful rfl (by simpa using fine)).2
  refine ⟨start, [upsert], last, s, run, opens, all.trans ?_⟩
  simp [produced, produces, upserts]

/-- Execution reports a failure: no send failed, and yet what it produced is not sent. -/
theorem failed_request_dropped :
    ∃ start during last s, Run 1000 (start :: (during ++ [last])) s ∧ Opens start askedRequest ∧
      (∀ e ∈ during, ¬IsDone e.2.poll.event) ∧ IsDone last.2.poll.event ∧ (∀ e ∈ during ++ [last], ¬Fails e) ∧
      ((sends (during ++ [last])).flatMap fun send => send.response.response) ≠ produced during := by
  obtain ⟨start, upsert, last, s, run, opens, produces, fine, isLast, fineLast, silent⟩ := oneRequest_session false
  refine ⟨start, [upsert], last, s, run, opens, by simp [IsDone, produces], ⟨_, isLast⟩, by simp [fine, fineLast], ?_⟩
  rw [singleton_append, silent rfl]
  simp [produced, produces, upserts]

end MonadBft.StreamState
