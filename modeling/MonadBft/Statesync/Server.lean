import MonadBft.Lib.Outcome
import MonadBft.Statesync.Messages

/-! # The server of state sync

`ipc.rs`: the connection to a live execution client that answers the requests of syncing
nodes. One request is served at a time; what execution produces for it is collected and
sent in batches. Each iteration of the loop selects one event; the current time, the random
nonce of a new session and whether the outbound channel has room come with it.
-/

namespace MonadBft

/-- `monad_sync_request`: what execution is asked for. -/
structure SyncRequest where
  statePrefix : Nat
  prefixBytes : Nat
  target : Nat
  fromBlock : Nat
  untilBlock : Nat
  oldTarget : Nat
deriving DecidableEq, Repr

structure SyncDone where
  success : Bool
  statePrefix : Nat
  n : Nat
deriving DecidableEq, Repr

inductive ExecutionMessage where
  | syncRequest (request : SyncRequest)
  | syncUpsert (upsertType : StateSyncUpsertType) (data : Bytes)
  | syncDone (done : SyncDone)
deriving DecidableEq, Repr

inductive StateSyncNetworkMessage where
  | request (request : StateSyncRequest)
  | response (response : StateSyncResponse)
  | badVersion (badVersion : StateSyncBadVersion)
  | completion (sessionId : Nat)
deriving DecidableEq, Repr

def maxUpsertsPerResponse : Nat := 20000

def maxResponseSize : Nat := 1500000

def maxPendingResponses : Nat := 2

def maxUnacknowledgedResponses : Nat := 100

/-- `MESSAGE_SCHEDULE_DURATION`, in milliseconds. -/
def messageScheduleDuration : Nat := 500

/-- `CLIENT_TIMEOUT`, in milliseconds. -/
def clientTimeout : Nat := 60000

structure PendingRequest where
  sender : NodeId
  rxTime : Nat
  request : StateSyncRequest
deriving DecidableEq, Repr

structure WipResponse where
  sender : NodeId
  /-- A batch is sent after this time even if it is not full. -/
  nextMessageSchedule : Nat
  /-- When the last completion message arrived. -/
  completionTime : Nat
  /-- The bytes of the upserts that are collected. -/
  responseSize : Nat
  response : StateSyncResponse
  unacknowledgedResponses : Nat
  /-- The responses whose writing to the socket has not completed, by index; `none` once one of them failed. -/
  pendingResponseCompletions : Option (List Nat)
deriving DecidableEq, Repr

inductive ServerCommand where
  /-- A response is offered to the outbound channel, which has room for it or not. -/
  | writeResponse (recipient : NodeId) (response : StateSyncResponse) (room : Bool)
  | writeBadVersion (recipient : NodeId) (badVersion : StateSyncBadVersion) (room : Bool)
  | writeExecutionRequest (request : SyncRequest)
deriving DecidableEq, Repr

inductive ServerPanic where
  | syncRequestFromExecution
  | upsertWithoutPendingResponse
  | syncDoneWithoutPendingResponse
  | donePrefixMismatch
deriving DecidableEq, Repr

inductive ServerEvent where
  | execution (message : ExecutionMessage)
  | message (sender : NodeId) (message : StateSyncNetworkMessage)
  /-- The completion of the oldest response, or its cancellation. -/
  | tcpCompletion (delivered : Bool)
  | timeout
  | clientTimeout
deriving DecidableEq, Repr

/-- An event, and what the handler reads from its environment. -/
structure ServerPoll where
  event : ServerEvent
  now : Nat
  nonce : Nat
  room : Bool
deriving DecidableEq, Repr

structure StreamState where
  /-- Pending requests older than this are dropped. -/
  requestTimeout : Nat
  pendingRequests : List PendingRequest
  wipResponse : Option WipResponse
deriving DecidableEq, Repr

abbrev ServerOutcome := Outcome ServerPanic StreamState ServerCommand

def StateSyncRequest.syncRequest (request : StateSyncRequest) : SyncRequest where
  statePrefix := request.statePrefix
  prefixBytes := request.prefixBytes
  target := request.target
  fromBlock := request.fromBlock
  untilBlock := request.untilBlock
  oldTarget := request.oldTarget

namespace WipResponse

def new (now nonce : Nat) (pending : PendingRequest) : WipResponse where
  sender := pending.sender
  nextMessageSchedule := now + messageScheduleDuration
  completionTime := now
  responseSize := 0
  response :=
    { version := pending.request.version, nonce, responseIndex := 0, request := pending.request, response := [],
      responseN := 0 }
  unacknowledgedResponses := 0
  pendingResponseCompletions := some []

variable (w : WipResponse)

/-- Waits for the writes to the socket and for the acknowledgements of the client. -/
def canSend : Bool :=
  w.pendingResponseCompletions.all fun pending =>
    pending.length < maxPendingResponses &&
      (w.response.version < .v2 || w.unacknowledgedResponses < maxUnacknowledgedResponses)

def hasSpace : Bool :=
  w.responseSize < maxResponseSize && w.response.response.length < maxUpsertsPerResponse

def push (upsert : StateSyncUpsert) : WipResponse :=
  { w with
    responseSize := w.responseSize + upsert.data.length
    response := { w.response with response := w.response.response ++ [upsert] } }

/-- The state of the response after a batch. -/
def nextBatch (now : Nat) : WipResponse :=
  { w with
    nextMessageSchedule := now + messageScheduleDuration
    responseSize := 0
    response := { w.response with responseIndex := w.response.responseIndex + 1, response := [] } }

end WipResponse

namespace StreamState

def new (requestTimeout : Nat) : StreamState := ⟨requestTimeout, [], none⟩

variable (poll : ServerPoll)

def sendBatch (s : StreamState) : ServerOutcome :=
  match s.wipResponse with
  | none => .ok s []
  | some w =>
    let next := w.nextBatch poll.now
    match w.pendingResponseCompletions with
    | some pending =>
      .ok { s with
        wipResponse := some { next with
          unacknowledgedResponses := w.unacknowledgedResponses + 1
          pendingResponseCompletions := some (pending ++ [w.response.responseIndex]) } }
        [.writeResponse w.sender w.response poll.room]
    -- an earlier send failed: the batch is dropped
    | none => .ok { s with wipResponse := some next } []

def maybeSendBatch (s : StreamState) : ServerOutcome :=
  match s.wipResponse with
  | none => .ok s []
  | some w => if !w.hasSpace && w.canSend then sendBatch poll s else .ok s []

/-- The loop of `try_queue_response`: the oldest pending request that is not stale. -/
def popFresh (requestTimeout now : Nat) : List PendingRequest → Option (PendingRequest × List PendingRequest)
  | [] => none
  | request :: rest =>
    if requestTimeout < now - request.rxTime then popFresh requestTimeout now rest else some (request, rest)

def tryQueueResponse (s : StreamState) : ServerOutcome :=
  if s.wipResponse.isSome then .ok s []
  else match popFresh s.requestTimeout poll.now s.pendingRequests with
    | none => .ok { s with pendingRequests := [] } []
    | some (request, rest) =>
      .ok { s with pendingRequests := rest, wipResponse := some (.new poll.now poll.nonce request) }
        [.writeExecutionRequest request.request.syncRequest]

/-- The last response of a session. -/
def finish (done : SyncDone) (w : WipResponse) : Except ServerPanic (List ServerCommand) :=
  if done.success then
    if w.response.request.statePrefix ≠ done.statePrefix then .error .donePrefixMismatch
    else if w.pendingResponseCompletions.isSome then
      .ok [.writeResponse w.sender { w.response with responseN := done.n } poll.room]
    else .ok []
  else .ok []

def handleExecutionMessage (message : ExecutionMessage) (s : StreamState) : ServerOutcome :=
  match message with
  | .syncRequest _ => .panic .syncRequestFromExecution
  | .syncUpsert upsertType data =>
    match s.wipResponse with
    | none => .panic .upsertWithoutPendingResponse
    | some w => maybeSendBatch poll { s with wipResponse := some (w.push ⟨upsertType, data⟩) }
  | .syncDone done =>
    match s.wipResponse with
    | none => .panic .syncDoneWithoutPendingResponse
    | some w =>
      match finish poll done w with
      | .error reason => .panic reason
      | .ok commands => (Outcome.ok { s with wipResponse := none } commands).andThen (tryQueueResponse poll)

def handleTcpCompletion (delivered : Bool) (s : StreamState) : ServerOutcome :=
  match s.wipResponse with
  | none => .ok s []
  | some w =>
    maybeSendBatch poll { s with
      wipResponse := some { w with
        pendingResponseCompletions := if delivered then w.pendingResponseCompletions.map List.tail else none } }

def handleClientTimeout (s : StreamState) : ServerOutcome :=
  .ok { s with wipResponse := s.wipResponse.map fun w => { w with pendingResponseCompletions := none } } []

def handleCompletion (sender : NodeId) (sessionId : Nat) (s : StreamState) : ServerOutcome :=
  match s.wipResponse with
  | none => .ok s []
  | some w =>
    let unacknowledgedResponses :=
      if w.sender = sender ∧ w.response.nonce = sessionId then w.unacknowledgedResponses - 1
      else w.unacknowledgedResponses
    maybeSendBatch poll { s with
      wipResponse := some { w with unacknowledgedResponses, completionTime := poll.now } }

/-- Requests of the sender that the new one replaces: for another target, or the same request. -/
def replaces (sender : NodeId) (request : StateSyncRequest) (pending : PendingRequest) : Bool :=
  pending.sender = sender && (pending.request.target ≠ request.target || pending.request = request)

def handleRequest (sender : NodeId) (request : StateSyncRequest) (s : StreamState) : ServerOutcome :=
  if !request.version.isCompatible then .ok s [.writeBadVersion sender ⟨.min, .self⟩ poll.room]
  else
    let pendingRequests := s.pendingRequests.filter fun pending => !replaces sender request pending
    if s.wipResponse.any fun w => w.response.request = request then .ok { s with pendingRequests } []
    else tryQueueResponse poll { s with pendingRequests := pendingRequests ++ [⟨sender, poll.now, request⟩] }

def handleMessage (sender : NodeId) (message : StateSyncNetworkMessage) (s : StreamState) : ServerOutcome :=
  match message with
  | .request request => handleRequest poll sender request s
  | .completion sessionId => handleCompletion poll sender sessionId s
  | _ => .ok s []

/-- The event is among those that `poll` waits for. -/
def Ready (s : StreamState) : Prop :=
  match poll.event with
  | .message _ _ => True
  | .execution _ => ∃ w ∈ s.wipResponse, w.hasSpace
  | .timeout => ∃ w ∈ s.wipResponse, w.canSend ∧ w.nextMessageSchedule ≤ poll.now
  | .clientTimeout => ∃ w ∈ s.wipResponse, 0 < w.unacknowledgedResponses ∧ w.pendingResponseCompletions.isSome ∧
      .v2 ≤ w.response.version ∧ w.completionTime + MonadBft.clientTimeout ≤ poll.now
  | .tcpCompletion _ => ∃ w ∈ s.wipResponse, ∃ pending ∈ w.pendingResponseCompletions, pending ≠ []

def handle (s : StreamState) : ServerOutcome :=
  match poll.event with
  | .execution message => handleExecutionMessage poll message s
  | .message sender message => handleMessage poll sender message s
  | .timeout => sendBatch poll s
  | .tcpCompletion delivered => handleTcpCompletion poll delivered s
  | .clientTimeout => handleClientTimeout s

end StreamState

structure ServerHandled where
  poll : ServerPoll
  commands : List ServerCommand
  after : StreamState
deriving DecidableEq, Repr

def StreamState.Handles (s : StreamState) (entry : ServerHandled) (s' : StreamState) : Prop :=
  entry.after = s' ∧ s.Ready entry.poll ∧ s.handle entry.poll = .ok s' entry.commands

end MonadBft
