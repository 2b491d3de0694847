import MonadBft.Lib.SortedMap
import MonadBft.Statesync.Messages

/-! # The requests of a syncing node

`outbound_requests.rs`. A request waits in `pendingRequests` until `poll` sends it; an
attempt that is in flight collects the chunks of its response and hands them out in order.
The current time and the random choice of a peer are arguments.
-/

namespace MonadBft

inductive OutboundPanic where
  | targetMismatch
  | pendingEmpty
  | missingResponse
  | duplicateResponseIndex
  | noPeers
  | peerNotFound
deriving DecidableEq, Repr

structure InFlightRequest where
  peer : NodeId
  lastActive : Nat
  /-- Chunks that arrived before their turn, by index. -/
  responses : SortedMap Nat StateSyncResponse
  /-- The index that is expected next. -/
  responseIndex : Nat
  /-- How many responses came with a nonce. -/
  seenNonces : SortedMap Nat Nat

namespace InFlightRequest

def new (now : Nat) (peer : NodeId) : InFlightRequest where
  peer
  lastActive := now
  responses := .empty
  responseIndex := 0
  seenNonces := .empty

/-- `STATESYNC_CHUNKED_RESPONSE_TIMEOUT`, in nanoseconds. -/
def chunkedResponseTimeout : Nat := 5 * 60 * 1000000000

/-- How often the nonce of a response has been seen, the response included. -/
def numNonceSeen (attempt : InFlightRequest) (response : StateSyncResponse) : Nat :=
  (attempt.seenNonces.get? response.nonce).getD 0 + 1

/-- The start of `apply_response`: is the response for the nonce of the chunks that wait, or does it start over? -/
def checkNonce (attempt : InFlightRequest) (now : Nat) (response : StateSyncResponse) : Bool × InFlightRequest :=
  let seenNonces := attempt.seenNonces.insert response.nonce (attempt.numNonceSeen response)
  if (attempt.responses.entries.head?.any fun existing => existing.2.nonce ≠ response.nonce) = true then
    if chunkedResponseTimeout < now - attempt.lastActive ∧ attempt.numNonceSeen response = 1 then
      (true, { attempt with seenNonces, responses := .empty, lastActive := now })
    else (false, { attempt with seenNonces })
  else (true, { attempt with seenNonces, lastActive := now })

/-- The indices that can be handed out after `next`: the loop over the keys. -/
def consecutive (next : Nat) : List Nat → Nat
  | [] => next
  | index :: rest => if index = next then consecutive (next + 1) rest else next

/-- Take the chunks with the given indices out of the queue. -/
def takeResponses (responses : SortedMap Nat StateSyncResponse) :
    List Nat → Except OutboundPanic (SortedMap Nat StateSyncResponse × List StateSyncResponse)
  | [] => .ok (responses, [])
  | index :: rest =>
    match responses.get? index with
    | none => .error .missingResponse
    | some response =>
      match takeResponses (responses.erase index) rest with
      | .error reason => .error reason
      | .ok (left, taken) => .ok (left, response :: taken)

/-- The rest of `apply_response`. -/
def insertResponse (attempt : InFlightRequest) (response : StateSyncResponse) :
    Except OutboundPanic (InFlightRequest × List StateSyncResponse) :=
  if response.responseIndex < attempt.responseIndex then .ok (attempt, [])
  else if response.responseIndex = attempt.responseIndex then
    let next := consecutive (attempt.responseIndex + 1) attempt.responses.keys
    match takeResponses attempt.responses (List.range' (attempt.responseIndex + 1)
      (next - (attempt.responseIndex + 1))) with
    | .error reason => .error reason
    | .ok (responses, taken) => .ok ({ attempt with responseIndex := next, responses }, response :: taken)
  else if attempt.responses.contains response.responseIndex then .error .duplicateResponseIndex
  else .ok ({ attempt with responses := attempt.responses.insert response.responseIndex response }, [])

def applyResponse (attempt : InFlightRequest) (now : Nat) (response : StateSyncResponse) :
    Except OutboundPanic (InFlightRequest × List StateSyncResponse) :=
  match attempt.checkNonce now response with
  | (false, attempt) => .ok (attempt, [])
  | (true, attempt) => attempt.insertResponse response

end InFlightRequest

structure OutboundRequests where
  /-- The peers with the version negotiated with each. -/
  peers : SortedMap NodeId StateSyncVersion
  maxParallelRequests : Nat
  requestTimeout : Nat
  pendingRequests : SortedMap StateSyncRequest Unit
  inFlightRequests : SortedMap StateSyncRequest InFlightRequest
  /-- The peer that all further responses for a prefix must come from. -/
  prefixPeers : SortedMap Nat NodeId

inductive RequestPollResult where
  | request (peer : NodeId) (request : StateSyncRequest)
  | timer (deadline : Option Nat)
deriving DecidableEq, Repr

namespace OutboundRequests

def new (maxParallelRequests requestTimeout : Nat) (peers : List NodeId) : OutboundRequests where
  peers := peers.foldl (fun known peer => known.insert peer .self) .empty
  maxParallelRequests
  requestTimeout
  pendingRequests := .empty
  inFlightRequests := .empty
  prefixPeers := .empty

variable (s : OutboundRequests)

def currentTarget : Option Nat :=
  (s.pendingRequests.keys.head?.or s.inFlightRequests.keys.head?).map (·.target)

def queueRequest (request : StateSyncRequest) : Except OutboundPanic OutboundRequests :=
  if (s.currentTarget.all fun target => target = request.target) = true then
    .ok { s with pendingRequests := s.pendingRequests.insert request () }
  else .error .targetMismatch

/-- The responses that can be handed out now. -/
def handleResponse (now : Nat) (sender : NodeId) (response : StateSyncResponse) :
    Except OutboundPanic (OutboundRequests × List StateSyncResponse) :=
  if ((s.prefixPeers.get? response.request.statePrefix).any fun peer => peer ≠ sender) = true then .ok (s, [])
  else
    let s := { s with prefixPeers := s.prefixPeers.insert response.request.statePrefix sender }
    match s.inFlightRequests.get? response.request with
    | none => .ok (s, [])
    | some attempt =>
      match attempt.applyResponse now response with
      | .error reason => .error reason
      | .ok (attempt, responses) =>
        if (responses.getLast?.any fun last => last.responseN ≠ 0) = true then
          .ok ({ s with inFlightRequests := s.inFlightRequests.erase response.request }, responses)
        else .ok ({ s with inFlightRequests := s.inFlightRequests.insert response.request attempt }, responses)

def cancelled (sender : NodeId) (badVersion : StateSyncBadVersion) : SortedMap StateSyncRequest InFlightRequest :=
  s.inFlightRequests.filter fun request attempt => attempt.peer = sender ∧ badVersion.maxVersion < request.version

def handleBadVersion (sender : NodeId) (badVersion : StateSyncBadVersion) : OutboundRequests where
  peers :=
    if badVersion.maxVersion < .min ∨ .self < badVersion.minVersion then s.peers.erase sender
    else s.peers.insert sender badVersion.maxVersion
  maxParallelRequests := s.maxParallelRequests
  requestTimeout := s.requestTimeout
  pendingRequests := (s.cancelled sender badVersion).keys.foldl
    (fun pending request => pending.insert request ()) s.pendingRequests
  inFlightRequests := (s.cancelled sender badVersion).keys.foldl
    (fun inFlight request => inFlight.erase request) s.inFlightRequests
  prefixPeers := s.prefixPeers

/-- `rng` picks a peer when the prefix has none yet. -/
def choosePeer (rng : Nat) (statePrefix : Nat) : Except OutboundPanic NodeId :=
  match (s.prefixPeers.get? statePrefix).or s.peers.keys[rng % s.peers.keys.length]? with
  | none => .error .noPeers
  | some peer => .ok peer

/-- Send a request in the version of the peer it goes to. -/
def insertRequest (now rng : Nat) (toSend : StateSyncRequest) :
    Except OutboundPanic (OutboundRequests × NodeId × StateSyncRequest) :=
  match s.choosePeer rng toSend.statePrefix with
  | .error reason => .error reason
  | .ok peer =>
    match s.peers.get? peer with
    | none => .error .peerNotFound
    | some version =>
      let toSend := toSend.withVersion version
      .ok ({ s with inFlightRequests := s.inFlightRequests.insert toSend (.new now peer) }, peer, toSend)

/-- The attempt that has been idle longest, the first of them in key order. -/
def longestIdle : List (StateSyncRequest × InFlightRequest) → Option (StateSyncRequest × InFlightRequest)
  | [] => none
  | entry :: rest =>
    match longestIdle rest with
    | none => some entry
    | some other => if other.2.lastActive < entry.2.lastActive then some other else some entry

def poll (now rng : Nat) : Except OutboundPanic (OutboundRequests × RequestPollResult) :=
  if s.inFlightRequests.entries.length < s.maxParallelRequests ∧ s.pendingRequests.entries ≠ [] then
    match s.pendingRequests.keys with
    | [] => .error .pendingEmpty
    | toSend :: _ =>
      match { s with pendingRequests := s.pendingRequests.erase toSend }.insertRequest now rng toSend with
      | .error reason => .error reason
      | .ok (s, peer, request) => .ok (s, .request peer request)
  else
    match longestIdle s.inFlightRequests.entries with
    | none => .ok (s, .timer none)
    | some (toSend, attempt) =>
      if now - attempt.lastActive < s.requestTimeout then .ok (s, .timer (some (attempt.lastActive + s.requestTimeout)))
      else
        match { s with inFlightRequests := s.inFlightRequests.erase toSend }.insertRequest now rng toSend with
        | .error reason => .error reason
        | .ok (s, peer, request) => .ok (s, .request peer request)

end OutboundRequests

end MonadBft
