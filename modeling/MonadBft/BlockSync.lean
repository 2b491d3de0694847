import MonadBft.BlockTree
import MonadBft.Lib.AListRetain
import MonadBft.Lib.Outcome

/-! # Block sync

`monad-blocksync/src/blocksync.rs`: the ranges of blocks that the node asks for itself, headers
first and then one payload after the other, and the requests of peers that it answers from the
block tree and the ledger. The block cache, the validators of the current epoch and the random
numbers are those of the call; the metrics that only grow are left out.
-/

namespace MonadBft

/-! ## Messages and commands -/

inductive BlockSyncSelfRequester where
  | consensus
  | stateSync
deriving DecidableEq

inductive BlockSyncRequestMessage where
  | headers (range : BlockRange)
  | payload (id : Bytes)
deriving DecidableEq

inductive BlockSyncHeadersResponse where
  | found (range : BlockRange) (headers : List ConsensusBlockHeader)
  | notAvailable (range : BlockRange)
deriving DecidableEq

def BlockSyncHeadersResponse.getBlockRange : BlockSyncHeadersResponse → BlockRange
  | .found range _ => range
  | .notAvailable range => range

inductive BlockSyncBodyResponse where
  | found (body : Bytes)
  | notAvailable (id : Bytes)
deriving DecidableEq

def BlockSyncBodyResponse.getPayloadId (crypto : Crypto) : BlockSyncBodyResponse → Bytes
  | .found body => crypto.getBodyId body
  | .notAvailable id => id

inductive BlockSyncResponseMessage where
  | headersResponse (response : BlockSyncHeadersResponse)
  | payloadResponse (response : BlockSyncBodyResponse)
deriving DecidableEq

inductive BlockSyncCommand where
  | sendRequest (recipient : NodeId) (request : BlockSyncRequestMessage)
  | scheduleTimeout (request : BlockSyncRequestMessage)
  | resetTimeout (request : BlockSyncRequestMessage)
  | sendResponse (recipient : NodeId) (response : BlockSyncResponseMessage)
  | fetchHeaders (range : BlockRange)
  | fetchPayload (id : Bytes)
  | emit (requester : BlockSyncSelfRequester) (range : BlockRange) (blocks : List ConsensusFullBlock)
deriving DecidableEq

inductive BlockSyncPanic where
  /-- "no nodes to blocksync from" -/
  | noNodes
  /-- "current epoch exists" -/
  | currentEpoch
  /-- "no validator has positive stake" -/
  | noPositiveStake
  /-- A self request of another requester than the current one. -/
  | requesterMismatch
  /-- `block_headers.last().unwrap()` -/
  | noHeaders
  /-- `assert!(sender.is_some())` when headers fail verification. -/
  | ledgerHeaders
  /-- "blocksync'd block_body_id doesn't match" -/
  | bodyMismatch
  /-- "asserted" -/
  | payloadMissing
  /-- `unwrap` of a completed range. -/
  | rangeMissing
  /-- A counter of payload requests drops below zero. -/
  | inFlightUnderflow
  /-- The cached blocks end with another block than the requested one. -/
  | cachedRange
  /-- The headers for a peer do not form a chain. -/
  | unlinkedHeaders
deriving DecidableEq

/-! ## State -/

structure SelfRequest where
  requester : BlockSyncSelfRequester
  /-- The peer that is asked, `none` for the ledger. -/
  recipient : Option NodeId
deriving DecidableEq

structure SelfCompletedHeader where
  requester : BlockSyncSelfRequester
  blocks : List (ConsensusBlockHeader × Option Bytes)
  payloadCache : AList fun _ : Bytes => Bytes

/-- Give a payload to the blocks of the range that lack it. -/
def SelfCompletedHeader.fill (id payload : Bytes) (completed : SelfCompletedHeader) : SelfCompletedHeader :=
  { completed with
    blocks := completed.blocks.map fun (header, maybePayload) =>
      if header.blockBodyId = id ∧ maybePayload = none then (header, some payload) else (header, maybePayload)
    payloadCache :=
      if completed.blocks.any (fun (header, maybePayload) => header.blockBodyId = id ∧ maybePayload = none) then
        completed.payloadCache.insert id payload
      else completed.payloadCache }

def SelfCompletedHeader.isComplete (completed : SelfCompletedHeader) : Bool :=
  completed.blocks.all fun (_, maybePayload) => maybePayload.isSome

structure BlockSync where
  /-- For each range that the ledger is asked for on behalf of peers: the blocks above it that a
  peer asked for too. -/
  headersRequests : AList fun _ : BlockRange => SortedMap NodeId (List ConsensusBlockHeader)
  payloadRequests : AList fun _ : Bytes => SortedMap NodeId Unit
  selfHeadersRequests : AList fun _ : BlockRange => SelfRequest
  /-- `none` until the request is initiated. -/
  selfPayloadRequests : AList fun _ : Bytes => Option SelfRequest
  selfPayloadRequestsInFlight : Nat
  selfCompletedHeadersRequests : AList fun _ : BlockRange => SelfCompletedHeader
  selfRequestMode : BlockSyncSelfRequester
  overridePeers : List NodeId
  /-- `metrics.blocksync_events.self_payload_requests_in_flight`, the one metric that is counted down. -/
  metricsInFlight : Nat

inductive BlockCache where
  | blockTree (tree : BlockTree)
  | blockBuffer (payloads : AList fun _ : Bytes => Bytes)

/-- What the handlers are called with besides the state. -/
structure BlockSyncWrapper where
  crypto : Crypto
  nodeid : NodeId
  blockCache : BlockCache
  /-- `val_epoch_map.get_val_set(&current_epoch)` -/
  validators : Option ValidatorSet
  random : Nat

def BlockTree.parentChain (tree : BlockTree) : Nat → BlockId → List ConsensusFullBlock
  | 0, _ => []
  | fuel + 1, id =>
    match tree.getBlock id with
    | none => []
    | some block => block :: parentChain tree fuel block.getParentId

/-- The chain of stored blocks up to `id`, lowest first. -/
def BlockTree.getParentBlockChain (tree : BlockTree) (id : BlockId) : List ConsensusFullBlock :=
  (tree.parentChain tree.tree.size id).reverse

def BlockTree.getPayload (tree : BlockTree) (id : Bytes) : Option Bytes :=
  (tree.tree.payloads.lookup id).map (·.body)

def BlockCache.getPayload (cache : BlockCache) (id : Bytes) : Option Bytes :=
  match cache with
  | .blockTree tree => tree.getPayload id
  | .blockBuffer payloads => payloads.lookup id

def maxPayloadRequests : Nat := 10

abbrev BlockSyncOutcome := Outcome BlockSyncPanic BlockSync BlockSyncCommand

namespace BlockSync

def new (overridePeers : List NodeId) : BlockSync where
  headersRequests := ∅
  payloadRequests := ∅
  selfHeadersRequests := ∅
  selfPayloadRequests := ∅
  selfPayloadRequestsInFlight := 0
  selfCompletedHeadersRequests := ∅
  selfRequestMode := .stateSync
  overridePeers
  metricsInFlight := 0

variable (s : BlockSync)

def clearSelfRequests : BlockSync :=
  { s with
    selfHeadersRequests := ∅
    selfPayloadRequests := ∅
    selfPayloadRequestsInFlight := 0
    selfCompletedHeadersRequests := ∅ }

def selfRequestExists (range : BlockRange) : Bool :=
  (s.selfHeadersRequests.lookup range).isSome || (s.selfCompletedHeadersRequests.lookup range).isSome

end BlockSync

namespace BlockSyncWrapper

open BlockSync (clearSelfRequests selfRequestExists)

variable (w : BlockSyncWrapper)

/-! ## Picking a peer -/

/-- The node whose share of the stake the number falls into. -/
def stakeAt : List (NodeId × Stake) → Nat → Option NodeId
  | [], _ => none
  | (node, stake) :: rest, index => if index < stake then some node else stakeAt rest (index - stake)

def chooseWeighted (members : List (NodeId × Stake)) : Except BlockSyncPanic NodeId :=
  match stakeAt members (w.random % (members.map Prod.snd).sum) with
  | some node => .ok node
  | none => .error .noPositiveStake

def pickPeer (overridePeers : List NodeId) : Except BlockSyncPanic NodeId :=
  if overridePeers ≠ [] ∧ overridePeers ≠ [w.nodeid] then
    let remotePeers := overridePeers.filter (· ≠ w.nodeid)
    match remotePeers[w.random % remotePeers.length]? with
    | some peer => .ok peer
    | none => .error .noNodes
  else
    match w.validators with
    | none => .error .currentEpoch
    | some validators =>
      let members := validators.validators.entries.filter (·.1 ≠ w.nodeid)
      if members = [] then .error .noNodes else w.chooseWeighted members

/-! ## Requests of the node itself -/

section

variable (requester : BlockSyncSelfRequester) (range : BlockRange) (s : BlockSync)

/-- The requests of another requester are dropped. -/
def switchMode : BlockSync :=
  if requester ≠ s.selfRequestMode then { clearSelfRequests s with selfRequestMode := requester } else s

def handleSelfRequest : BlockSyncOutcome :=
  if range.numBlocks = 0 then .ok s []
  else
    let s := switchMode requester s
    if selfRequestExists s range then .ok s []
    else .ok { s with selfHeadersRequests := s.selfHeadersRequests.insert range { requester, recipient := none } }
      [.fetchHeaders range]

def cancelHeadersRequest : BlockSync :=
  match s.selfHeadersRequests.lookup range with
  | some request =>
    if request.requester = requester then { s with selfHeadersRequests := s.selfHeadersRequests.erase range } else s
  | none => s

def cancelCompletedRequest : BlockSync :=
  match s.selfCompletedHeadersRequests.lookup range with
  | some completed =>
    if completed.requester = requester then
      { s with selfCompletedHeadersRequests := s.selfCompletedHeadersRequests.erase range }
    else s
  | none => s

/-- The payload requests stay, since another range may need them. -/
def handleSelfCancelRequest : BlockSync :=
  cancelCompletedRequest requester range (cancelHeadersRequest requester range s)

end

def linked (headers : List ConsensusBlockHeader) : Bool :=
  (headers.zip headers.tail).all fun (parent, header) => w.crypto.getId parent = header.getParentId

def verifyBlockHeaders (range : BlockRange) (headers : List ConsensusBlockHeader) : Except BlockSyncPanic Bool :=
  if headers.length ≠ range.numBlocks then .ok false
  else
    match headers.getLast? with
    | none => .error .noHeaders
    | some last =>
      if range.lastBlockId ≠ w.crypto.getId last then .ok false
      else .ok (w.linked headers)

def getCachedPayload (s : BlockSync) (id : Bytes) : Option Bytes :=
  match w.blockCache.getPayload id with
  | some payload => some payload
  | none => s.selfCompletedHeadersRequests.entries.findSome? fun e => e.2.payloadCache.lookup id

/-! ## Payloads and completed ranges -/

/-- Remove the request for a payload that is there, and give it to the ranges that wait for it. -/
def supply (id payload : Bytes) (s : BlockSync) : BlockSync :=
  { s with
    selfPayloadRequests := s.selfPayloadRequests.erase id
    selfCompletedHeadersRequests := s.selfCompletedHeadersRequests.mapValues (.fill id payload) }

/-- The first loop of `try_initiate_payload_requests_for_self`, over the requested payloads. -/
def supplyCached : List Bytes → BlockSync → BlockSync
  | [], s => s
  | id :: rest, s =>
    match w.getCachedPayload s id with
    | some payload => supplyCached rest (supply id payload s)
    | none => supplyCached rest s

/-- The second loop: initiate at most `free` requests. -/
def initiate : Nat → BlockSync → BlockSyncOutcome
  | 0, s => .ok s []
  | free + 1, s =>
    match s.selfPayloadRequests.entries.find? (·.2.isNone) with
    | none => .ok s []
    | some ⟨id, _⟩ =>
      (Outcome.ok { s with
        selfPayloadRequests :=
          s.selfPayloadRequests.insert id (some { requester := s.selfRequestMode, recipient := none })
        selfPayloadRequestsInFlight := s.selfPayloadRequestsInFlight + 1
        metricsInFlight := s.metricsInFlight + 1 } [.fetchPayload id]).andThen
        (initiate free)

def fullBlocks : List (ConsensusBlockHeader × Option Bytes) → Except BlockSyncPanic (List ConsensusFullBlock)
  | [] => .ok []
  | (_, none) :: _ => .error .payloadMissing
  | (header, some body) :: rest =>
    if w.crypto.getBodyId body ≠ header.blockBodyId then .error .bodyMismatch
    else (fullBlocks rest).map ({ header, body } :: ·)

/-- The loop of `handle_completed_ranges`. -/
def emitRanges : List BlockRange → BlockSync → BlockSyncOutcome
  | [], s => .ok s []
  | range :: rest, s =>
    match s.selfCompletedHeadersRequests.lookup range with
    | none => .panic .rangeMissing
    | some completed =>
      match w.fullBlocks completed.blocks with
      | .error reason => .panic reason
      | .ok blocks =>
        (Outcome.ok { s with selfCompletedHeadersRequests := s.selfCompletedHeadersRequests.erase range }
          [.emit completed.requester range blocks]).andThen (emitRanges rest)

def completedRanges (s : BlockSync) : List BlockRange :=
  (s.selfCompletedHeadersRequests.entries.filter (·.2.isComplete)).map (·.1)

def handleCompletedRanges (s : BlockSync) : BlockSyncOutcome := w.emitRanges (completedRanges s) s

def tryInitiatePayloadRequestsForSelf (s : BlockSync) : BlockSyncOutcome :=
  let s := w.supplyCached s.selfPayloadRequests.keys s
  (initiate (maxPayloadRequests - s.selfPayloadRequestsInFlight) s).andThen w.handleCompletedRanges

/-! ## Responses to the node itself -/

def requestHeaders (range : BlockRange) (request : SelfRequest) (s : BlockSync) : BlockSyncOutcome :=
  match w.pickPeer s.overridePeers with
  | .error reason => .panic reason
  | .ok peer => .ok
      { s with selfHeadersRequests := s.selfHeadersRequests.insert range { request with recipient := some peer } }
      [.sendRequest peer (.headers range), .scheduleTimeout (.headers range)]

def requestPayload (id : Bytes) (request : SelfRequest) (s : BlockSync) : BlockSyncOutcome :=
  match w.pickPeer s.overridePeers with
  | .error reason => .panic reason
  | .ok peer => .ok
      { s with selfPayloadRequests := s.selfPayloadRequests.insert id (some { request with recipient := some peer }) }
      [.sendRequest peer (.payload id), .scheduleTimeout (.payload id)]

/-- A timeout is reset when the response comes from a peer. -/
def resetTimeout (sender : Option NodeId) (request : BlockSyncRequestMessage) : List BlockSyncCommand :=
  if sender.isSome then [.resetTimeout request] else []

/-- Request the payloads that are not requested yet. -/
def addPayloadRequests : List Bytes → BlockSync → BlockSync
  | [], s => s
  | id :: rest, s =>
    match s.selfPayloadRequests.lookup id with
    | none => addPayloadRequests rest { s with selfPayloadRequests := s.selfPayloadRequests.insert id none }
    | some _ => addPayloadRequests rest s

/-- Headers that passed verification. -/
def completeHeaders (range : BlockRange) (headers : List ConsensusBlockHeader) (s : BlockSync) : BlockSync :=
  let s := { s with selfHeadersRequests := s.selfHeadersRequests.erase range }
  let s := addPayloadRequests (headers.map (·.blockBodyId)) s
  { s with
    selfCompletedHeadersRequests := s.selfCompletedHeadersRequests.insert range
      { requester := s.selfRequestMode, blocks := headers.map fun header => (header, none), payloadCache := ∅ } }

/-- The part of `handle_headers_response_for_self` that looks at the response. -/
def settleHeaders (sender : Option NodeId) (request : SelfRequest) (response : BlockSyncHeadersResponse)
    (s : BlockSync) : BlockSyncOutcome :=
  match response with
  | .found range headers =>
    if request.requester ≠ s.selfRequestMode then .panic .requesterMismatch
    else
      match w.verifyBlockHeaders range headers with
      | .error reason => .panic reason
      | .ok true => .ok (completeHeaders range headers s) (resetTimeout sender (.headers range))
      | .ok false => if sender.isNone then .panic .ledgerHeaders else .ok s []
  | .notAvailable range =>
    if sender.isNone ∧ request.recipient.isNone then w.requestHeaders range request s else .ok s []

def handleHeadersResponseForSelf (sender : Option NodeId) (response : BlockSyncHeadersResponse) (s : BlockSync) :
    BlockSyncOutcome :=
  match s.selfHeadersRequests.lookup response.getBlockRange with
  | none => .ok s []
  | some request => (w.settleHeaders sender request response s).andThen w.tryInitiatePayloadRequestsForSelf

/-- The part of `handle_payload_response_for_self` that looks at the response. -/
def settlePayload (sender : Option NodeId) (request : SelfRequest) (response : BlockSyncBodyResponse)
    (s : BlockSync) : BlockSyncOutcome :=
  match response with
  | .found payload =>
    let id := w.crypto.getBodyId payload
    if request.requester ≠ s.selfRequestMode then .panic .requesterMismatch
    else if s.selfPayloadRequestsInFlight = 0 ∨ s.metricsInFlight = 0 then .panic .inFlightUnderflow
    else .ok (supply id payload { s with
        selfPayloadRequestsInFlight := s.selfPayloadRequestsInFlight - 1
        metricsInFlight := s.metricsInFlight - 1 })
      (resetTimeout sender (.payload id))
  | .notAvailable id =>
    if sender.isNone ∧ request.recipient.isNone then w.requestPayload id request s else .ok s []

def handlePayloadResponseForSelf (sender : Option NodeId) (response : BlockSyncBodyResponse) (s : BlockSync) :
    BlockSyncOutcome :=
  match s.selfPayloadRequests.lookup (response.getPayloadId w.crypto) with
  | none => .ok s []
  -- the request was never initiated
  | some none => .ok s []
  | some (some request) =>
    ((w.settlePayload sender request response s).andThen w.handleCompletedRanges).andThen
      w.tryInitiatePayloadRequestsForSelf

/-! ## Requests of peers -/

def cachedBlocks (range : BlockRange) : List ConsensusBlockHeader :=
  match w.blockCache with
  | .blockTree tree =>
    (((tree.getParentBlockChain range.lastBlockId).map (·.header)).reverse.take range.numBlocks).reverse
  | .blockBuffer _ => []

/-- The part of the requested range that is not among the cached blocks. -/
def ledgerFetchRange (range : BlockRange) (cached : List ConsensusBlockHeader) : BlockRange where
  lastBlockId := (cached.head?.map (·.getParentId)).getD range.lastBlockId
  numBlocks := range.numBlocks - cached.length

/-- The range that was requested, from its ledger part and the cached blocks above it. -/
def requestedBlockRange (crypto : Crypto) (range : BlockRange) (cached : List ConsensusBlockHeader) : BlockRange where
  lastBlockId := (cached.getLast?.map crypto.getId).getD range.lastBlockId
  numBlocks := range.numBlocks + cached.length

def handlePeerHeadersRequest (sender : NodeId) (range : BlockRange) (s : BlockSync) : BlockSyncOutcome :=
  if range.numBlocks = 0 then .ok s []
  else
    let cached := w.cachedBlocks range
    if cached.length = range.numBlocks then
      if cached.getLast?.map w.crypto.getId ≠ some range.lastBlockId then .panic .cachedRange
      else .ok s [.sendResponse sender (.headersResponse (.found range cached))]
    else
      let ledgerRange := ledgerFetchRange range cached
      let entry := (s.headersRequests.lookup ledgerRange).getD .empty
      .ok { s with headersRequests := s.headersRequests.insert ledgerRange (entry.insert sender cached) }
        [.fetchHeaders ledgerRange]

def handlePeerPayloadRequest (sender : NodeId) (id : Bytes) (s : BlockSync) : BlockSyncOutcome :=
  match w.getCachedPayload s id with
  | some payload => .ok s [.sendResponse sender (.payloadResponse (.found payload))]
  | none =>
    let entry := (s.payloadRequests.lookup id).getD .empty
    .ok { s with payloadRequests := s.payloadRequests.insert id (entry.insert sender ()) } [.fetchPayload id]

def handlePeerRequest (sender : NodeId) (request : BlockSyncRequestMessage) (s : BlockSync) : BlockSyncOutcome :=
  match request with
  | .headers range => w.handlePeerHeadersRequest sender range s
  | .payload id => w.handlePeerPayloadRequest sender id s

/-! ## Responses and timeouts -/

/-- What a peer is answered when the ledger has answered for the ledger part of its request. -/
def peerHeadersResponse (response : BlockSyncHeadersResponse) (cached : List ConsensusBlockHeader) :
    Except BlockSyncPanic BlockSyncHeadersResponse :=
  match response with
  | .found range headers =>
    if w.linked (headers ++ cached) then .ok (.found (requestedBlockRange w.crypto range cached) (headers ++ cached))
    else .error .unlinkedHeaders
  | .notAvailable range => .ok (.notAvailable (requestedBlockRange w.crypto range cached))

/-- The loop over the peers that wait for a range of the ledger. -/
def respondHeaders (response : BlockSyncHeadersResponse) :
    List (NodeId × List ConsensusBlockHeader) → BlockSync → BlockSyncOutcome
  | [], s => .ok s []
  | (requester, cached) :: rest, s =>
    match w.peerHeadersResponse response cached with
    | .error reason => .panic reason
    | .ok answer =>
      (Outcome.ok s [.sendResponse requester (.headersResponse answer)]).andThen (respondHeaders response rest)

def handleLedgerResponse (response : BlockSyncResponseMessage) (s : BlockSync) : BlockSyncOutcome :=
  match response with
  | .headersResponse headers =>
    let range := headers.getBlockRange
    let requesters := ((s.headersRequests.lookup range).getD .empty).entries
    (w.respondHeaders headers requesters { s with headersRequests := s.headersRequests.erase range }).andThen
      (w.handleHeadersResponseForSelf none headers)
  | .payloadResponse payload =>
    let id := payload.getPayloadId w.crypto
    let requesters := ((s.payloadRequests.lookup id).getD .empty).keys
    (Outcome.ok { s with payloadRequests := s.payloadRequests.erase id }
      (requesters.map fun requester => .sendResponse requester (.payloadResponse payload))).andThen
      (w.handlePayloadResponseForSelf none payload)

def handlePeerResponse (sender : NodeId) (response : BlockSyncResponseMessage) (s : BlockSync) : BlockSyncOutcome :=
  match response with
  | .headersResponse headers => w.handleHeadersResponseForSelf (some sender) headers s
  | .payloadResponse payload => w.handlePayloadResponseForSelf (some sender) payload s

def handleTimeout (request : BlockSyncRequestMessage) (s : BlockSync) : BlockSyncOutcome :=
  match request with
  | .headers range =>
    match s.selfHeadersRequests.lookup range with
    | none => .ok s []
    | some request => if request.recipient.isSome then w.requestHeaders range request s else .ok s []
  | .payload id =>
    match s.selfPayloadRequests.lookup id with
    | some (some request) => if request.recipient.isSome then w.requestPayload id request s else .ok s []
    | _ => .ok s []

/-! ## Calls -/

end BlockSyncWrapper

inductive BlockSyncCall where
  | selfRequest (requester : BlockSyncSelfRequester) (range : BlockRange)
  | selfCancelRequest (requester : BlockSyncSelfRequester) (range : BlockRange)
  | peerRequest (sender : NodeId) (request : BlockSyncRequestMessage)
  | ledgerResponse (response : BlockSyncResponseMessage)
  | peerResponse (sender : NodeId) (response : BlockSyncResponseMessage)
  | timeout (request : BlockSyncRequestMessage)
deriving DecidableEq

def BlockSyncWrapper.handle (w : BlockSyncWrapper) (call : BlockSyncCall) (s : BlockSync) : BlockSyncOutcome :=
  match call with
  | .selfRequest requester range => handleSelfRequest requester range s
  | .selfCancelRequest requester range => .ok (handleSelfCancelRequest requester range s) []
  | .peerRequest sender request => w.handlePeerRequest sender request s
  | .ledgerResponse response => w.handleLedgerResponse response s
  | .peerResponse sender response => w.handlePeerResponse sender response s
  | .timeout request => w.handleTimeout request s

structure BlockSyncHandled where
  w : BlockSyncWrapper
  call : BlockSyncCall
  commands : List BlockSyncCommand

/-- A call that returns, with the hash functions of the chain. -/
def BlockSync.Handles (crypto : Crypto) (s : BlockSync) (entry : BlockSyncHandled) (s' : BlockSync) : Prop :=
  entry.w.crypto = crypto ∧ entry.w.handle entry.call s = .ok s' entry.commands

namespace BlockSync

def replay : List (BlockSyncWrapper × BlockSyncCall) → BlockSync →
    Option (BlockSync × List (BlockSync × BlockSyncHandled))
  | [], s => some (s, [])
  | (w, call) :: rest, s =>
    match w.handle call s with
    | .panic _ => none
    | .ok t commands => (replay rest t).map fun (s', history) => (s', (s, ⟨w, call, commands⟩) :: history)

theorem trace_of_replay {crypto : Crypto} {calls : List (BlockSyncWrapper × BlockSyncCall)} {s s' : BlockSync}
    {history : List (BlockSync × BlockSyncHandled)} (same : ∀ c ∈ calls, c.1.crypto = crypto)
    (replayed : replay calls s = some (s', history)) :
    Trace (Trace.Recorded (Handles crypto)) s history s' ∧ history.map (fun e => (e.2.w, e.2.call)) = calls := by
  induction calls generalizing s history with
  | nil =>
    obtain ⟨rfl, rfl⟩ := Prod.mk.inj (Option.some.inj replayed)
    exact ⟨.nil, rfl⟩
  | cons first rest ih =>
    obtain ⟨w, call⟩ := first
    rw [replay] at replayed
    cases returns : w.handle call s with
    | panic reason => simp [returns] at replayed
    | ok t commands =>
      simp only [returns, Option.map_eq_some_iff, Prod.exists, Prod.mk.injEq] at replayed
      obtain ⟨u, later, found, rfl, rfl⟩ := replayed
      have step : Trace (Trace.Recorded (Handles crypto)) s [(s, ⟨w, call, commands⟩)] t :=
        .single ⟨rfl, same _ (.head _), returns⟩
      obtain ⟨trace, calls⟩ := ih (fun c mem => same c (.tail _ mem)) found
      exact ⟨step.append trace, by rw [List.map_cons, calls]⟩

/-- A run with a decidable property. -/
theorem exists_run_of_replay (crypto : Crypto) (calls : List (BlockSyncWrapper × BlockSyncCall)) (s : BlockSync)
    (same : ∀ c ∈ calls, c.1.crypto = crypto) (P : BlockSync → List (BlockSync × BlockSyncHandled) → Bool)
    (h : ((replay calls s).any fun r => P r.1 r.2) = true) :
    ∃ history s', Trace (Trace.Recorded (Handles crypto)) s history s' ∧
      history.map (fun e => (e.2.w, e.2.call)) = calls ∧ P s' history = true := by
  obtain ⟨⟨s', history⟩, replayed, holds⟩ := Option.any_eq_true _ _ |>.mp h
  obtain ⟨trace, made⟩ := trace_of_replay same replayed
  exact ⟨history, s', trace, made, holds⟩

end BlockSync

end MonadBft
