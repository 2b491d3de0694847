import MonadBft.BlockSync

/-! # What the handlers of block sync can do

Every handler other than that of a self request takes the state through a sequence of
elementary effects, each with the commands that go with it; when it panics, it does so in a
state that such a sequence leads to. Invariants are then shown for one effect at a time.
-/

namespace MonadBft

open BlockSyncWrapper AList List

namespace BlockSync

/-- The calls that run `try_initiate_payload_requests_for_self`: responses to a pending request. -/
def RunsTryInitiate (w : BlockSyncWrapper) (s : BlockSync) : BlockSyncCall → Prop
  | .ledgerResponse (.headersResponse response) => (s.selfHeadersRequests.lookup response.getBlockRange).isSome
  | .peerResponse _ (.headersResponse response) => (s.selfHeadersRequests.lookup response.getBlockRange).isSome
  | .ledgerResponse (.payloadResponse response) =>
    ∃ request, s.selfPayloadRequests.lookup (response.getPayloadId w.crypto) = some (some request)
  | .peerResponse _ (.payloadResponse response) =>
    ∃ request, s.selfPayloadRequests.lookup (response.getPayloadId w.crypto) = some (some request)
  | _ => False

def ServesPeers : BlockSyncCall → Prop
  | .peerRequest _ _ => True
  | .ledgerResponse _ => True
  | _ => False

/-- One change of the state. Payloads are taken from the cache only while a response is handled, and the requests
of peers change only while one arrives or the ledger responds. -/
inductive Effect (w : BlockSyncWrapper) (responding serving : Prop) :
    BlockSync → List BlockSyncCommand → BlockSync → Prop where
  | cancelHeaders (s : BlockSync) (range : BlockRange) :
      Effect w responding serving s [] { s with selfHeadersRequests := s.selfHeadersRequests.erase range }
  | cancelCompleted (s : BlockSync) (range : BlockRange) :
      Effect w responding serving s []
        { s with selfCompletedHeadersRequests := s.selfCompletedHeadersRequests.erase range }
  | requestHeaders {s : BlockSync} {range : BlockRange} {request : SelfRequest} (peer : NodeId)
      (known : s.selfHeadersRequests.lookup range = some request) :
      Effect w responding serving s [.sendRequest peer (.headers range), .scheduleTimeout (.headers range)]
        { s with selfHeadersRequests := s.selfHeadersRequests.insert range { request with recipient := some peer } }
  | requestPayload {s : BlockSync} {id : Bytes} {request : SelfRequest} (peer : NodeId)
      (known : s.selfPayloadRequests.lookup id = some (some request)) :
      Effect w responding serving s [.sendRequest peer (.payload id), .scheduleTimeout (.payload id)]
        { s with selfPayloadRequests := s.selfPayloadRequests.insert id (some { request with recipient := some peer }) }
  | completeHeaders {s : BlockSync} {range : BlockRange} {request : SelfRequest} {headers : List ConsensusBlockHeader}
      (sender : Option NodeId) (known : s.selfHeadersRequests.lookup range = some request)
      (verified : w.verifyBlockHeaders range headers = .ok true) :
      Effect w responding serving s (resetTimeout sender (.headers range)) (completeHeaders range headers s)
  | supplyCached {s : BlockSync} {id payload : Bytes} {request : Option SelfRequest} (response : responding)
      (known : s.selfPayloadRequests.lookup id = some request) (cached : w.getCachedPayload s id = some payload) :
      Effect w responding serving s [] (supply id payload s)
  | answer {s : BlockSync} {payload : Bytes} {request : SelfRequest} (sender : Option NodeId)
      (known : s.selfPayloadRequests.lookup (w.crypto.getBodyId payload) = some (some request))
      (positive : ¬(s.selfPayloadRequestsInFlight = 0 ∨ s.metricsInFlight = 0)) :
      Effect w responding serving s (resetTimeout sender (.payload (w.crypto.getBodyId payload)))
        (supply (w.crypto.getBodyId payload) payload
          { s with
            selfPayloadRequestsInFlight := s.selfPayloadRequestsInFlight - 1
            metricsInFlight := s.metricsInFlight - 1 })
  | initiate {s : BlockSync} {id : Bytes} (known : s.selfPayloadRequests.lookup id = some none)
      (uncached : w.getCachedPayload s id = none) (free : s.selfPayloadRequestsInFlight < maxPayloadRequests) :
      Effect w responding serving s [.fetchPayload id]
        { s with
          selfPayloadRequests :=
            s.selfPayloadRequests.insert id (some { requester := s.selfRequestMode, recipient := none })
          selfPayloadRequestsInFlight := s.selfPayloadRequestsInFlight + 1
          metricsInFlight := s.metricsInFlight + 1 }
  | emit {s : BlockSync} {range : BlockRange} {completed : SelfCompletedHeader} {blocks : List ConsensusFullBlock}
      (known : s.selfCompletedHeadersRequests.lookup range = some completed)
      (full : w.fullBlocks completed.blocks = .ok blocks) :
      Effect w responding serving s [.emit completed.requester range blocks]
        { s with selfCompletedHeadersRequests := s.selfCompletedHeadersRequests.erase range }
  | fetchHeaders {s : BlockSync} (peers : serving) (sender : NodeId) (range : BlockRange) :
      Effect w responding serving s [.fetchHeaders (ledgerFetchRange range (w.cachedBlocks range))]
        { s with
          headersRequests := s.headersRequests.insert (ledgerFetchRange range (w.cachedBlocks range))
            (((s.headersRequests.lookup (ledgerFetchRange range (w.cachedBlocks range))).getD .empty).insert sender
              (w.cachedBlocks range)) }
  | fetchPayload {s : BlockSync} (peers : serving) (id : Bytes) (requesters : SortedMap NodeId Unit) :
      Effect w responding serving s [.fetchPayload id]
        { s with payloadRequests := s.payloadRequests.insert id requesters }
  | dropHeadersRequests (s : BlockSync) (peers : serving) (range : BlockRange) :
      Effect w responding serving s [] { s with headersRequests := s.headersRequests.erase range }
  | dropPayloadRequests (s : BlockSync) (peers : serving) (id : Bytes) :
      Effect w responding serving s [] { s with payloadRequests := s.payloadRequests.erase id }
  | respond (s : BlockSync) (peers : serving) (recipient : NodeId) (response : BlockSyncResponseMessage) :
      Effect w responding serving s [.sendResponse recipient response] s

/-- The calls that can pick a peer to ask: the ledger does not have what was requested, or a peer did not answer. -/
def Picks : BlockSyncCall → Prop
  | .ledgerResponse (.headersResponse (.notAvailable _)) => True
  | .ledgerResponse (.payloadResponse (.notAvailable _)) => True
  | .timeout _ => True
  | _ => False

/-- Why a call can panic. -/
inductive PanicCause (w : BlockSyncWrapper) (call : BlockSyncCall) (s : BlockSync) : BlockSyncPanic → Prop where
  | pickPeer {reason : BlockSyncPanic} (picks : Picks call) (failed : w.pickPeer s.overridePeers = .error reason) :
      PanicCause w call s reason
  | headersRequester {range : BlockRange} {request : SelfRequest}
      (known : s.selfHeadersRequests.lookup range = some request) (other : request.requester ≠ s.selfRequestMode) :
      PanicCause w call s .requesterMismatch
  | payloadRequester {id : Bytes} {request : SelfRequest}
      (known : s.selfPayloadRequests.lookup id = some (some request)) (other : request.requester ≠ s.selfRequestMode) :
      PanicCause w call s .requesterMismatch
  | verification {range : BlockRange} {request : SelfRequest} {headers : List ConsensusBlockHeader}
      {reason : BlockSyncPanic} (known : s.selfHeadersRequests.lookup range = some request)
      (failed : w.verifyBlockHeaders range headers = .error reason) : PanicCause w call s reason
  | ledgerHeaders {range : BlockRange} {headers : List ConsensusBlockHeader}
      (ledger : call = .ledgerResponse (.headersResponse (.found range headers)))
      (invalid : w.verifyBlockHeaders range headers = .ok false) : PanicCause w call s .ledgerHeaders
  | underflow {id : Bytes} {request : SelfRequest} (known : s.selfPayloadRequests.lookup id = some (some request))
      (zero : s.selfPayloadRequestsInFlight = 0 ∨ s.metricsInFlight = 0) : PanicCause w call s .inFlightUnderflow
  | fullBlocks {range : BlockRange} {completed : SelfCompletedHeader} {reason : BlockSyncPanic}
      (known : s.selfCompletedHeadersRequests.lookup range = some completed) (complete : completed.isComplete = true)
      (failed : w.fullBlocks completed.blocks = .error reason) : PanicCause w call s reason
  | cachedRange {range : BlockRange} (nonempty : range.numBlocks ≠ 0)
      (full : (w.cachedBlocks range).length = range.numBlocks)
      (other : (w.cachedBlocks range).getLast?.map w.crypto.getId ≠ some range.lastBlockId) :
      PanicCause w call s .cachedRange
  | peerHeaders {response : BlockSyncHeadersResponse} {requesters : SortedMap NodeId (List ConsensusBlockHeader)}
      {requester : NodeId} {cached : List ConsensusBlockHeader} {reason : BlockSyncPanic}
      (ledger : call = .ledgerResponse (.headersResponse response))
      (waiting : s.headersRequests.lookup response.getBlockRange = some requesters)
      (mem : (requester, cached) ∈ requesters) (failed : w.peerHeadersResponse response cached = .error reason) :
      PanicCause w call s reason

/-- The outcome of a sequence of effects. -/
def Refines (w : BlockSyncWrapper) (responding serving : Prop) (call : BlockSyncCall) (s : BlockSync)
    (x : BlockSyncOutcome) : Prop :=
  x.Sat (fun reason => ∃ labels t, Trace (Effect w responding serving) s labels t ∧ PanicCause w call t reason)
    fun s' commands => ∃ labels, Trace (Effect w responding serving) s labels s' ∧ labels.flatten = commands

variable {w : BlockSyncWrapper} {responding serving : Prop} {call : BlockSyncCall} {s s' : BlockSync}

namespace Refines

theorem ok_nil : Refines w responding serving call s (.ok s []) := ⟨[], .nil, rfl⟩

theorem of_effect {commands : List BlockSyncCommand} (effect : Effect w responding serving s commands s') :
    Refines w responding serving call s (.ok s' commands) :=
  ⟨[commands], .single effect, by simp⟩

theorem panic {reason : BlockSyncPanic} (cause : PanicCause w call s reason) :
    Refines w responding serving call s (.panic reason) :=
  ⟨[], s, .nil, cause⟩

theorem andThen {x : BlockSyncOutcome} {next : BlockSync → BlockSyncOutcome}
    (first : Refines w responding serving call s x)
    (second : ∀ t c, x = .ok t c → Refines w responding serving call t (next t)) :
    Refines w responding serving call s (x.andThen next) := by
  cases x with
  | panic reason => exact first
  | ok t c =>
    obtain ⟨labels, before, same⟩ := first
    have after := second t c rfl
    rw [Outcome.andThen]
    cases result : next t with
    | panic reason =>
      rw [result] at after
      obtain ⟨labels', u, trace, cause⟩ := after
      exact ⟨labels ++ labels', u, before.append trace, cause⟩
    | ok u c' =>
      rw [result] at after
      obtain ⟨labels', trace, same'⟩ := after
      exact ⟨labels ++ labels', before.append trace, by rw [flatten_append, same, same']⟩

end Refines

/-! ## Payloads and completed ranges -/

variable {id id' payload : Bytes} {x : BlockSyncOutcome} {request : SelfRequest} {sender : Option NodeId}
  {response : BlockSyncHeadersResponse} {requesters : List (NodeId × List ConsensusBlockHeader)}
  {commands : List BlockSyncCommand}

theorem lookup_supply_ne (other : id ≠ id') :
    (supply id' payload s).selfPayloadRequests.lookup id = s.selfPayloadRequests.lookup id :=
  lookup_erase_ne other

theorem getCachedPayload_supply_ne (other : id ≠ id') :
    w.getCachedPayload (supply id' payload s) id = w.getCachedPayload s id := by
  have same : ∀ completed : SelfCompletedHeader,
      (completed.fill id' payload).payloadCache.lookup id = completed.payloadCache.lookup id := by
    intro completed
    rw [SelfCompletedHeader.fill]
    split
    · exact lookup_insert_ne other
    · rfl
  simp only [getCachedPayload, supply, mapValues, findSome?_map, Function.comp_def, same]

/-- Every requested payload that the first loop leaves is not cached. -/
theorem supplyCached_spec (w : BlockSyncWrapper) (response : responding) {ids : List Bytes} (distinct : ids.Nodup)
    (known : ∀ id ∈ ids, id ∈ s.selfPayloadRequests) :
    (∃ labels, Trace (Effect w responding serving) s labels (w.supplyCached ids s) ∧ labels.flatten = []) ∧
      ∀ id ∈ (w.supplyCached ids s).selfPayloadRequests,
        id ∈ s.selfPayloadRequests ∧
          (id ∈ ids ∨ w.getCachedPayload s id = none → w.getCachedPayload (w.supplyCached ids s) id = none) := by
  induction ids generalizing s with
  | nil => exact ⟨⟨[], .nil, rfl⟩, fun id mem => ⟨mem, by simp [BlockSyncWrapper.supplyCached]⟩⟩
  | cons first rest ih =>
    obtain ⟨notLater, distinct⟩ := nodup_cons.mp distinct
    rw [BlockSyncWrapper.supplyCached]
    cases cached : w.getCachedPayload s first with
    | none =>
      obtain ⟨trace, left⟩ := ih distinct fun id mem => known id (.tail _ mem)
      refine ⟨trace, fun id mem => ⟨(left id mem).1, ?_⟩⟩
      rintro (listed | uncached)
      · cases listed with
        | head => exact (left _ mem).2 (.inr cached)
        | tail _ later => exact (left _ mem).2 (.inl later)
      · exact (left _ mem).2 (.inr uncached)
    | some payload =>
      obtain ⟨request, found⟩ := lookup_isSome.mpr (known first (.head _)) |> Option.isSome_iff_exists.mp
      have later : ∀ id ∈ rest, id ∈ (supply first payload s).selfPayloadRequests := by
        intro id mem
        have other : id ≠ first := fun same => notLater (same ▸ mem)
        rw [← lookup_isSome, lookup_supply_ne other, lookup_isSome]
        exact known id (.tail _ mem)
      obtain ⟨⟨labels, trace, silent⟩, left⟩ := ih distinct later
      refine ⟨⟨[] :: labels, ?_, by simpa using silent⟩, fun id mem => ?_⟩
      · exact trace.cons (.supplyCached response found cached)
      · obtain ⟨kept, uncached⟩ := left id mem
        have other : id ≠ first := by
          rintro rfl
          simp [supply] at kept
        refine ⟨?_, ?_⟩
        · rwa [← lookup_isSome, lookup_supply_ne other, lookup_isSome] at kept
        · rw [getCachedPayload_supply_ne other] at uncached
          simpa [other] using uncached

theorem exists_of_find_isNone {requests : AList fun _ : Bytes => Option SelfRequest}
    {e : Sigma fun _ : Bytes => Option SelfRequest}
    (found : requests.entries.find? (·.2.isNone) = some e) : requests.lookup e.1 = some none := by
  obtain ⟨id, request⟩ := e
  have none : request = none := by simpa using find?_some found
  subst none
  exact mem_lookup_iff.mpr (mem_of_find?_eq_some found)

theorem initiate_refines {free : Nat} (room : free ≤ maxPayloadRequests - s.selfPayloadRequestsInFlight)
    (uncached : ∀ id ∈ s.selfPayloadRequests, w.getCachedPayload s id = none) :
    Refines w responding serving call s (initiate free s) := by
  induction free generalizing s with
  | zero => exact .ok_nil
  | succ free ih =>
    rw [initiate]
    cases found : s.selfPayloadRequests.entries.find? (·.2.isNone) with
    | none => exact .ok_nil
    | some e =>
      have known := exists_of_find_isNone found
      have mem := lookup_isSome.mp (by rw [known]; rfl)
      refine (Refines.of_effect (.initiate known (uncached _ mem) (by omega))).andThen fun t c same => ?_
      cases same
      refine ih (by simp only; omega) fun id mem' => ?_
      rw [mem_insert] at mem'
      rcases mem' with rfl | old
      · exact uncached _ mem
      · exact uncached id old

theorem emitRanges_refines {ranges : List BlockRange} (distinct : ranges.Nodup)
    (complete : ∀ range ∈ ranges, ∃ completed,
      s.selfCompletedHeadersRequests.lookup range = some completed ∧ completed.isComplete = true) :
    Refines w responding serving call s (w.emitRanges ranges s) := by
  induction ranges generalizing s with
  | nil => exact .ok_nil
  | cons range rest ih =>
    obtain ⟨notLater, distinct⟩ := nodup_cons.mp distinct
    obtain ⟨completed, known, all⟩ := complete range (.head _)
    rw [emitRanges]
    simp only [known]
    cases full : w.fullBlocks completed.blocks with
    | error reason => exact .panic (.fullBlocks known all full)
    | ok blocks =>
      refine (Refines.of_effect (.emit known full)).andThen fun t c same => ?_
      cases same
      refine ih distinct fun later mem => ?_
      have other : later ≠ range := fun same => notLater (same ▸ mem)
      rw [lookup_erase_ne other]
      exact complete later (.tail _ mem)

theorem handleCompletedRanges_refines (w : BlockSyncWrapper) (s : BlockSync) :
    Refines w responding serving call s (w.handleCompletedRanges s) := by
  refine emitRanges_refines ?_ fun range mem => ?_
  · exact (List.Sublist.map _ filter_sublist).nodup s.selfCompletedHeadersRequests.nodupKeys
  · obtain ⟨⟨range, completed⟩, listed, rfl⟩ := mem_map.mp mem
    obtain ⟨stored, all⟩ := List.mem_filter.mp listed
    exact ⟨completed, mem_lookup_iff.mpr stored, all⟩

theorem Refines.of_silent {labels : List (List BlockSyncCommand)} {t : BlockSync}
    (before : Trace (Effect w responding serving) s labels t) (silent : labels.flatten = [])
    (after : Refines w responding serving call t x) : Refines w responding serving call s x := by
  cases x with
  | panic reason =>
    obtain ⟨labels', u, trace, cause⟩ := after
    exact ⟨labels ++ labels', u, before.append trace, cause⟩
  | ok u c =>
    obtain ⟨labels', trace, same⟩ := after
    exact ⟨labels ++ labels', before.append trace, by rw [flatten_append, silent, same, nil_append]⟩

theorem tryInitiate_refines (response : responding) (s : BlockSync) :
    Refines w responding serving call s (w.tryInitiatePayloadRequestsForSelf s) := by
  obtain ⟨⟨labels, trace, silent⟩, uncached⟩ :=
    supplyCached_spec w response s.selfPayloadRequests.keys_nodup fun id mem => mem_keys.mpr mem
  refine .of_silent trace silent ((initiate_refines le_rfl fun id mem => ?_).andThen fun t _ _ =>
    handleCompletedRanges_refines w t)
  obtain ⟨known, left⟩ := uncached id mem
  exact left (.inl (mem_keys.mp known))

/-! ## Responses to the node itself -/

theorem requestHeaders_refines {range : BlockRange} (known : s.selfHeadersRequests.lookup range = some request)
    (picks : Picks call) :
    Refines w responding serving call s (w.requestHeaders range request s) := by
  rw [BlockSyncWrapper.requestHeaders]
  cases picked : w.pickPeer s.overridePeers with
  | error reason => exact .panic (.pickPeer picks picked)
  | ok peer => exact .of_effect (.requestHeaders peer known)

theorem requestPayload_refines (known : s.selfPayloadRequests.lookup id = some (some request)) (picks : Picks call) :
    Refines w responding serving call s (w.requestPayload id request s) := by
  rw [BlockSyncWrapper.requestPayload]
  cases picked : w.pickPeer s.overridePeers with
  | error reason => exact .panic (.pickPeer picks picked)
  | ok peer => exact .of_effect (.requestPayload peer known)

theorem settleHeaders_refines (known : s.selfHeadersRequests.lookup response.getBlockRange = some request)
    (ledger : sender = none → call = .ledgerResponse (.headersResponse response)) :
    Refines w responding serving call s (w.settleHeaders sender request response s) := by
  cases response with
  | found range headers =>
    simp only [settleHeaders]
    split
    next other => exact .panic (.headersRequester known other)
    next =>
      cases verified : w.verifyBlockHeaders range headers with
      | error reason => exact .panic (.verification known verified)
      | ok valid =>
        cases valid with
        | true => exact .of_effect (.completeHeaders sender known verified)
        | false =>
          cases sender with
          | none => exact .panic (.ledgerHeaders (ledger rfl) verified)
          | some peer => exact .ok_nil
  | notAvailable range =>
    simp only [settleHeaders]
    split
    next asked =>
      have picks : Picks call := by
        rw [ledger (Option.isNone_iff_eq_none.mp asked.1)]
        trivial
      exact requestHeaders_refines known picks
    next => exact .ok_nil

theorem handleHeadersResponseForSelf_refines
    (responds : (s.selfHeadersRequests.lookup response.getBlockRange).isSome → responding)
    (ledger : sender = none → call = .ledgerResponse (.headersResponse response)) :
    Refines w responding serving call s (w.handleHeadersResponseForSelf sender response s) := by
  rw [handleHeadersResponseForSelf]
  cases known : s.selfHeadersRequests.lookup response.getBlockRange with
  | none => exact .ok_nil
  | some request =>
    exact (settleHeaders_refines known ledger).andThen fun t _ _ => tryInitiate_refines
      (responds (by rw [known]; rfl)) t

theorem settlePayload_refines {response : BlockSyncBodyResponse}
    (known : s.selfPayloadRequests.lookup (response.getPayloadId w.crypto) = some (some request))
    (ledger : sender = none → call = .ledgerResponse (.payloadResponse response)) :
    Refines w responding serving call s (w.settlePayload sender request response s) := by
  cases response with
  | found payload =>
    simp only [settlePayload]
    split
    next other => exact .panic (.payloadRequester known other)
    next =>
      split
      next zero => exact .panic (.underflow known zero)
      next positive => exact .of_effect (.answer sender known positive)
  | notAvailable id =>
    simp only [settlePayload]
    split
    next asked =>
      have picks : Picks call := by
        rw [ledger (Option.isNone_iff_eq_none.mp asked.1)]
        trivial
      exact requestPayload_refines known picks
    next => exact .ok_nil

theorem handlePayloadResponseForSelf_refines {response : BlockSyncBodyResponse}
    (responds : ∀ request, s.selfPayloadRequests.lookup (response.getPayloadId w.crypto) = some (some request) →
      responding)
    (ledger : sender = none → call = .ledgerResponse (.payloadResponse response)) :
    Refines w responding serving call s (w.handlePayloadResponseForSelf sender response s) := by
  rw [handlePayloadResponseForSelf]
  cases known : s.selfPayloadRequests.lookup (response.getPayloadId w.crypto) with
  | none => exact .ok_nil
  | some initiated =>
    cases initiated with
    | none => exact .ok_nil
    | some request =>
      exact ((settlePayload_refines known ledger).andThen fun t _ _ => handleCompletedRanges_refines w t).andThen
        fun t _ _ => tryInitiate_refines (responds request known) t

/-! ## The other handlers -/

theorem handleSelfCancelRequest_refines (requester : BlockSyncSelfRequester) (range : BlockRange) :
    Refines w responding serving call s (.ok (handleSelfCancelRequest requester range s) []) := by
  have headers : Refines w responding serving call s (.ok (cancelHeadersRequest requester range s) []) := by
    rw [cancelHeadersRequest]
    split
    · split
      · exact .of_effect (.cancelHeaders s range)
      · exact .ok_nil
    · exact .ok_nil
  have completed (t : BlockSync) : Refines w responding serving call t
    (.ok (cancelCompletedRequest requester range t) []) := by
    rw [cancelCompletedRequest]
    split
    · split
      · exact .of_effect (.cancelCompleted t range)
      · exact .ok_nil
    · exact .ok_nil
  obtain ⟨labels, trace, silent⟩ := headers
  exact .of_silent trace silent (completed _)

theorem handlePeerRequest_refines (peers : serving) (sender : NodeId) (request : BlockSyncRequestMessage) :
    Refines w responding serving call s (w.handlePeerRequest sender request s) := by
  cases request with
  | headers range =>
    simp only [handlePeerRequest, handlePeerHeadersRequest]
    split
    next => exact .ok_nil
    next nonempty =>
      split
      next full =>
        split
        next other => exact .panic (.cachedRange nonempty full other)
        next => exact .of_effect (.respond s peers _ _)
      next => exact .of_effect (.fetchHeaders peers sender range)
  | payload id =>
    simp only [handlePeerRequest, handlePeerPayloadRequest]
    split
    next => exact .of_effect (.respond s peers _ _)
    next => exact .of_effect (.fetchPayload peers id _)

variable (responding) in
/-- Answering the peers that wait leaves the state as it is. -/
theorem respondHeaders_sat (peers : serving) {Allowed : BlockSyncPanic → Prop}
    (allowed : ∀ e ∈ requesters, ∀ reason, w.peerHeadersResponse response e.2 = .error reason → Allowed reason)
    (t : BlockSync) :
    (w.respondHeaders response requesters t).Sat Allowed fun t' commands =>
      t' = t ∧ ∃ labels, Trace (Effect w responding serving) t labels t ∧ labels.flatten = commands := by
  induction requesters with
  | nil => exact ⟨rfl, [], .nil, rfl⟩
  | cons e rest ih =>
    obtain ⟨requester, cached⟩ := e
    rw [respondHeaders]
    cases answered : w.peerHeadersResponse response cached with
    | error reason => exact allowed _ (.head _) reason answered
    | ok answer =>
      have later := ih fun e mem => allowed e (.tail _ mem)
      have first : (Outcome.ok t [BlockSyncCommand.sendResponse requester (.headersResponse answer)]).Sat Allowed
          fun t' c => t' = t ∧ c = [.sendResponse requester (.headersResponse answer)] := ⟨rfl, rfl⟩
      refine first.andThen ?_
      rintro _ _ ⟨rfl, rfl⟩
      refine later.mono (fun _ => id) ?_
      rintro _ _ ⟨same, labels, trace, rfl⟩
      exact ⟨same, _, trace.cons (.respond _ peers _ _), flatten_cons⟩

theorem respondHeaders_state {t t' : BlockSync} (returns : w.respondHeaders response requesters t = .ok t' commands) :
    t' = t := by
  have sat : (w.respondHeaders response requesters t).Sat (fun _ => True) _ :=
    respondHeaders_sat True trivial (fun _ _ _ _ => trivial) t
  exact (sat.of_ok returns).1

theorem respondAll_trace (peers : serving) (responses : List (NodeId × BlockSyncResponseMessage)) (t : BlockSync) :
    ∃ labels, Trace (Effect w responding serving) t labels t ∧
      labels.flatten = responses.map fun e => .sendResponse e.1 e.2 := by
  induction responses with
  | nil => exact ⟨[], .nil, rfl⟩
  | cons e rest ih =>
    obtain ⟨labels, trace, flat⟩ := ih
    exact ⟨_, trace.cons (.respond t peers e.1 e.2), by simp [flat]⟩

theorem handleLedgerResponse_refines (peers : serving) (response : BlockSyncResponseMessage)
    (responds : RunsTryInitiate w s (.ledgerResponse response) → responding) :
    Refines w responding serving (.ledgerResponse response) s (w.handleLedgerResponse response s) := by
  cases response with
  | headersResponse headers =>
    rw [handleLedgerResponse]
    refine Refines.andThen ?_ fun t _ first => handleHeadersResponseForSelf_refines ?_ fun _ => rfl
    have dropped : Trace (Effect w responding serving) s [[]] _ :=
      .single (.dropHeadersRequests s peers headers.getBlockRange)
    refine (respondHeaders_sat responding peers (fun e mem reason failed => ?_) _).mono
      (fun reason cause => ⟨[], s, .nil, cause⟩) ?_
    · cases waiting : s.headersRequests.lookup headers.getBlockRange with
      | none =>
        rw [waiting] at mem
        cases mem
      | some requesters =>
        rw [waiting] at mem
        exact .peerHeaders rfl waiting mem failed
    · rintro _ _ ⟨rfl, labels, trace, rfl⟩
      exact ⟨_, dropped.append trace, by simp⟩
    · rw [respondHeaders_state first]
      exact responds
  | payloadResponse payload =>
    rw [handleLedgerResponse]
    refine Refines.andThen ?_ fun t c first => handlePayloadResponseForSelf_refines ?_ fun _ => rfl
    have dropped : Trace (Effect w responding serving) s [[]] _ :=
      .single (.dropPayloadRequests s peers (payload.getPayloadId w.crypto))
    obtain ⟨labels, trace, flat⟩ := respondAll_trace peers
      (((s.payloadRequests.lookup (payload.getPayloadId w.crypto)).getD .empty).keys.map
        fun requester => (requester, .payloadResponse payload)) _
    · exact ⟨_, dropped.append trace, by simp [flat, Function.comp_def]⟩
    · cases first
      exact fun request known => responds ⟨request, known⟩

theorem handleTimeout_refines (request : BlockSyncRequestMessage) :
    Refines w responding serving (.timeout request) s (w.handleTimeout request s) := by
  cases request with
  | headers range =>
    simp only [handleTimeout]
    split
    next => exact .ok_nil
    next request known =>
      split
      next => exact requestHeaders_refines known trivial
      next => exact .ok_nil
  | payload id =>
    simp only [handleTimeout]
    split
    next request known =>
      split
      next => exact requestPayload_refines known trivial
      next => exact .ok_nil
    next => exact .ok_nil

theorem handle_refines (w : BlockSyncWrapper) (s : BlockSync) (call : BlockSyncCall)
    (foreign : ∀ requester range, call ≠ .selfRequest requester range) :
    Refines w (RunsTryInitiate w s call) (ServesPeers call) call s (w.handle call s) := by
  cases call with
  | selfRequest requester range => exact absurd rfl (foreign requester range)
  | selfCancelRequest requester range => exact handleSelfCancelRequest_refines requester range
  | peerRequest sender request => exact handlePeerRequest_refines trivial sender request
  | ledgerResponse response => exact handleLedgerResponse_refines trivial response id
  | peerResponse sender response =>
    cases response with
    | headersResponse headers => exact handleHeadersResponseForSelf_refines id fun ledger => nomatch ledger
    | payloadResponse payload =>
      exact handlePayloadResponseForSelf_refines (fun request known => ⟨request, known⟩) fun ledger => nomatch ledger
  | timeout request => exact handleTimeout_refines request

/-- An invariant of the effects is one of the handlers. -/
theorem Refines.invariant {Inv : BlockSync → Prop} (refines : Refines w responding serving call s x)
    (returns : x = .ok s' commands) (kept : ∀ t c t', Effect w responding serving t c t' → Inv t → Inv t')
    (start : Inv s) : Inv s' := by
  subst returns
  obtain ⟨labels, trace, -⟩ := refines
  induction trace with
  | nil => exact start
  | snoc _ taken ih => exact kept _ _ _ taken ih

end BlockSync

end MonadBft
