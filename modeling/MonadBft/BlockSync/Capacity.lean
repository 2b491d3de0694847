import MonadBft.BlockSync.Effects
import MonadBft.Instance

/-! # The capacity for payload requests

The counter of payload requests in flight is the number of initiated requests, unless a payload
turns up in the block cache while its request is in flight: the request is then dropped and its
place stays taken.
-/

namespace MonadBft

open BlockSyncWrapper AList Outcome List

namespace BlockSync

/-- The number of payload requests that are really outstanding. -/
def initiated (s : BlockSync) : Nat := s.selfPayloadRequests.entries.countP fun e => e.2.isSome

/-- Every payload that a range waits for is requested. -/
def Requested (s : BlockSync) : Prop :=
  ∀ range completed, s.selfCompletedHeadersRequests.lookup range = some completed →
    ∀ header, (header, none) ∈ completed.blocks → header.blockBodyId ∈ s.selfPayloadRequests

/-- All places are taken, or every request is initiated. -/
def Saturated (s : BlockSync) : Prop :=
  s.initiated = maxPayloadRequests ∨ ∀ id, s.selfPayloadRequests.lookup id ≠ some none

structure Counted (s : BlockSync) : Prop where
  counter : s.selfPayloadRequestsInFlight = s.initiated
  bounded : s.initiated ≤ maxPayloadRequests

/-- No range has the payload of an initiated request. -/
def Awaited (s : BlockSync) : Prop :=
  ∀ id request, s.selfPayloadRequests.lookup id = some (some request) →
    ∀ range completed, s.selfCompletedHeadersRequests.lookup range = some completed →
      completed.payloadCache.lookup id = none

def Missing (w : BlockSyncWrapper) (s : BlockSync) : Prop :=
  ∀ id request, s.selfPayloadRequests.lookup id = some (some request) → w.blockCache.getPayload id = none

variable {w : BlockSyncWrapper} {responding serving : Prop} {call : BlockSyncCall} {s s' : BlockSync}

/-! ## Lookups after an effect -/

section

variable (ids : List Bytes) (s : BlockSync)

theorem lookup_addPayloadRequests (id : Bytes) : (addPayloadRequests ids s).selfPayloadRequests.lookup id =
      (s.selfPayloadRequests.lookup id).or (if id ∈ ids then some none else none) := by
  induction ids generalizing s with
  | nil => simp [addPayloadRequests]
  | cons first rest ih =>
    rw [addPayloadRequests]
    cases known : s.selfPayloadRequests.lookup first with
    | none =>
      rw [ih]
      by_cases same : id = first
      · subst same
        simp [known]
      · simp [lookup_insert_ne same, same]
    | some request =>
      rw [ih]
      by_cases same : id = first
      · subst same
        simp [known]
      · simp [same]

theorem initiated_addPayloadRequests : (addPayloadRequests ids s).initiated = s.initiated := by
  induction ids generalizing s with
  | nil => rfl
  | cons first rest ih =>
    rw [addPayloadRequests]
    cases known : s.selfPayloadRequests.lookup first with
    | none =>
      rw [ih]
      exact countP_insert_new none known Option.isSome
    | some request => exact ih s

/-- Only the payload requests change. -/
theorem addPayloadRequests_frame : addPayloadRequests ids s =
      { s with selfPayloadRequests := (addPayloadRequests ids s).selfPayloadRequests } := by
  induction ids generalizing s with
  | nil => rfl
  | cons first rest ih =>
    rw [addPayloadRequests]
    cases s.selfPayloadRequests.lookup first with
    | none => rw [ih]
    | some request => exact ih s

end

variable {id payload : Bytes} {completed : SelfCompletedHeader} {range : BlockRange}
  {headers : List ConsensusBlockHeader}
  {request : SelfRequest} {commands : List BlockSyncCommand} {requester : BlockSyncSelfRequester}

theorem mem_fill_none {header : ConsensusBlockHeader} : (header, none) ∈ (completed.fill id payload).blocks ↔
      (header, none) ∈ completed.blocks ∧ header.blockBodyId ≠ id := by
  simp only [SelfCompletedHeader.fill, mem_map, Prod.exists]
  constructor
  · rintro ⟨header', maybePayload, mem, same⟩
    split at same
    · simp at same
    next missing =>
      obtain ⟨rfl, rfl⟩ := Prod.mk.inj same
      exact ⟨mem, fun here => missing ⟨here, rfl⟩⟩
  · rintro ⟨mem, other⟩
    exact ⟨header, none, mem, by simp [other]⟩

theorem lookup_supply (known : (supply id payload s).selfCompletedHeadersRequests.lookup range = some completed) :
    ∃ before, s.selfCompletedHeadersRequests.lookup range = some before ∧ completed = before.fill id payload := by
  rw [supply, lookup_mapValues, Option.map_eq_some_iff] at known
  obtain ⟨before, found, rfl⟩ := known
  exact ⟨before, found, rfl⟩

theorem lookup_completeHeaders {range range' : BlockRange}
    (known : (completeHeaders range headers s).selfCompletedHeadersRequests.lookup range' = some completed) :
    (range' = range ∧
      completed = ⟨s.selfRequestMode, headers.map fun header => (header, none), ∅⟩) ∨
      s.selfCompletedHeadersRequests.lookup range' = some completed := by
  rw [completeHeaders, addPayloadRequests_frame] at known
  obtain ⟨same, rfl⟩ | ⟨-, old⟩ := lookup_insert_eq_some.mp known
  · exact .inl ⟨same, rfl⟩
  · exact .inr old

/-- New requests are not initiated. -/
theorem lookup_of_completeHeaders
    (known : (completeHeaders range headers s).selfPayloadRequests.lookup id = some (some request)) :
    s.selfPayloadRequests.lookup id = some (some request) := by
  change (addPayloadRequests (headers.map (·.blockBodyId)) _).selfPayloadRequests.lookup id = _ at known
  rw [lookup_addPayloadRequests, Option.or_eq_some_iff] at known
  obtain old | ⟨-, new⟩ := known
  · exact old
  · split at new <;> simp at new

/-! ## Every missing payload is requested -/

theorem Requested.supply (requested : Requested s) (id payload : Bytes) : Requested (supply id payload s) := by
  intro range completed known header missing
  obtain ⟨before, found, rfl⟩ := lookup_supply known
  obtain ⟨mem, other⟩ := mem_fill_none.mp missing
  exact mem_erase.mpr ⟨other, requested range before found header mem⟩

theorem Requested.completeHeaders (requested : Requested s) (range : BlockRange) (headers : List ConsensusBlockHeader) :
    Requested (completeHeaders range headers s) := by
  intro range' completed known header missing
  rw [← lookup_isSome]
  change ((addPayloadRequests (headers.map (·.blockBodyId)) _).selfPayloadRequests.lookup _).isSome
  rw [lookup_addPayloadRequests]
  obtain ⟨-, rfl⟩ | old := lookup_completeHeaders known
  · have mem : header ∈ headers := by simpa using missing
    have listed : header.blockBodyId ∈ headers.map (·.blockBodyId) := mem_map_of_mem mem
    simp [listed]
  · have kept := lookup_isSome.mpr (requested range' completed old header missing)
    simp [kept]

section

variable (effect : Effect w responding serving s commands s')

include effect

theorem Effect.requested (requested : Requested s) : Requested s' := by
  cases effect with
  | cancelCompleted range =>
    intro range' completed known
    exact requested range' completed (lookup_erase_eq_some.mp known).2
  | requestPayload peer known =>
    intro range completed found header missing
    exact (mem_insert _).mpr (.inr (requested range completed found header missing))
  | completeHeaders sender known verified => exact requested.completeHeaders _ _
  | supplyCached response known cached => exact requested.supply _ _
  | answer sender known positive =>
    exact Requested.supply (s := { s with selfPayloadRequestsInFlight := _, metricsInFlight := _ }) requested _ _
  | initiate known uncached free =>
    intro range completed found header missing
    exact (mem_insert _).mpr (.inr (requested range completed found header missing))
  | emit known full =>
    intro range' completed found
    exact requested range' completed (lookup_erase_eq_some.mp found).2
  | _ => exact requested

/-! ## Initiated requests wait for their payload -/

omit effect in
theorem Awaited.supply (awaited : Awaited s) (id payload : Bytes) : Awaited (supply id payload s) := by
  intro id' request known range completed found
  obtain ⟨other, initiated⟩ := lookup_erase_eq_some.mp known
  obtain ⟨before, stored, rfl⟩ := lookup_supply found
  have absent := awaited id' request initiated range before stored
  rw [SelfCompletedHeader.fill]
  split
  · rwa [lookup_insert_ne other]
  · exact absent

omit effect in
theorem awaited_of_getCachedPayload (uncached : w.getCachedPayload s id = none) :
    w.blockCache.getPayload id = none ∧
      ∀ range completed, s.selfCompletedHeadersRequests.lookup range = some completed →
        completed.payloadCache.lookup id = none := by
  rw [getCachedPayload] at uncached
  cases cached : w.blockCache.getPayload id with
  | some payload => simp [cached] at uncached
  | none =>
    simp only [cached, findSome?_eq_none_iff] at uncached
    exact ⟨rfl, fun range completed found => uncached ⟨range, completed⟩ (mem_lookup_iff.mp found)⟩

theorem Effect.awaited (awaited : Awaited s) : Awaited s' := by
  cases effect with
  | cancelCompleted range =>
    intro id request known range' completed found
    exact awaited id request known range' completed (lookup_erase_eq_some.mp found).2
  | requestPayload peer known =>
    intro id request found
    obtain ⟨rfl, -⟩ | ⟨-, old⟩ := lookup_insert_eq_some.mp found
    · exact awaited _ _ known
    · exact awaited id request old
  | completeHeaders sender known verified =>
    intro id request found range completed stored
    have initiated := lookup_of_completeHeaders found
    obtain ⟨-, rfl⟩ | old := lookup_completeHeaders stored
    · exact lookup_empty _
    · exact awaited id request initiated range completed old
  | supplyCached response known cached => exact awaited.supply _ _
  | answer sender known positive =>
    exact Awaited.supply (s := { s with selfPayloadRequestsInFlight := _, metricsInFlight := _ }) awaited _ _
  | initiate known uncached free =>
    intro id request found
    obtain ⟨rfl, -⟩ | ⟨-, old⟩ := lookup_insert_eq_some.mp found
    · exact (awaited_of_getCachedPayload uncached).2
    · exact awaited id request old
  | emit known full =>
    intro id request found range' completed stored
    exact awaited id request found range' completed (lookup_erase_eq_some.mp stored).2
  | _ => exact awaited

theorem Effect.missing (missing : Missing w s) : Missing w s' := by
  cases effect with
  | requestPayload peer known =>
    intro id request found
    obtain ⟨rfl, -⟩ | ⟨-, old⟩ := lookup_insert_eq_some.mp found
    · exact missing _ _ known
    · exact missing id request old
  | completeHeaders sender known verified =>
    exact fun id request found => missing id request (lookup_of_completeHeaders found)
  | supplyCached response known cached =>
    exact fun id request found => missing id request (lookup_erase_eq_some.mp found).2
  | answer sender known positive =>
    exact fun id request found => missing id request (lookup_erase_eq_some.mp found).2
  | initiate known uncached free =>
    intro id request found
    obtain ⟨rfl, -⟩ | ⟨-, old⟩ := lookup_insert_eq_some.mp found
    · exact (awaited_of_getCachedPayload uncached).1
    · exact missing id request old
  | _ => exact missing

/-! ## The counter -/

omit effect in
theorem getCachedPayload_eq_none (missing : Missing w s) (awaited : Awaited s)
    (known : s.selfPayloadRequests.lookup id = some (some request)) : w.getCachedPayload s id = none := by
  rw [getCachedPayload, missing id request known]
  refine findSome?_eq_none_iff.mpr fun e mem => ?_
  exact awaited id request known e.1 e.2 (mem_lookup_iff.mpr mem)

omit effect in
theorem initiated_supply {request : Option SelfRequest} (known : s.selfPayloadRequests.lookup id = some request) :
    s.initiated = (supply id payload s).initiated + if request.isSome then 1 else 0 :=
  countP_erase known Option.isSome

theorem Effect.counted (counted : Counted s) (uncached : responding → Missing w s ∧ Awaited s) : Counted s' := by
  obtain ⟨counter, bounded⟩ := counted
  cases effect with
  | @requestPayload id request peer known =>
    have same : (s.selfPayloadRequests.insert id (some { request with recipient := some peer })).entries.countP _ + 1 =
        s.initiated + 1 := countP_insert known Option.isSome
    exact ⟨by rw [counter]; exact (Nat.succ.inj same).symm, (Nat.succ.inj same).trans_le bounded⟩
  | @completeHeaders range request headers sender known verified =>
    have same : (BlockSyncWrapper.completeHeaders range headers s).initiated = s.initiated :=
      initiated_addPayloadRequests _ _
    refine ⟨?_, same.trans_le bounded⟩
    rw [same, ← counter, BlockSyncWrapper.completeHeaders, addPayloadRequests_frame]
  | @supplyCached id payload request response known cached =>
    cases request with
    | some request =>
      -- a request in flight would have to be cached
      obtain ⟨missing, awaited⟩ := uncached response
      rw [getCachedPayload_eq_none missing awaited known] at cached
      cases cached
    | none =>
      have same : s.initiated = (supply id payload s).initiated := initiated_supply known
      exact ⟨counter.trans same, same ▸ bounded⟩
  | @answer payload request sender known positive =>
    have less : s.initiated = (supply (w.crypto.getBodyId payload) payload s).initiated + 1 := initiated_supply known
    refine ⟨?_, ?_⟩
    · change s.selfPayloadRequestsInFlight - 1 = (supply (w.crypto.getBodyId payload) payload s).initiated
      omega
    · change (supply (w.crypto.getBodyId payload) payload s).initiated ≤ _
      omega
  | @initiate id known uncached free =>
    have more : (s.selfPayloadRequests.insert id (some { requester := s.selfRequestMode, recipient :=
        none })).entries.countP (fun e => e.2.isSome) + 0 = s.initiated + 1 := countP_insert known Option.isSome
    rw [counter] at free
    refine ⟨?_, more.trans_le free⟩
    change s.selfPayloadRequestsInFlight + 1 = _
    rw [counter]
    exact more.symm
  | _ => exact ⟨counter, bounded⟩

end

/-! ## The loops -/

theorem initiate_saturates {free : Nat} (returns : initiate free s = .ok s' commands) :
    (∀ id, s'.selfPayloadRequests.lookup id ≠ some none) ∨
      s'.selfPayloadRequestsInFlight = s.selfPayloadRequestsInFlight + free := by
  induction free generalizing s commands with
  | zero =>
    cases returns
    exact .inr rfl
  | succ free ih =>
    rw [initiate] at returns
    cases found : s.selfPayloadRequests.entries.find? (·.2.isNone) with
    | none =>
      simp only [found] at returns
      cases returns
      refine .inl fun id open_ => ?_
      have := find?_eq_none.mp found _ (mem_lookup_iff.mp open_)
      simp at this
    | some e =>
      simp only [found, andThen_eq_ok] at returns
      obtain ⟨t, c, c', first, later, -⟩ := returns
      cases first
      obtain done | full := ih later
      · exact .inl done
      · exact .inr (by rw [full]; simp only; omega)

/-- Emitting ranges leaves the payload requests as they are. -/
theorem emitRanges_frame {ranges : List BlockRange} (returns : w.emitRanges ranges s = .ok s' commands) :
    s'.selfPayloadRequests = s.selfPayloadRequests ∧
      s'.selfPayloadRequestsInFlight = s.selfPayloadRequestsInFlight := by
  induction ranges generalizing s commands with
  | nil =>
    cases returns
    exact ⟨rfl, rfl⟩
  | cons range rest ih =>
    rw [emitRanges] at returns
    cases known : s.selfCompletedHeadersRequests.lookup range with
    | none => simp [known] at returns
    | some completed =>
      cases full : w.fullBlocks completed.blocks with
      | error reason => simp [known, full] at returns
      | ok blocks =>
        simp only [known, full, andThen_eq_ok] at returns
        obtain ⟨t, c, c', first, later, -⟩ := returns
        cases first
        have kept := ih later
        exact kept

theorem tryInitiate_saturates (returns : w.tryInitiatePayloadRequestsForSelf s = .ok s' commands)
    (counted : Counted s') : Saturated s' := by
  simp only [tryInitiatePayloadRequestsForSelf, andThen_eq_ok] at returns
  obtain ⟨t, c, c', initiates, emits, -⟩ := returns
  obtain ⟨sameRequests, sameCounter⟩ := emitRanges_frame emits
  obtain done | full := initiate_saturates initiates
  · exact .inr (by rwa [sameRequests])
  · refine .inl ?_
    obtain ⟨counter, bounded⟩ := counted
    omega

/-! ## The handlers -/

def Answers (w : BlockSyncWrapper) (call : BlockSyncCall) (id : Bytes) : Prop :=
  ∃ payload, w.crypto.getBodyId payload = id ∧
    (call = .ledgerResponse (.payloadResponse (.found payload)) ∨
      ∃ sender, call = .peerResponse sender (.payloadResponse (.found payload)))

/-- No payload turns up in the block cache while its request is in flight, unless the call brings it. -/
def NoRace (s : BlockSync) (entry : BlockSyncHandled) : Prop :=
  RunsTryInitiate entry.w s entry.call → ∀ id request, s.selfPayloadRequests.lookup id = some (some request) →
    ¬Answers entry.w entry.call id → entry.w.blockCache.getPayload id = none

structure CapacityInv (s : BlockSync) : Prop where
  counted : Counted s
  requested : Requested s
  awaited : Awaited s

theorem CapacityInv.switchMode (inv : CapacityInv s) (requester : BlockSyncSelfRequester) :
    CapacityInv (switchMode requester s) := by
  rw [BlockSyncWrapper.switchMode]
  split
  · exact ⟨⟨rfl, Nat.zero_le _⟩, fun range completed known => by simp [BlockSync.clearSelfRequests] at known,
      fun id request known => by simp [BlockSync.clearSelfRequests] at known⟩
  · exact inv

/-- What a self request can do. -/
theorem handleSelfRequest_eq_ok (returns : handleSelfRequest requester range s = .ok s' commands) :
    (s' = s ∧ commands = []) ∨ (s' = switchMode requester s ∧ commands = []) ∨
      (range.numBlocks ≠ 0 ∧ (switchMode requester s).selfRequestExists range = false ∧
        s' = { switchMode requester s with
          selfHeadersRequests := (switchMode requester s).selfHeadersRequests.insert range
            { requester, recipient := none } } ∧
        commands = [.fetchHeaders range]) := by
  rw [BlockSyncWrapper.handleSelfRequest] at returns
  split at returns
  · cases returns
    exact .inl ⟨rfl, rfl⟩
  next nonempty =>
    cases known : (switchMode requester s).selfRequestExists range with
    | true =>
      simp only [known] at returns
      cases returns
      exact .inr (.inl ⟨rfl, rfl⟩)
    | false =>
      simp only [known] at returns
      cases returns
      exact .inr (.inr ⟨nonempty, rfl, rfl, rfl⟩)

theorem CapacityInv.handleSelfRequest (inv : CapacityInv s)
    (returns : handleSelfRequest requester range s = .ok s' commands) :
    CapacityInv s' := by
  have switched := inv.switchMode requester
  obtain ⟨rfl, -⟩ | ⟨rfl, -⟩ | ⟨-, -, rfl, -⟩ := handleSelfRequest_eq_ok returns
  · exact inv
  · exact switched
  · exact ⟨⟨switched.counted.counter, switched.counted.bounded⟩, switched.requested, switched.awaited⟩

/-- The effects keep the invariant when no cached payload belongs to a request in flight. -/
theorem Refines.capacityInv {x : BlockSyncOutcome} (refines : Refines w responding serving call s x)
    (returns : x = .ok s' commands) (inv : CapacityInv s) (missing : responding → Missing w s) : CapacityInv s' := by
  have step : ∀ t c t', Effect w responding serving t c t' → CapacityInv t ∧ (responding → Missing w t) →
      CapacityInv t' ∧ (responding → Missing w t') := by
    rintro t c t' effect ⟨inv, missing⟩
    refine ⟨⟨effect.counted inv.counted fun responds => ⟨missing responds, inv.awaited⟩,
      effect.requested inv.requested, effect.awaited inv.awaited⟩, fun responds => effect.missing (missing responds)⟩
  exact (refines.invariant returns step ⟨inv, missing⟩).1

theorem CapacityInv.handlePayloadResponse (inv : CapacityInv s) {sender : Option NodeId}
    {response : BlockSyncBodyResponse} (returns : w.handlePayloadResponseForSelf sender response s = .ok s' commands)
    (missing : (∃ request, s.selfPayloadRequests.lookup (response.getPayloadId w.crypto) = some (some request)) →
      ∀ id request, s.selfPayloadRequests.lookup id = some (some request) →
        (∀ payload, response = .found payload → w.crypto.getBodyId payload ≠ id) → w.blockCache.getPayload id = none) :
    CapacityInv s' := by
  cases response with
  | notAvailable id =>
    have refines : Refines w (∃ request, s.selfPayloadRequests.lookup id = some (some request)) False
        (.ledgerResponse (.payloadResponse (.notAvailable id))) s
          (w.handlePayloadResponseForSelf sender (.notAvailable id) s) :=
      handlePayloadResponseForSelf_refines (fun request known => ⟨request, known⟩) fun _ => rfl
    exact refines.capacityInv returns inv fun runs id request known => missing runs id request known (by simp)
  | found payload =>
    rw [handlePayloadResponseForSelf] at returns
    cases known : s.selfPayloadRequests.lookup (BlockSyncBodyResponse.getPayloadId w.crypto (.found payload)) with
    | none =>
      simp only [known] at returns
      cases returns
      exact inv
    | some request? =>
      cases request? with
      | none =>
        simp only [known] at returns
        cases returns
        exact inv
      | some request =>
        simp only [known] at returns
        obtain ⟨u, c₁, c₂, emits, initiates, -⟩ := andThen_eq_ok.mp returns
        obtain ⟨t, c₃, c₄, settles, emits, -⟩ := andThen_eq_ok.mp emits
        -- the request that is answered is gone before the cache is looked at
        have answered : CapacityInv t ∧ Missing w t := by
          simp only [settlePayload] at settles
          split at settles
          · cases settles
          · split at settles
            · cases settles
            next positive =>
              cases settles
              have effect : Effect w False False s _ _ := .answer sender known positive
              refine ⟨⟨effect.counted inv.counted (fun responds => responds.elim), effect.requested inv.requested,
                effect.awaited inv.awaited⟩, ?_⟩
              intro id request initiated
              obtain ⟨other, before⟩ := lookup_erase_eq_some.mp initiated
              refine missing ⟨_, known⟩ id request before fun payload' same => ?_
              cases same
              exact other.symm
        have rest : Refines w True False (.timeout (.payload [])) t
            ((w.handleCompletedRanges t).andThen w.tryInitiatePayloadRequestsForSelf) :=
          (handleCompletedRanges_refines w t).andThen fun v _ _ => tryInitiate_refines trivial v
        exact rest.capacityInv (andThen_eq_ok.mpr ⟨u, c₄, c₂, emits, initiates, rfl⟩) answered.1
          fun _ => answered.2

theorem CapacityInv.handle {entry : BlockSyncHandled} (inv : CapacityInv s)
    (returns : entry.w.handle entry.call s = .ok s' entry.commands) (quiet : NoRace s entry) : CapacityInv s' := by
  obtain ⟨w, call, commands⟩ := entry
  cases call with
  | selfRequest requester range => exact inv.handleSelfRequest returns
  | ledgerResponse response =>
    cases response with
    | headersResponse headers =>
      refine (handle_refines w s (.ledgerResponse (.headersResponse headers)) (by simp)).capacityInv returns inv ?_
      refine fun runs id request known => quiet runs id request known ?_
      rintro ⟨_, -, same | ⟨_, same⟩⟩ <;> cases same
    | payloadResponse payload =>
      simp only [BlockSyncWrapper.handle, handleLedgerResponse] at returns
      obtain ⟨t, c₁, c₂, first, later, -⟩ := andThen_eq_ok.mp returns
      cases first
      have kept : CapacityInv { s with payloadRequests := s.payloadRequests.erase (payload.getPayloadId w.crypto) } :=
        ⟨⟨inv.counted.counter, inv.counted.bounded⟩, inv.requested, inv.awaited⟩
      refine kept.handlePayloadResponse later fun runs id request known other => quiet runs id request known ?_
      rintro ⟨payload', brings, same | ⟨_, same⟩⟩
      · cases same
        exact other payload' rfl brings
      · cases same
  | peerResponse sender response =>
    cases response with
    | headersResponse headers =>
      refine (handle_refines w s (.peerResponse sender (.headersResponse headers)) (by simp)).capacityInv returns inv ?_
      refine fun runs id request known => quiet runs id request known ?_
      rintro ⟨_, -, same | ⟨_, same⟩⟩ <;> cases same
    | payloadResponse payload =>
      refine inv.handlePayloadResponse returns fun runs id request known other => quiet runs id request known ?_
      rintro ⟨payload', brings, same | ⟨_, same⟩⟩
      · cases same
      · cases same
        exact other payload' rfl brings
  | selfCancelRequest requester range =>
    exact (handle_refines w s (.selfCancelRequest requester range) (by simp)).capacityInv returns inv False.elim
  | peerRequest sender request =>
    exact (handle_refines w s (.peerRequest sender request) (by simp)).capacityInv returns inv False.elim
  | timeout request => exact (handle_refines w s (.timeout request) (by simp)).capacityInv returns inv False.elim

/-- What such a call ends with. -/
theorem exists_tryInitiate (runs : RunsTryInitiate w s call) (returns : w.handle call s = .ok s' commands) :
    ∃ t c, w.tryInitiatePayloadRequestsForSelf t = .ok s' c := by
  have headers : ∀ {t : BlockSync} {sender : Option NodeId} {response : BlockSyncHeadersResponse}
      {c : List BlockSyncCommand}, w.handleHeadersResponseForSelf sender response t = .ok s' c →
      (t.selfHeadersRequests.lookup response.getBlockRange).isSome →
      ∃ t c, w.tryInitiatePayloadRequestsForSelf t = .ok s' c := by
    intro t sender response c returns known
    obtain ⟨request, known⟩ := Option.isSome_iff_exists.mp known
    simp only [handleHeadersResponseForSelf, known, andThen_eq_ok] at returns
    obtain ⟨u, c₁, c₂, -, later, -⟩ := returns
    exact ⟨u, c₂, later⟩
  have payloads : ∀ {t : BlockSync} {sender : Option NodeId} {response : BlockSyncBodyResponse}
      {c : List BlockSyncCommand}, w.handlePayloadResponseForSelf sender response t = .ok s' c →
      (∃ request, t.selfPayloadRequests.lookup (response.getPayloadId w.crypto) = some (some request)) →
      ∃ t c, w.tryInitiatePayloadRequestsForSelf t = .ok s' c := by
    rintro t sender response c returns ⟨request, known⟩
    simp only [handlePayloadResponseForSelf, known] at returns
    obtain ⟨u, c₁, c₂, -, later, -⟩ := andThen_eq_ok.mp returns
    exact ⟨u, c₂, later⟩
  cases call with
  | ledgerResponse response =>
    cases response with
    | headersResponse response =>
      simp only [BlockSyncWrapper.handle, handleLedgerResponse] at returns
      obtain ⟨t, c₁, c₂, first, later, -⟩ := andThen_eq_ok.mp returns
      rw [respondHeaders_state first] at later
      exact headers later runs
    | payloadResponse response =>
      simp only [BlockSyncWrapper.handle, handleLedgerResponse] at returns
      obtain ⟨t, c₁, c₂, first, later, -⟩ := andThen_eq_ok.mp returns
      cases first
      exact payloads later runs
  | peerResponse sender response =>
    cases response with
    | headersResponse response => exact headers returns runs
    | payloadResponse response => exact payloads returns runs
  | _ => exact runs.elim

section Run

variable {crypto : Crypto} {overridePeers : List NodeId}
  {history : List (BlockSync × BlockSyncHandled)}
  (run : Trace (Trace.Recorded (Handles crypto)) (new overridePeers) history s)
  (quiet : ∀ e ∈ history, NoRace e.1 e.2)

include run quiet

theorem Handles.capacityInv_of_noRace : CapacityInv s := by
  induction run with
  | nil =>
    exact ⟨⟨rfl, Nat.zero_le _⟩, fun range completed known => by simp [new] at known,
      fun id request known => by simp [new] at known⟩
  | snoc run taken ih =>
    obtain ⟨rfl, -, returns⟩ := taken
    have before := ih fun e mem => quiet e (mem_append_left _ mem)
    exact before.handle returns (quiet _ (by simp))

/-- In every run in which no payload turns up in the block cache while its request is in flight: the
counter is the number of outstanding requests and within the limit, every missing payload is requested, and
after a call that tried to initiate requests all places are taken or no request is left to initiate. -/
theorem capacity_of_noRace :
    s.selfPayloadRequestsInFlight = s.initiated ∧ s.initiated ≤ maxPayloadRequests ∧ Requested s ∧
      ∀ e ∈ history.getLast?, RunsTryInitiate e.2.w e.1 e.2.call → Saturated s := by
  have inv := Handles.capacityInv_of_noRace run quiet
  refine ⟨inv.counted.counter, inv.counted.bounded, inv.requested, fun e last runs => ?_⟩
  obtain ⟨before, rfl⟩ := getLast?_eq_some_iff.mp last
  obtain ⟨t, -, rfl, -, returns⟩ := run.snoc_inv
  obtain ⟨u, c, initiates⟩ := exists_tryInitiate runs returns
  exact tryInitiate_saturates initiates inv.counted

end Run

/-! ## A race -/

open FourValidators

/-- A chain of blocks, each with a payload of its own. -/
def chainBlock : Nat → ConsensusFullBlock
  | 0 => block 1 crypto.genesisQc 1 0
  | n + 1 => block (n + 2) (qcFor (n + 1) (chainBlock n)) (n + 2) (n + 1)

def chainRange (last numBlocks : Nat) : BlockRange := ⟨encodeHeader (chainBlock last).header, numBlocks⟩

def wrapperWith (payloads : List Bytes) : BlockSyncWrapper where
  crypto := crypto
  nodeid := 0
  blockCache := .blockBuffer (insertAll ∅ (payloads.map fun payload => (payload, payload)))
  validators := some validators
  random := 0

/-- The node asks for the first ten blocks, and the ledger has their headers. -/
def tenBlocks : List (BlockSyncWrapper × BlockSyncCall) := [
  (wrapperWith [], .selfRequest .consensus (chainRange 9 10)),
  (wrapperWith [], .ledgerResponse (.headersResponse
    (.found (chainRange 9 10) ((List.range 10).map fun n => (chainBlock n).header))))]

/-- Before the payloads arrive they turn up in the block cache, and the node asks for the next block. -/
def tenBlocksRaced : List (BlockSyncWrapper × BlockSyncCall) := tenBlocks ++ [
  (wrapperWith [], .selfRequest .consensus (chainRange 10 1)),
  (wrapperWith ((List.range 10).map ([·])), .ledgerResponse (.headersResponse
    (.found (chainRange 10 1) [(chainBlock 10).header])))]

theorem capacity_of_tenBlocks :
    ∃ history s, Trace (Trace.Recorded (Handles crypto)) (new []) history s ∧ s.initiated = 10 ∧
      s.selfPayloadRequestsInFlight = s.initiated := by
  obtain ⟨history, s, run, made, ten⟩ := exists_run_of_replay crypto tenBlocks (new [])
    (by simp [tenBlocks, wrapperWith]) (fun s _ => decide (s.initiated = 10)) (by decide +kernel)
  have quiet : ∀ e ∈ history, NoRace e.1 e.2 := by
    intro e mem _ id _ _ _
    have listed := made ▸ mem_map_of_mem mem
    have empty : e.2.w = wrapperWith [] := by
      simp only [tenBlocks, mem_cons, Prod.mk.injEq, not_mem_nil, or_false] at listed
      exact listed.elim And.left And.left
    rw [empty]
    rfl
  exact ⟨history, s, run, of_decide_eq_true ten, (capacity_of_noRace run quiet).1⟩

/-- All ten places stay taken though nothing is outstanding, and the next payload is never requested. -/
theorem capacity_lost : ∃ history s, Trace (Trace.Recorded (Handles crypto)) (new []) history s ∧
      s.selfPayloadRequestsInFlight = maxPayloadRequests ∧ s.initiated = 0 ∧
      s.selfPayloadRequests.lookup [10] = some none := by
  obtain ⟨history, s, run, -, lost⟩ := exists_run_of_replay crypto tenBlocksRaced (new [])
    (by simp [tenBlocksRaced, tenBlocks, wrapperWith])
    (fun s _ => decide (s.selfPayloadRequestsInFlight = maxPayloadRequests ∧ s.initiated = 0 ∧
      s.selfPayloadRequests.lookup [10] = some none)) (by decide +kernel)
  exact ⟨history, s, run, of_decide_eq_true lost⟩

end BlockSync

end MonadBft
