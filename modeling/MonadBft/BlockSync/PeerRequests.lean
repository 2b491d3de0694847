import MonadBft.BlockSync.Ranges

/-! # Answers to peers

A peer's request for headers is answered at once or when the ledger responds for the part of it that is not
cached, and with the range that was asked for, unless the same peer asks for another range with the same
ledger part in between: the second request then takes the place of the first.
-/

namespace MonadBft

open BlockSyncWrapper SortedMap List

def IsReply (crypto : Crypto) (range : BlockRange) (answer : BlockSyncHeadersResponse) : Prop :=
  answer = .notAvailable range ∨ ∃ headers, answer = .found range headers ∧ IsRange crypto range headers

namespace BlockSync

/-- The part of a requested range that the ledger is asked for. -/
def ledgerPart (w : BlockSyncWrapper) (range : BlockRange) : BlockRange := ledgerFetchRange range (w.cachedBlocks range)

def Defers (w : BlockSyncWrapper) (range : BlockRange) : Prop :=
  range.numBlocks ≠ 0 ∧ (w.cachedBlocks range).length ≠ range.numBlocks

instance (w : BlockSyncWrapper) (range : BlockRange) : Decidable (Defers w range) :=
  inferInstanceAs (Decidable (_ ∧ _))

/-- The requests that wait for a range of the ledger, after one more call. -/
def owe (ledgerRange : BlockRange) (pending : List (NodeId × BlockRange)) (entry : BlockSyncHandled) :
    List (NodeId × BlockRange) :=
  match entry.call with
  | .peerRequest sender (.headers range) =>
    if Defers entry.w range ∧ ledgerPart entry.w range = ledgerRange then pending ++ [(sender, range)] else pending
  | .ledgerResponse (.headersResponse response) => if response.getBlockRange = ledgerRange then [] else pending
  | _ => pending

def owed (ledgerRange : BlockRange) (history : List (BlockSync × BlockSyncHandled)) : List (NodeId × BlockRange) :=
  history.foldl (fun pending e => owe ledgerRange pending e.2) []

/-- The peers that wait for a range of the ledger, each with the blocks that were cached when it asked. -/
def waiters (s : BlockSync) (ledgerRange : BlockRange) : SortedMap NodeId (List ConsensusBlockHeader) :=
  (s.headersRequests.lookup ledgerRange).getD .empty

/-- No peer asks for a range while a request of its own for another range waits for the same range of the ledger. -/
def NoClash (s : BlockSync) (entry : BlockSyncHandled) : Prop :=
  ∀ sender range, entry.call = .peerRequest sender (.headers range) → Defers entry.w range →
    ∀ cached, (sender, cached) ∈ s.waiters (ledgerPart entry.w range) →
      requestedBlockRange entry.w.crypto (ledgerPart entry.w range) cached = range

variable {w : BlockSyncWrapper} {responding serving : Prop} {call : BlockSyncCall} {s s' : BlockSync}

theorem owed_snoc (ledgerRange : BlockRange) (history : List (BlockSync × BlockSyncHandled))
    (e : BlockSync × BlockSyncHandled) : owed ledgerRange (history ++ [e]) = owe ledgerRange
    (owed ledgerRange history) e.2 := by
  simp [owed]

/-! ## Frames -/

variable {commands : List BlockSyncCommand} {response : BlockSyncHeadersResponse}
  {e : NodeId × List ConsensusBlockHeader}
  {t t' : BlockSync} {requesters : List (NodeId × List ConsensusBlockHeader)} {sender first second : NodeId}
  {history : List (BlockSync × BlockSyncHandled)} {entry : BlockSyncHandled} {crypto : Crypto} {range : BlockRange}

theorem Effect.peers_frame (effect : Effect w responding False s commands s') :
    s'.headersRequests = s.headersRequests ∧ ∀ recipient response, .sendResponse recipient response ∉ commands := by
  cases effect with
  | completeHeaders sender known verified =>
    refine ⟨by rw [BlockSyncWrapper.completeHeaders, addPayloadRequests_frame], fun recipient response mem => ?_⟩
    rw [resetTimeout] at mem
    split at mem <;> simp at mem
  | answer sender known positive =>
    refine ⟨rfl, fun recipient response mem => ?_⟩
    rw [resetTimeout] at mem
    split at mem <;> simp at mem
  | fetchHeaders peers | fetchPayload peers | dropHeadersRequests peers | dropPayloadRequests peers | respond peers =>
    exact peers.elim
  | _ => exact ⟨rfl, by simp⟩

/-- What the node does for itself leaves the requests of peers alone. -/
theorem Refines.peers_frame {x : BlockSyncOutcome} (refines : Refines w responding False call s x)
    (returns : x = .ok s' commands) :
    s'.headersRequests = s.headersRequests ∧ ∀ recipient response, .sendResponse recipient response ∉ commands := by
  subst returns
  obtain ⟨labels, trace, rfl⟩ := refines
  induction trace with
  | nil => exact ⟨rfl, by simp⟩
  | snoc _ taken ih =>
    obtain ⟨same, silent⟩ := taken.peers_frame
    refine ⟨same.trans ih.1, fun recipient response mem => ?_⟩
    rw [flatten_append, mem_append] at mem
    obtain before | now := mem
    · exact ih.2 recipient response before
    · exact silent recipient response (by simpa using now)

/-! ## The range of an answer -/

theorem length_cachedBlocks_le (w : BlockSyncWrapper) (range : BlockRange) :
    (w.cachedBlocks range).length ≤ range.numBlocks := by
  cases kind : w.blockCache with
  | blockBuffer payloads => simp [cachedBlocks, kind]
  | blockTree tree =>
    rw [cachedBlocks_eq kind, length_reverse]
    exact length_take_le _ _

/-- The ledger part and the cached blocks give back the requested range. -/
theorem requestedBlockRange_ledgerPart (cache : w.blockCache.Truthful crypto) (range : BlockRange) :
    requestedBlockRange crypto (ledgerPart w range) (w.cachedBlocks range) = range := by
  obtain ⟨-, last⟩ := cachedBlocks_spec cache range
  have short := length_cachedBlocks_le w range
  rw [requestedBlockRange, ledgerPart, ledgerFetchRange]
  congr 1
  · cases final : (w.cachedBlocks range).getLast? with
    | none =>
      rw [getLast?_eq_none_iff.mp final]
      rfl
    | some header => exact last header final
  · exact Nat.sub_add_cancel short

theorem isReply_peerHeadersResponse {response answer : BlockSyncHeadersResponse} {cached : List ConsensusBlockHeader}
    (answered : w.peerHeadersResponse response cached = .ok answer)
    (ledger : ∀ range headers, response = .found range headers → IsRange w.crypto range headers)
    (chain : cached.IsChain fun parent header => header.getParentId = w.crypto.getId parent)
    (head : ∀ first ∈ cached.head?, first.getParentId = response.getBlockRange.lastBlockId) :
    IsReply w.crypto (requestedBlockRange w.crypto response.getBlockRange cached) answer ∧
      answer.getBlockRange = requestedBlockRange w.crypto response.getBlockRange cached := by
  cases response with
  | notAvailable range =>
    cases answered
    exact ⟨.inl rfl, rfl⟩
  | found range headers =>
    rw [peerHeadersResponse] at answered
    split at answered
    · cases answered
      exact ⟨.inr ⟨_, rfl, (ledger range headers rfl).append_cached chain head⟩, rfl⟩
    · cases answered

theorem respondHeaders_cons_eq_ok {rest : List (NodeId × List ConsensusBlockHeader)}
    (returns : w.respondHeaders response (e :: rest) t = .ok t' commands) :
    ∃ answer later, w.peerHeadersResponse response e.2 = .ok answer ∧ w.respondHeaders response rest t = .ok t' later ∧
      commands = .sendResponse e.1 (.headersResponse answer) :: later := by
  obtain ⟨requester, cached⟩ := e
  rw [respondHeaders] at returns
  cases answered : w.peerHeadersResponse response cached with
  | error reason => simp [answered] at returns
  | ok answer =>
    simp only [answered] at returns
    obtain ⟨_, _, later, sent, others, rfl⟩ := Outcome.andThen_eq_ok.mp returns
    cases sent
    exact ⟨answer, later, rfl, others, rfl⟩

section

variable (returns : w.respondHeaders response requesters t = .ok t' commands)

include returns

theorem mem_respondHeaders (command : BlockSyncCommand) :
    command ∈ commands ↔ ∃ e ∈ requesters, ∃ answer, w.peerHeadersResponse response e.2 = .ok answer ∧
      command = .sendResponse e.1 (.headersResponse answer) := by
  induction requesters generalizing commands with
  | nil =>
    cases returns
    simp
  | cons e rest ih =>
    obtain ⟨answer, later, answered, others, rfl⟩ := respondHeaders_cons_eq_ok returns
    simp [ih others, answered]

theorem respondHeaders_answers (mem : e ∈ requesters) :
    ∃ answer, w.peerHeadersResponse response e.2 = .ok answer := by
  induction requesters generalizing commands with
  | nil => cases mem
  | cons first rest ih =>
    obtain ⟨answer, _, answered, others, -⟩ := respondHeaders_cons_eq_ok returns
    cases mem with
    | head => exact ⟨answer, answered⟩
    | tail _ mem => exact ih others mem

end

/-! ## Calls -/

theorem Sound.of_mem_waiters (sound : Sound crypto s) {ledgerRange : BlockRange}
    (waiting : e ∈ s.waiters ledgerRange) :
    e.2.IsChain (fun parent header => header.getParentId = crypto.getId parent) ∧
      ∀ first ∈ e.2.head?, first.getParentId = ledgerRange.lastBlockId := by
  rw [waiters] at waiting
  cases found : s.headersRequests.lookup ledgerRange with
  | none =>
    rw [found] at waiting
    cases waiting
  | some requesters =>
    rw [found] at waiting
    exact sound.waiting _ _ found e waiting

theorem waiters_insert (ledgerRange ledgerRange' : BlockRange)
    (requesters : SortedMap NodeId (List ConsensusBlockHeader)) :
    waiters { s with headersRequests := s.headersRequests.insert ledgerRange requesters } ledgerRange' =
      if ledgerRange' = ledgerRange then requesters else s.waiters ledgerRange' := by
  rw [waiters]
  split
  next same => rw [same, AList.lookup_insert, Option.getD_some]
  next other => rw [AList.lookup_insert_ne other, waiters]

theorem waiters_erase (ledgerRange ledgerRange' : BlockRange) :
    waiters { s with headersRequests := s.headersRequests.erase ledgerRange } ledgerRange' =
      if ledgerRange' = ledgerRange then .empty else s.waiters ledgerRange' := by
  rw [waiters]
  split
  next same => rw [same, AList.lookup_erase, Option.getD_none]
  next other => rw [AList.lookup_erase_ne other, waiters]

/-- A peer's request for headers: answered at once, or kept while the ledger is asked. -/
theorem handlePeerHeadersRequest_cases (cache : w.blockCache.Truthful crypto) (same : w.crypto = crypto)
    (returns : w.handlePeerHeadersRequest sender range s = .ok s' commands) :
    (¬Defers w range ∧ s' = s ∧ (commands = [] ∧ range.numBlocks = 0 ∨
        ∃ headers, IsRange crypto range headers ∧
          commands = [.sendResponse sender (.headersResponse (.found range headers))])) ∨
      Defers w range ∧ commands = [.fetchHeaders (ledgerPart w range)] ∧
        s' = { s with
          headersRequests := s.headersRequests.insert (ledgerPart w range)
            ((s.waiters (ledgerPart w range)).insert sender (w.cachedBlocks range)) } := by
  rw [handlePeerHeadersRequest] at returns
  split at returns
  next zero =>
    cases returns
    exact .inl ⟨fun defers => defers.1 zero, rfl, .inl ⟨rfl, zero⟩⟩
  next positive =>
    dsimp only at returns
    split at returns
    next full =>
      split at returns
      · cases returns
      next last =>
        cases returns
        refine .inl ⟨fun defers => defers.2 full, rfl, .inr ⟨_, ⟨full, ?_, (cachedBlocks_spec cache range).1⟩, rfl⟩⟩
        rw [← same]
        exact not_not.mp last
    next more =>
      cases returns
      exact .inr ⟨⟨positive, more⟩, rfl, rfl⟩

section

variable (returns : w.handleLedgerResponse (.headersResponse response) s = .ok s' commands)

include returns

theorem handleLedgerResponse_answers (waiting : e ∈ s.waiters response.getBlockRange) :
    ∃ answer, w.peerHeadersResponse response e.2 = .ok answer := by
  obtain ⟨t, c₁, c₂, first, -, -⟩ := Outcome.andThen_eq_ok.mp returns
  exact respondHeaders_answers first waiting

/-- A response of the ledger with headers answers the peers that wait for its range, and forgets them. -/
theorem handleLedgerResponse_headers : s'.headersRequests = s.headersRequests.erase response.getBlockRange ∧
      ∀ recipient message, .sendResponse recipient message ∈ commands ↔
        ∃ cached, (recipient, cached) ∈ s.waiters response.getBlockRange ∧
          ∃ answer, w.peerHeadersResponse response cached = .ok answer ∧ message = .headersResponse answer := by
  obtain ⟨t, c₁, c₂, first, later, rfl⟩ := Outcome.andThen_eq_ok.mp returns
  have self : Refines w True False (.ledgerResponse (.headersResponse response)) t (.ok s' c₂) :=
    later ▸ handleHeadersResponseForSelf_refines (fun _ => trivial) fun _ => rfl
  obtain ⟨same, silent⟩ := self.peers_frame rfl
  refine ⟨by rw [same, respondHeaders_state first], fun recipient message => ?_⟩
  rw [mem_append, or_iff_left (silent recipient message), mem_respondHeaders first]
  constructor
  · rintro ⟨⟨requester, cached⟩, mem, answer, answered, same⟩
    cases same
    exact ⟨cached, mem, answer, answered, rfl⟩
  · rintro ⟨cached, mem, answer, answered, rfl⟩
    exact ⟨(recipient, cached), mem, answer, answered, rfl⟩

end

/-- Only requests of peers for headers and responses of the ledger with headers touch the waiting requests or answer
one. -/
theorem handle_frame (returns : w.handle call s = .ok s' commands)
    (noRequest : ∀ sender range, call ≠ .peerRequest sender (.headers range))
    (noResponse : ∀ response, call ≠ .ledgerResponse (.headersResponse response)) :
    s'.headersRequests = s.headersRequests ∧
      ∀ recipient answer, .sendResponse recipient (.headersResponse answer) ∉ commands := by
  cases call with
  | selfRequest requester range =>
    obtain ⟨rfl, rfl⟩ | ⟨rfl, rfl⟩ | ⟨-, -, rfl, rfl⟩ := handleSelfRequest_eq_ok returns
    · exact ⟨rfl, by simp⟩
    · exact ⟨headersRequests_switchMode requester s, by simp⟩
    · exact ⟨headersRequests_switchMode requester s, by simp⟩
  | selfCancelRequest requester range =>
    obtain ⟨same, silent⟩ := (handle_refines w s (.selfCancelRequest requester range) (by simp)).peers_frame returns
    exact ⟨same, fun _ _ => silent _ _⟩
  | peerRequest sender request =>
    cases request with
    | headers range => exact absurd rfl (noRequest sender range)
    | payload id =>
      rw [BlockSyncWrapper.handle, handlePeerRequest, handlePeerPayloadRequest] at returns
      split at returns <;> cases returns <;> exact ⟨rfl, by simp⟩
  | ledgerResponse response =>
    cases response with
    | headersResponse response => exact absurd rfl (noResponse response)
    | payloadResponse payload =>
      rw [BlockSyncWrapper.handle, handleLedgerResponse] at returns
      obtain ⟨t, c₁, c₂, first, later, rfl⟩ := Outcome.andThen_eq_ok.mp returns
      have self : Refines w True False (.ledgerResponse (.payloadResponse payload)) t (.ok s' c₂) :=
        later ▸ handlePayloadResponseForSelf_refines (fun _ _ => trivial) fun _ => rfl
      obtain ⟨same, silent⟩ := self.peers_frame rfl
      cases first
      exact ⟨same, fun recipient answer mem => by simp [silent] at mem⟩
  | peerResponse sender response =>
    obtain ⟨same, silent⟩ := (handle_refines w s (.peerResponse sender response) (by simp)).peers_frame returns
    exact ⟨same, fun _ _ => silent _ _⟩
  | timeout request =>
    obtain ⟨same, silent⟩ := (handle_refines w s (.timeout request) (by simp)).peers_frame returns
    exact ⟨same, fun _ _ => silent _ _⟩

/-! ## Runs -/

/-- The waiting requests are the ones that the history leaves open. -/
def Waits (crypto : Crypto) (history : List (BlockSync × BlockSyncHandled)) (s : BlockSync) : Prop :=
  ∀ ledgerRange sender range, (sender, range) ∈ owed ledgerRange history ↔
    ∃ cached, (sender, cached) ∈ s.waiters ledgerRange ∧ requestedBlockRange crypto ledgerRange cached = range

variable {e : BlockSync × BlockSyncHandled}

theorem Waits.of_same (waits : Waits crypto history s)
    (same : s'.headersRequests = s.headersRequests) (quiet : ∀ ledgerRange pending,
      owe ledgerRange pending e.2 = pending) :
    Waits crypto (history ++ [e]) s' := by
  intro ledgerRange sender range
  rw [owed_snoc, quiet, waits, waiters, waiters, same]

theorem Waits.defer (waits : Waits e.2.w.crypto history s)
    (asks : e.2.call = .peerRequest sender (.headers range)) (defers : Defers e.2.w range)
    (cache : e.2.w.blockCache.Truthful e.2.w.crypto) (noClash : NoClash s e.2) : Waits e.2.w.crypto (history ++ [e])
      { s with
        headersRequests := s.headersRequests.insert (ledgerPart e.2.w range)
          ((s.waiters (ledgerPart e.2.w range)).insert sender (e.2.w.cachedBlocks range)) } := by
  intro ledgerRange sender' range'
  have asked := requestedBlockRange_ledgerPart cache range
  rw [owed_snoc, owe, asks, waiters_insert]
  dsimp only
  by_cases here : ledgerRange = ledgerPart e.2.w range
  · subst here
    rw [if_pos ⟨defers, rfl⟩, if_pos rfl, mem_append, waits, mem_singleton, Prod.mk.injEq]
    constructor
    · rintro (⟨cached, waiting, rfl⟩ | ⟨rfl, rfl⟩)
      · by_cases again : sender' = sender
        -- the new request takes the place of the old one, which was for the same range
        · subst again
          exact ⟨_, mem_insert.mpr (.inl rfl), asked.trans (noClash _ _ asks defers _ waiting).symm⟩
        · exact ⟨cached, mem_insert.mpr (.inr ⟨waiting, again⟩), rfl⟩
      · exact ⟨_, mem_insert.mpr (.inl rfl), asked⟩
    · rintro ⟨cached, waiting, rfl⟩
      obtain same | ⟨before, -⟩ := mem_insert.mp waiting
      · cases same
        exact .inr ⟨rfl, asked⟩
      · exact .inl ⟨cached, before, rfl⟩
  · rw [if_neg fun both => here both.2.symm, if_neg here, waits]

theorem Waits.answer (waits : Waits crypto history s)
    (answers : e.2.call = .ledgerResponse (.headersResponse response))
    (dropped : s'.headersRequests = s.headersRequests.erase response.getBlockRange) :
      Waits crypto (history ++ [e]) s' := by
  intro ledgerRange sender range
  have left : s'.waiters ledgerRange = if ledgerRange = response.getBlockRange then .empty
    else s.waiters ledgerRange := by
    rw [waiters, dropped]
    exact waiters_erase _ _
  rw [owed_snoc, owe, answers, left]
  dsimp only
  by_cases here : ledgerRange = response.getBlockRange
  · rw [if_pos here.symm, if_pos here]
    simp [mem_def, empty]
  · rw [if_neg (Ne.symm here), if_neg here, waits]

/-- What a call does for the peers, given what happened before it. -/
structure Serves (crypto : Crypto) (before : List (BlockSync × BlockSyncHandled)) (entry : BlockSyncHandled) :
    Prop where
  /-- A request is answered at once, or the ledger is asked. -/
  request : ∀ sender range, entry.call = .peerRequest sender (.headers range) → range.numBlocks ≠ 0 →
    (∃ answer, IsReply crypto range answer ∧ entry.commands = [.sendResponse sender (.headersResponse answer)]) ∨
      Defers entry.w range ∧ entry.commands = [.fetchHeaders (ledgerPart entry.w range)]
  /-- When the ledger responds, every request that waits for it is answered. -/
  response : ∀ response, entry.call = .ledgerResponse (.headersResponse response) →
    ∀ sender range, (sender, range) ∈ owed response.getBlockRange before →
      ∃ answer, IsReply crypto range answer ∧ .sendResponse sender (.headersResponse answer) ∈ entry.commands
  /-- Nothing else is answered. -/
  only : ∀ recipient answer, .sendResponse recipient (.headersResponse answer) ∈ entry.commands →
    IsReply crypto answer.getBlockRange answer ∧
      (entry.call = .peerRequest recipient (.headers answer.getBlockRange) ∨
        ∃ response, entry.call = .ledgerResponse (.headersResponse response) ∧
          (recipient, answer.getBlockRange) ∈ owed response.getBlockRange before)

theorem Waits.step (waits : Waits crypto history s) (taken : Handles crypto s entry s')
    (truthful : Truthful crypto entry.w entry.call) (noClash : NoClash s entry) :
    Waits crypto (history ++ [(s, entry)]) s' := by
  obtain ⟨rfl, returns⟩ := taken
  by_cases request : ∃ sender range, entry.call = .peerRequest sender (.headers range)
  · obtain ⟨sender, range, asks⟩ := request
    rw [asks] at returns
    obtain ⟨atOnce, rfl, -⟩ | ⟨defers, -, rfl⟩ := handlePeerHeadersRequest_cases truthful.cache rfl returns
    · refine waits.of_same rfl fun ledgerRange pending => ?_
      rw [owe, asks]
      exact if_neg fun both => atOnce both.1
    · exact Waits.defer (e := (s, entry)) waits asks defers truthful.cache noClash
  by_cases response : ∃ response, entry.call = .ledgerResponse (.headersResponse response)
  · obtain ⟨response, answers⟩ := response
    rw [answers] at returns
    exact Waits.answer (e := (s, entry)) waits answers (handleLedgerResponse_headers returns).1
  · have noRequest := fun sender range same => request ⟨sender, range, same⟩
    have noResponse := fun response' same => response ⟨response', same⟩
    refine waits.of_same (handle_frame returns noRequest noResponse).1 fun ledgerRange pending => ?_
    rw [owe]
    split
    next sender range asks => exact absurd asks (noRequest sender range)
    next response' answers => exact absurd answers (noResponse response')
    next => rfl

theorem serves_of_waits {before : List (BlockSync × BlockSyncHandled)} (waits : Waits crypto before s)
    (sound : Sound crypto s) (taken : Handles crypto s entry s') (truthful : Truthful crypto entry.w entry.call) :
    Serves crypto before entry := by
  obtain ⟨rfl, returns⟩ := taken
  -- the answer that a peer gets when the ledger responds
  have answer : ∀ response, entry.call = .ledgerResponse (.headersResponse response) →
      ∀ sender cached, (sender, cached) ∈ s.waiters response.getBlockRange →
        ∀ answer, entry.w.peerHeadersResponse response cached = .ok answer →
          IsReply entry.w.crypto (requestedBlockRange entry.w.crypto response.getBlockRange cached) answer ∧
            answer.getBlockRange = requestedBlockRange entry.w.crypto response.getBlockRange cached := by
    intro response answers sender cached waiting answer answered
    obtain ⟨chain, head⟩ := sound.of_mem_waiters waiting
    refine isReply_peerHeadersResponse answered (fun range headers same => ?_) chain head
    exact truthful.ledger range headers (by rw [answers, same])
  refine ⟨?_, ?_, ?_⟩
  · intro sender range asks positive
    rw [asks] at returns
    obtain ⟨-, -, ⟨-, zero⟩ | ⟨headers, range, sent⟩⟩ | ⟨defers, asked, -⟩ :=
      handlePeerHeadersRequest_cases truthful.cache rfl returns
    · exact absurd zero positive
    · exact .inl ⟨_, .inr ⟨headers, rfl, range⟩, sent⟩
    · exact .inr ⟨defers, asked⟩
  · intro response answers sender range open_
    obtain ⟨cached, waiting, rfl⟩ := (waits _ _ _).mp open_
    rw [answers] at returns
    obtain ⟨message, answered⟩ := handleLedgerResponse_answers returns waiting
    exact ⟨message, (answer response answers sender cached waiting message answered).1,
      ((handleLedgerResponse_headers returns).2 _ _).mpr ⟨cached, waiting, message, answered, rfl⟩⟩
  · intro recipient message sent
    by_cases request : ∃ sender range, entry.call = .peerRequest sender (.headers range)
    · obtain ⟨sender, range, asks⟩ := request
      rw [asks] at returns
      obtain ⟨-, -, ⟨none, -⟩ | ⟨headers, found, answered⟩⟩ | ⟨-, asked, -⟩ :=
        handlePeerHeadersRequest_cases truthful.cache rfl returns
      · simp [none] at sent
      · rw [answered] at sent
        cases mem_singleton.mp sent
        exact ⟨.inr ⟨headers, rfl, found⟩, .inl asks⟩
      · simp [asked] at sent
    by_cases response : ∃ response, entry.call = .ledgerResponse (.headersResponse response)
    · obtain ⟨response, answers⟩ := response
      rw [answers] at returns
      obtain ⟨cached, waiting, message', answered, same⟩ := ((handleLedgerResponse_headers returns).2 _ _).mp sent
      cases same
      obtain ⟨reply, range⟩ := answer response answers recipient cached waiting message answered
      rw [range]
      exact ⟨reply, .inr ⟨response, answers, (waits _ _ _).mpr ⟨cached, waiting, rfl⟩⟩⟩
    · exact absurd sent ((handle_frame returns (fun sender range same => request ⟨sender, range, same⟩)
        fun response' same => response ⟨response', same⟩).2 recipient message)

theorem waits_of_run {overridePeers : List NodeId}
    (run : Trace (Trace.Recorded (Handles crypto)) (new overridePeers) history s)
    (truthful : ∀ e ∈ history, Truthful crypto e.2.w e.2.call) (noClash : ∀ e ∈ history, NoClash e.1 e.2) :
    Waits crypto history s := by
  induction run with
  | nil =>
    intro ledgerRange sender range
    simp [owed, waiters, new, mem_def, empty]
  | @snoc history t t' e _ taken ih =>
    obtain ⟨t, entry⟩ := e
    obtain ⟨rfl, handled⟩ := taken
    have waits := ih (fun e mem => truthful e (mem_append_left _ mem)) fun e mem => noClash e (mem_append_left _ mem)
    exact waits.step handled (truthful (t, entry) (by simp)) (noClash (t, entry) (by simp))

/-- With a truthful ledger and truthful caches, and no clash: every request for headers is answered at once or waits
for the ledger, every waiting request is answered when the ledger responds, each answer is for the range that was
asked for, and the calls return. -/
theorem serves_every_request {crypto : Crypto} {overridePeers : List NodeId}
    {history : List (BlockSync × BlockSyncHandled)}
    (run : Trace (Trace.Recorded (Handles crypto)) (new overridePeers) history s)
    (truthful : ∀ e ∈ history, Truthful crypto e.2.w e.2.call) (noClash : ∀ e ∈ history, NoClash e.1 e.2) :
    (∀ before e after, history = before ++ e :: after → Serves crypto before e.2) ∧
      ∀ w call, w.crypto = crypto → ServesPeers call → Truthful crypto w call → (Picks call → HasPeer w overridePeers) →
        ∃ s' commands, w.handle call s = .ok s' commands := by
  constructor
  · rintro before ⟨t, entry⟩ after rfl
    rw [append_cons] at run
    obtain ⟨u, first, -⟩ := run.split
    obtain ⟨t', before', rfl, handled⟩ := first.snoc_inv
    have earlier : ∀ e ∈ before, e ∈ before ++ (t, entry) :: after := fun e mem => mem_append_left _ mem
    have waits := waits_of_run before' (fun e mem => truthful e (earlier e mem)) fun e mem => noClash e (earlier e mem)
    obtain ⟨sound, -, -⟩ := sound_of_run before' fun e mem => truthful e (earlier e mem)
    exact serves_of_waits waits sound handled (truthful (t, entry) (by simp))
  · rintro w call rfl serves truth picks
    obtain ⟨sound, peers, -⟩ := sound_of_run run truthful
    refine (sound.handle_foreign ?_ truth).2 ?_
    · rintro requester range rfl
      exact serves
    · rwa [peers]

end BlockSync

/-! ## Two requests with the same ledger part -/

namespace BlockSync

open FourValidators

theorem truthful_blockTree {tree : BlockTree}
    (blocks : tree.tree.tree.entries.all fun e => crypto.getId e.2.validatedBlock.header = e.1)
    (payloads : tree.tree.payloads.entries.all fun e => crypto.getBodyId e.2.body = e.1) :
    (BlockCache.blockTree tree).Truthful crypto where
  payload := by
    intro id payload found
    obtain ⟨index, stored, rfl⟩ := Option.map_eq_some_iff.mp found
    exact of_decide_eq_true (all_eq_true.mp payloads _ (AList.mem_lookup_iff.mp stored))
  block := by
    rintro _ ⟨⟩ id block found
    obtain ⟨entry, stored, rfl⟩ := Option.map_eq_some_iff.mp found
    exact of_decide_eq_true (all_eq_true.mp blocks _ (AList.mem_lookup_iff.mp stored))

/-- A block tree above the first block of the chain that holds the next two. -/
def treeAboveFirst : BlockTree :=
  let root : BlockTree := .new ⟨1, 1, 1, encodeHeader (chainBlock 0).header, 1⟩
  match (root.add crypto (chainBlock 1)).bind (·.add crypto (chainBlock 2)) with
  | .ok tree => tree
  | .error _ => root

def treeWrapper : BlockSyncWrapper := { wrapperWith [] with blockCache := .blockTree treeAboveFirst }

def IsAnswer (recipient : NodeId) (range : BlockRange) : BlockSyncCommand → Bool
  | .sendResponse recipient' (.headersResponse answer) => recipient' = recipient && answer.getBlockRange = range
  | _ => false

/-- Two requests for headers, and the response of the ledger for the first block. -/
def twoRequests (first second : NodeId) : List (BlockSyncWrapper × BlockSyncCall) := [
  (treeWrapper, .peerRequest first (.headers (chainRange 2 3))),
  (treeWrapper, .peerRequest second (.headers (chainRange 1 2))),
  (treeWrapper, .ledgerResponse (.headersResponse (.found (chainRange 0 1) [(chainBlock 0).header])))]

theorem truthful_twoRequests {e : BlockSyncWrapper × BlockSyncCall} (mem : e ∈ twoRequests first second) :
    Truthful crypto e.1 e.2 := by
  have cache : treeWrapper.blockCache.Truthful crypto := truthful_blockTree (by decide +kernel) (by decide +kernel)
  simp only [twoRequests, mem_cons, not_mem_nil, or_false] at mem
  obtain rfl | rfl | rfl := mem <;> refine ⟨cache, fun range headers same => ?_⟩ <;> cases same
  exact ⟨rfl, rfl, .singleton _⟩

/-- A run with both requests and the response, in which every entry passes a check. -/
theorem exists_twoRequests (second : NodeId) (check : BlockSync × BlockSyncHandled → Bool)
    (passes : ((replay (twoRequests 1 second) (new [])).any fun r => r.2.all check &&
      decide ((1, chainRange 2 3) ∈ owed (chainRange 0 1) r.2.dropLast)) = true) :
    ∃ before e s, Trace (Trace.Recorded (Handles crypto)) (new []) (before ++ [e]) s ∧
      (∀ e' ∈ before ++ [e], Truthful crypto e'.2.w e'.2.call ∧ check e' = true) ∧
      e.2.call = .ledgerResponse (.headersResponse (.found (chainRange 0 1) [(chainBlock 0).header])) ∧
      (1, chainRange 2 3) ∈ owed (chainRange 0 1) before := by
  obtain ⟨history, s, run, made, holds⟩ := exists_run_of_replay crypto (twoRequests 1 second) (new [])
    (by simp [twoRequests, treeWrapper, wrapperWith]) (fun _ history => history.all check &&
      decide ((1, chainRange 2 3) ∈ owed (chainRange 0 1) history.dropLast)) passes
  rw [Bool.and_eq_true, all_eq_true, decide_eq_true_iff] at holds
  have truthful : ∀ e ∈ history, Truthful crypto e.2.w e.2.call := fun e mem =>
    truthful_twoRequests (made ▸ mem_map_of_mem mem : (e.2.w, e.2.call) ∈ twoRequests 1 second)
  obtain ⟨e₁, _, rfl, -, made⟩ := map_eq_cons_iff.mp made
  obtain ⟨e₂, _, rfl, -, made⟩ := map_eq_cons_iff.mp made
  obtain ⟨e₃, _, rfl, last, made⟩ := map_eq_cons_iff.mp made
  cases map_eq_nil_iff.mp made
  exact ⟨[e₁, e₂], e₃, s, run, fun e mem => ⟨truthful e mem, holds.1 e mem⟩, (Prod.mk.inj last).2, holds.2⟩

def clashes (s : BlockSync) (entry : BlockSyncHandled) : Bool :=
  match entry.call with
  | .peerRequest sender (.headers range) =>
    decide (Defers entry.w range) && (s.waiters (ledgerPart entry.w range)).entries.any fun e =>
      e.1 = sender && requestedBlockRange entry.w.crypto (ledgerPart entry.w range) e.2 ≠ range
  | _ => false

theorem noClash_of_clashes (none : clashes s entry = false) : NoClash s entry := by
  intro sender range asks defers cached waiting
  rw [clashes, asks] at none
  simp only [defers, decide_true, Bool.true_and, any_eq_false] at none
  simpa using none (sender, cached) waiting

/-- Two peers whose requests have the same ledger part: the first is answered too. -/
theorem serves_firstRequest : ∃ history s, Trace (Trace.Recorded (Handles crypto)) (new []) history s ∧
      ∃ e ∈ history, ∃ answer, IsReply crypto (chainRange 2 3) answer ∧
        .sendResponse 1 (.headersResponse answer) ∈ e.2.commands := by
  obtain ⟨before, e, s, run, checked, answers, owes⟩ := exists_twoRequests 2 (fun e => !clashes e.1 e.2)
    (by decide +kernel)
  have served := serves_every_request run (fun e mem => (checked e mem).1)
    fun e mem => noClash_of_clashes (by simpa using (checked e mem).2)
  obtain ⟨answer, reply, sent⟩ := (served.1 before e [] rfl).response _ answers 1 (chainRange 2 3) owes
  exact ⟨_, s, run, e, by simp, answer, reply, sent⟩

/-- One peer with both requests: the second takes the place of the first, which is never answered. -/
theorem answer_lost : ∃ history s, Trace (Trace.Recorded (Handles crypto)) (new []) history s ∧
      (∀ e ∈ history, Truthful crypto e.2.w e.2.call) ∧
      ∃ before e, history = before ++ [e] ∧
        e.2.call = .ledgerResponse (.headersResponse (.found (chainRange 0 1) [(chainBlock 0).header])) ∧
        (1, chainRange 2 3) ∈ owed (chainRange 0 1) before ∧
        ∀ e ∈ history, ∀ answer, answer.getBlockRange = chainRange 2 3 →
          .sendResponse 1 (.headersResponse answer) ∉ e.2.commands := by
  obtain ⟨before, e, s, run, checked, answers, owes⟩ := exists_twoRequests 1
    (fun e => e.2.commands.all fun command => !IsAnswer 1 (chainRange 2 3) command) (by decide +kernel)
  refine ⟨_, s, run, fun e mem => (checked e mem).1, before, e, rfl, answers, owes, fun e mem answer range sent => ?_⟩
  have other := all_eq_true.mp (checked e mem).2 _ sent
  simp [IsAnswer, range] at other

end BlockSync

end MonadBft
