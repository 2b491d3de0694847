import MonadBft.BlockSync.Capacity
import Mathlib.Data.List.Chain

/-! # The ranges that block sync emits

With a ledger and caches that tell the truth, a range is emitted complete and linked by hashes, for the
current requester, at most once for each request; and no assertion fails, as long as there is
another node to ask.
-/

namespace MonadBft

open BlockSyncWrapper AList List

/-- The headers of a range: as many as asked for, the last one the one asked for, each one on the one before it. -/
structure IsRange (crypto : Crypto) (range : BlockRange) (headers : List ConsensusBlockHeader) : Prop where
  length : headers.length = range.numBlocks
  last : headers.getLast?.map crypto.getId = some range.lastBlockId
  chain : headers.IsChain fun parent header => header.getParentId = crypto.getId parent

variable {w : BlockSyncWrapper} {headers : List ConsensusBlockHeader} {range : BlockRange}

theorem linked_iff :
    w.linked headers = true ↔ headers.IsChain fun parent header => header.getParentId = w.crypto.getId parent := by
  induction headers with
  | nil => simp [linked]
  | cons first rest ih =>
    cases rest with
    | nil => simp [linked]
    | cons second rest =>
      have unfolds : w.linked (first :: second :: rest) =
          (decide (w.crypto.getId first = second.getParentId) && w.linked (second :: rest)) := rfl
      rw [isChain_cons_cons, ← ih, unfolds, Bool.and_eq_true, decide_eq_true_eq]
      exact and_congr_left' eq_comm

theorem verifyBlockHeaders_eq_ok_true :
    w.verifyBlockHeaders range headers = .ok true ↔ IsRange w.crypto range headers := by
  rw [verifyBlockHeaders]
  split
  next short => exact ⟨nofun, fun valid => absurd valid.length short⟩
  next enough =>
    cases last : headers.getLast? with
    | none => exact ⟨nofun, fun valid => by simpa [last] using valid.last⟩
    | some header =>
      simp only
      split
      next other => exact ⟨nofun, fun valid => by simpa [last, other, eq_comm] using valid.last⟩
      next same =>
        rw [Except.ok.injEq, linked_iff]
        refine ⟨fun chain => ⟨not_not.mp enough, ?_, chain⟩, IsRange.chain⟩
        rw [last, Option.map_some, not_not.mp same]

/-- A range of the ledger and the cached blocks above it are the range that was requested. -/
theorem IsRange.append_cached {headers cached : List ConsensusBlockHeader} (valid : IsRange w.crypto range headers)
    (chain : cached.IsChain fun parent header => header.getParentId = w.crypto.getId parent)
    (head : ∀ first ∈ cached.head?, first.getParentId = range.lastBlockId) :
    IsRange w.crypto (requestedBlockRange w.crypto range cached) (headers ++ cached) where
  length := by rw [length_append, valid.length, requestedBlockRange]
  last := by
    rw [requestedBlockRange, getLast?_append]
    cases last : cached.getLast? with
    | none => simpa using valid.last
    | some header => simp
  chain := by
    refine isChain_append.mpr ⟨valid.chain, chain, fun last mem first mem' => ?_⟩
    have same : w.crypto.getId last = range.lastBlockId := by
      have := valid.last
      rw [mem] at this
      exact Option.some.inj this
    rw [same]
    exact head first mem'

structure IsFullRange (crypto : Crypto) (range : BlockRange) (blocks : List ConsensusFullBlock) : Prop where
  headers : IsRange crypto range (blocks.map (·.header))
  bodies : ∀ block ∈ blocks, block.BodyMatches crypto

/-- A node to ask: another one among the override peers or, if there is none but the node itself, among the
validators with stake. -/
def HasPeer (w : BlockSyncWrapper) (overridePeers : List NodeId) : Prop :=
  (∃ peer ∈ overridePeers, peer ≠ w.nodeid) ∨
    (overridePeers = [] ∨ overridePeers = [w.nodeid]) ∧
      ∃ validators, w.validators = some validators ∧
        ∃ e ∈ validators.validators.entries, e.1 ≠ w.nodeid ∧ 0 < e.2

/-- Payloads and blocks in the cache are stored under their hashes. -/
structure BlockCache.Truthful (crypto : Crypto) (cache : BlockCache) : Prop where
  payload : ∀ id payload, cache.getPayload id = some payload → crypto.getBodyId payload = id
  block : ∀ tree, cache = .blockTree tree → ∀ id block, tree.getBlock id = some block → crypto.getId block.header = id

/-- The cache tells the truth, and so does the ledger when it responds. -/
structure Truthful (crypto : Crypto) (w : BlockSyncWrapper) (call : BlockSyncCall) : Prop where
  cache : w.blockCache.Truthful crypto
  ledger : ∀ range headers, call = .ledgerResponse (.headersResponse (.found range headers)) →
    IsRange crypto range headers

/-! ## Picking a peer -/

theorem stakeAt_isSome {members : List (NodeId × Stake)} {index : Nat} (inside : index < (members.map Prod.snd).sum) :
    (stakeAt members index).isSome := by
  induction members generalizing index with
  | nil => simp at inside
  | cons member rest ih =>
    obtain ⟨node, stake⟩ := member
    rw [stakeAt]
    split
    · rfl
    next beyond =>
      rw [map_cons, sum_cons] at inside
      exact ih (by omega)

theorem pickPeer_ok {overridePeers : List NodeId} (has : HasPeer w overridePeers) :
    ∃ peer, w.pickPeer overridePeers = .ok peer := by
  rw [pickPeer]
  obtain ⟨peer, mem, other⟩ | ⟨alone, validators, known, e, mem, other, staked⟩ := has
  · have several : overridePeers ≠ [] ∧ overridePeers ≠ [w.nodeid] := by
      refine ⟨ne_nil_of_mem mem, ?_⟩
      rintro rfl
      exact other (mem_singleton.mp mem)
    have remote : peer ∈ overridePeers.filter (· ≠ w.nodeid) := List.mem_filter.mpr ⟨mem, by simpa using other⟩
    have inside : w.random % (overridePeers.filter (· ≠ w.nodeid)).length <
      (overridePeers.filter (· ≠ w.nodeid)).length :=
      Nat.mod_lt _ (length_pos_of_mem remote)
    rw [if_pos several]
    simp only [getElem?_eq_getElem inside]
    exact ⟨_, rfl⟩
  · have single : ¬(overridePeers ≠ [] ∧ overridePeers ≠ [w.nodeid]) := by tauto
    have member : e ∈ validators.validators.entries.filter (·.1 ≠ w.nodeid) :=
      List.mem_filter.mpr ⟨mem, by simpa using other⟩
    have total : 0 < ((validators.validators.entries.filter (·.1 ≠ w.nodeid)).map Prod.snd).sum :=
      List.sum_pos_iff_exists_pos_nat.mpr ⟨e.2, List.mem_map_of_mem member, staked⟩
    have chosen := stakeAt_isSome (Nat.mod_lt w.random total)
    rw [if_neg single]
    simp only [known, if_neg (ne_nil_of_mem member), chooseWeighted]
    obtain ⟨node, found⟩ := Option.isSome_iff_exists.mp chosen
    exact ⟨node, by rw [found]⟩

/-! ## The invariant -/

structure SelfCompletedHeader.Sound (crypto : Crypto) (mode : BlockSyncSelfRequester) (range : BlockRange)
    (completed : SelfCompletedHeader) : Prop where
  requester : completed.requester = mode
  headers : IsRange crypto range (completed.blocks.map Prod.fst)
  body : ∀ header body, (header, some body) ∈ completed.blocks → header.blockBodyId = crypto.getBodyId body
  cached : ∀ id body, completed.payloadCache.lookup id = some body → crypto.getBodyId body = id

theorem SelfCompletedHeader.Sound.fill {crypto : Crypto} {mode : BlockSyncSelfRequester}
    {completed : SelfCompletedHeader}
    (sound : completed.Sound crypto mode range) {id payload : Bytes} (truthful : crypto.getBodyId payload = id) :
    (completed.fill id payload).Sound crypto mode range where
  requester := sound.requester
  headers := by
    have same : (completed.fill id payload).blocks.map Prod.fst = completed.blocks.map Prod.fst := by
      rw [SelfCompletedHeader.fill, map_map]
      refine map_congr_left fun e _ => ?_
      simp only [Function.comp_apply]
      split <;> rfl
    rw [same]
    exact sound.headers
  body := by
    intro header body mem
    obtain ⟨⟨header', maybePayload⟩, before, same⟩ := mem_map.mp mem
    simp only at same
    split at same
    next missing =>
      obtain ⟨rfl, same⟩ := Prod.mk.inj same
      cases same
      rw [missing.1, truthful]
    next =>
      obtain ⟨rfl, rfl⟩ := Prod.mk.inj same
      exact sound.body _ _ before
  cached := by
    intro id' body found
    rw [SelfCompletedHeader.fill] at found
    simp only at found
    split at found
    · obtain ⟨rfl, rfl⟩ | ⟨-, old⟩ := lookup_insert_eq_some.mp found
      · exact truthful
      · exact sound.cached _ _ old
    · exact sound.cached _ _ found

namespace BlockSync

structure Sound (crypto : Crypto) (s : BlockSync) : Prop where
  headersRequest : ∀ range request, s.selfHeadersRequests.lookup range = some request →
    request.requester = s.selfRequestMode ∧ range.numBlocks ≠ 0
  payloadRequest : ∀ id request, s.selfPayloadRequests.lookup id = some (some request) →
    request.requester = s.selfRequestMode
  completed : ∀ range completed, s.selfCompletedHeadersRequests.lookup range = some completed →
    completed.Sound crypto s.selfRequestMode range
  counter : s.initiated ≤ s.selfPayloadRequestsInFlight
  metrics : s.selfPayloadRequestsInFlight ≤ s.metricsInFlight
  /-- The cached blocks of a peer's request continue the range that the ledger is asked for. -/
  waiting : ∀ range requesters, s.headersRequests.lookup range = some requesters → ∀ e ∈ requesters,
    e.2.IsChain (fun parent header => header.getParentId = crypto.getId parent) ∧
      ∀ first ∈ e.2.head?, first.getParentId = range.lastBlockId

variable {w : BlockSyncWrapper} {responding serving : Prop} {call : BlockSyncCall} {s s' : BlockSync}

theorem sound_new (crypto : Crypto) (overridePeers : List NodeId) : Sound crypto (new overridePeers) where
  headersRequest := by simp [new]
  payloadRequest := by simp [new]
  completed := by simp [new]
  counter := Nat.zero_le _
  metrics := Nat.zero_le _
  waiting := by simp [new]

/-! ## Cached blocks and payloads -/

variable {id payload : Bytes} {range : BlockRange} {commands : List BlockSyncCommand}
  {blocks : List (ConsensusBlockHeader × Option Bytes)} {requester : BlockSyncSelfRequester}
  {labels : List (List BlockSyncCommand)} {entry : BlockSyncHandled} {history : List (BlockSync × BlockSyncHandled)}
  {crypto : Crypto}

theorem getCachedPayload_truthful (cache : w.blockCache.Truthful crypto) (sound : Sound crypto s)
    (found : w.getCachedPayload s id = some payload) : crypto.getBodyId payload = id := by
  rw [getCachedPayload] at found
  cases cached : w.blockCache.getPayload id with
  | some payload' =>
    simp only [cached, Option.some.injEq] at found
    exact found ▸ cache.payload id payload' cached
  | none =>
    simp only [cached] at found
    obtain ⟨e, mem, here⟩ := exists_of_findSome?_eq_some found
    exact (sound.completed e.1 e.2 (mem_lookup_iff.mpr mem)).cached id payload here

theorem parentChain_isChain {tree : BlockTree}
    (stored : ∀ id block, tree.getBlock id = some block → crypto.getId block.header = id) (fuel : Nat) (id : BlockId) :
    (tree.parentChain fuel id).IsChain (fun block parent => block.getParentId = crypto.getId parent.header) ∧
      ∀ block ∈ (tree.parentChain fuel id).head?, crypto.getId block.header = id := by
  induction fuel generalizing id with
  | zero => simp [BlockTree.parentChain]
  | succ fuel ih =>
    rw [BlockTree.parentChain]
    cases found : tree.getBlock id with
    | none => simp
    | some block =>
      obtain ⟨chain, head⟩ := ih block.getParentId
      refine ⟨isChain_cons.mpr ⟨fun parent mem => (head parent mem).symm, chain⟩, ?_⟩
      intro block' mem
      cases mem
      exact stored id block found

theorem cachedBlocks_eq {tree : BlockTree} (cache : w.blockCache = .blockTree tree) (range : BlockRange) :
    w.cachedBlocks range =
      (((tree.parentChain tree.tree.size range.lastBlockId).map (·.header)).take range.numBlocks).reverse := by
  rw [cachedBlocks, cache]
  simp [BlockTree.getParentBlockChain]

/-- The cached blocks are a chain that ends with the last block of the range. -/
theorem cachedBlocks_spec (cache : w.blockCache.Truthful crypto) (range : BlockRange) :
    (w.cachedBlocks range).IsChain (fun parent header => header.getParentId = crypto.getId parent) ∧
      ∀ last ∈ (w.cachedBlocks range).getLast?, crypto.getId last = range.lastBlockId := by
  cases kind : w.blockCache with
  | blockBuffer payloads => simp [cachedBlocks, kind]
  | blockTree tree =>
    obtain ⟨chain, head⟩ := parentChain_isChain (cache.block tree kind) tree.tree.size range.lastBlockId
    rw [cachedBlocks_eq kind]
    constructor
    · rw [isChain_reverse]
      refine List.IsChain.take ?_ _
      exact (isChain_map _).mpr chain
    · intro last mem
      rw [getLast?_reverse, head?_take] at mem
      split at mem
      · simp at mem
      · rw [head?_map, Option.mem_def, Option.map_eq_some_iff] at mem
        obtain ⟨block, first, rfl⟩ := mem
        exact head block first

/-! ## Effects keep the invariant -/

theorem Sound.supply (sound : Sound crypto s) {request : Option SelfRequest}
    (known : s.selfPayloadRequests.lookup id = some request) (truthful : crypto.getBodyId payload = id) :
    Sound crypto (supply id payload s) where
  headersRequest := sound.headersRequest
  payloadRequest := fun id' request' found => sound.payloadRequest id' request' (lookup_erase_eq_some.mp found).2
  completed := by
    intro range completed found
    obtain ⟨before, stored, rfl⟩ := lookup_supply found
    exact (sound.completed range before stored).fill truthful
  counter := by
    have less : s.initiated = (BlockSyncWrapper.supply id payload s).initiated + _ := initiated_supply known
    have := sound.counter
    change (BlockSyncWrapper.supply id payload s).initiated ≤ s.selfPayloadRequestsInFlight
    omega
  metrics := sound.metrics
  waiting := sound.waiting

theorem Sound.completeHeaders (sound : Sound crypto s) {headers : List ConsensusBlockHeader}
    (valid : IsRange crypto range headers) :
    Sound crypto (completeHeaders range headers s) := by
  have frame := addPayloadRequests_frame (headers.map (·.blockBodyId))
    { s with selfHeadersRequests := s.selfHeadersRequests.erase range }
  have mode : (BlockSyncWrapper.completeHeaders range headers s).selfRequestMode = s.selfRequestMode := by
    rw [BlockSyncWrapper.completeHeaders, frame]
  have same : (BlockSyncWrapper.completeHeaders range headers s).initiated = s.initiated :=
    initiated_addPayloadRequests _ _
  refine ⟨?_, ?_, ?_, ?_, ?_, ?_⟩
  · intro range' request found
    rw [mode]
    rw [BlockSyncWrapper.completeHeaders, frame] at found
    exact sound.headersRequest range' request (lookup_erase_eq_some.mp found).2
  · intro id request found
    rw [mode]
    exact sound.payloadRequest id request (lookup_of_completeHeaders found)
  · intro range' completed found
    rw [mode]
    obtain ⟨rfl, rfl⟩ | old := lookup_completeHeaders found
    · refine ⟨rfl, ?_, ?_, ?_⟩
      · simpa [Function.comp_def] using valid
      · simp
      · simp
    · exact sound.completed range' completed old
  · rw [same, BlockSyncWrapper.completeHeaders, frame]
    exact sound.counter
  · rw [BlockSyncWrapper.completeHeaders, frame]
    exact sound.metrics
  · rw [BlockSyncWrapper.completeHeaders, frame]
    exact sound.waiting

section

variable (effect : Effect w responding serving s commands s')

include effect

theorem Effect.sound (cache : w.blockCache.Truthful w.crypto) (sound : Sound w.crypto s) : Sound w.crypto s' := by
  cases effect with
  | cancelHeaders range =>
    exact { sound with
      headersRequest := fun range' request found => sound.headersRequest range' request
        (lookup_erase_eq_some.mp found).2 }
  | cancelCompleted range =>
    exact { sound with
      completed := fun range' completed found => sound.completed range' completed (lookup_erase_eq_some.mp found).2 }
  | requestHeaders peer known =>
    exact { sound with
      headersRequest := by
        intro range' request' found
        obtain ⟨rfl, rfl⟩ | ⟨-, old⟩ := lookup_insert_eq_some.mp found
        · have before := sound.headersRequest _ _ known
          exact before
        · exact sound.headersRequest _ _ old }
  | @requestPayload id request peer known =>
    have same : (s.selfPayloadRequests.insert id (some { request with recipient := some peer })).entries.countP _ + 1 =
        s.initiated + 1 := countP_insert known Option.isSome
    exact { sound with
      payloadRequest := by
        intro id' request' found
        obtain ⟨rfl, ⟨⟩⟩ | ⟨-, old⟩ := lookup_insert_eq_some.mp found
        · have before := sound.payloadRequest _ _ known
          exact before
        · exact sound.payloadRequest _ _ old
      counter := (Nat.succ.inj same).trans_le sound.counter }
  | completeHeaders sender known verified => exact sound.completeHeaders (verifyBlockHeaders_eq_ok_true.mp verified)
  | supplyCached response known cached => exact sound.supply known (getCachedPayload_truthful cache sound cached)
  | @answer payload request sender known positive =>
    have less : s.initiated = (supply (w.crypto.getBodyId payload) payload s).initiated + 1 := initiated_supply known
    have supplied := sound.supply known rfl
    have counter := sound.counter
    have metrics := sound.metrics
    exact { supplied with
      counter := by
        change (supply (w.crypto.getBodyId payload) payload s).initiated ≤ s.selfPayloadRequestsInFlight - 1
        omega
      metrics := by
        change s.selfPayloadRequestsInFlight - 1 ≤ s.metricsInFlight - 1
        omega }
  | @initiate id known uncached free =>
    have more : (s.selfPayloadRequests.insert id (some { requester := s.selfRequestMode, recipient :=
        none })).entries.countP (fun e => e.2.isSome) + 0 = s.initiated + 1 := countP_insert known Option.isSome
    exact { sound with
      payloadRequest := by
        intro id' request' found
        obtain ⟨rfl, ⟨⟩⟩ | ⟨-, old⟩ := lookup_insert_eq_some.mp found
        · rfl
        · exact sound.payloadRequest _ _ old
      counter := more.trans_le (Nat.succ_le_succ sound.counter)
      metrics := Nat.succ_le_succ sound.metrics }
  | emit known full =>
    exact { sound with
      completed := fun range' completed found => sound.completed range' completed (lookup_erase_eq_some.mp found).2 }
  | fetchHeaders peers sender range =>
    obtain ⟨chain, -⟩ := cachedBlocks_spec cache range
    exact { sound with
      waiting := by
        intro range' requesters found e mem
        obtain ⟨rfl, rfl⟩ | ⟨-, old⟩ := lookup_insert_eq_some.mp found
        · obtain rfl | ⟨before, -⟩ := SortedMap.mem_insert.mp mem
          · refine ⟨chain, fun first head => ?_⟩
            rw [ledgerFetchRange, head, Option.map_some, Option.getD_some]
          · cases stored : s.headersRequests.lookup (ledgerFetchRange range (w.cachedBlocks range)) with
            | none =>
              rw [stored] at before
              cases before
            | some requesters =>
              rw [stored] at before
              exact sound.waiting _ _ stored e before
        · exact sound.waiting _ _ old e mem }
  | dropHeadersRequests peers range =>
    exact { sound with
      waiting := fun range' requesters found => sound.waiting range' requesters (lookup_erase_eq_some.mp found).2 }
  | fetchPayload peers id requesters => exact { sound with }
  | dropPayloadRequests peers id => exact { sound with }
  | respond peers recipient response => exact sound

theorem Effect.frame : s'.selfRequestMode = s.selfRequestMode ∧ s'.overridePeers = s.overridePeers := by
  cases effect with
  | completeHeaders sender known verified =>
    rw [BlockSyncWrapper.completeHeaders, addPayloadRequests_frame]
    exact ⟨rfl, rfl⟩
  | _ => exact ⟨rfl, rfl⟩

/-! ## Emitted blocks -/

omit effect in
theorem fullBlocks_eq_ok {full : List ConsensusFullBlock} (assembled : w.fullBlocks blocks = .ok full) :
    full.map (·.header) = blocks.map Prod.fst ∧ ∀ block ∈ full, block.BodyMatches w.crypto := by
  induction blocks generalizing full with
  | nil =>
    cases assembled
    exact ⟨rfl, nofun⟩
  | cons e rest ih =>
    obtain ⟨header, payload⟩ := e
    cases payload with
    | none => simp [fullBlocks] at assembled
    | some body =>
      rw [fullBlocks] at assembled
      split at assembled
      · cases assembled
      next matches_ =>
        cases later : w.fullBlocks rest with
        | error reason => simp [later, Except.map] at assembled
        | ok blocks =>
          rw [later] at assembled
          cases assembled
          obtain ⟨headers, bodies⟩ := ih later
          refine ⟨by simp [headers], fun block mem => ?_⟩
          cases mem with
          | head => exact (not_not.mp matches_).symm
          | tail _ mem => exact bodies block mem

omit effect in
theorem exists_fullBlocks (all : ∀ e ∈ blocks, e.2.isSome)
    (bodies : ∀ header body, (header, some body) ∈ blocks → header.blockBodyId = w.crypto.getBodyId body) :
    ∃ full, w.fullBlocks blocks = .ok full := by
  induction blocks with
  | nil => exact ⟨[], rfl⟩
  | cons e rest ih =>
    obtain ⟨header, payload⟩ := e
    obtain ⟨body, rfl⟩ := Option.isSome_iff_exists.mp (all _ (.head _))
    obtain ⟨full, later⟩ := ih (fun e mem => all e (.tail _ mem)) fun header body mem => bodies header body
      (.tail _ mem)
    have same := not_not.mpr (bodies header body (.head _)).symm
    exact ⟨_, by rw [fullBlocks, if_neg same, later]; rfl⟩

theorem Effect.emits (sound : Sound w.crypto s)
    {blocks : List ConsensusFullBlock} (emitted : .emit requester range blocks ∈ commands) :
    requester = s.selfRequestMode ∧ IsFullRange w.crypto range blocks := by
  cases effect with
  | emit known full =>
    cases mem_singleton.mp emitted
    have completed := sound.completed _ _ known
    obtain ⟨headers, bodies⟩ := fullBlocks_eq_ok full
    exact ⟨completed.requester, headers ▸ completed.headers, bodies⟩
  | completeHeaders sender known verified =>
    rw [resetTimeout] at emitted
    split at emitted <;> simp at emitted
  | answer sender known positive =>
    rw [resetTimeout] at emitted
    split at emitted <;> simp at emitted
  | _ => simp at emitted

end

/-! ## Panics -/

theorem not_panicCause {reason : BlockSyncPanic} (truthful : Truthful w.crypto w call)
    (peers : Picks call → HasPeer w s.overridePeers) (sound : Sound w.crypto s) : ¬PanicCause w call s reason := by
  intro cause
  cases cause with
  | pickPeer picks failed =>
    obtain ⟨peer, picked⟩ := pickPeer_ok (peers picks)
    rw [picked] at failed
    cases failed
  | headersRequester known other => exact other (sound.headersRequest _ _ known).1
  | payloadRequester known other => exact other (sound.payloadRequest _ _ known)
  | @verification range request headers reason known failed =>
    rw [verifyBlockHeaders] at failed
    split at failed
    · cases failed
    next enough =>
      cases last : headers.getLast? with
      | none =>
        rw [getLast?_eq_none_iff.mp last] at enough
        exact (sound.headersRequest _ _ known).2 (not_not.mp enough).symm
      | some header =>
        simp only [last] at failed
        split at failed <;> cases failed
  | ledgerHeaders ledger invalid =>
    rw [verifyBlockHeaders_eq_ok_true.mpr (truthful.ledger _ _ ledger)] at invalid
    cases invalid
  | underflow known zero =>
    have positive : 0 < s.initiated := countP_pos_iff.mpr ⟨⟨_, _⟩, mem_lookup_iff.mp known, rfl⟩
    have counter := sound.counter
    have metrics := sound.metrics
    omega
  | @fullBlocks range completed reason known complete failed =>
    have stored := sound.completed _ _ known
    obtain ⟨full, assembled⟩ := exists_fullBlocks (by simpa [SelfCompletedHeader.isComplete] using complete) stored.body
    rw [assembled] at failed
    cases failed
  | @cachedRange range nonempty full other =>
    have cached : w.cachedBlocks range ≠ [] := by
      rintro empty
      rw [empty] at full
      exact nonempty full.symm
    have last := getLast?_eq_some_getLast cached
    rw [last] at other
    exact other (congrArg some ((cachedBlocks_spec truthful.cache range).2 _ last))
  | @peerHeaders response requesters requester cached reason ledger waiting mem failed =>
    cases response with
    | notAvailable range => cases failed
    | found range headers =>
      obtain ⟨chain, head⟩ := sound.waiting _ _ waiting _ mem
      have extended := (truthful.ledger _ _ ledger).append_cached chain head
      rw [peerHeadersResponse, if_pos (linked_iff.mpr extended.chain)] at failed
      cases failed

/-! ## Handlers -/

/-- What the effects of a call do. -/
structure SoundStep (crypto : Crypto) (s : BlockSync) (commands : List BlockSyncCommand) (s' : BlockSync) : Prop where
  sound : Sound crypto s'
  mode : s'.selfRequestMode = s.selfRequestMode
  overridePeers : s'.overridePeers = s.overridePeers
  emits : ∀ requester range blocks, .emit requester range blocks ∈ commands →
    requester = s.selfRequestMode ∧ IsFullRange crypto range blocks

theorem SoundStep.of_trace (trace : Trace (Effect w responding serving) s labels s')
    (cache : w.blockCache.Truthful w.crypto) (sound : Sound w.crypto s) : SoundStep w.crypto s labels.flatten s' := by
  induction trace with
  | nil => exact ⟨sound, rfl, rfl, nofun⟩
  | snoc _ taken ih =>
    obtain ⟨mode, overridePeers⟩ := taken.frame
    refine ⟨taken.sound cache ih.sound, mode.trans ih.mode, overridePeers.trans ih.overridePeers, ?_⟩
    intro requester range blocks emitted
    rw [flatten_append, mem_append] at emitted
    obtain before | now := emitted
    · exact ih.emits requester range blocks before
    · rw [← ih.mode]
      exact taken.emits ih.sound (by simpa using now)

/-- A call other than a self request. -/
theorem Sound.handle_foreign (sound : Sound w.crypto s) (foreign : ∀ requester range,
    call ≠ .selfRequest requester range) (truthful : Truthful w.crypto w call) :
    (∀ s' commands, w.handle call s = .ok s' commands → SoundStep w.crypto s commands s') ∧
      ((Picks call → HasPeer w s.overridePeers) → ∃ s' commands, w.handle call s = .ok s' commands) := by
  have refines := handle_refines w s call foreign
  constructor
  · intro s' commands returns
    rw [returns] at refines
    obtain ⟨labels, trace, rfl⟩ := refines
    exact .of_trace trace truthful.cache sound
  · intro peers
    cases result : w.handle call s with
    | ok s' commands => exact ⟨s', commands, rfl⟩
    | panic reason =>
      rw [result] at refines
      obtain ⟨labels, t, trace, cause⟩ := refines
      have step := SoundStep.of_trace trace truthful.cache sound
      refine absurd cause (not_panicCause truthful ?_ step.sound)
      rwa [step.overridePeers]

section

variable (requester : BlockSyncSelfRequester) (s : BlockSync)

theorem selfRequestMode_switchMode : (switchMode requester s).selfRequestMode = requester := by
  rw [switchMode]
  split
  · rfl
  next same => exact (not_not.mp same).symm

theorem headersRequests_switchMode : (switchMode requester s).headersRequests = s.headersRequests := by
  rw [BlockSyncWrapper.switchMode]
  split <;> rfl

end

theorem Sound.switchMode (sound : Sound crypto s) (requester : BlockSyncSelfRequester) :
    Sound crypto (switchMode requester s) := by
  rw [BlockSyncWrapper.switchMode]
  split
  · exact { sound with
      headersRequest := by simp [clearSelfRequests]
      payloadRequest := by simp [clearSelfRequests]
      completed := by simp [clearSelfRequests]
      counter := Nat.zero_le _
      metrics := Nat.zero_le _ }
  · exact sound

theorem Sound.handleSelfRequest (sound : Sound crypto s)
    (returns : handleSelfRequest requester range s = .ok s' commands) :
    Sound crypto s' ∧ s'.overridePeers = s.overridePeers := by
  have switched := sound.switchMode requester
  have peers : (BlockSyncWrapper.switchMode requester s).overridePeers = s.overridePeers := by
    rw [BlockSyncWrapper.switchMode]; split <;> rfl
  obtain ⟨rfl, -⟩ | ⟨rfl, -⟩ | ⟨nonempty, -, rfl, -⟩ := handleSelfRequest_eq_ok returns
  · exact ⟨sound, rfl⟩
  · exact ⟨switched, peers⟩
  · refine ⟨{ switched with headersRequest := ?_ }, peers⟩
    intro range' request found
    obtain ⟨rfl, rfl⟩ | ⟨-, old⟩ := lookup_insert_eq_some.mp found
    · exact ⟨(selfRequestMode_switchMode requester s).symm, nonempty⟩
    · exact switched.headersRequest range' request old

/-! ## At most once -/

def IsEmitOf (range : BlockRange) : BlockSyncCommand → Bool
  | .emit _ emitted _ => emitted = range
  | _ => false

/-- How often a range can still be emitted. -/
def tokens (range : BlockRange) (s : BlockSync) : Nat :=
  (s.selfHeadersRequests.lookup range).isSome.toNat + (s.selfCompletedHeadersRequests.lookup range).isSome.toNat

theorem isSome_lookup_erase_le {β : Type} (m : AList fun _ : BlockRange => β) (range range' : BlockRange) :
    ((m.erase range').lookup range).isSome.toNat ≤ (m.lookup range).isSome.toNat := by
  by_cases same : range = range'
  · subst same
    simp
  · rw [lookup_erase_ne same]

theorem countP_resetTimeout (range : BlockRange) (sender : Option NodeId) (request : BlockSyncRequestMessage) :
    (resetTimeout sender request).countP (IsEmitOf range) = 0 := by
  rw [resetTimeout]
  split <;> rfl

theorem tokens_supply (range : BlockRange) (id payload : Bytes) (s : BlockSync) :
    tokens range (supply id payload s) = tokens range s := by
  rw [tokens, tokens, supply, lookup_mapValues, Option.isSome_map]

theorem Effect.tokens_le (effect : Effect w responding serving s commands s') (range : BlockRange) :
    commands.countP (IsEmitOf range) + tokens range s' ≤ tokens range s := by
  cases effect with
  | cancelHeaders range' =>
    have := isSome_lookup_erase_le s.selfHeadersRequests range range'
    simp only [countP_nil, tokens]
    omega
  | cancelCompleted range' =>
    have := isSome_lookup_erase_le s.selfCompletedHeadersRequests range range'
    simp only [countP_nil, tokens]
    omega
  | @requestHeaders range' request peer known =>
    have same : ((s.selfHeadersRequests.insert range' { request with recipient := some peer }).lookup range).isSome =
        (s.selfHeadersRequests.lookup range).isSome := by
      by_cases here : range = range'
      · subst here
        simp [known]
      · rw [lookup_insert_ne here]
    simp [tokens, same, IsEmitOf]
  | @completeHeaders range' request headers sender known verified =>
    rw [countP_resetTimeout, Nat.zero_add, tokens, tokens, BlockSyncWrapper.completeHeaders, addPayloadRequests_frame]
    by_cases here : range = range'
    · subst here
      simp [known]
    · simp [lookup_erase_ne here, lookup_insert_ne here]
  | supplyCached response known cached => rw [countP_nil, Nat.zero_add, tokens_supply]
  | answer sender known positive =>
    rw [countP_resetTimeout, Nat.zero_add, tokens_supply]
    exact le_rfl
  | @emit range' completed blocks known full =>
    simp only [countP_singleton, IsEmitOf, tokens]
    by_cases here : range = range'
    · subst here
      simp [known]
      omega
    · simp [lookup_erase_ne here, Ne.symm here]
  | _ => simp [tokens, IsEmitOf]

def Issues (range : BlockRange) (entry : BlockSyncHandled) : Prop :=
  (∃ requester, entry.call = .selfRequest requester range) ∧ .fetchHeaders range ∈ entry.commands

def emissions (range : BlockRange) (history : List (BlockSync × BlockSyncHandled)) : Nat :=
  (history.map fun e => e.2.commands.countP (IsEmitOf range)).sum

theorem tokens_le_of_trace (trace : Trace (Effect w responding serving) s labels s') :
    labels.flatten.countP (IsEmitOf range) + tokens range s' ≤ tokens range s := by
  induction trace with
  | nil => simp
  | snoc _ taken ih =>
    have step := taken.tokens_le range
    simp only [flatten_append, countP_append, flatten_singleton]
    omega

theorem handle_tokens_le (returns : entry.w.handle entry.call s = .ok s' entry.commands) (quiet : ¬Issues range entry) :
    entry.commands.countP (IsEmitOf range) + tokens range s' ≤ tokens range s := by
  obtain ⟨w, call, commands⟩ := entry
  by_cases self : ∃ requester range', call = .selfRequest requester range'
  · obtain ⟨requester, range', rfl⟩ := self
    have switched : tokens range (switchMode requester s) ≤ tokens range s := by
      rw [switchMode]
      split
      · simp [tokens, clearSelfRequests]
      · exact le_rfl
    obtain ⟨rfl, rfl⟩ | ⟨rfl, rfl⟩ | ⟨-, -, rfl, rfl⟩ := handleSelfRequest_eq_ok returns
    · simp
    · simpa using switched
    · have other : range ≠ range' := by
        rintro rfl
        exact quiet ⟨⟨requester, rfl⟩, by simp⟩
      simpa [tokens, IsEmitOf, lookup_insert_ne other] using switched
  · have refines := handle_refines w s call fun requester range' same => self ⟨requester, range', same⟩
    rw [returns] at refines
    obtain ⟨labels, trace, rfl⟩ := refines
    exact tokens_le_of_trace trace

theorem emissions_le_tokens (run : Trace (Trace.Recorded (Handles crypto)) s history s')
    (quiet : ∀ e ∈ history, ¬Issues range e.2) :
    emissions range history + tokens range s' ≤ tokens range s := by
  induction run with
  | nil => simp [emissions]
  | @snoc history t t' e _ taken ih =>
    obtain ⟨rfl, -, returns⟩ := taken
    have before := ih fun e mem => quiet e (mem_append_left _ mem)
    have now := handle_tokens_le returns (quiet e (by simp))
    simp only [emissions, map_append, sum_append, map_cons, map_nil, sum_singleton] at before ⊢
    omega

/-- The request itself leaves one emission. -/
theorem tokens_of_issues (returns : entry.w.handle entry.call s = .ok s' entry.commands) (issues : Issues range entry) :
    tokens range s' ≤ 1 := by
  obtain ⟨w, call, commands⟩ := entry
  obtain ⟨⟨requester, rfl⟩, fetches⟩ := issues
  obtain ⟨-, rfl⟩ | ⟨-, rfl⟩ | ⟨-, new, rfl, -⟩ := handleSelfRequest_eq_ok returns
  · simp at fetches
  · simp at fetches
  · rw [selfRequestExists, Bool.or_eq_false_iff] at new
    simp [tokens, new.2]

/-! ## Runs -/

theorem sound_of_run {overridePeers : List NodeId}
    (run : Trace (Trace.Recorded (Handles crypto)) (new overridePeers) history s)
    (truthful : ∀ e ∈ history, Truthful crypto e.2.w e.2.call) : Sound crypto s ∧ s.overridePeers = overridePeers ∧
      ∀ e ∈ history, ∀ requester range blocks, .emit requester range blocks ∈ e.2.commands →
        requester = e.1.selfRequestMode ∧ IsFullRange crypto range blocks := by
  induction run with
  | nil => exact ⟨sound_new crypto overridePeers, rfl, nofun⟩
  | @snoc history t t' e _ taken ih =>
    obtain ⟨t, w, call, commands⟩ := e
    obtain ⟨rfl, rfl, returns⟩ := taken
    obtain ⟨sound, peers, emits⟩ := ih fun e mem => truthful e (mem_append_left _ mem)
    have truth := truthful (t, ⟨w, call, commands⟩) (by simp)
    have step : Sound w.crypto t' ∧ t'.overridePeers = t.overridePeers ∧
        ∀ requester range blocks, .emit requester range blocks ∈ commands →
          requester = t.selfRequestMode ∧ IsFullRange w.crypto range blocks := by
      by_cases self : ∃ requester range, call = .selfRequest requester range
      · obtain ⟨requester, range, rfl⟩ := self
        obtain ⟨sound', peers'⟩ := sound.handleSelfRequest returns
        refine ⟨sound', peers', ?_⟩
        obtain ⟨-, rfl⟩ | ⟨-, rfl⟩ | ⟨-, -, -, rfl⟩ := handleSelfRequest_eq_ok returns <;> simp
      · have foreign := (sound.handle_foreign (fun requester range same => self
          ⟨requester, range, same⟩) truth).1 _ _ returns
        exact ⟨foreign.sound, foreign.overridePeers, foreign.emits⟩
    refine ⟨step.1, step.2.1.trans peers, fun e mem => ?_⟩
    obtain old | now := mem_append.mp mem
    · exact emits e old
    · cases mem_singleton.mp now
      exact step.2.2

/-- With a truthful ledger and truthful caches: every emitted range is complete, linked by hashes and for the current
requester; between a request for a range and the next one it is emitted at most once; and a call panics in no
reachable state, as long as there is another node to ask when one has to be asked. -/
theorem emits_only_full_ranges {crypto : Crypto} {overridePeers : List NodeId}
    {history : List (BlockSync × BlockSyncHandled)}
    (run : Trace (Trace.Recorded (Handles crypto)) (new overridePeers) history s)
    (truthful : ∀ e ∈ history, Truthful crypto e.2.w e.2.call) :
    (∀ e ∈ history, ∀ requester range blocks, .emit requester range blocks ∈ e.2.commands →
      requester = e.1.selfRequestMode ∧ IsFullRange crypto range blocks) ∧
    (∀ range before issued after, history = before ++ issued :: after → Issues range issued.2 →
      (∀ e ∈ after, ¬Issues range e.2) → emissions range after ≤ 1) ∧
    ∀ w call, w.crypto = crypto → Truthful crypto w call → (Picks call → HasPeer w overridePeers) →
      ∃ s' commands, w.handle call s = .ok s' commands := by
  obtain ⟨sound, peers, emits⟩ := sound_of_run run truthful
  refine ⟨emits, ?_, ?_⟩
  · rintro range before issued after rfl issues quiet
    rw [append_cons] at run
    obtain ⟨t, first, rest⟩ := run.split
    obtain ⟨u, -, rfl, -, returns⟩ := first.snoc_inv
    have once := tokens_of_issues returns issues
    have later := emissions_le_tokens rest quiet
    omega
  · rintro w call rfl truth picks
    by_cases self : ∃ requester range, call = .selfRequest requester range
    · obtain ⟨requester, range, rfl⟩ := self
      simp only [BlockSyncWrapper.handle, handleSelfRequest]
      split
      · exact ⟨_, _, rfl⟩
      · split <;> exact ⟨_, _, rfl⟩
    · refine (sound.handle_foreign (fun requester range same => self ⟨requester, range, same⟩) truth).2 ?_
      rwa [peers]

end BlockSync

/-! ## Three blocks, and a node on its own -/

namespace BlockSync

open FourValidators

/-- The node asks for three blocks; the ledger has their headers and then their payloads, the last one first. -/
def threeBlocks : List (BlockSyncWrapper × BlockSyncCall) := [
  (wrapperWith [], .selfRequest .consensus (chainRange 2 3)),
  (wrapperWith [], .ledgerResponse (.headersResponse (.found (chainRange 2 3)
    [(chainBlock 0).header, (chainBlock 1).header, (chainBlock 2).header]))),
  (wrapperWith [], .ledgerResponse (.payloadResponse (.found [2]))),
  (wrapperWith [], .ledgerResponse (.payloadResponse (.found [0]))),
  (wrapperWith [], .ledgerResponse (.payloadResponse (.found [1])))]

theorem truthful_wrapperWith_nil : (wrapperWith []).blockCache.Truthful crypto := ⟨nofun, nofun⟩

theorem emits_threeBlocks : ∃ history s, Trace (Trace.Recorded (Handles crypto)) (new []) history s ∧
      ∃ e ∈ history, ∃ requester blocks, .emit requester (chainRange 2 3) blocks ∈ e.2.commands ∧
        requester = e.1.selfRequestMode ∧ IsFullRange crypto (chainRange 2 3) blocks := by
  obtain ⟨history, s, run, made, emitted⟩ := exists_run_of_replay crypto threeBlocks (new [])
    (by simp [threeBlocks, wrapperWith])
    (fun _ history => history.any fun e => e.2.commands.any (IsEmitOf (chainRange 2 3))) (by decide +kernel)
  have truthful : ∀ e ∈ history, Truthful crypto e.2.w e.2.call := by
    intro e mem
    have listed := made ▸ mem_map_of_mem mem
    simp only [threeBlocks, mem_cons, Prod.mk.injEq, not_mem_nil, or_false] at listed
    obtain ⟨w, call⟩ | ⟨w, call⟩ | ⟨w, call⟩ | ⟨w, call⟩ | ⟨w, call⟩ := listed
    all_goals
      rw [w, call]
      refine ⟨truthful_wrapperWith_nil, fun range headers same => ?_⟩
      cases same
    exact ⟨rfl, rfl, .cons_cons rfl (.cons_cons rfl (.singleton _))⟩
  obtain ⟨e, mem, found⟩ := any_eq_true.mp emitted
  obtain ⟨command, listed, isEmit⟩ := any_eq_true.mp found
  cases command with
  | emit requester range blocks =>
    have same : range = chainRange 2 3 := by simpa [IsEmitOf] using isEmit
    subst same
    exact ⟨history, s, run, e, mem, requester, blocks, listed,
      (emits_only_full_ranges run truthful).1 e mem requester _ blocks listed⟩
  | _ => cases isEmit

def loneWrapper : BlockSyncWrapper :=
  { wrapperWith [] with
    validators := some { validators := ⟨[(0, 1)], by decide⟩, fits := by decide } }

/-- The ledger lacks a block, and there is no other node to ask. -/
theorem panics_without_peers : ∃ history s, Trace (Trace.Recorded (Handles crypto)) (new []) history s ∧
      (∀ e ∈ history, Truthful crypto e.2.w e.2.call) ∧
      Truthful crypto loneWrapper (.ledgerResponse (.headersResponse (.notAvailable (chainRange 0 1)))) ∧
      loneWrapper.handle (.ledgerResponse (.headersResponse (.notAvailable (chainRange 0 1)))) s = .panic .noNodes := by
  obtain ⟨history, s, run, made, panics⟩ := exists_run_of_replay crypto
    [(loneWrapper, .selfRequest .consensus (chainRange 0 1))] (new []) (by simp [loneWrapper, wrapperWith])
    (fun s _ => (loneWrapper.handle (.ledgerResponse (.headersResponse (.notAvailable (chainRange 0 1)))) s).reason? =
      some .noNodes)
    (by decide +kernel)
  refine ⟨history, s, run, fun e mem => ?_, ⟨truthful_wrapperWith_nil, by simp⟩,
    Outcome.reason?_eq_some.mp (of_decide_eq_true panics)⟩
  have listed : (e.2.w, e.2.call) ∈ [(loneWrapper, BlockSyncCall.selfRequest .consensus (chainRange 0 1))] :=
    made ▸ mem_map_of_mem mem
  obtain ⟨w, call⟩ := Prod.mk.inj (mem_singleton.mp listed)
  rw [w, call]
  exact ⟨truthful_wrapperWith_nil, by simp⟩

end BlockSync

end MonadBft
