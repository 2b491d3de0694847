import MonadBft.Eth.ReserveBalance

/-! # Base nonces

The nonce of an account before a block is looked up in the blocks that the new one extends, then in the cache, then in
the state that execution has reached. On a chain of accepted blocks all three agree: the answer is the nonce at the
base plus the number of transactions since.
-/

namespace MonadBft

open EthValidatedBlock SortedMap CommittedBlkBuffer List

variable {crypto : Crypto} {chain : List EthValidatedBlock} {d : Nat} {nonce : Nat → Address → Nonce}

/-! ## Transactions of an account -/

def EthValidatedBlock.txnCount (block : EthValidatedBlock) (address : Address) : Nat :=
  block.systemTxns.countP (fun tx => tx.signer = address) + block.validatedTxns.countP fun tx => tx.signer = address

theorem EthValidatedBlock.systemTxns_eq_nil (block : EthValidatedBlock) : block.systemTxns = [] :=
  eq_nil_iff_forall_not_mem.mpr fun tx _ => tx.rec

theorem EthValidatedBlock.txnCount_eq (block : EthValidatedBlock) (address : Address) :
    block.txnCount address = block.validatedTxns.countP fun tx => tx.signer = address := by
  rw [txnCount, block.systemTxns_eq_nil, countP_nil, Nat.zero_add]

def txnsOf (blocks : List EthValidatedBlock) (address : Address) : Nat := (blocks.map (·.txnCount address)).sum

@[simp] theorem txnsOf_nil (address : Address) : txnsOf [] address = 0 := rfl

@[simp] theorem txnsOf_cons (block : EthValidatedBlock) (rest : List EthValidatedBlock) (address : Address) :
    txnsOf (block :: rest) address = block.txnCount address + txnsOf rest address := by
  simp [txnsOf]

@[simp] theorem txnsOf_append (blocks blocks' : List EthValidatedBlock) (address : Address) :
    txnsOf (blocks ++ blocks') address = txnsOf blocks address + txnsOf blocks' address := by
  simp [txnsOf]

/-- Executing a block raises the nonce of an account by the number of its transactions. -/
def Advances (nonce : Nat → Address → Nonce) (chain : List EthValidatedBlock) : Prop :=
  ∀ n block, chain[n]? = some block → ∀ address, nonce (n + 1) address = nonce n address + block.txnCount address

theorem Advances.of_append {blocks : List EthValidatedBlock} (advances : Advances nonce (chain ++ blocks)) :
    Advances nonce chain :=
  fun n block found => advances n block (List.getElem?_append_left (List.getElem?_eq_some_iff.mp found).1 ▸ found)

theorem Advances.interval (advances : Advances nonce chain) {low high : Nat} (le : low ≤ high)
    (inside : high ≤ chain.length)
    (address : Address) : nonce high address = nonce low address + txnsOf (interval chain low high) address := by
  induction high, le using Nat.le_induction with
  | base => rw [interval_self, txnsOf_nil, Nat.add_zero]
  | succ high le ih =>
    have found := getElem?_eq_getElem inside
    rw [advances high _ found, ih (Nat.le_of_succ_le inside), interval_succ le found, txnsOf_append, txnsOf_cons,
      txnsOf_nil]
    lia

/-! ## Recorded nonces -/

/-- The nonces that a block records continue those of the blocks before it. -/
def Continues (nonce : Nat → Address → Nonce) (chain : List EthValidatedBlock) : Prop :=
  ∀ n block, chain[n]? = some block → ∀ address, block.getAccountNonces.get? address =
    if block.txnCount address = 0 then none else some (nonce n address + block.txnCount address)

/-- Layer 1: the blocks that are extended. -/
theorem get?_getAccountNoncesOf (continues : Continues nonce chain) (advances : Advances nonce chain) {low high : Nat}
    (le : low ≤ high) (inside : high ≤ chain.length) (address : Address) :
    (getAccountNoncesOf (interval chain low high)).get? address =
      if txnsOf (interval chain low high) address = 0 then none else some (nonce high address) := by
  induction high, le using Nat.le_induction with
  | base => simp [interval_self, getAccountNoncesOf]
  | succ high le ih =>
    have found := getElem?_eq_getElem inside
    have before := ih (Nat.le_of_succ_le inside)
    rw [getAccountNoncesOf] at before ⊢
    rw [interval_succ le found, foldl_append, foldl_cons, foldl_nil,
      get?_foldl_entries _ (fun v => v), before, continues high _ found, advances high _ found, txnsOf_append,
      txnsOf_cons, txnsOf_nil]
    by_cases own : chain[high].txnCount address = 0
    · simp [own]
    · simp [own]

/-- Layer 2: the loop over the cache, from a nonce that an earlier block left. -/
theorem nonceLoop_eq (continues : Continues nonce chain) (advances : Advances nonce chain) {low n : Nat}
    (inside : low + n ≤ chain.length) {address : Address} {found : Option Nonce}
    (known : ∀ v, found = some v → v = nonce low address) : nonceLoop address
        ((interval chain low (low + n)).map (committedBlock crypto)) found =
      .ok (if txnsOf (interval chain low (low + n)) address = 0 then found else some (nonce (low + n) address)) := by
  induction n generalizing low found with
  | zero => simp [interval_self, nonceLoop]
  | succ n ih =>
    obtain ⟨block, here, shape⟩ := interval_cons (Nat.lt_add_of_pos_right (Nat.succ_pos n)) inside
    have step := advances low block here address
    have recorded : (committedBlock crypto block).nonces.get? address = _ :=
      continues low block here address
    have later := advances.interval (show low + 1 ≤ low + (n + 1) by omega) inside address
    rw [shape, map_cons, nonceLoop, recorded, txnsOf_cons]
    rw [show low + (n + 1) = low + 1 + n by omega] at inside later ⊢
    by_cases own : block.txnCount address = 0
    · rw [if_pos own, own, Nat.zero_add]
      exact ih inside fun v isFound => by rw [step, own, known v isFound, Nat.add_zero]
    · -- The loop asserts that nonces grow, and a block that sends leaves a higher one.
      have higher : ¬found.any (nonce low address + block.txnCount address ≤ ·) = true := by
        cases found with
        | none => simp
        | some v =>
          have same := known v rfl
          simp only [Option.any_some, decide_eq_true_eq]
          lia
      rw [if_neg own]
      dsimp only
      rw [if_neg higher, ih inside (by rintro v ⟨⟩; exact step.symm),
        if_neg (show ¬block.txnCount address + _ = 0 by lia)]
      split
      next none => rw [later, none, step, Nat.add_zero]
      next => rfl

namespace CommittedBlkBuffer

variable {buffer buffer' : CommittedBlkBuffer} {low high : Nat}

variable (holds : Holds crypto chain low high buffer)

include holds

theorem Holds.getNonce (continues : Continues nonce chain)
    (advances : Advances nonce chain) (le : low ≤ high) (inside : high ≤ chain.length) (address : Address) :
    buffer.getNonce address =
      .ok (if txnsOf (interval chain low high) address = 0 then none else some (nonce high address)) := by
  obtain ⟨n, rfl⟩ := Nat.exists_eq_add_of_le le
  rw [getNonce, holds, map_map]
  exact nonceLoop_eq continues advances inside (by simp)

theorem Holds.exists_get? (consecutive : Consecutive 1 chain)
    (inside : high ≤ chain.length) {number : Nat} (above : low < number) (upto : number ≤ high) :
    ∃ committed, buffer.blocks.get? number = some committed := by
  obtain ⟨i, rfl⟩ := Nat.exists_eq_add_of_le (Nat.succ_le_of_lt above)
  have found : (interval chain low high)[i]? = some chain[low + i] := by
    rw [getElem?_interval (by omega), getElem?_eq_getElem]
  have isNumber := (consecutive_interval consecutive low high).getElem? found
  refine ⟨committedBlock crypto chain[low + i], get?_eq_some_iff.mpr (mem_def.mpr ?_)⟩
  rw [holds, Nat.succ_eq_add_one, ← isNumber]
  exact mem_map_of_mem (mem_of_getElem? found)

theorem Holds.getLast? (consecutive : Consecutive 1 chain)
    (inside : high ≤ chain.length) {e : SeqNum × CommittedBlock} (last : buffer.blocks.entries.getLast? = some e) :
    e.1 = high := by
  rw [holds, List.getLast?_map] at last
  obtain ⟨block, isLast, rfl⟩ := Option.map_eq_some_iff.mp last
  rw [getLast?_eq_getElem?] at isLast
  have bound := (List.getElem?_eq_some_iff.mp isLast).1
  have number := (consecutive_interval consecutive low high).getElem? isLast
  rw [length_interval inside] at bound number
  simp only [entryOf]
  lia

omit holds

/-- The cache never grows beyond twice its size. -/
theorem length_evict {number : SeqNum} (evicted : buffer.evict number = .ok buffer') (positive : 0 < buffer.size) :
    buffer'.blocks.entries.length < buffer.size * 2 ∧ buffer'.size = buffer.size := by
  rw [evict] at evicted
  split at evicted
  next short =>
    cases evicted
    exact ⟨short, rfl⟩
  · split at evicted
    · cases evicted
    · dsimp only at evicted
      split at evicted
      · cases evicted
      · split at evicted
        · cases evicted
        · split at evicted
          · cases evicted
          next half =>
            cases evicted
            refine ⟨?_, rfl⟩
            rw [not_not.mp half]
            omega

variable {block : EthValidatedBlock}

theorem length_update (updated : buffer.updateCommittedBlock crypto block = .ok buffer') (positive : 0 < buffer.size) :
    buffer'.blocks.entries.length ≤ buffer.size * 2 ∧ buffer'.size = buffer.size := by
  obtain ⟨kept, evicted, rfl⟩ := updateCommittedBlock_eq_ok updated
  obtain ⟨length, size⟩ := length_evict evicted positive
  exact ⟨(length_insertEntry_le _ _ _).trans length, size⟩

section

variable (holds : Holds crypto chain low high buffer) (consecutive : Consecutive 1 chain)
  (length : buffer.blocks.entries.length ≤ buffer.size * 2) (positive : 0 < buffer.size)

include holds consecutive length positive

/-- The assertions of an eviction hold for a cache that reaches up to the block before. -/
theorem Holds.exists_evict (inside : high ≤ chain.length)
    {number : SeqNum} (next : number = 1 + high) : ∃ kept, buffer.evict number = .ok kept := by
  have entries : buffer.blocks.entries.length = high - low := by
    rw [holds, length_map, length_interval inside]
  rw [CommittedBlkBuffer.evict]
  split
  · exact ⟨buffer, rfl⟩
  next full =>
    -- A full cache holds `2 * size` blocks, the first of which is number `low + 1`; the later half is kept.
    obtain ⟨first, here, shape⟩ := interval_cons (show low < high by omega) inside
    have firstNumber := consecutive.getElem? here
    have remaining := holds.filter consecutive (first.getSeqNum + buffer.size)
    rw [show low + (first.getSeqNum + buffer.size - (low + 1)) = low + buffer.size by lia] at remaining
    have holds' : Holds crypto chain (low + buffer.size) high
        { buffer with blocks := buffer.blocks.filter fun seqNum _ => first.getSeqNum + buffer.size ≤ seqNum } :=
          remaining
    have half := congrArg List.length remaining
    rw [length_map, length_interval inside, show high - (low + buffer.size) = buffer.size by omega] at half
    have head : buffer.blocks.entries.head? = some (entryOf crypto first) := by
      rw [holds, shape]
      rfl
    rw [head]
    simp only [entryOf]
    split
    next none =>
      rw [getLast?_eq_none_iff] at none
      have empty := congrArg List.length none
      rw [length_nil] at empty
      exact absurd (half.symm.trans empty) (by omega)
    next last _ isLast =>
      have lastNumber := holds'.getLast? consecutive inside isLast
      dsimp only at lastNumber
      rw [if_neg (by lia)]
      exact ⟨_, if_neg (not_not.mpr half)⟩

/-- A cache that reaches up to the block before takes the next one. -/
theorem Holds.exists_update (ordered : low ≤ high) (found : chain[high]? = some block) :
    ∃ buffer', buffer.updateCommittedBlock crypto block = .ok buffer' := by
  have inside := (List.getElem?_eq_some_iff.mp found).1
  have number := consecutive.getElem? found
  have inOrder : ¬(buffer.blocks.entries.getLast?.any fun e => e.1 + 1 ≠ block.getSeqNum) = true := by
    cases last : buffer.blocks.entries.getLast? with
    | none => simp
    | some e =>
      have isLast := holds.getLast? consecutive inside.le last
      simp only [Option.any_some, decide_eq_true_eq, not_not]
      lia
  obtain ⟨kept, evicted⟩ := holds.exists_evict consecutive length positive inside.le number
  obtain ⟨low', holds', -⟩ := holds.evict consecutive inside.le ordered evicted
  have fresh : ¬kept.blocks.contains block.getSeqNum = true := by
    intro twice
    obtain ⟨committed, mem⟩ := contains_iff.mp twice
    obtain ⟨-, -, -, -, upto⟩ := holds'.get? consecutive (get?_eq_some_iff.mpr mem)
    lia
  rw [updateCommittedBlock, if_neg inOrder, evicted]
  dsimp only [bind, Except.bind]
  rw [if_neg fresh]
  exact ⟨_, rfl⟩

end

end CommittedBlkBuffer

namespace EthBlockPolicy

variable {policy policy' : EthBlockPolicy} {chainId c m : Nat}

/-! ## Commits -/

theorem length_commitAll {blocks : List EthValidatedBlock} (committed : commitAll crypto blocks policy = .ok policy')
    (positive : 0 < policy.committedCache.size)
    (length : policy.committedCache.blocks.entries.length ≤ policy.committedCache.size * 2) :
    policy'.committedCache.blocks.entries.length ≤ policy.committedCache.size * 2 := by
  induction blocks generalizing policy with
  | nil =>
    cases committed
    exact length
  | cons block rest ih =>
    obtain ⟨cache, updated, committed⟩ := commitAll_cons_eq_ok committed
    obtain ⟨length', size⟩ := length_update updated positive
    have last := ih committed (by rwa [size]) (by rwa [size])
    rwa [size] at last

section

variable (consecutive : Consecutive 1 chain)

include consecutive

theorem Follows.length_le (positive : 1 ≤ d)
    (follows : Follows crypto d chainId chain c policy) : policy.committedCache.blocks.entries.length ≤ d * 2 := by
  induction follows with
  | new => exact Nat.zero_le _
  | @commit c policy policy' block before _ updated =>
    have size := (before.inSync consecutive).size
    obtain ⟨cache, cached, rfl⟩ := updateCommittedBlock_eq_ok updated
    rw [← size]
    exact (length_update cached (by rwa [size])).1
  | @reset _ c' low policy policy' before _ _ _ wasReset =>
    have size := (before.inSync consecutive).size
    have committed : commitAll crypto (interval chain low c')
      { policy with committedCache := .new policy.committedCache.size } = .ok policy' := wasReset
    have length := length_commitAll committed (show 0 < policy.committedCache.size by omega) (Nat.zero_le _)
    rwa [← size]

/-- The assertions on the way of a commit never fail. -/
theorem Follows.exists_update (positive : 1 ≤ d)
    (follows : Follows crypto d chainId chain c policy) {block : EthValidatedBlock} (next : chain[c]? = some block) :
    ∃ policy', policy.updateCommittedBlock crypto block = .ok policy' := by
  have sync := follows.inSync consecutive
  obtain ⟨low, reach, holds⟩ := sync.holds
  have number := consecutive.getElem? next
  have length := follows.length_le consecutive positive
  rw [← sync.size] at length
  obtain ⟨cache, updated⟩ := holds.exists_update consecutive length (by rwa [sync.size]) (by omega) next
  have last := sync.lastCommit
  rw [updateCommittedBlock, if_neg (by lia), updated]
  exact ⟨_, rfl⟩

/-! ## The lookup -/

def statusNonce (status : Option EthAccount) : Nonce := (status.map (·.nonce)).getD 0

/-- The backend reports the nonces after a block of the chain, whenever it answers. -/
def ReportsNonces (crypto : Crypto) (nonce : Nat → Address → Nonce) (chain : List EthValidatedBlock)
    (backend : StateBackend) : Prop :=
  ∀ number id finalized addresses statuses, blockIdAt crypto chain number = some id →
    backend.getAccountStatuses id number finalized addresses = .ok statuses →
    statuses.map statusNonce = addresses.map (nonce number)

/-- The block whose state is the base is in the cache or among the blocks that are extended. -/
theorem exists_getBlockIndex (positive : 1 ≤ d) (sync : InSync crypto d chain c policy)
    (upto : c ≤ m) (inside : m ≤ chain.length) :
    ∃ index, policy.getBlockIndex crypto (some (interval chain c m)) (base d (m + 1)) = .ok index := by
  obtain ⟨low, reach, holds⟩ := sync.holds
  have reaches : base d (m + 1) ≤ m ∧ (base d (m + 1) = 0 ∨ low < base d (m + 1)) := by
    rw [base]
    omega
  generalize base d (m + 1) = b at *
  rw [getBlockIndex, sync.lastCommit]
  split
  next committed =>
    split
    · exact ⟨_, rfl⟩
    next later =>
      obtain ⟨block, cached⟩ := holds.exists_get? consecutive sync.inside
        (reaches.2.resolve_left later) committed
      rw [cached]
      exact ⟨_, rfl⟩
  next pending =>
    have bound : c + (b - (c + 1)) < chain.length := by lia
    have found : (interval chain c m)[b - (c + 1)]? = some chain[c + (b - (c + 1))] := by
      rw [getElem?_interval (by lia), getElem?_eq_getElem]
    rw [(consecutive_interval consecutive c m).find? (by lia), found]
    exact ⟨_, rfl⟩

omit consecutive in
/-- The loop of `get_account_base_nonces`, for nonces that are found in blocks or not. -/
theorem cachedNonces_eq {pending : SortedMap Address Nonce} {found : Address → Option Nonce}
    (each : ∀ address, (∃ v, pending.get? address = some v ∧ found address = some v) ∨
      pending.get? address = none ∧ policy.committedCache.getNonce address = .ok (found address))
        (addresses : List Address) :
    ∃ nonces, policy.cachedNonces pending addresses = .ok (nonces, addresses.filter fun address =>
      found address = none) ∧
      ∀ address, nonces.get? address = if address ∈ addresses then found address else none := by
  induction addresses with
  | nil => exact ⟨.empty, rfl, by simp⟩
  | cons first rest ih =>
    obtain ⟨nonces, later, values⟩ := ih
    have hit : ∀ v, found first = some v → ∀ address,
        (nonces.insert first v).get? address = if address ∈ first :: rest then found address else none := by
      intro v isFound address
      rw [get?_insert, values]
      by_cases same : address = first
      · simp [same, isFound]
      · simp [same]
    rw [cachedNonces]
    obtain ⟨v, isPending, isFound⟩ | ⟨notPending, committed⟩ := each first
    · refine ⟨nonces.insert first v, ?_, hit v isFound⟩
      simp [isPending, later, isFound, bind, Except.bind]
    · cases isFound : found first with
      | some v =>
        refine ⟨nonces.insert first v, ?_, hit v isFound⟩
        simp [notPending, committed, later, isFound, bind, Except.bind]
      | none =>
        refine ⟨nonces, ?_, fun address => ?_⟩
        · simp [notPending, committed, later, isFound, bind, Except.bind]
        · rw [values]
          by_cases same : address = first
          · simp [same, isFound]
          · simp [same]

/-- The base nonces: the backend fails, or every account has its nonce after the last block that is extended. -/
theorem getAccountBaseNonces_cases (positive : 1 ≤ d)
    (continues : Continues nonce chain) (advances : Advances nonce chain) (sync : InSync crypto d chain c policy)
    (upto : c ≤ m) (inside : m ≤ chain.length) {backend : StateBackend}
    (reports : ReportsNonces crypto nonce chain backend) (addresses : List Address) :
    (∃ id finalized misses error, backend.getAccountStatuses id (base d (m + 1)) finalized misses = .error error ∧
      policy.getAccountBaseNonces crypto (m + 1) backend (interval chain c m) addresses = .error
        (.stateBackend error)) ∨
    ∃ nonces, policy.getAccountBaseNonces crypto (m + 1) backend (interval chain c m) addresses = .ok nonces ∧
      ∀ address, nonces.get? address = if address ∈ addresses then some (nonce m address) else none := by
  obtain ⟨low, reach, holds⟩ := sync.holds
  have same : policy.baseSeqNum (m + 1) = base d (m + 1) := by rw [baseSeqNum, sync.executionDelay, base]
  have below : low ≤ base d (m + 1) ∧ base d (m + 1) ≤ m := by
    rw [base]
    omega
  have total : ∀ address, txnsOf (interval chain low m) address =
      txnsOf (interval chain low c) address + txnsOf (interval chain c m) address := by
    intro address
    rw [← txnsOf_append, interval_append (by omega) upto]
  -- Blocks and cache know the accounts that sent since `low`; the backend is asked at the base for the others, whose
  -- nonces have not changed since.
  let found (address : Address) : Option Nonce :=
    if txnsOf (interval chain low m) address = 0 then none else some (nonce m address)
  have each : ∀ address,
      (∃ v, (getAccountNoncesOf (interval chain c m)).get? address = some v ∧ found address = some v) ∨
      (getAccountNoncesOf (interval chain c m)).get? address = none ∧
        policy.committedCache.getNonce address = .ok (found address) := by
    intro address
    rw [get?_getAccountNoncesOf continues advances upto inside, holds.getNonce continues advances
      (by omega) sync.inside]
    have later := advances.interval upto inside address
    simp only [found, total]
    by_cases pending : txnsOf (interval chain c m) address = 0
    · simp [pending, later]
    · simp [pending]
  obtain ⟨cached, loop, values⟩ := cachedNonces_eq each addresses.eraseDups
  obtain ⟨index, isIndex⟩ := exists_getBlockIndex consecutive positive sync upto inside
  obtain ⟨atIndex, -⟩ := getBlockIndex_ok consecutive sync upto (.inr rfl) isIndex
  rw [getAccountBaseNonces, same]
  simp only [loop, getAccountStatuses, isIndex, bind, Except.bind]
  cases answer : backend.getAccountStatuses index.blockId (base d (m + 1)) index.isFinalized
    (addresses.eraseDups.filter fun address => found address = none) with
  | error error => exact .inl ⟨_, _, _, error, answer, rfl⟩
  | ok statuses =>
    have reported := reports _ _ _ _ _ atIndex answer
    have length := congrArg List.length reported
    rw [length_map, length_map] at length
    dsimp only
    rw [if_neg (not_not.mpr length.symm)]
    refine .inr ⟨_, rfl, fun address => ?_⟩
    have each : ∀ e ∈ (addresses.eraseDups.filter fun address => found address = none).zip statuses,
        (e.2.map (·.nonce)).getD 0 = nonce (base d (m + 1)) e.1 := fun e mem => reported_of_mem_zip reported mem
    rw [get?_foldl_insert each, map_fst_zip length.ge, values]
    simp only [List.mem_filter, mem_eraseDups, decide_eq_true_eq]
    by_cases mem : address ∈ addresses
    · by_cases miss : txnsOf (interval chain low m) address = 0
      · have since := advances.interval below.2 inside address
        rw [← interval_append below.1 below.2, txnsOf_append] at miss
        have isNone : found address = none := if_pos (by rwa [← interval_append below.1 below.2, txnsOf_append])
        rw [if_pos ⟨mem, isNone⟩, if_pos mem]
        congr 1
        lia
      · have isSome : found address = some (nonce m address) := if_neg miss
        simp [mem, isSome]
    · simp [mem]

end

/-! ## Accepted blocks -/

/-- The chains that grow by blocks that some policy following the chain accepts, with a backend that reports
as given. -/
inductive Grown (crypto : Crypto) (d chainId : Nat) (Reports : List EthValidatedBlock → StateBackend → Prop) :
    List EthValidatedBlock → Prop where
  | nil : Grown crypto d chainId Reports []
  | append {chain : List EthValidatedBlock} {c : Nat} {policy : EthBlockPolicy} {backend : StateBackend}
      {block : EthValidatedBlock} {root : RootInfo} (before : Grown crypto d chainId Reports chain)
      (follows : Follows crypto d chainId chain c policy) (reports : Reports chain backend)
      (accepted : policy.checkCoherency crypto block (interval chain c chain.length) root backend = .ok ()) :
      Grown crypto d chainId Reports (chain ++ [block])

theorem Grown.consecutive {Reports : List EthValidatedBlock → StateBackend → Prop}
    (grown : Grown crypto d chainId Reports chain) : Consecutive 1 chain := by
  induction grown with
  | nil => trivial
  | append _ follows _ accepted ih =>
    refine Consecutive.append.mpr ⟨ih, ?_, trivial⟩
    rw [number_of_checkCoherency ih (follows.inSync ih) accepted, Nat.add_comm]

/-- Transactions that pass the loop leave the last nonce of each account, counted from the nonces it started with. -/
theorem get?_recordNonces_of_checkTxns {txns : List Transaction} {nonces : SortedMap Address Nonce}
    {balances : SortedMap Address Balance} (checked : checkTxns txns nonces balances = .ok ())
    (recorded : SortedMap Address Nonce) (address : Address) :
    (recordNonces recorded txns).get? address = if txns.countP (fun tx => tx.signer = address) =
      0 then recorded.get? address
      else (nonces.get? address).map fun v => v + (txns.countP (fun tx => tx.signer = address) - 1) := by
  induction txns generalizing nonces balances recorded with
  | nil => simp [recordNonces]
  | cons tx rest ih =>
    rw [checkTxns] at checked
    split at checked
    · cases checked
    next expected found =>
      split at checked
      · cases checked
      next isExpected =>
        split at checked
        · cases checked
        · split at checked
          · cases checked
          · have later := ih checked (recorded.insert tx.signer tx.nonce)
            rw [recordNonces, foldl_cons]
            rw [recordNonces] at later
            rw [later, countP_cons, get?_insert, get?_insert]
            by_cases own : address = tx.signer
            · by_cases none : rest.countP (fun tx => tx.signer = address) = 0
              · simp [own ▸ none, own, found, not_not.mp isExpected]
              · have more := own ▸ none
                simp only [own, more, found, if_true, if_false, decide_true, Option.map_some]
                rw [if_neg (by lia)]
                congr 1
                lia
            · simp [own, Ne.symm own]

/-- The nonces that an accepted block is checked against are those that the chain before it has reached. -/
theorem nonces_of_accepted (positive : 1 ≤ d) (consecutive : Consecutive 1 chain) (continues : Continues nonce chain)
    (advances : Advances nonce chain) (follows : Follows crypto d chainId chain c policy) {backend : StateBackend}
    (reports : ReportsNonces crypto nonce chain backend) {block : EthValidatedBlock} {root : RootInfo}
    (accepted : policy.checkCoherency crypto block (interval chain c chain.length) root backend = .ok ()) :
    ∃ nonces balances, checkTxns block.validatedTxns nonces balances = .ok () ∧
      ∀ tx ∈ block.validatedTxns, nonces.get? tx.signer = some (nonce chain.length tx.signer) := by
  have sync := follows.inSync consecutive
  obtain ⟨base, balances, nonces, lookup, -, system, checked⟩ := checkNoncesAndBalances_ok
    (checkCoherency_ok accepted).2.2
  rw [block.systemTxns_eq_nil] at system
  obtain rfl : base = nonces := Except.ok.inj system
  rw [number_of_checkCoherency consecutive sync accepted] at lookup
  refine ⟨base, balances, checked, fun tx mem => ?_⟩
  rcases getAccountBaseNonces_cases consecutive positive continues advances sync sync.inside le_rfl reports _ with
    ⟨_, _, _, _, -, failed⟩ | ⟨base', lookup', values⟩
  · cases failed.symm.trans lookup
  · cases lookup.symm.trans lookup'
    rw [values, if_pos (mem_append_left _ (mem_map_of_mem mem))]

/-- Accepted blocks continue the nonces that execution reaches. -/
theorem Grown.continues (positive : 1 ≤ d) (grown : Grown crypto d chainId (ReportsNonces crypto nonce) chain)
    (advances : Advances nonce chain) : Continues nonce chain := by
  induction grown with
  | nil => simp [Continues]
  | @append chain c policy backend block root before follows reports accepted ih =>
    have earlier := advances.of_append
    have continues := ih earlier
    obtain ⟨nonces, balances, checked, values⟩ :=
      nonces_of_accepted positive before.consecutive continues earlier follows reports accepted
    intro n found isFound address
    by_cases old : n < chain.length
    · rw [getElem?_append_left old] at isFound
      exact continues n found isFound address
    · obtain rfl : n = chain.length := by
        have bound := (List.getElem?_eq_some_iff.mp isFound).1
        rw [List.length_append, List.length_singleton] at bound
        omega
      rw [getElem?_concat_length] at isFound
      obtain rfl := Option.some.inj isFound
      rw [EthValidatedBlock.getAccountNonces, get?_foldl_entries block.nonces (· + 1), get?_empty, Option.or_none,
        block.nonces_eq, get?_recordNonces_of_checkTxns checked, block.txnCount_eq, block.systemTxns_eq_nil]
      by_cases none : block.validatedTxns.countP (fun tx => tx.signer = address) = 0
      · simp [none, recordSystemNonces]
      · obtain ⟨tx, mem, own⟩ := countP_pos_iff.mp (Nat.pos_of_ne_zero none)
        obtain rfl : tx.signer = address := by simpa using own
        rw [if_neg none, values tx mem, if_neg none]
        simp only [Option.map_some, Option.some.injEq]
        lia

/-- The transactions of an account that pass the loop have consecutive nonces. -/
theorem nonces_of_checkTxns {txns : List Transaction} {nonces : SortedMap Address Nonce}
    {balances : SortedMap Address Balance}
    (checked : checkTxns txns nonces balances = .ok ()) {address : Address} {first : Nonce}
    (start : nonces.get? address = some first) :
    (txns.filter (·.signer = address)).map (·.nonce) = List.range' first (txns.countP (·.signer = address)) := by
  fun_induction checkTxns txns nonces balances generalizing first with
  | case1 => rfl
  | case2 | case3 | case4 | case5 => cases checked
  | case6 tx rest nonces balances expected found isExpected balance funded enough ih =>
    by_cases own : tx.signer = address
    · subst own
      obtain rfl := Option.some.inj (found.symm.trans start)
      have later := ih checked (by rw [get?_insert, if_pos rfl])
      simp [range'_succ, later, not_not.mp isExpected]
    · have later := ih checked (by rwa [get?_insert, if_neg (Ne.symm own)])
      simpa [own] using later

/-! ## The layers agree -/

namespace TwoPayments

/-- Account 7 has sent one transaction in each block. -/
def nonceOf (number : Nat) (address : Address) : Nonce := if address = 7 then min number 2 else 0

def ledger : StateBackend where
  getAccountStatuses := fun _ number _ addresses =>
    .ok (addresses.map fun address => some ⟨nonceOf number address, balance number address, balance_le number address⟩)
  getExecutionResult := fun _ _ _ => .ok []

theorem reportsNonces (chain : List EthValidatedBlock) : ReportsNonces FourValidators.crypto nonceOf chain ledger := by
  intro number id finalized addresses statuses _ answer
  cases answer
  rw [map_map]
  rfl

theorem grown {Reports : List EthValidatedBlock → StateBackend → Prop} (reports : ∀ chain, Reports chain ledger) :
    Grown FourValidators.crypto 2 1 Reports [block 1 [], block 2 [[]]] := by
  have first : (EthBlockPolicy.new 0 2 1).checkCoherency FourValidators.crypto (block 1 [])
      [] FourValidators.genesisRoot ledger = .ok () := by decide +kernel
  have second : (EthBlockPolicy.new 0 2 1).checkCoherency FourValidators.crypto (block 2 [[]]) [block 1 []]
      FourValidators.genesisRoot ledger = .ok () := by decide +kernel
  exact .append (.append .nil .new (reports _) first) .new (reports _) second

theorem advances : Advances nonceOf [block 1 [], block 2 [[]]] := by
  intro n next found address
  have bound := (List.getElem?_eq_some_iff.mp found).1
  obtain rfl | rfl : n = 0 ∨ n = 1 := by
    simp only [length_cons, length_nil] at bound
    omega
  all_goals
    obtain rfl := Option.some.inj found
    by_cases own : address = 7
    · subst own
      decide +kernel
    · simp [nonceOf, own, txnCount, block, payment, Ne.symm own]

end TwoPayments

/-- On every chain of accepted blocks, at whatever number of committed blocks, the lookup for the block after the
extended ones gives the nonce at the base plus the transactions since, without any assertion failing; and no assertion
fails when the next block is committed. -/
theorem base_nonces_count_transactions (positive : 1 ≤ d)
    (grown : Grown crypto d chainId (ReportsNonces crypto nonce) chain) (advances : Advances nonce chain) :
    (∀ c policy block, Follows crypto d chainId chain c policy → chain[c]? = some block →
      ∃ policy', policy.updateCommittedBlock crypto block = .ok policy') ∧
    ∀ c policy m backend addresses, Follows crypto d chainId chain c policy → c ≤ m → m ≤ chain.length →
      ReportsNonces crypto nonce chain backend →
      (∀ reason, policy.getAccountBaseNonces crypto (m + 1) backend (interval chain c m) addresses ≠ .error
        (.panic reason)) ∧
      ((∀ id finalized addresses, ∃ statuses,
        backend.getAccountStatuses id (m + 1 - d) finalized addresses = .ok statuses) →
        ∃ nonces, policy.getAccountBaseNonces crypto (m + 1) backend (interval chain c m) addresses = .ok nonces ∧
          ∀ address ∈ addresses, nonces.get? address =
            some (nonce (m + 1 - d) address + txnsOf (interval chain (m + 1 - d) m) address)) := by
  have consecutive := grown.consecutive
  refine ⟨fun c policy block follows next => follows.exists_update consecutive positive next, ?_⟩
  intro c policy m backend addresses follows upto inside reports
  have same : base d (m + 1) = m + 1 - d := by
    rw [base]
    omega
  rcases getAccountBaseNonces_cases consecutive positive (grown.continues positive advances) advances
    (follows.inSync consecutive) upto inside reports addresses with ⟨id, finalized, misses, error, failed, result⟩ |
      ⟨nonces, result, values⟩
  · refine ⟨by simp [result], fun answers => ?_⟩
    obtain ⟨statuses, answer⟩ := answers id finalized misses
    rw [same] at failed
    cases answer.symm.trans failed
  · refine ⟨by simp [result], fun _ => ⟨nonces, result, fun address mem => ?_⟩⟩
    rw [values, if_pos mem, ← advances.interval (by omega) inside]

open TwoPayments in
/-- One of the two blocks is committed, the other one is extended. -/
theorem base_nonces_two_payments : ∃ policy nonces,
    (EthBlockPolicy.new 0 2 1).updateCommittedBlock FourValidators.crypto (block 1 []) = .ok policy ∧
    policy.getAccountBaseNonces FourValidators.crypto 3 ledger [block 2 [[]]] [7] = .ok nonces ∧
      nonces.get? 7 = some 2 := by
  obtain ⟨commits, lookup⟩ := base_nonces_count_transactions (by decide) (grown reportsNonces) advances
  obtain ⟨policy, committed⟩ := commits 0 _ _ .new rfl
  obtain ⟨-, answered⟩ := lookup 1 policy 2 ledger [7] (.commit .new rfl committed) (by decide) le_rfl (reportsNonces _)
  obtain ⟨nonces, found, value⟩ := answered fun _ _ addresses => ⟨_, rfl⟩
  refine ⟨policy, nonces, committed, found, (value 7 (by simp)).trans ?_⟩
  decide +kernel

/-! ## No replays -/

/-- On every chain of accepted blocks the transactions of an account have consecutive nonces, from the one that
it starts with. -/
theorem nonces_used_once (positive : 1 ≤ d) (grown : Grown crypto d chainId (ReportsNonces crypto nonce) chain)
    (advances : Advances nonce chain) (address : Address) :
    ((chain.flatMap (·.validatedTxns)).filter (·.signer = address)).map (·.nonce) =
      List.range' (nonce 0 address) (txnsOf chain address) := by
  induction grown with
  | nil => rfl
  | @append chain c policy backend block root before follows reports accepted ih =>
    have earlier := advances.of_append
    obtain ⟨nonces, balances, checked, values⟩ := nonces_of_accepted positive before.consecutive
      (before.continues positive earlier) earlier follows reports accepted
    have reached : nonce chain.length address = nonce 0 address + txnsOf chain address := by
      simpa [interval] using earlier.interval (Nat.zero_le _) le_rfl address
    have own : (block.validatedTxns.filter (·.signer = address)).map (·.nonce) =
        List.range' (nonce chain.length address) (block.txnCount address) := by
      rw [block.txnCount_eq]
      by_cases none : block.validatedTxns.countP (fun tx => tx.signer = address) = 0
      · rw [none, filter_eq_nil_iff.mpr (countP_eq_zero.mp none)]
        rfl
      · obtain ⟨tx, mem, own⟩ := countP_pos_iff.mp (Nat.pos_of_ne_zero none)
        obtain rfl : tx.signer = address := by simpa using own
        exact nonces_of_checkTxns checked (values tx mem)
    simp [own, ih earlier, reached]

open TwoPayments in
theorem nonces_used_once_two_payments :
    (([block 1 [], block 2 [[]]].flatMap (·.validatedTxns)).filter (·.signer = 7)).map (·.nonce) = [0, 1] :=
  nonces_used_once (by decide) (grown reportsNonces) advances 7

end EthBlockPolicy

end MonadBft
