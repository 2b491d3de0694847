import MonadBft.Eth.BlockPolicy

/-! # The cache of committed blocks

A policy follows a chain of blocks with consecutive numbers: it commits them one by one, or is reset to a point of
the chain. Its cache then holds an interval of the chain that ends with the last commit and reaches back at least
the execution delay. The loops over the cache and over the extending blocks are sums over intervals of the chain.
-/

namespace MonadBft

open List

variable {crypto : Crypto} {chain : List EthValidatedBlock} {d : Nat}

/-! ## Consecutive blocks -/

/-- The blocks are numbered from `start` on. -/
def Consecutive (start : SeqNum) : List EthValidatedBlock → Prop
  | [] => True
  | block :: rest => block.getSeqNum = start ∧ Consecutive (start + 1) rest

variable {start : SeqNum} {blocks : List EthValidatedBlock} {i low high : Nat} {block : EthValidatedBlock}

theorem Consecutive.append {blocks blocks' : List EthValidatedBlock} :
    Consecutive start (blocks ++ blocks') ↔ Consecutive start blocks ∧ Consecutive (start + blocks.length) blocks' := by
  induction blocks generalizing start with
  | nil => simp [Consecutive]
  | cons block rest ih =>
    simp only [cons_append, Consecutive, ih, length_cons]
    rw [show start + 1 + rest.length = start + (rest.length + 1) by lia, and_assoc]

variable (consecutive : Consecutive start blocks)

include consecutive

theorem Consecutive.drop (n : Nat) : Consecutive (start + n) (blocks.drop n) := by
  induction n generalizing start blocks with
  | zero => exact consecutive
  | succ n ih =>
    cases blocks with
    | nil => trivial
    | cons block rest =>
      rw [drop_succ_cons, show start + (n + 1) = start + 1 + n by lia]
      exact ih consecutive.2

theorem Consecutive.take (n : Nat) : Consecutive start (blocks.take n) := by
  rw [← take_append_drop n blocks] at consecutive
  exact (Consecutive.append.mp consecutive).1

theorem Consecutive.getElem? (found : blocks[i]? = some block) : block.getSeqNum = start + i := by
  have here := consecutive.drop i
  rw [List.drop_eq_getElem_cons (List.getElem?_eq_some_iff.mp found).1] at here
  rw [← (List.getElem?_eq_some_iff.mp found).2]
  exact here.1

theorem Consecutive.le_of_mem (mem : block ∈ blocks) :
    start ≤ block.getSeqNum ∧ block.getSeqNum < start + blocks.length := by
  obtain ⟨i, found⟩ := List.getElem?_of_mem mem
  have inside := (List.getElem?_eq_some_iff.mp found).1
  have number := consecutive.getElem? found
  lia

/-- Blocks below a number come first. -/
theorem Consecutive.dropWhile (number : SeqNum) :
    (blocks.dropWhile fun block => block.getSeqNum < number) = blocks.drop (number - start) := by
  induction blocks generalizing start with
  | nil => simp
  | cons block rest ih =>
    obtain ⟨first, later⟩ := consecutive
    rw [dropWhile_cons]
    split
    next below =>
      rw [decide_eq_true_iff] at below
      rw [ih later, show number - start = number - (start + 1) + 1 by lia, drop_succ_cons]
    next above =>
      rw [decide_eq_true_iff] at above
      rw [show number - start = 0 by lia, drop_zero]

theorem Consecutive.filter (number : SeqNum) :
    (blocks.filter fun block => number ≤ block.getSeqNum) = blocks.drop (number - start) := by
  induction blocks generalizing start with
  | nil => simp
  | cons block rest ih =>
    obtain ⟨first, later⟩ := consecutive
    rw [filter_cons]
    split
    next above =>
      rw [decide_eq_true_iff] at above
      rw [ih later, show number - start = 0 by lia, show number - (start + 1) = 0 by lia, drop_zero, drop_zero]
    next below =>
      rw [decide_eq_true_iff] at below
      rw [ih later, show number - start = number - (start + 1) + 1 by lia, drop_succ_cons]

theorem Consecutive.find? {number : SeqNum} (after : start ≤ number) :
    (blocks.find? fun block => block.getSeqNum = number) = blocks[number - start]? := by
  induction blocks generalizing start with
  | nil => simp
  | cons block rest ih =>
    obtain ⟨first, later⟩ := consecutive
    rw [find?_cons]
    split
    next here =>
      rw [decide_eq_true_iff] at here
      rw [show number - start = 0 by lia, getElem?_cons_zero]
    next other =>
      rw [decide_eq_false_iff_not] at other
      rw [ih later (by lia), show number - start = number - (start + 1) + 1 by lia, getElem?_cons_succ]

omit consecutive

/-! ## The cache holds an interval -/

/-- The blocks of the chain numbered above `low` and up to `high`. -/
def interval (chain : List EthValidatedBlock) (low high : Nat) : List EthValidatedBlock := (chain.take high).drop low

theorem length_interval (inside : high ≤ chain.length) : (interval chain low high).length = high - low := by
  simp [interval, Nat.min_eq_left inside]

theorem length_interval_le (chain : List EthValidatedBlock) (low high : Nat) :
    (interval chain low high).length ≤ high - low := by
  rw [interval, length_drop, length_take]
  omega

theorem consecutive_interval (consecutive : Consecutive 1 chain) (low high : Nat) :
    Consecutive (low + 1) (interval chain low high) := by
  rw [Nat.add_comm]
  exact (consecutive.take high).drop low

theorem drop_interval (low high n : Nat) : (interval chain low high).drop n = interval chain (low + n) high := by
  rw [interval, drop_drop, interval]

theorem interval_self (n : Nat) : interval chain n n = [] := by
  rw [interval]
  exact drop_eq_nil_of_le (length_take_le _ _)

theorem interval_of_le (le : high ≤ low) : interval chain low high = [] := by
  rw [interval]
  exact drop_eq_nil_of_le ((length_take_le _ _).trans le)

theorem interval_append {low mid high : Nat} (first : low ≤ mid) (second : mid ≤ high) :
    interval chain low mid ++ interval chain mid high = interval chain low high := by
  rw [interval, interval, interval]
  have split : chain.take high = chain.take mid ++ (chain.take high).drop mid := by
    conv_lhs => rw [← take_append_drop mid (chain.take high)]
    rw [take_take, Nat.min_eq_left second]
  by_cases inside : mid ≤ chain.length
  · have later : (chain.take high).drop low = (chain.take mid).drop low ++ (chain.take high).drop mid := by
      conv_lhs => rw [split]
      exact drop_append_of_le_length (by simp [first, first.trans inside])
    exact later.symm
  · have short := not_le.mp inside
    rw [take_of_length_le short.le, take_of_length_le (short.le.trans second),
      drop_eq_nil_of_le short.le, append_nil]

theorem interval_cons (lt : low < high) (inside : high ≤ chain.length) :
    ∃ block, chain[low]? = some block ∧ interval chain low high = block :: interval chain (low + 1) high := by
  have bound : low < (chain.take high).length := by simp [lt, lt.trans_le inside]
  refine ⟨_, getElem?_eq_getElem (lt.trans_le inside), ?_⟩
  rw [interval, drop_eq_getElem_cons bound, getElem_take]
  rfl

theorem interval_succ (le : low ≤ high) (found : chain[high]? = some block) :
    interval chain low (high + 1) = interval chain low high ++ [block] := by
  rw [← interval_append le (Nat.le_succ high), interval, interval]
  congr 1
  obtain ⟨inside, rfl⟩ := List.getElem?_eq_some_iff.mp found
  rw [List.take_succ_eq_append_getElem inside, List.drop_append_of_le_length (by simp [inside.le])]
  simp

theorem interval_append_left {later : List EthValidatedBlock} (inside : high ≤ chain.length) :
    interval (chain ++ later) low high = interval chain low high := by
  rw [interval, take_append_of_le_length inside, interval]

theorem getElem?_interval (inside : low + i < high) : (interval chain low high)[i]? = chain[low + i]? := by
  rw [interval, getElem?_drop, getElem?_take, if_pos inside]

namespace CommittedBlkBuffer

variable {buffer buffer' : CommittedBlkBuffer} {low high : Nat}

def entryOf (crypto : Crypto) (block : EthValidatedBlock) : SeqNum × CommittedBlock :=
  (block.getSeqNum, committedBlock crypto block)

/-- The cache holds the blocks numbered above `low` and up to `high`. -/
def Holds (crypto : Crypto) (chain : List EthValidatedBlock) (low high : Nat) (buffer : CommittedBlkBuffer) : Prop :=
  buffer.blocks.entries = (interval chain low high).map (entryOf crypto)

variable (holds : Holds crypto chain low high buffer)

include holds

theorem Holds.filter (consecutive : Consecutive 1 chain) (number : Nat) :
    (buffer.blocks.entries.filter fun e => number ≤ e.1) =
      (interval chain (low + (number - (low + 1))) high).map (entryOf crypto) := by
  rw [holds, filter_map]
  congr 1
  rw [← drop_interval, ← (consecutive_interval consecutive low high).filter number]
  rfl

/-- Evicting keeps the cache an interval that reaches back `size` blocks. -/
theorem Holds.evict (consecutive : Consecutive 1 chain)
    (inside : high ≤ chain.length) (ordered : low ≤ high) {number : SeqNum}
    (evicted : buffer.evict number = .ok buffer') :
    ∃ low', Holds crypto chain low' high buffer' ∧ buffer'.size = buffer.size ∧ low ≤ low' ∧ low' ≤ high ∧
      (low' = low ∨ low' + buffer.size = high) := by
  rw [CommittedBlkBuffer.evict] at evicted
  split at evicted
  · cases evicted
    exact ⟨low, holds, rfl, le_rfl, ordered, .inl rfl⟩
  · split at evicted
    · cases evicted
    next first firstBlock head =>
      dsimp only at evicted
      split at evicted
      · cases evicted
      · split at evicted
        · cases evicted
        · split at evicted
          · cases evicted
          next exact_ =>
            cases evicted
            have number : first = low + 1 := by
              rw [holds, head?_map] at head
              obtain ⟨block, atHead, same⟩ := Option.map_eq_some_iff.mp head
              rw [head?_eq_getElem?] at atHead
              rw [← (Prod.mk.inj same).1]
              exact (consecutive_interval consecutive low high).getElem? atHead
            have kept := holds.filter consecutive (first + buffer.size)
            rw [show low + (first + buffer.size - (low + 1)) = low + buffer.size by lia] at kept
            have size : high - (low + buffer.size) = buffer.size := by
              have length := congrArg List.length kept
              rw [length_map, length_interval inside] at length
              rw [← length]
              exact not_not.mp exact_
            by_cases none : buffer.size = 0
            · refine ⟨low, ?_, rfl, le_rfl, ordered, .inl rfl⟩
              rwa [show low + buffer.size = low by omega] at kept
            · exact ⟨low + buffer.size, kept, rfl, Nat.le_add_right _ _, by omega, .inr (by omega)⟩

variable {block : EthValidatedBlock}

omit holds in
theorem updateCommittedBlock_eq_ok (updated : buffer.updateCommittedBlock crypto block = .ok buffer') :
    ∃ kept, buffer.evict block.getSeqNum = .ok kept ∧
      buffer' = { kept with blocks := kept.blocks.insert block.getSeqNum (committedBlock crypto block) } := by
  rw [updateCommittedBlock] at updated
  split at updated
  · cases updated
  · cases evicted : buffer.evict block.getSeqNum with
    | error failure => simp [evicted, bind, Except.bind] at updated
    | ok kept =>
      simp only [evicted, bind, Except.bind] at updated
      split at updated
      · cases updated
      · exact ⟨kept, rfl, (Except.ok.inj updated).symm⟩

theorem Holds.update (consecutive : Consecutive 1 chain) (ordered : low ≤ high)
    (found : chain[high]? = some block) (updated : buffer.updateCommittedBlock crypto block = .ok buffer') :
    ∃ low', Holds crypto chain low' (high + 1) buffer' ∧ buffer'.size = buffer.size ∧ low ≤ low' ∧ low' ≤ high ∧
      (low' = low ∨ low' + buffer.size = high) := by
  have inside := (List.getElem?_eq_some_iff.mp found).1
  have number := consecutive.getElem? found
  obtain ⟨kept, evicted, rfl⟩ := updateCommittedBlock_eq_ok updated
  obtain ⟨low', holds', size, below, above, reach⟩ := holds.evict consecutive inside.le ordered evicted
  refine ⟨low', ?_, size, below, above, reach⟩
  have later : ∀ e ∈ kept.blocks.entries, e.1 < block.getSeqNum := by
    intro e mem
    rw [holds'] at mem
    obtain ⟨block', mem', rfl⟩ := mem_map.mp mem
    have bound := ((consecutive_interval consecutive low' high).le_of_mem mem').2
    rw [length_interval inside.le] at bound
    simp only [entryOf]
    lia
  rw [Holds, SortedMap.entries_insert_of_lt later, holds', interval_succ above found, map_append]
  rfl

theorem Holds.get? {number : Nat} (consecutive : Consecutive 1 chain) {committed : CommittedBlock}
    (found : buffer.blocks.get? number = some committed) :
    ∃ block, chain[number - 1]? = some block ∧ committed = committedBlock crypto block ∧ 1 ≤ number ∧
      number ≤ high := by
  have mem := SortedMap.mem_def.mp (SortedMap.get?_eq_some_iff.mp found)
  rw [holds] at mem
  obtain ⟨block, within, same⟩ := mem_map.mp mem
  obtain ⟨rfl, rfl⟩ := Prod.mk.inj same
  obtain ⟨i, atIndex⟩ := getElem?_of_mem within
  have inside : low + i < high := by
    have bound := (List.getElem?_eq_some_iff.mp atIndex).1
    have length := length_interval_le chain low high
    omega
  have number := (consecutive_interval consecutive low high).getElem? atIndex
  rw [getElem?_interval inside] at atIndex
  rw [number, show low + 1 + i - 1 = low + i by omega]
  exact ⟨block, atIndex, rfl, by omega, by omega⟩

end CommittedBlkBuffer

namespace EthBlockPolicy

open CommittedBlkBuffer (Holds)

/-! ## Policies that follow the chain -/

/-- The states of a policy with execution delay `d` that has committed the first blocks of the chain, one by one or by
a reset with at least the last `d` of them. -/
inductive Follows (crypto : Crypto) (d chainId : Nat) (chain : List EthValidatedBlock) : Nat → EthBlockPolicy →
    Prop where
  | new : Follows crypto d chainId chain 0 (.new 0 d chainId)
  | commit {c : Nat} {policy policy' : EthBlockPolicy} {block : EthValidatedBlock}
      (before : Follows crypto d chainId chain c policy) (next : chain[c]? = some block)
      (updated : policy.updateCommittedBlock crypto block = .ok policy') :
      Follows crypto d chainId chain (c + 1) policy'
  | reset {c c' low : Nat} {policy policy' : EthBlockPolicy} (before : Follows crypto d chainId chain c policy)
      (inside : c' ≤ chain.length) (some : low < c') (reach : low ≤ c' - d)
      (wasReset : policy.reset crypto (interval chain low c') = .ok policy') : Follows crypto d chainId chain c' policy'

/-- What such a policy knows: the last commit, and an interval of the chain that reaches back `d` blocks. -/
structure InSync (crypto : Crypto) (d : Nat) (chain : List EthValidatedBlock) (c : Nat) (policy : EthBlockPolicy) :
    Prop where
  lastCommit : policy.lastCommit = c
  executionDelay : policy.executionDelay = d
  size : policy.committedCache.size = d
  inside : c ≤ chain.length
  holds : ∃ low ≤ c - d, Holds crypto chain low c policy.committedCache

variable {policy policy' : EthBlockPolicy} {block : EthValidatedBlock}

theorem updateCommittedBlock_eq_ok (updated : policy.updateCommittedBlock crypto block = .ok policy') :
    ∃ cache, policy.committedCache.updateCommittedBlock crypto block = .ok cache ∧
      policy' = { policy with lastCommit := block.getSeqNum, committedCache := cache } := by
  rw [updateCommittedBlock] at updated
  split at updated
  · cases updated
  · cases cached : policy.committedCache.updateCommittedBlock crypto block with
    | error failure => simp [cached, bind, Except.bind] at updated
    | ok cache =>
      simp only [cached, bind, Except.bind, Except.ok.injEq] at updated
      exact ⟨cache, rfl, updated.symm⟩

theorem commitAll_cons_eq_ok {rest : List EthValidatedBlock}
    (committed : commitAll crypto (block :: rest) policy = .ok policy') :
    ∃ cache, policy.committedCache.updateCommittedBlock crypto block = .ok cache ∧
      commitAll crypto rest { policy with lastCommit := block.getSeqNum, committedCache := cache } = .ok policy' := by
  rw [commitAll] at committed
  cases updated : policy.committedCache.updateCommittedBlock crypto block with
  | error failure => simp [updated, bind, Except.bind] at committed
  | ok cache => exact ⟨cache, rfl, by simpa only [updated, bind, Except.bind] using committed⟩

theorem commitAll_holds (consecutive : Consecutive 1 chain) {low high n : Nat}
    (committed : commitAll crypto (interval chain high (high + n)) policy = .ok policy')
    (holds : Holds crypto chain low high policy.committedCache) (ordered : low ≤ high)
    (inside : high + n ≤ chain.length) : (∃ low', Holds crypto chain low' (high + n) policy'.committedCache ∧
      (low' = low ∨ low' + policy.committedCache.size ≤ high + n)) ∧
      policy'.committedCache.size = policy.committedCache.size ∧ policy'.executionDelay = policy.executionDelay ∧
      (0 < n → policy'.lastCommit = high + n) := by
  induction n generalizing policy low high with
  | zero =>
    rw [Nat.add_zero, interval_self] at committed
    cases committed
    exact ⟨⟨low, holds, .inl rfl⟩, rfl, rfl, fun positive => absurd positive (Nat.lt_irrefl 0)⟩
  | succ n ih =>
    obtain ⟨block, found, shape⟩ := interval_cons (Nat.lt_add_of_pos_right (Nat.succ_pos n)) inside
    rw [shape] at committed
    obtain ⟨cache, updated, committed⟩ := commitAll_cons_eq_ok committed
    obtain ⟨low', holds', size, -, below, reach⟩ := holds.update consecutive ordered found updated
    have number := consecutive.getElem? found
    rw [show high + (n + 1) = high + 1 + n by omega] at committed inside ⊢
    obtain ⟨⟨low'', final, reach'⟩, size', delay, last⟩ := ih committed holds' (by omega) inside
    refine ⟨⟨low'', final, ?_⟩, size'.trans size, delay, fun _ => ?_⟩
    · dsimp only at reach'
      rw [size] at reach'
      omega
    · cases n with
      | zero =>
        rw [Nat.add_zero, interval_self] at committed
        cases committed
        dsimp only
        lia
      | succ n => exact last (Nat.succ_pos n)

theorem Follows.inSync {chainId c : Nat} (consecutive : Consecutive 1 chain)
    (follows : Follows crypto d chainId chain c policy) : InSync crypto d chain c policy := by
  induction follows with
  | new =>
    refine ⟨rfl, rfl, rfl, Nat.zero_le _, 0, Nat.zero_le _, ?_⟩
    rw [Holds, interval_self]
    rfl
  | @commit c policy policy' block _ next updated ih =>
    obtain ⟨low, reach, holds⟩ := ih.holds
    have inside := (List.getElem?_eq_some_iff.mp next).1
    obtain ⟨cache, cached, rfl⟩ := updateCommittedBlock_eq_ok updated
    obtain ⟨low', holds', size, -, below, reach'⟩ := holds.update consecutive (by omega) next cached
    have number := consecutive.getElem? next
    refine ⟨by dsimp only; lia, ih.executionDelay, size.trans ih.size, inside, low', ?_, holds'⟩
    have delay := ih.size
    omega
  | @reset c c' low policy policy' _ inside some reach wasReset ih =>
    obtain ⟨n, rfl⟩ := Nat.exists_eq_add_of_le some.le
    have empty : Holds crypto chain low low (CommittedBlkBuffer.new policy.committedCache.size) := by
      rw [Holds, interval_self]
      rfl
    obtain ⟨⟨low', holds, reach'⟩, size, delay, last⟩ := commitAll_holds consecutive wasReset empty le_rfl inside
    refine ⟨last (by omega), delay.trans ih.executionDelay, size.trans ih.size, inside, low', ?_, holds⟩
    have same : (CommittedBlkBuffer.new policy.committedCache.size).size = d := ih.size
    dsimp only at reach'
    omega

/-! ## Looking up a block -/

/-- The id of a block of the chain, by its number. -/
def blockIdAt (crypto : Crypto) (chain : List EthValidatedBlock) (number : Nat) : Option BlockId :=
  if number = 0 then some genesisBlockId else (chain[number - 1]?).map (·.getId crypto)

/-- The blocks that a call extends the last commit with: none are given, or the next ones of the chain. -/
def Extends (chain : List EthValidatedBlock) (c m : Nat) (extendingBlocks : Option (List EthValidatedBlock)) : Prop :=
  (extendingBlocks = none ∧ m = c) ∨ extendingBlocks = some (interval chain c m)

theorem getBlockIndex_ok {c m base : Nat} {extendingBlocks : Option (List EthValidatedBlock)} {index : BlockLookupIndex}
    (consecutive : Consecutive 1 chain) (sync : InSync crypto d chain c policy) (upto : c ≤ m)
    (extend : Extends chain c m extendingBlocks) (found : policy.getBlockIndex crypto extendingBlocks base =
      .ok index) :
    blockIdAt crypto chain base = some index.blockId ∧ base ≤ m := by
  obtain ⟨low, -, holds⟩ := sync.holds
  unfold getBlockIndex at found
  rw [sync.lastCommit] at found
  split at found
  next below =>
    split at found
    next genesis =>
      cases found
      rw [genesis]
      exact ⟨rfl, Nat.zero_le _⟩
    next later =>
      split at found
      · cases found
      next committed cached =>
        cases found
        obtain ⟨block, atIndex, rfl, positive, -⟩ := holds.get? consecutive cached
        refine ⟨?_, below.trans upto⟩
        rw [blockIdAt, if_neg (by omega), atIndex]
        rfl
  next above =>
    obtain ⟨rfl, -⟩ | rfl := extend
    · cases found
    · dsimp only at found
      split at found
      · cases found
      next proposed first =>
        cases found
        rw [(consecutive_interval consecutive c m).find? (by lia)] at first
        have length := length_interval_le chain c m
        have bound := (List.getElem?_eq_some_iff.mp first).1
        rw [getElem?_interval (by lia)] at first
        refine ⟨?_, by lia⟩
        rw [blockIdAt, if_neg (by lia), show base - 1 = c + (base - (c + 1)) by lia, first]
        rfl

end EthBlockPolicy

end MonadBft
