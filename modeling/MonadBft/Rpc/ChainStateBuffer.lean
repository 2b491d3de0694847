import MonadBft.Lib.AListRetain
import MonadBft.Lib.Outcome
import MonadBft.Types

/-! # The block buffer of the RPC server

`ChainStateBuffer` keeps the last voted blocks by height, with indexes from block hashes to heights and from
transaction hashes to positions. `insert` updates each map on its own. In runs where a voted block does not replace
another one and an evicted block shares no transaction with one that stays, the indexes and the blocks agree.
-/

namespace MonadBft

open AList List Option

structure RpcTransaction where
  txHash : Bytes
  content : Bytes
deriving DecidableEq, Repr

inductive BlockTransactions where
  | full (transactions : List RpcTransaction)
  | hashes (hashes : List Bytes)
  | uncle
deriving DecidableEq, Repr

def BlockTransactions.getHashes : BlockTransactions → List Bytes
  | .full transactions => transactions.map (·.txHash)
  | .hashes list => list
  | .uncle => []

structure RpcBlock where
  number : Nat
  hash : Bytes
  transactions : BlockTransactions
deriving DecidableEq, Repr

inductive BlockCommitState where
  | proposed
  | voted
  | finalized
  | verified
deriving DecidableEq, Repr

inductive EventServerEvent where
  | gap
  | block (commitState : BlockCommitState) (data : RpcBlock)
deriving DecidableEq, Repr

structure TxLoc where
  blockHeight : Nat
  txIdx : Nat
deriving DecidableEq, Repr

structure ChainStateBuffer where
  byHeight : AList fun _ : Nat => RpcBlock
  byHash : AList fun _ : Bytes => Nat
  transactions : AList fun _ : Bytes => TxLoc
  /-- The heights of the buffered blocks, the newest first. -/
  ring : List Nat
  voted : Nat
  finalized : Nat
  capacity : Nat

namespace ChainStateBuffer

def new (capacity : Nat) : ChainStateBuffer := ⟨∅, ∅, ∅, [], 0, 0, capacity⟩

/-- Record the transactions of a block, from an index on. -/
def recordTransactions (blockHeight : Nat) : Nat → List Bytes → (AList fun _ : Bytes => TxLoc) → AList fun _ :
    Bytes => TxLoc
  | _, [], transactions => transactions
  | txIdx, txHash :: rest, transactions =>
    recordTransactions blockHeight (txIdx + 1) rest (transactions.insert txHash ⟨blockHeight, txIdx⟩)

def removeTransactions (txns : List RpcTransaction) (transactions : AList fun _ : Bytes => TxLoc) : AList fun _ :
    Bytes => TxLoc :=
  txns.foldl (fun transactions tx => transactions.erase tx.txHash) transactions

variable (buffer : ChainStateBuffer)

/-- Drop a height that has left the ring, with the index entries of its block. -/
def evict (height : Nat) : ChainStateBuffer :=
  match buffer.byHeight.lookup height with
  | none => buffer
  | some evicted =>
    { buffer with
      byHeight := buffer.byHeight.erase height
      transactions := match evicted.transactions with
        | .full txns => removeTransactions txns buffer.transactions
        | .hashes _ => buffer.transactions
        | .uncle => buffer.transactions
      byHash := buffer.byHash.erase evicted.hash }

/-- The eviction loop; `fuel` is the length of the ring. -/
def evictLoop : Nat → ChainStateBuffer → ChainStateBuffer
  | 0, buffer => buffer
  | fuel + 1, buffer =>
    if buffer.capacity < buffer.ring.length then
      match buffer.ring.getLast? with
      | none => buffer
      | some height => evictLoop fuel ({ buffer with ring := buffer.ring.dropLast }.evict height)
    else buffer

/-- The part of `insert` that a voted block goes through. -/
def insertVoted (block : RpcBlock) : ChainStateBuffer :=
  let indexed := { buffer with
    byHeight := buffer.byHeight.insert block.number block
    byHash := buffer.byHash.insert block.hash block.number
    transactions := recordTransactions block.number 0 block.transactions.getHashes buffer.transactions
    voted := max buffer.voted block.number }
  if block.number ≤ buffer.voted then indexed
  else
    let ring := block.number :: buffer.ring
    evictLoop ring.length { indexed with ring }

def insert : EventServerEvent → ChainStateBuffer
  | .gap => buffer
  | .block .voted block => buffer.insertVoted block
  | .block .finalized block => { buffer with finalized := max buffer.finalized block.number }
  | .block .proposed _ => buffer
  | .block .verified _ => buffer

def getBlockByHash (hash : Bytes) : Option RpcBlock :=
  (buffer.byHash.lookup hash).bind buffer.byHeight.lookup

def getTransactionByLocation (height idx : Nat) : Option RpcTransaction :=
  (buffer.byHeight.lookup height).bind fun block =>
    match block.transactions with
    | .full transactions => transactions[idx]?
    | .hashes _ => none
    | .uncle => none

def getTransactionByHash (hash : Bytes) : Option RpcTransaction :=
  (buffer.transactions.lookup hash).bind fun loc => buffer.getTransactionByLocation loc.blockHeight loc.txIdx

/-! ## The transaction index -/

variable {height idx : Nat} {hashes : List Bytes} {index : AList fun _ : Bytes => TxLoc} {hash : Bytes}

theorem lookup_recordTransactions_of_not_mem (absent : hash ∉ hashes) :
    (recordTransactions height idx hashes index).lookup hash = index.lookup hash := by
  induction hashes generalizing idx index with
  | nil => rfl
  | cons first rest ih =>
    rw [mem_cons, not_or] at absent
    rw [recordTransactions, ih absent.2, lookup_insert_ne absent.1]

theorem lookup_recordTransactions_of_mem (mem : hash ∈ hashes) :
    ∃ i, (recordTransactions height idx hashes index).lookup hash = some ⟨height, idx + i⟩ ∧
      hashes[i]? = some hash := by
  induction hashes generalizing idx index with
  | nil => cases mem
  | cons first rest ih =>
    rw [recordTransactions]
    by_cases later : hash ∈ rest
    · obtain ⟨i, found, atIndex⟩ := @ih (idx + 1) (index.insert first ⟨height, idx⟩) later
      exact ⟨i + 1, by rw [found, Nat.add_assoc, Nat.add_comm 1 i], atIndex⟩
    · obtain rfl : hash = first := (mem_cons.mp mem).resolve_right later
      refine ⟨0, ?_, rfl⟩
      rw [lookup_recordTransactions_of_not_mem later, lookup_insert, Nat.add_zero]

theorem lookup_removeTransactions {txns : List RpcTransaction} :
    (removeTransactions txns index).lookup hash = if hash ∈ txns.map (·.txHash) then none else index.lookup hash := by
  rw [removeTransactions]
  induction txns generalizing index with
  | nil => simp
  | cons tx rest ih =>
    rw [foldl_cons, ih]
    by_cases here : hash = tx.txHash
    · rw [here, lookup_erase]
      simp
    · rw [lookup_erase_ne here]
      simp [here]

/-! ## Blocks and indexes agree -/

/-- The buffered block at a height, with full transactions. -/
def Buffers (height : Nat) (block : RpcBlock) (txns : List RpcTransaction) : Prop :=
  buffer.byHeight.lookup height = some block ∧ block.transactions = .full txns

/-- The maps agree: every index entry is right, every buffered block is indexed, and the ring lists the heights. -/
structure Agrees : Prop where
  hashes : ∀ hash height, buffer.byHash.lookup hash = some height →
    ∃ block, buffer.byHeight.lookup height = some block ∧ block.hash = hash
  locations : ∀ hash loc, buffer.transactions.lookup hash = some loc →
    ∃ block txns, buffer.Buffers loc.blockHeight block txns ∧ (txns.map (·.txHash))[loc.txIdx]? = some hash
  blocks : ∀ height block, buffer.byHeight.lookup height = some block →
    block.number = height ∧ buffer.byHash.lookup block.hash = some height ∧
      ∃ txns, block.transactions = .full txns ∧ ∀ hash ∈ txns.map (·.txHash), (buffer.transactions.lookup hash).isSome
  ring : ∀ height, height ∈ buffer.ring ↔ (buffer.byHeight.lookup height).isSome
  distinct : buffer.ring.Nodup
  voted : ∀ height ∈ buffer.ring, height ≤ buffer.voted

/-- A voted block that the buffer can take: it is above the voted height or already buffered, no other buffered block
has its hash, and a block that has to make room for it shares no transaction with it or with a block that stays. -/
structure Fits (block : RpcBlock) : Prop where
  full : ∃ txns, block.transactions = .full txns
  next : buffer.voted < block.number ∨ buffer.byHeight.lookup block.number = some block
  hash : ∀ height other, buffer.byHeight.lookup height = some other → other.hash = block.hash → height = block.number
  evicted : ∀ height evicted, buffer.voted < block.number → buffer.ring.length = buffer.capacity →
    buffer.ring.getLast? = some height → buffer.byHeight.lookup height = some evicted →
    ∀ hash ∈ evicted.transactions.getHashes, hash ∉ block.transactions.getHashes ∧
      ∀ height' other, buffer.byHeight.lookup height' = some other → hash ∈ other.transactions.getHashes →
        height' = height

variable {buffer} {block : RpcBlock}

/-- The buffer with a voted block in its maps, and some ring. -/
def indexed (buffer : ChainStateBuffer) (block : RpcBlock) (ring : List Nat) : ChainStateBuffer :=
  { buffer with
    byHeight := buffer.byHeight.insert block.number block
    byHash := buffer.byHash.insert block.hash block.number
    transactions := recordTransactions block.number 0 block.transactions.getHashes buffer.transactions
    voted := max buffer.voted block.number
    ring }

variable (agrees : Agrees buffer)

include agrees

theorem Agrees.old_eq (fits : Fits buffer block) {old : RpcBlock}
    (found : buffer.byHeight.lookup block.number = some old) : old = block := by
  obtain new | same := fits.next
  · have inRing := (agrees.ring block.number).mpr (by rw [found]; rfl)
    exact absurd new (not_lt.mpr (agrees.voted _ inRing))
  · exact some.inj (found.symm.trans same)

theorem Agrees.indexed_lookup (fits : Fits buffer block) {ring : List Nat} {other : RpcBlock} :
    (buffer.indexed block ring).byHeight.lookup height = some other ↔
      (height = block.number ∧ other = block) ∨ buffer.byHeight.lookup height = some other := by
  rw [ChainStateBuffer.indexed, lookup_insert_eq_some]
  by_cases here : height = block.number
  · subst here
    have old : buffer.byHeight.lookup block.number = some other → other = block := agrees.old_eq fits
    grind
  · simp [here]

theorem Agrees.indexed (fits : Fits buffer block) {ring : List Nat} (distinct : ring.Nodup)
    (heights : ∀ height, height ∈ ring ↔ height = block.number ∨ height ∈ buffer.ring) :
    Agrees (buffer.indexed block ring) := by
  obtain ⟨txns, full⟩ := fits.full
  have hashes : block.transactions.getHashes = txns.map (·.txHash) := by rw [full, BlockTransactions.getHashes]
  have lookup : ∀ {height other}, (buffer.indexed block ring).byHeight.lookup height = some other ↔
      (height = block.number ∧ other = block) ∨ buffer.byHeight.lookup height = some other := agrees.indexed_lookup fits
  refine ⟨fun hash height found => ?_, fun hash loc found => ?_, fun height other found => ?_, fun height => ?_,
    distinct, fun height mem => ?_⟩
  · obtain ⟨own, here⟩ | ⟨-, found⟩ := lookup_insert_eq_some.mp found
    · exact ⟨block, lookup.mpr (.inl ⟨here.symm, rfl⟩), own.symm⟩
    · obtain ⟨other, atHeight, same⟩ := agrees.hashes hash height found
      exact ⟨other, lookup.mpr (.inr atHeight), same⟩
  · change (recordTransactions block.number 0 block.transactions.getHashes buffer.transactions).lookup hash = some loc
      at found
    by_cases own : hash ∈ block.transactions.getHashes
    · obtain ⟨i, recorded, atIndex⟩ := lookup_recordTransactions_of_mem own
      rw [recorded, Nat.zero_add] at found
      cases found
      rw [hashes] at atIndex
      exact ⟨block, txns, ⟨lookup.mpr (.inl ⟨rfl, rfl⟩), full⟩, atIndex⟩
    · rw [lookup_recordTransactions_of_not_mem own] at found
      obtain ⟨other, txns', ⟨atHeight, full'⟩, atIndex⟩ := agrees.locations hash loc found
      exact ⟨other, txns', ⟨lookup.mpr (.inr atHeight), full'⟩, atIndex⟩
  · have indexed : ∀ hash, (buffer.transactions.lookup hash).isSome ∨ hash ∈ txns.map (·.txHash) →
        ((buffer.indexed block ring).transactions.lookup hash).isSome := by
      intro hash known
      change ((recordTransactions block.number 0 block.transactions.getHashes buffer.transactions).lookup hash).isSome
      by_cases own : hash ∈ block.transactions.getHashes
      · obtain ⟨i, recorded, -⟩ := lookup_recordTransactions_of_mem own
        rw [recorded]
        rfl
      · rw [lookup_recordTransactions_of_not_mem own]
        exact known.resolve_right fun mem => own (hashes ▸ mem)
    obtain ⟨rfl, rfl⟩ | old := lookup.mp found
    · exact ⟨rfl, lookup_insert _, txns, full, fun hash mem => indexed hash (.inr mem)⟩
    · obtain ⟨number, byHash, txns', full', known⟩ := agrees.blocks height other old
      refine ⟨number, ?_, txns', full', fun hash mem => indexed hash (.inl (known hash mem))⟩
      refine lookup_insert_eq_some.mpr ?_
      by_cases same : other.hash = block.hash
      · exact .inl ⟨same, (fits.hash height other old same).symm⟩
      · exact .inr ⟨same, byHash⟩
  · rw [isSome_iff_exists]
    change height ∈ ring ↔ _
    rw [heights, agrees.ring, isSome_iff_exists]
    constructor
    · rintro (new | ⟨other, old⟩)
      · exact ⟨block, lookup.mpr (.inl ⟨new, rfl⟩)⟩
      · exact ⟨other, lookup.mpr (.inr old)⟩
    · rintro ⟨other, found⟩
      exact (lookup.mp found).imp And.left fun old => ⟨other, old⟩
  · change height ≤ max buffer.voted block.number
    obtain new | old := (heights height).mp mem
    · exact new ▸ le_max_right _ _
    · exact le_trans (agrees.voted height old) (le_max_left _ _)

/-- Evicting the last height of the ring keeps the agreement if its block shares no transaction with the others. -/
theorem Agrees.evict {front : List Nat} {evicted : RpcBlock}
    (shape : buffer.ring = front ++ [height]) (found : buffer.byHeight.lookup height = some evicted)
    (apart : ∀ hash ∈ evicted.transactions.getHashes, ∀ height' other, buffer.byHeight.lookup height' = some other →
      hash ∈ other.transactions.getHashes → height' = height) :
    Agrees ({ buffer with ring := front }.evict height) := by
  obtain ⟨-, evictedHash, txns, full, -⟩ := agrees.blocks height evicted found
  have hashes : evicted.transactions.getHashes = txns.map (·.txHash) := by rw [full, BlockTransactions.getHashes]
  have result : { buffer with ring := front }.evict height = { buffer with
      ring := front
      byHeight := buffer.byHeight.erase height
      transactions := removeTransactions txns buffer.transactions
      byHash := buffer.byHash.erase evicted.hash } := by
    rw [ChainStateBuffer.evict]
    dsimp only
    rw [found]
    dsimp only
    rw [full]
  have distinct := agrees.distinct
  rw [shape, nodup_append] at distinct
  have outside : height ∉ front := fun mem => distinct.2.2 height mem height (mem_singleton.mpr rfl) rfl
  rw [result]
  refine ⟨fun hash height' atHash => ?_, fun hash loc atLoc => ?_, fun height' other atHeight => ?_, fun height' => ?_,
    distinct.1, fun height' mem => ?_⟩
  · obtain ⟨own, atHash⟩ := lookup_erase_eq_some.mp atHash
    obtain ⟨other, atHeight, same⟩ := agrees.hashes hash height' atHash
    refine ⟨other, lookup_erase_eq_some.mpr ⟨?_, atHeight⟩, same⟩
    rintro rfl
    rw [← some.inj (atHeight.symm.trans found)] at own
    exact own same.symm
  · dsimp only at atLoc
    rw [lookup_removeTransactions] at atLoc
    split at atLoc
    · cases atLoc
    next kept =>
      obtain ⟨other, txns', ⟨atHeight, full'⟩, atIndex⟩ := agrees.locations hash loc atLoc
      refine ⟨other, txns', ⟨lookup_erase_eq_some.mpr ⟨?_, atHeight⟩, full'⟩, atIndex⟩
      intro here
      rw [here] at atHeight
      obtain rfl := some.inj (atHeight.symm.trans found)
      obtain rfl := BlockTransactions.full.inj (full'.symm.trans full)
      exact kept (mem_of_getElem? atIndex)
  · obtain ⟨other_ne, old⟩ := lookup_erase_eq_some.mp atHeight
    obtain ⟨number, byHash, txns', full', known⟩ := agrees.blocks height' other old
    refine ⟨number, ?_, txns', full', fun hash mem => ?_⟩
    · refine lookup_erase_eq_some.mpr ⟨fun same => ?_, byHash⟩
      rw [same, evictedHash] at byHash
      exact other_ne (some.inj byHash).symm
    · dsimp only
      rw [lookup_removeTransactions, if_neg]
      · exact known hash mem
      · intro own
        refine other_ne (apart hash (hashes ▸ own) height' other old ?_)
        rw [full', BlockTransactions.getHashes]
        exact mem
  · have before := agrees.ring height'
    rw [shape, mem_append, mem_singleton, isSome_iff_exists] at before
    rw [isSome_iff_exists]
    constructor
    · intro mem
      obtain ⟨other, old⟩ := before.mp (.inl mem)
      exact ⟨other, lookup_erase_eq_some.mpr ⟨fun here => outside (here ▸ mem), old⟩⟩
    · rintro ⟨other, atHeight⟩
      obtain ⟨other_ne, old⟩ := lookup_erase_eq_some.mp atHeight
      exact (before.mpr ⟨other, old⟩).resolve_right other_ne
  · refine agrees.voted height' ?_
    rw [shape]
    exact mem_append_left _ mem

omit agrees

/-! ## Runs -/

/-- The maps agree and the ring is within the capacity. -/
structure Consistent (buffer : ChainStateBuffer) : Prop where
  agrees : Agrees buffer
  within : buffer.ring.length ≤ buffer.capacity

theorem evictLoop_of_le {fuel : Nat} (within : buffer.ring.length ≤ buffer.capacity) :
    evictLoop fuel buffer = buffer := by
  cases fuel with
  | zero => rfl
  | succ fuel => rw [evictLoop, if_neg (not_lt.mpr within)]

theorem evict_ring (height : Nat) : (buffer.evict height).ring = buffer.ring := by
  rw [evict]
  split <;> rfl

theorem evict_capacity (height : Nat) : (buffer.evict height).capacity = buffer.capacity := by
  rw [evict]
  split <;> rfl

/-- A ring that is one too long loses its last height. -/
theorem Agrees.evictLoop (agrees : Agrees buffer) (fuel : Nat) {front : List Nat} {evicted : RpcBlock}
    (shape : buffer.ring = front ++ [height]) (full : front.length = buffer.capacity)
    (found : buffer.byHeight.lookup height = some evicted)
    (apart : ∀ hash ∈ evicted.transactions.getHashes, ∀ height' other, buffer.byHeight.lookup height' = some other →
      hash ∈ other.transactions.getHashes → height' = height) :
    Consistent (evictLoop (fuel + 1) buffer) ∧ (evictLoop (fuel + 1) buffer).capacity = buffer.capacity := by
  have within : ({ buffer with ring := front }.evict height).ring.length ≤
    ({ buffer with ring := front }.evict height).capacity := by
    rw [evict_ring, evict_capacity]
    exact le_of_eq full
  have exceeds : buffer.capacity < buffer.ring.length := by simp [shape, full]
  rw [ChainStateBuffer.evictLoop, if_pos exceeds, shape, getLast?_concat, dropLast_concat]
  dsimp only
  rw [evictLoop_of_le within]
  exact ⟨⟨agrees.evict shape found apart, within⟩, evict_capacity height⟩

theorem Consistent.insertVoted (consistent : Consistent buffer) (positive : 0 < buffer.capacity)
    (fits : Fits buffer block) :
    Consistent (buffer.insertVoted block) ∧ (buffer.insertVoted block).capacity = buffer.capacity := by
  have agrees := consistent.agrees
  rw [ChainStateBuffer.insertVoted]
  dsimp only
  split
  next below =>
    have old := fits.next.resolve_left (not_lt.mpr below)
    have inRing := (agrees.ring block.number).mpr (by rw [old]; rfl)
    have again := agrees.indexed fits agrees.distinct fun height =>
      ⟨.inr, fun mem => mem.elim (fun here => here ▸ inRing) id⟩
    exact ⟨⟨again, consistent.within⟩, rfl⟩
  next above =>
    have new := not_le.mp above
    have fresh : block.number ∉ buffer.ring := fun mem => above (agrees.voted _ mem)
    have extended : Agrees (buffer.indexed block (block.number :: buffer.ring)) :=
      agrees.indexed fits (nodup_cons.mpr ⟨fresh, agrees.distinct⟩) fun height => mem_cons
    change Consistent (evictLoop (buffer.ring.length + 1) (buffer.indexed block (block.number :: buffer.ring))) ∧
      (evictLoop (buffer.ring.length + 1) (buffer.indexed block (block.number :: buffer.ring))).capacity =
        buffer.capacity
    by_cases room : buffer.ring.length < buffer.capacity
    · have within : (buffer.indexed block (block.number :: buffer.ring)).ring.length ≤ buffer.capacity :=
        Nat.succ_le_of_lt room
      rw [evictLoop_of_le within]
      exact ⟨⟨extended, within⟩, rfl⟩
    · -- the ring is full: its last height makes room
      have isFull : buffer.ring.length = buffer.capacity := le_antisymm consistent.within (not_lt.mp room)
      obtain ⟨front, height, shape⟩ : ∃ front height, buffer.ring = front ++ [height] := by
        have nonempty : buffer.ring ≠ [] := ne_nil_of_length_pos (by omega)
        exact ⟨_, _, (dropLast_append_getLast nonempty).symm⟩
      obtain ⟨evicted, found⟩ := isSome_iff_exists.mp ((agrees.ring height).mp (by simp [shape]))
      have apart := fits.evicted height evicted new isFull (by simp [shape]) found
      refine extended.evictLoop _ (show _ = (block.number :: front) ++ [height] from congrArg _ shape) ?_
        ((agrees.indexed_lookup fits).mpr (.inr found)) ?_
      · change _ = buffer.capacity
        rw [← isFull, shape]
        simp
      · intro hash mem height' other atHeight shared
        obtain ⟨-, rfl⟩ | old := (agrees.indexed_lookup fits).mp atHeight
        · exact absurd shared (apart hash mem).1
        · exact (apart hash mem).2 height' other old shared

/-- Every voted block of an event fits. -/
def Orderly (buffer : ChainStateBuffer) (event : EventServerEvent) : Prop :=
  ∀ block, event = .block .voted block → Fits buffer block

def OrderlyInsert (buffer : ChainStateBuffer) (event : EventServerEvent) (buffer' : ChainStateBuffer) : Prop :=
  Orderly buffer event ∧ buffer' = buffer.insert event

theorem Consistent.insert (consistent : Consistent buffer) (positive : 0 < buffer.capacity) {event : EventServerEvent}
    (orderly : Orderly buffer event) :
    Consistent (buffer.insert event) ∧ (buffer.insert event).capacity = buffer.capacity := by
  cases event with
  | gap => exact ⟨consistent, rfl⟩
  | block commitState block =>
    cases commitState with
    | voted => exact consistent.insertVoted positive (orderly block rfl)
    | finalized =>
      have agrees := consistent.agrees
      exact ⟨⟨⟨agrees.hashes, agrees.locations, agrees.blocks, agrees.ring, agrees.distinct, agrees.voted⟩,
        consistent.within⟩, rfl⟩
    | proposed => exact ⟨consistent, rfl⟩
    | verified => exact ⟨consistent, rfl⟩

theorem consistent_new (capacity : Nat) : Consistent (new capacity) := by
  refine ⟨⟨fun hash height found => ?_, fun hash loc found => ?_, fun height block found => ?_, fun height => ?_,
    nodup_nil, fun height mem => ?_⟩, Nat.zero_le _⟩
  · exact absurd found (by simp [new])
  · exact absurd found (by simp [new])
  · exact absurd found (by simp [new])
  · simp [new]
  · exact absurd mem not_mem_nil

theorem consistent_of_run {capacity : Nat} (positive : 0 < capacity) {events : List EventServerEvent}
    (run : Trace OrderlyInsert (new capacity) events buffer) : Consistent buffer ∧ buffer.capacity = capacity := by
  induction run with
  | nil => exact ⟨consistent_new capacity, rfl⟩
  | snoc _ taken ih =>
    obtain ⟨orderly, rfl⟩ := taken
    obtain ⟨consistent, same⟩ := ih
    obtain ⟨kept, same'⟩ := consistent.insert (same ▸ positive) orderly
    exact ⟨kept, same'.trans same⟩

/-! ## Answers -/

structure Truthful (buffer : ChainStateBuffer) : Prop where
  blockByHash : ∀ hash block, buffer.getBlockByHash hash = some block → block.hash = hash
  transactionByHash : ∀ hash tx, buffer.getTransactionByHash hash = some tx → tx.txHash = hash
  findsBlock : ∀ height block, buffer.byHeight.lookup height = some block →
    buffer.getBlockByHash block.hash = some block
  findsTransactions : ∀ height block, buffer.byHeight.lookup height = some block →
    ∀ hash ∈ block.transactions.getHashes, ∃ tx, buffer.getTransactionByHash hash = some tx
  hashesBuffered : ∀ hash height, buffer.byHash.lookup hash = some height →
    ∃ block, buffer.byHeight.lookup height = some block ∧ block.hash = hash
  transactionsBuffered : ∀ hash loc, buffer.transactions.lookup hash = some loc →
    ∃ block, buffer.byHeight.lookup loc.blockHeight = some block ∧ hash ∈ block.transactions.getHashes
  bounded : buffer.byHeight.keys.length ≤ buffer.capacity

theorem Agrees.getTransactionByHash (agrees : Agrees buffer) {loc : TxLoc}
    (found : buffer.transactions.lookup hash = some loc) :
    ∃ tx, buffer.getTransactionByHash hash = some tx ∧ tx.txHash = hash := by
  obtain ⟨block, txns, ⟨atHeight, full⟩, atIndex⟩ := agrees.locations hash loc found
  rw [getElem?_map, map_eq_some_iff] at atIndex
  obtain ⟨tx, atIndex, same⟩ := atIndex
  refine ⟨tx, ?_, same⟩
  rw [ChainStateBuffer.getTransactionByHash, found, bind_some, getTransactionByLocation, atHeight, bind_some, full]
  exact atIndex

theorem Consistent.truthful (consistent : Consistent buffer) : Truthful buffer := by
  have agrees := consistent.agrees
  refine ⟨fun hash block found => ?_, fun hash tx found => ?_, fun height block found => ?_,
    fun height block found hash mem => ?_, agrees.hashes, fun hash loc found => ?_, ?_⟩
  · obtain ⟨height, atHash, atHeight⟩ := bind_eq_some_iff.mp found
    obtain ⟨block', atHeight', same⟩ := agrees.hashes hash height atHash
    rw [some.inj (atHeight.symm.trans atHeight')]
    exact same
  · obtain ⟨loc, atHash, -⟩ := bind_eq_some_iff.mp found
    obtain ⟨tx', found', same⟩ := agrees.getTransactionByHash atHash
    rw [some.inj (found.symm.trans found')]
    exact same
  · rw [getBlockByHash, (agrees.blocks height block found).2.1, bind_some]
    exact found
  · obtain ⟨-, -, txns, full, known⟩ := agrees.blocks height block found
    rw [full, BlockTransactions.getHashes] at mem
    obtain ⟨loc, atHash⟩ := isSome_iff_exists.mp (known hash mem)
    obtain ⟨tx, found', -⟩ := agrees.getTransactionByHash atHash
    exact ⟨tx, found'⟩
  · obtain ⟨block, txns, ⟨atHeight, full⟩, atIndex⟩ := agrees.locations hash loc found
    refine ⟨block, atHeight, ?_⟩
    rw [full, BlockTransactions.getHashes]
    exact mem_of_getElem? atIndex
  · have listed : buffer.byHeight.keys ⊆ buffer.ring := by
      intro height mem
      rw [agrees.ring, lookup_isSome]
      exact mem
    exact le_trans (subperm_of_subset buffer.byHeight.nodupKeys listed).length_le consistent.within

/-! Blocks of one transaction each. -/

def oneTransaction (number : Nat) (hash tx : Bytes) : RpcBlock := ⟨number, hash, .full [⟨tx, []⟩]⟩

abbrev votedBlock (number : Nat) (hash tx : Bytes) : EventServerEvent := .block .voted (oneTransaction number hash tx)

/-- After every orderly insert the buffer answers truthfully. -/
theorem truthful_of_run {capacity : Nat} (positive : 1 ≤ capacity) {events : List EventServerEvent}
    (run : Trace OrderlyInsert (new capacity) events buffer) : Truthful buffer :=
  (consistent_of_run positive run).1.truthful

/-- Two blocks pass through a buffer for one. -/
theorem truthful_after_eviction : Truthful (((new 1).insert (votedBlock 1 [1] [7])).insert (votedBlock 2 [2] [8])) ∧
    (((new 1).insert (votedBlock 1 [1] [7])).insert (votedBlock 2 [2] [8])).byHeight.keys = [2] := by
  have first : Orderly (new 1) (votedBlock 1 [1] [7]) := by
    rintro block ⟨⟩
    exact ⟨⟨_, rfl⟩, .inl (by decide), fun height other found => absurd found (by simp [new]),
      fun height evicted _ full => absurd full (by decide)⟩
  have second : Orderly ((new 1).insert (votedBlock 1 [1] [7])) (votedBlock 2 [2] [8]) := by
    rintro block ⟨⟩
    have only : ∀ height other, ((new 1).insert (votedBlock 1 [1] [7])).byHeight.lookup height = some other →
        height = 1 ∧ other = oneTransaction 1 [1] [7] := by
      intro height other found
      change ((∅ : AList fun _ : Nat => RpcBlock).insert 1 (oneTransaction 1 [1] [7])).lookup height = some other
        at found
      by_cases here : height = 1
      · rw [here, lookup_insert] at found
        exact ⟨here, (some.inj found).symm⟩
      · rw [lookup_insert_ne here] at found
        exact absurd found (by simp)
    refine ⟨⟨_, rfl⟩, .inl (by decide), fun height other found same => ?_,
      fun height evicted _ _ _ found hash mem => ?_⟩
    · obtain ⟨-, rfl⟩ := only height other found
      exact absurd same (by decide)
    · obtain ⟨rfl, rfl⟩ := only height evicted found
      refine ⟨?_, fun height' other found' _ => (only height' other found').1⟩
      rw [mem_singleton.mp mem]
      decide
  exact ⟨truthful_of_run (le_refl 1) ((Trace.nil.snoc ⟨first, rfl⟩).snoc ⟨second, rfl⟩), by decide⟩

/-- What a second voted block of a height, a shared transaction and a lower height do: a block is found under another
hash, a buffered transaction is lost, and the buffer grows over its capacity. -/
theorem untruthful_inserts :
    (((new 2).insert (votedBlock 1 [1] [7])).insert (votedBlock 1 [2] [8])).getBlockByHash [1] = some (oneTransaction 1 [2] [8]) ∧
    (((new 2).insert (votedBlock 1 [1] [7])).insert (votedBlock 1 [2] [8])).getTransactionByHash [7] = some ⟨[8], []⟩ ∧
    (((new 1).insert (votedBlock 1 [1] [7])).insert (votedBlock 2 [2] [7])).getBlockByHash [2] =
      some (oneTransaction 2 [2] [7]) ∧
    (((new 1).insert (votedBlock 1 [1] [7])).insert (votedBlock 2 [2] [7])).getTransactionByHash [7] = none ∧
    (((new 1).insert (votedBlock 2 [2] [8])).insert (votedBlock 1 [1] [7])).byHeight.keys = [1, 2] := by
  decide

end ChainStateBuffer

end MonadBft
