import Mathlib.Algebra.Ring.Nat
import Mathlib.Data.List.Basic

/-! # The archive workers

`archive_worker` copies blocks from a source to an archive, `index_worker` indexes archived blocks. Both go through
the chain in groups: the blocks of a group are handled concurrently, their results are taken in order up to the first
failure, and the number before the failed block (or the last of the group) is written as the progress marker. A pass
through the loop takes what the source and the store do in it as input.
-/

namespace MonadBft

namespace Archive

/-! ## Numbers -/

/-- Addition of `u64`s; `none` is an overflow. -/
def addU64 (a b : Nat) : Option Nat := if a + b < 2 ^ 64 then some (a + b) else none

def subU64 (a b : Nat) : Option Nat := if b ≤ a then some (a - b) else none

/-! ## Handling one block -/

/-- What the handling of one block did: the writes that succeeded, and whether it returned without an error. -/
structure Handled (κ : Type) where
  puts : List κ
  ok : Bool

section Archiver

variable {Block Receipts Traces : Type}

/-- A source of block data; `none` is an error. -/
structure BlockDataReader (Block Receipts Traces : Type) where
  getBlockByNumber : Nat → Option Block
  getBlockReceipts : Nat → Option Receipts
  getBlockTraces : Nat → Option Traces

/-- Whether the writes to the archive succeed. -/
structure ArchiveWriter (Block Receipts Traces : Type) where
  archiveBlock : Block → Bool
  archiveReceipts : Receipts → Nat → Bool
  archiveTraces : Traces → Nat → Bool

/-- A successful write to the archive, for the block of a number. -/
inductive ArchivePut (Block Receipts Traces : Type) where
  | block (blockNum : Nat) (block : Block)
  | receipts (blockNum : Nat) (receipts : Receipts)
  | traces (blockNum : Nat) (traces : Traces)
deriving DecidableEq

/-- One of the three tasks of `archive_block`: read from the source or else from the fallback, and write. -/
def archivePart {α : Type} (primary : Option α) (fallback : Option (Option α)) (write : α → Bool) : Option α :=
  match primary.or fallback.join with
  | none => none
  | some data => if write data then some data else none

/-- `archive_block`: only a failure to archive the block or its receipts is an error. -/
def archiveBlock (reader : BlockDataReader Block Receipts Traces)
    (fallback : Option (BlockDataReader Block Receipts Traces))
    (archiver : ArchiveWriter Block Receipts Traces) (blockNum : Nat) : Handled (ArchivePut Block Receipts Traces) :=
  let block := archivePart (reader.getBlockByNumber blockNum) (fallback.map
    (·.getBlockByNumber blockNum)) archiver.archiveBlock
  let receipts := archivePart (reader.getBlockReceipts blockNum) (fallback.map (·.getBlockReceipts blockNum))
    (archiver.archiveReceipts · blockNum)
  let traces := archivePart (reader.getBlockTraces blockNum) (fallback.map (·.getBlockTraces blockNum))
    (archiver.archiveTraces · blockNum)
  { puts := (block.map (ArchivePut.block blockNum)).toList ++ (receipts.map (ArchivePut.receipts blockNum)).toList ++
      (traces.map (ArchivePut.traces blockNum)).toList
    ok := block.isSome && receipts.isSome }

end Archiver

section Indexer

variable {Tx Receipt CallTrace Offset : Type}

structure BlockDataWithOffsets (Tx Receipt CallTrace Offset : Type) where
  transactions : List Tx
  receipts : List Receipt
  traces : List CallTrace
  offsets : Option (List Offset)

/-- Whether the writes to the indexes succeed; there may be no log index. -/
structure IndexWriter (Tx Receipt CallTrace Offset : Type) where
  bulkPut : BlockDataWithOffsets Tx Receipt CallTrace Offset → Bool
  logIndex : Option (BlockDataWithOffsets Tx Receipt CallTrace Offset → Bool)

inductive IndexPut where
  | transactions (blockNum : Nat)
  | logs (blockNum : Nat)
deriving DecidableEq

/-- `index_block`: a block with as many transactions as traces and receipts is written. -/
def indexBlock (writer : IndexWriter Tx Receipt CallTrace Offset)
    (data : BlockDataWithOffsets Tx Receipt CallTrace Offset) : Bool :=
  if data.transactions.length ≠ data.traces.length ∨ data.traces.length ≠ data.receipts.length ∨
      data.offsets.any (·.length ≠ data.receipts.length) then false
  else writer.bulkPut data

/-- `handle_block`: the spot check of the first transaction only logs. -/
def handleBlock (getBlockDataWithOffsets : Nat → Option (BlockDataWithOffsets Tx Receipt CallTrace Offset))
    (writer : IndexWriter Tx Receipt CallTrace Offset) (blockNum : Nat) : Handled IndexPut :=
  match getBlockDataWithOffsets blockNum with
  | none => ⟨[], false⟩
  | some data =>
    if indexBlock writer data then
      match writer.logIndex with
      | none => ⟨[.transactions blockNum], true⟩
      | some logs => if logs data then ⟨[.transactions blockNum, .logs blockNum], true⟩
        else ⟨[.transactions blockNum], false⟩
    else ⟨[], false⟩

end Indexer

/-! ## The loop of a worker -/

structure Params where
  maxBlocksPerIteration : Nat
  maxConcurrentBlocks : Nat
  startBlockOverride : Option Nat
  stopBlockOverride : Option Nat

/-- What differs between the workers: the number before a failed block, the latest block of a source that reports none
(`none` panics), and whether a block that cannot be handled is skipped. -/
structure Kind where
  beforeFailed : Nat → Option Nat
  unknownLatest : Option Nat
  skipBadBlocks : Bool

/-- What the surroundings do during one pass through the loop. -/
structure Surroundings (κ : Type) where
  /-- The latest block of the source; the outer `none` is an error. -/
  latestSource : Option (Option Nat)
  handled : Nat → Handled κ
  /-- How many blocks after a failed one had been started when its result came. -/
  ahead : Nat
  /-- The writes of those, which are dropped at any point. -/
  interrupted : Nat → List κ

/-- The worker's only state is `startBlock`; the rest is what it has done so far. -/
structure Worker (κ : Type) where
  startBlock : Nat
  /-- Blocks whose handling was started. -/
  processed : List Nat
  /-- Blocks that were handled without an error. -/
  done : List Nat
  puts : List κ
  /-- Numbers written as the latest block. -/
  markers : List Nat

def Worker.new {κ : Type} (startBlock : Nat) : Worker κ := ⟨startBlock, [], [], [], []⟩

inductive Pass (κ : Type) where
  | again (worker : Worker κ)
  | stopped
  | overflow
  | panic

variable {κ : Type}

/-- The first block, by the override or after the stored marker (the outer `none` is an error reading it). -/
def firstBlock (params : Params) (latestStored : Option (Option Nat)) : Option Nat :=
  match params.startBlockOverride with
  | some startBlock => some startBlock
  | none =>
    let latest := (latestStored.getD (some 0)).getD 0
    if latest = 0 then some 0 else addU64 latest 1

/-- The first of `count` blocks whose handling failed and is not skipped. -/
def firstFailure (kind : Kind) (handled : Nat → Handled κ) (start : Nat) : Nat → Option Nat
  | 0 => none
  | count + 1 =>
    if (handled start).ok || kind.skipBadBlocks then firstFailure kind handled (start + 1) count else some start

/-- `archive_blocks` and `index_blocks`: the blocks `start..=end` of a group. The result is the new latest block, where
`none` is an underflow. -/
def processBlocks (kind : Kind) (params : Params) (around : Surroundings κ) (worker : Worker κ) (start last : Nat) :
    Option (Worker κ × Nat) :=
  match firstFailure kind around.handled start (last + 1 - start) with
  | none =>
    let blocks := List.range' start (last + 1 - start)
    let worker := { worker with
      processed := worker.processed ++ blocks
      done := worker.done ++ blocks.filter fun n => (around.handled n).ok
      puts := worker.puts ++ blocks.flatMap fun n => (around.handled n).puts }
    some ({ worker with markers := if last ≠ 0 then worker.markers ++ [last] else worker.markers }, last)
  | some errBlock =>
    let blocks := List.range' start (errBlock - start)
    -- `buffered` has at most `max_concurrent_blocks` blocks in progress, the failed one among them
    let started := List.range' (errBlock + 1) (min (min around.ahead (params.maxConcurrentBlocks - 1))
      (last - errBlock))
    let worker := { worker with
      processed := worker.processed ++ blocks ++ errBlock :: started
      done := worker.done ++ blocks.filter fun n => (around.handled n).ok
      puts := worker.puts ++ (blocks.flatMap fun n => (around.handled n).puts) ++ (around.handled errBlock).puts ++
        started.flatMap around.interrupted }
    match kind.beforeFailed errBlock with
    | none => none
    | some latest =>
      some ({ worker with markers := if latest ≠ 0 then worker.markers ++ [latest] else worker.markers }, latest)

def pass (kind : Kind) (params : Params) (worker : Worker κ) (around : Surroundings κ) : Pass κ :=
  match around.latestSource with
  | none => .again worker
  | some reported =>
    match reported.or kind.unknownLatest with
    | none => .panic
    | some latestSource =>
      if params.stopBlockOverride.any (· < worker.startBlock) then .stopped
      else
        match (addU64 worker.startBlock params.maxBlocksPerIteration).bind (subU64 · 1) with
        | none => .overflow
        | some limit =>
          let endBlock := min latestSource limit
          if endBlock < worker.startBlock then .again worker
          else
            match processBlocks kind params around worker worker.startBlock endBlock with
            | none => .overflow
            | some (worker, latest) =>
              if latest = 0 then .again { worker with startBlock := 0 }
              else
                match addU64 latest 1 with
                | none => .overflow
                | some startBlock => .again { worker with startBlock }

/-- `archive_worker`, which subtracts with saturation and takes an unknown latest block for 0. -/
def archiveWorker (unsafeSkipBadBlocks : Bool) : Kind where
  beforeFailed := fun errBlock => some (errBlock - 1)
  unknownLatest := some 0
  skipBadBlocks := unsafeSkipBadBlocks

/-- `index_worker`, which subtracts without a check and unwraps the latest block. -/
def indexWorker : Kind where
  beforeFailed := fun errBlock => subU64 errBlock 1
  unknownLatest := none
  skipBadBlocks := false

end Archive

end MonadBft
