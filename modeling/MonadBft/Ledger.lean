import MonadBft.BlockSync

/-! # The block ledger

`MonadBlockFileLedger` over `FileBlockPersist`: a block is a body file and a header file, and two symbolic links name
the proposed and the finalized head. A command is a sequence of file operations; the process may be killed between
any two of them, and everything but the files is lost.
-/

namespace MonadBft

namespace Ledger

/-! ## Files -/

inductive Dir where
  | headers
  | bodies
deriving DecidableEq, Repr

inductive Head where
  | proposed
  | finalized
deriving DecidableEq, Repr

/-- The ledger directory: files by the hash in their name, and where the head links and their temporary names point. -/
structure Disk where
  file : Dir → Bytes → Option Bytes
  head : Head → Option BlockId
  wip : Head → Option BlockId

def Disk.empty : Disk := ⟨fun _ _ => none, fun _ => none, fun _ => none⟩

inductive FileOp where
  | touch (dir : Dir) (id : Bytes)
  | create (dir : Dir) (id : Bytes)
  | write (dir : Dir) (id content : Bytes)
  | symlink (head : Head) (id : BlockId)
  | rename (head : Head)
deriving DecidableEq, Repr

def Disk.setFile (disk : Disk) (dir : Dir) (id content : Bytes) : Disk :=
  { disk with file := fun dir' id' => if dir' = dir ∧ id' = id then some content else disk.file dir' id' }

/-- One file operation; `none` is an error. A link cannot be made under a name that exists. -/
def FileOp.apply (disk : Disk) : FileOp → Option Disk
  | .touch _ _ => some disk
  | .create dir id => some (disk.setFile dir id [])
  | .write dir id content => some (disk.setFile dir id content)
  | .symlink head id =>
    if (disk.wip head).isSome then none
    else some { disk with wip := Function.update disk.wip head (some id) }
  | .rename head =>
    match disk.wip head with
    | none => none
    | some id =>
      some { disk with head := Function.update disk.head head (some id), wip := Function.update disk.wip head none }

def applyOps (disk : Disk) : List FileOp → Option Disk
  | [] => some disk
  | op :: rest => (op.apply disk).bind fun disk => applyOps disk rest

/-! ## Block persistence -/

structure Codec where
  encodeHeader : ConsensusBlockHeader → Bytes
  decodeHeader : Bytes → Option ConsensusBlockHeader
  encodeBody : Bytes → Bytes
  decodeBody : Bytes → Option Bytes

inductive LedgerPanic where
  /-- An `unwrap` of a file operation's result. -/
  | io
  | headerDecode
  | bodyDecode
  | cacheIndex
deriving DecidableEq, Repr

section

variable (crypto : Crypto) (codec : Codec)

/-- `write_bft_header` and `write_bft_body`: a file that exists is only touched. -/
def writeFile (disk : Disk) (dir : Dir) (id content : Bytes) : List FileOp :=
  if (disk.file dir id).isSome then [.touch dir id] else [.create dir id, .write dir id content]

def writeBftHeader (disk : Disk) (header : ConsensusBlockHeader) : List FileOp :=
  writeFile disk .headers (crypto.getId header) (codec.encodeHeader header)

def writeBftBody (disk : Disk) (body : Bytes) : List FileOp :=
  writeFile disk .bodies (crypto.getBodyId body) (codec.encodeBody body)

/-- `update_proposed_head` and `update_finalized_head`. -/
def updateHead (head : Head) (id : BlockId) : List FileOp := [.symlink head id, .rename head]

def readFile {α : Type} (decode : Bytes → Option α) (failure : LedgerPanic) : Option Bytes →
    Except LedgerPanic (Option α)
  | none => .ok none
  | some content =>
    match decode content with
    | none => .error failure
    | some value => .ok (some value)

def readBftHeader (disk : Disk) (id : BlockId) : Except LedgerPanic (Option ConsensusBlockHeader) :=
  readFile codec.decodeHeader .headerDecode (disk.file .headers id)

def readBftBody (disk : Disk) (id : Bytes) : Except LedgerPanic (Option Bytes) :=
  readFile codec.decodeBody .bodyDecode (disk.file .bodies id)

/-- `read_proposed_head_bft_header`, which opens the link. -/
def readProposedHeadBftHeader (disk : Disk) : Except LedgerPanic (Option ConsensusBlockHeader) :=
  readFile codec.decodeHeader .headerDecode ((disk.head .proposed).bind (disk.file .headers))

end

end Ledger

open Ledger

/-! ## The ledger -/

inductive LedgerCommand where
  | proposed (block : ConsensusFullBlock)
  | finalized (block : ConsensusFullBlock)
  | fetchHeaders (range : BlockRange)
  | fetchPayload (id : Bytes)
deriving DecidableEq

structure BlockLedger where
  disk : Disk
  blockCache : AList fun _ : BlockId => ConsensusFullBlock
  blockPayloadCache : AList fun _ : Bytes => Bytes
  blockCacheIndex : SortedMap Round (BlockId × Bytes)

namespace BlockLedger

variable (crypto : Crypto) (codec : Codec) (ledger : BlockLedger)

def new (disk : Disk) : BlockLedger := ⟨disk, ∅, ∅, .empty⟩

def blockCacheSize : Nat := 1000

def blocksyncMaxNumHeaders : Nat := 800

/-- Drop a block that is no longer indexed from the caches. -/
def uncache (entry : BlockId × Bytes) : BlockLedger :=
  { ledger with
    blockCache := ledger.blockCache.erase entry.1
    blockPayloadCache := ledger.blockPayloadCache.erase entry.2 }

/-- Index a block by its round; a block that was indexed there is dropped. -/
def indexBlock (block : ConsensusFullBlock) : BlockLedger :=
  let entry := (crypto.getId block.header, block.getBodyId)
  let indexed := { ledger with blockCacheIndex := ledger.blockCacheIndex.insert block.getBlockRound entry }
  match ledger.blockCacheIndex.get? block.getBlockRound with
  | none => indexed
  | some removed => indexed.uncache removed

/-- Drop the block of the lowest round if there are too many. -/
def evictBlock : Except LedgerPanic BlockLedger :=
  if blockCacheSize < ledger.blockCacheIndex.entries.length then
    match ledger.blockCacheIndex.entries.head? with
    | none => .error .cacheIndex
    | some (round, evicted) =>
      .ok ({ ledger with blockCacheIndex := ledger.blockCacheIndex.erase round }.uncache evicted)
  else .ok ledger

def updateCache (block : ConsensusFullBlock) : Except LedgerPanic BlockLedger :=
  match (ledger.indexBlock crypto block).evictBlock with
  | .error failure => .error failure
  | .ok ledger => .ok { ledger with
      blockPayloadCache := ledger.blockPayloadCache.insert block.getBodyId block.body
      blockCache := ledger.blockCache.insert (crypto.getId block.header) block }

def fileOps (disk : Disk) : LedgerCommand → List FileOp
  | .proposed block =>
    writeBftBody crypto codec disk block.body ++ writeBftHeader crypto codec disk block.header ++
      updateHead .proposed (crypto.getId block.header)
  | .finalized block => updateHead .finalized (crypto.getId block.header)
  | .fetchHeaders _ => []
  | .fetchPayload _ => []

def findHeader (id : BlockId) : Except LedgerPanic (Option ConsensusBlockHeader) :=
  match ledger.blockCache.lookup id with
  | some cached => .ok (some cached.header)
  | none => readBftHeader codec ledger.disk id

/-- The loop of `ledger_fetch_headers`: the next headers towards genesis, put before those found. -/
def fetchLoop : Nat → BlockId → List ConsensusBlockHeader → Except LedgerPanic (Option (List ConsensusBlockHeader))
  | 0, _, headers => .ok (some headers)
  | count + 1, next, headers =>
    match ledger.findHeader codec next with
    | .error failure => .error failure
    | .ok none => .ok none
    | .ok (some header) => fetchLoop count header.getParentId (header :: headers)

def ledgerFetchHeaders (range : BlockRange) : Except LedgerPanic BlockSyncHeadersResponse :=
  if blocksyncMaxNumHeaders < range.numBlocks then .ok (.notAvailable range)
  else
    match ledger.fetchLoop codec range.numBlocks range.lastBlockId [] with
    | .error failure => .error failure
    | .ok none => .ok (.notAvailable range)
    | .ok (some headers) => .ok (.found range headers)

def ledgerFetchPayload (id : Bytes) : Except LedgerPanic BlockSyncBodyResponse :=
  match ledger.blockPayloadCache.lookup id with
  | some cached => .ok (.found cached)
  | none =>
    match readBftBody codec ledger.disk id with
    | .error failure => .error failure
    | .ok none => .ok (.notAvailable id)
    | .ok (some payload) => .ok (.found payload)

def exec (command : LedgerCommand) : Outcome LedgerPanic BlockLedger BlockSyncResponseMessage :=
  match applyOps ledger.disk (fileOps crypto codec ledger.disk command) with
  | none => .panic .io
  | some disk =>
    match command with
    | .proposed block =>
      match { ledger with disk }.updateCache crypto block with
      | .error failure => .panic failure
      | .ok ledger => .ok ledger []
    | .finalized _ => .ok { ledger with disk } []
    | .fetchHeaders range =>
      match ledger.ledgerFetchHeaders codec range with
      | .error failure => .panic failure
      | .ok response => .ok ledger [.headersResponse response]
    | .fetchPayload id =>
      match ledger.ledgerFetchPayload codec id with
      | .error failure => .panic failure
      | .ok response => .ok ledger [.payloadResponse response]

/-- What happens to a ledger: a command runs to completion, or the process is killed after some of its file
operations and starts again. -/
inductive Event where
  | run (command : LedgerCommand)
  | crash (command : LedgerCommand) (done : Nat)
deriving DecidableEq

inductive Handles : BlockLedger → Event → BlockLedger → Prop where
  | run {ledger ledger' : BlockLedger} {command : LedgerCommand} {responses : List BlockSyncResponseMessage}
      (returns : ledger.exec crypto codec command = .ok ledger' responses) : Handles ledger (.run command) ledger'
  | crash {ledger : BlockLedger} {command : LedgerCommand} {done : Nat} {disk : Disk}
      (applied : applyOps ledger.disk ((fileOps crypto codec ledger.disk command).take done) = some disk) :
      Handles ledger (.crash command done) (.new disk)

end BlockLedger

end MonadBft
