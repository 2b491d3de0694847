import Mathlib.Data.Finset.Basic
import Mathlib.Data.List.AList
import MonadBft.Safety

/-! # The block tree

`monad-blocktree`: the uncommitted blocks above the last committed one, which of them
are coherent (a valid extension of the chain up to the root), and the branch that a
commit removes.

A walk towards the root visits each block at most once, since a block's id is a hash of
a header that holds its parent's id. The walks take the number of blocks as their fuel.
-/

namespace MonadBft

namespace ConsensusFullBlock

variable (block : ConsensusFullBlock)

def getParentId : BlockId := block.header.getParentId
def getParentRound : Round := block.header.qc.getRound
def getBlockRound : Round := block.header.blockRound
def getSeqNum : SeqNum := block.header.seqNum
def getTimestamp : Nat := block.header.timestampNs
def getBodyId : Bytes := block.header.blockBodyId
def getQc : QuorumCertificate := block.header.qc

/-- What `ConsensusFullBlock::new` checks. -/
def BodyMatches (crypto : Crypto) : Prop := block.header.blockBodyId = crypto.getBodyId block.body

end ConsensusFullBlock

/-! ## The store of blocks (`tree.rs`) -/

structure BlockTreeEntry where
  validatedBlock : ConsensusFullBlock
  /-- There is a path to the root, and the block is a valid extension of it. -/
  isCoherent : Bool
  /-- The ids of the stored blocks that extend this one. -/
  childrenBlocks : List BlockId

structure BlockBodyIndex where
  body : Bytes
  /-- The blocks in the tree that point to this payload. -/
  activeBlocks : Finset BlockId

structure Tree where
  tree : AList (fun _ : BlockId => BlockTreeEntry)
  payloads : AList (fun _ : Bytes => BlockBodyIndex)

namespace Tree

def empty : Tree := ⟨∅, ∅⟩

def get (t : Tree) (id : BlockId) : Option BlockTreeEntry := t.tree.lookup id

def size (t : Tree) : Nat := t.tree.entries.length

def setCoherent (t : Tree) (id : BlockId) (coherent : Bool) : Option Tree :=
  (t.get id).map fun entry => { t with tree := t.tree.insert id { entry with isCoherent := coherent } }

/-- Take a removed block out of the payload index. -/
def removePayload (t : Tree) (id : BlockId) (bodyId : Bytes) : Except Panic Tree :=
  match t.payloads.lookup bodyId with
  | none => .error .blockTree
  | some index =>
    if id ∈ index.activeBlocks then
      let activeBlocks := index.activeBlocks.erase id
      .ok { t with payloads :=
        if activeBlocks = ∅ then t.payloads.erase bodyId
        else t.payloads.insert bodyId { index with activeBlocks } }
    else .error .blockTree

def remove (t : Tree) (id : BlockId) : Except Panic (Option BlockTreeEntry × Tree) :=
  match t.get id with
  | none => .ok (none, t)
  | some removed =>
    match removePayload { t with tree := t.tree.erase id } id removed.validatedBlock.getBodyId with
    | .error e => .error e
    | .ok t' => .ok (some removed, t')

def removeAll (t : Tree) : List BlockId → Except Panic Tree
  | [] => .ok t
  | id :: rest =>
    match t.remove id with
    | .error e => .error e
    | .ok (_, t') => removeAll t' rest

/-- The stored blocks whose parent is `id`. -/
def childrenOf (t : Tree) (id : BlockId) : List BlockId :=
  (t.tree.entries.filter fun e => e.2.validatedBlock.getParentId = id).map (·.1)

/-- Insert a block, not coherent yet, under an id that is not in the tree. -/
def insert (t : Tree) (id : BlockId) (block : ConsensusFullBlock) : Except Panic Tree :=
  if (t.get id).isSome then .error .blockTree
  else
    let entry := { validatedBlock := block, isCoherent := false, childrenBlocks := t.childrenOf id }
    let tree := t.tree.insert id entry
    let tree := match tree.lookup block.getParentId with
      | none => tree
      | some parent =>
        tree.insert block.getParentId { parent with childrenBlocks := parent.childrenBlocks ++ [id] }
    let index := (t.payloads.lookup block.getBodyId).getD { body := block.body, activeBlocks := ∅ }
    if id ∈ index.activeBlocks then .error .blockTree
    else .ok {
      tree
      payloads := t.payloads.insert block.getBodyId { index with activeBlocks := Insert.insert id index.activeBlocks } }

end Tree

/-! ## Coherency -/

structure RootInfo where
  round : Round
  seqNum : SeqNum
  epoch : Epoch
  blockId : BlockId
  timestampNs : Nat
  deriving DecidableEq

/-- The part of `BlockPolicy::check_coherency` that looks at execution results, nonces and balances. -/
abbrev ExecutionCheck := ConsensusFullBlock → List ConsensusFullBlock → RootInfo → Bool

/-- `check_coherency`: the checks on the sequence number and the timestamp are common to all block
policies, what follows them depends on the state of execution. -/
def checkCoherency (execution : ExecutionCheck) (block : ConsensusFullBlock)
    (extendingBlocks : List ConsensusFullBlock) (root : RootInfo) : Bool :=
  let (extendingSeqNum, extendingTimestamp) :=
    match extendingBlocks.getLast? with
    | some extended => (extended.getSeqNum, extended.getTimestamp)
    | none => (root.seqNum, 0)
  if block.getSeqNum ≠ extendingSeqNum + 1 then false
  else if block.getTimestamp ≤ extendingTimestamp then false
  else execution block extendingBlocks root

/-! ## The block tree (`blocktree.rs`) -/

structure BlockTree where
  root : RootInfo
  rootChildren : List BlockId
  tree : Tree

structure BlockRange where
  lastBlockId : BlockId
  numBlocks : SeqNum
  deriving DecidableEq

namespace BlockTree

def new (root : RootInfo) : BlockTree := { root, rootChildren := [], tree := .empty }

variable (bt : BlockTree)

def getBlock (id : BlockId) : Option ConsensusFullBlock := (bt.tree.get id).map (·.validatedBlock)

def isCoherent (id : BlockId) : Bool :=
  if id = bt.root.blockId then true
  else match bt.tree.get id with
    | some entry => entry.isCoherent
    | none => false

/-- Walk from `visit` to the root; `blocks` is the part of the path above `visit`. -/
def walkToRoot : Nat → BlockId → List ConsensusFullBlock → Option (List ConsensusFullBlock)
  | 0, _, _ => none
  | fuel + 1, visit, blocks =>
    match bt.getBlock visit with
    | none => none
    | some block =>
      if block.getParentId = bt.root.blockId then some (block :: blocks)
      else walkToRoot fuel block.getParentId (block :: blocks)

/-- The blocks after the root up to `id`, lowest first. -/
def getBlocksOnPathFromRoot (id : BlockId) : Option (List ConsensusFullBlock) :=
  if id = bt.root.blockId then some [] else bt.walkToRoot bt.tree.size id []

/-! ### Looking up the block of a QC -/

def getSeqNumOfQc (qc : QuorumCertificate) : Option SeqNum :=
  if bt.root.blockId = qc.getBlockId then some bt.root.seqNum
  else (bt.getBlock qc.getBlockId).map (·.getSeqNum)

def getTimestampOfQc (qc : QuorumCertificate) : Option Nat :=
  if bt.root.blockId = qc.getBlockId then some bt.root.timestampNs
  else (bt.getBlock qc.getBlockId).map (·.getTimestamp)

def getBlockRoundOfQc (qc : QuorumCertificate) : Option Round :=
  if bt.root.blockId = qc.getBlockId then some bt.root.round
  else (bt.getBlock qc.getBlockId).map (·.getBlockRound)

/-! ### Inserting and committing -/

def isValidToInsert (crypto : Crypto) (header : ConsensusBlockHeader) : Bool :=
  (bt.tree.get (crypto.getId header)).isNone && decide (bt.root.round < header.blockRound)

def add (crypto : Crypto) (block : ConsensusFullBlock) : Except Panic BlockTree :=
  if bt.isValidToInsert crypto block.header then
    let id := crypto.getId block.header
    match bt.tree.insert id block with
    | .error e => .error e
    | .ok tree => .ok { bt with
        tree
        rootChildren := if block.getParentId = bt.root.blockId then bt.rootChildren ++ [id] else bt.rootChildren }
  else .ok bt

/-- The loop of `prune`: remove the ancestors of `entry`; `commit` are the blocks above it. -/
def removeBranch (rootId : BlockId) : Nat → Tree → BlockTreeEntry → List ConsensusFullBlock →
    Except Panic (List ConsensusFullBlock × Tree)
  | 0, _, _, _ => .error .diverges
  | fuel + 1, tree, entry, commit =>
    if entry.isCoherent = false then .error .blockTree
    else
      let commit := entry.validatedBlock :: commit
      let parentId := entry.validatedBlock.getParentId
      if parentId = rootId then .ok (commit, tree)
      else match tree.remove parentId with
        | .error e => .error e
        | .ok (none, _) => .error .blockTree
        | .ok (some parent, tree) => removeBranch rootId fuel tree parent commit

/-- Commit the branch up to `newRoot`, lowest block first, and drop the blocks whose parent is older
than the new root. -/
def prune (crypto : Crypto) (newRoot : BlockId) : Except Panic (List ConsensusFullBlock × BlockTree) :=
  if bt.isCoherent newRoot = false then .error .blockTree
  else if newRoot = bt.root.blockId then .ok ([], bt)
  else match bt.tree.remove newRoot with
    | .error e => .error e
    | .ok (none, _) => .error .blockTree
    | .ok (some newRootEntry, tree) =>
      match removeBranch bt.root.blockId (tree.size + 1) tree newRootEntry [] with
      | .error e => .error e
      | .ok (commit, tree) =>
        let newRootBlock := newRootEntry.validatedBlock
        let blocksToDelete :=
          (tree.tree.entries.filter fun e => e.2.validatedBlock.getParentRound < newRootBlock.getBlockRound).map (·.1)
        match tree.removeAll blocksToDelete with
        | .error e => .error e
        | .ok tree => .ok (commit, {
            root := {
              round := newRootBlock.getBlockRound
              seqNum := newRootBlock.getSeqNum
              epoch := newRootBlock.header.epoch
              blockId := crypto.getId newRootBlock.header
              timestampNs := newRootBlock.getTimestamp }
            rootChildren := newRootEntry.childrenBlocks
            tree })

/-! ### Coherency updates -/

/-- The breadth-first loop of `try_update_coherency`. -/
def updateCoherency (execution : ExecutionCheck) :
    Nat → BlockTree → List BlockId → List ConsensusFullBlock → Except Panic (BlockTree × List ConsensusFullBlock)
  | 0, _, _, _ => .error .diverges
  | _ + 1, bt, [], coherent => .ok (bt, coherent)
  | fuel + 1, bt, next :: queue, coherent =>
    match bt.getBlocksOnPathFromRoot next with
    | none => .error .blockTree
    | some path =>
      match path.getLast? with
      | none => .error .blockTree
      | some block =>
        if checkCoherency execution block path.dropLast bt.root then
          match bt.tree.setCoherent next true with
          | none => .error .blockTree
          | some tree =>
            let children := ((tree.get next).map (·.childrenBlocks)).getD []
            updateCoherency execution fuel { bt with tree } (queue ++ children) (coherent ++ [block])
        else updateCoherency execution fuel bt queue coherent

/-- Check the coherency of the first incoherent block on the path to `id`, and of the blocks above it. -/
def tryUpdateCoherency (crypto : Crypto) (execution : ExecutionCheck) (id : BlockId) :
    Except Panic (BlockTree × List ConsensusFullBlock) :=
  match bt.getBlocksOnPathFromRoot id with
  | none => .ok (bt, [])
  | some path =>
    match path.find? (fun block => (bt.tree.get (crypto.getId block.header)).any (!·.isCoherent)) with
    | none => .ok (bt, [])
    | some incoherent =>
      updateCoherency execution (bt.tree.size + 1) bt [crypto.getId incoherent.header] []

/-- `QuorumCertificate::get_committable_id`: a QC for `block` commits its parent if it was built in the
round after the parent's QC. -/
def getCommittableId (qc : QuorumCertificate) (block : ConsensusBlockHeader) : Option BlockId :=
  if qc.getRound = block.qc.getRound + 1 then some block.getParentId else none

/-- The QC of `block`, if it commits a coherent block above the root and is higher than `high`. -/
def committableQc (block : ConsensusFullBlock) (high : Option QuorumCertificate) : Option QuorumCertificate :=
  let qc := block.getQc
  if high.any (fun h => qc.getRound ≤ h.getRound) then high
  else match bt.getBlock qc.getBlockId with
    | none => high
    | some qcParentBlock =>
      match getCommittableId qc qcParentBlock.header with
      | none => high
      | some committable =>
        if committable = bt.root.blockId then high
        else if bt.isCoherent committable then some qc
        else high

/-- The breadth-first loop of `get_high_committable_qc`. -/
def highCommittableQc : Nat → List BlockId → Option QuorumCertificate → Except Panic (Option QuorumCertificate)
  | 0, _, _ => .error .diverges
  | _ + 1, [], high => .ok high
  | fuel + 1, id :: queue, high =>
    match bt.tree.get id with
    | none => .error .blockTree
    | some entry =>
      highCommittableQc fuel (queue ++ entry.childrenBlocks) (bt.committableQc entry.validatedBlock high)

def getHighCommittableQc : Except Panic (Option QuorumCertificate) :=
  bt.highCommittableQc (bt.tree.size + 1) bt.rootChildren none

/-! ### Missing ancestors -/

/-- The loop of `maybe_fill_path_to_root`. -/
def fillPathToRoot : Nat → BlockId → SeqNum → Except Panic (Option BlockRange)
  | 0, _, _ => .error .diverges
  | fuel + 1, maybeUnknown, numBlocks =>
    match bt.getBlock maybeUnknown with
    | none => .ok (some { lastBlockId := maybeUnknown, numBlocks })
    | some known =>
      if known.getParentId = bt.root.blockId then .ok none
      -- `SeqNum` subtraction panics below zero
      else if known.getSeqNum < bt.root.seqNum then .error .blockTree
      else fillPathToRoot fuel known.getParentId (max (known.getSeqNum - bt.root.seqNum) 2 - 1)

/-- The blocks to request so that `qc` has a path to the root. -/
def maybeFillPathToRoot (qc : QuorumCertificate) : Except Panic (Option BlockRange) :=
  if qc.getRound ≤ bt.root.round ∨ bt.root.blockId = qc.getBlockId then .ok none
  else bt.fillPathToRoot (bt.tree.size + 1) qc.getBlockId 1

end BlockTree

end MonadBft
