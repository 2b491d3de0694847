import MonadBft.BlockTree
import MonadBft.Lib.AListRetain

/-! # The block buffer of state sync

`BlockBuffer` of `monad-state/src/statesync.rs`: the blocks up to the root that state sync
aims at, the headers and proposals seen above it, and the request for the blocks below the
root that are still missing. As in the block tree, a walk along parents takes the number of
blocks as its fuel.
-/

namespace MonadBft

def ConsensusFullBlock.new (crypto : Crypto) (header : ConsensusBlockHeader) (body : Bytes) :
    Option ConsensusFullBlock :=
  if crypto.getBodyId body = header.blockBodyId then some { header, body } else none

structure BlockBuffer where
  maxBufferedProposals : Nat
  /-- A finalized block this far above the root becomes the new target. -/
  resyncThreshold : SeqNum
  stateRootDelay : SeqNum
  root : BlockId
  /-- Blocks up to the root. -/
  fullBlocks : AList fun _ : BlockId => ConsensusFullBlock
  payloadCache : AList fun _ : Bytes => Bytes
  /-- Headers from the root on. -/
  blockHeaders : AList fun _ : BlockId => ConsensusBlockHeader
  proposalBuffer : List (NodeId × ProposalMessage)

namespace BlockBuffer

def new (stateRootDelay : SeqNum) (root : BlockId) (resyncThreshold : SeqNum) : BlockBuffer where
  maxBufferedProposals := resyncThreshold
  resyncThreshold
  stateRootDelay
  root
  fullBlocks := ∅
  payloadCache := ∅
  blockHeaders := ∅
  proposalBuffer := []

variable (crypto : Crypto) (buffer : BlockBuffer)

def rootInfo : Option RootInfo :=
  if buffer.root = genesisBlockId then
    some { round := genesisRound, seqNum := genesisSeqNum, epoch := 1, blockId := genesisBlockId, timestampNs := 0 }
  else (buffer.fullBlocks.lookup buffer.root).map fun root => {
    round := root.getBlockRound
    seqNum := root.getSeqNum
    epoch := root.header.epoch
    blockId := crypto.getId root.header
    timestampNs := root.getTimestamp }

def rootSeqNum : Option SeqNum := (buffer.rootInfo crypto).map (·.seqNum)

def rootDelayedExecutionResult : Option (List Bytes) :=
  (buffer.fullBlocks.lookup buffer.root).map (·.header.delayedExecutionResults)

/-- Keep a proposal; the new target if the proposal's QC finalizes a block far above the root. -/
def handleProposal (author : NodeId) (proposal : ProposalMessage) :
    BlockBuffer × Option (ConsensusBlockHeader × QuorumCertificate) :=
  match buffer.rootSeqNum crypto with
  | none => (buffer, none)
  | some rootSeqNum =>
    let header := proposal.tip.blockHeader
    if header.seqNum < rootSeqNum then (buffer, none)
    else
      let blockHeaders := buffer.blockHeaders.insert (crypto.getId header) header
      let proposals := buffer.proposalBuffer ++ [(author, proposal)]
      let proposalBuffer := if buffer.maxBufferedProposals < proposals.length then proposals.tail else proposals
      let finalized := (blockHeaders.lookup header.qc.getBlockId).bind fun qcParentBlock =>
        (BlockTree.getCommittableId header.qc qcParentBlock).bind blockHeaders.lookup
      let target := finalized.bind fun finalizedBlock =>
        if finalizedBlock.seqNum ≤ rootSeqNum + buffer.resyncThreshold then none else some (finalizedBlock, header.qc)
      ({ buffer with blockHeaders, proposalBuffer }, target)

def handleBlocksync (block : ConsensusFullBlock) : BlockBuffer :=
  if (buffer.rootSeqNum crypto).any fun rootSeqNum => rootSeqNum < block.getSeqNum then buffer
  else { buffer with
    payloadCache := buffer.payloadCache.insert block.getBodyId block.body
    fullBlocks := buffer.fullBlocks.insert (crypto.getId block.header) block }

/-- The buffered proposals up to a sequence number, as blocks with their ids. -/
def proposedBlocks (seqNum : SeqNum) : List (BlockId × ConsensusFullBlock) :=
  buffer.proposalBuffer.filterMap fun (_, proposal) =>
    let header := proposal.tip.blockHeader
    if header.seqNum ≤ seqNum then
      (ConsensusFullBlock.new crypto header proposal.blockBody).map fun block => (crypto.getId header, block)
    else none

def reRoot (newRoot : ConsensusBlockHeader) : BlockBuffer :=
  let kept := buffer.fullBlocks.retain fun block => newRoot.seqNum ≤ block.getSeqNum + buffer.stateRootDelay
  let fullBlocks := kept.insertAll (buffer.proposedBlocks crypto newRoot.seqNum)
  { buffer with
    fullBlocks
    blockHeaders := buffer.blockHeaders.retain fun header => newRoot.seqNum ≤ header.seqNum
    root := crypto.getId newRoot
    payloadCache := AList.insertAll ∅ (fullBlocks.entries.map fun e => (e.2.getBodyId, e.2.body)) }

def parentChain : Nat → BlockId → List ConsensusFullBlock
  | 0, _ => []
  | fuel + 1, next =>
    match buffer.fullBlocks.lookup next with
    | none => []
    | some block => block :: parentChain fuel block.getParentId

def rootParentChain : List ConsensusFullBlock := buffer.parentChain buffer.fullBlocks.entries.length buffer.root

def needsBlocksync : Option BlockRange :=
  if buffer.root = genesisBlockId then none
  else
    let chain := buffer.rootParentChain
    match chain.getLast? with
    | none => some { lastBlockId := buffer.root, numBlocks := buffer.stateRootDelay }
    | some last =>
      if chain.length < buffer.stateRootDelay then
        some { lastBlockId := last.getParentId, numBlocks := buffer.stateRootDelay - chain.length }
      else none

/-! ## Operations -/

inductive Op where
  | handleProposal (author : NodeId) (proposal : ProposalMessage)
  | handleBlocksync (block : ConsensusFullBlock)
  | reRoot (newRoot : ConsensusBlockHeader)

def Op.apply : Op → BlockBuffer
  | .handleProposal author proposal => (buffer.handleProposal crypto author proposal).1
  | .handleBlocksync block => buffer.handleBlocksync crypto block
  | .reRoot newRoot => buffer.reRoot crypto newRoot

def run (ops : List Op) : BlockBuffer := ops.foldl (Op.apply crypto) buffer

end BlockBuffer

end MonadBft
