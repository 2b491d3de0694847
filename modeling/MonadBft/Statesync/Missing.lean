import MonadBft.Instance
import MonadBft.Statesync.BlockBuffer

/-! # What state sync asks for

The buffer asks for the blocks that are missing below its root. The number it asks for does
not take into account that the chain may be shorter than the execution delay: below such a
root the request reaches past genesis, also when nothing is missing.
-/

namespace MonadBft

open AList List

/-- Hashes do not collide, and none of them is the id of genesis. -/
structure Crypto.CollisionFree (crypto : Crypto) : Prop where
  id : Function.Injective crypto.getId
  body : Function.Injective crypto.getBodyId
  genesis : ∀ header, crypto.getId header ≠ genesisBlockId

namespace BlockBuffer

section Buffer

variable {crypto : Crypto} {buffer : BlockBuffer}

/-! ## The contents of the buffer -/

/-- Blocks are stored under their ids and with their bodies, and the payload cache holds exactly the bodies of the
stored blocks. -/
structure Consistent (crypto : Crypto) (buffer : BlockBuffer) : Prop where
  keyed : ∀ id block, buffer.fullBlocks.lookup id = some block → crypto.getId block.header = id
  bodies : ∀ id block, buffer.fullBlocks.lookup id = some block → block.BodyMatches crypto
  payloads : ∀ bodyId body, buffer.payloadCache.lookup bodyId = some body ↔
    ∃ id block, buffer.fullBlocks.lookup id = some block ∧ block.getBodyId = bodyId ∧ block.body = body

theorem consistent_new (crypto : Crypto) (delay : SeqNum) (root : BlockId) (threshold : SeqNum) :
    (BlockBuffer.new delay root threshold).Consistent crypto where
  keyed := by simp [BlockBuffer.new]
  bodies := by simp [BlockBuffer.new]
  payloads := by simp [BlockBuffer.new]

variable {b b' : ConsensusFullBlock}

section

variable (free : crypto.CollisionFree) (body : b.BodyMatches crypto) (body' : b'.BodyMatches crypto)

include free body body'

/-- Blocks with one id are equal, and so are the bodies of blocks with one body id. -/
theorem block_unique (same : crypto.getId b.header = crypto.getId b'.header) : b = b':= by
  obtain ⟨header, bytes⟩ := b
  obtain ⟨header', bytes'⟩ := b'
  obtain rfl : header = header' := free.id same
  obtain rfl : bytes = bytes' := free.body (body.symm.trans body')
  rfl

theorem body_unique (same : b.getBodyId = b'.getBodyId) : b.body = b'.body:=
  free.body (body.symm.trans (same.trans body'))

end

theorem bodyMatches_of_proposed {seqNum : SeqNum} {id : BlockId} {block : ConsensusFullBlock}
    (mem : (id, block) ∈ buffer.proposedBlocks crypto seqNum) : crypto.getId block.header = id ∧
      block.BodyMatches crypto := by
  obtain ⟨⟨author, proposal⟩, -, made⟩ := mem_filterMap.mp mem
  simp only at made
  split at made
  case isFalse => cases made
  case isTrue =>
    obtain ⟨b, new, same⟩ := Option.map_eq_some_iff.mp made
    obtain ⟨rfl, rfl⟩ := Prod.mk.inj same
    simp only [ConsensusFullBlock.new, Option.ite_none_right_eq_some] at new
    obtain ⟨matches_, isBlock⟩ := new
    obtain rfl := Option.some.inj isBlock
    exact ⟨rfl, matches_.symm⟩

/-- The payload cache that `re_root` builds. -/
theorem lookup_payloads (free : crypto.CollisionFree) {blocks : AList fun _ : BlockId => ConsensusFullBlock}
    (bodies : ∀ id b, blocks.lookup id = some b → b.BodyMatches crypto) (bodyId bytes : Bytes) :
    (insertAll ∅ (blocks.entries.map fun e => (e.2.getBodyId, e.2.body))).lookup bodyId = some bytes ↔
      ∃ id b, blocks.lookup id = some b ∧ b.getBodyId = bodyId ∧ b.body = bytes := by
  have mem_iff : ∀ bodyId bytes, (bodyId, bytes) ∈ blocks.entries.map (fun e => (e.2.getBodyId, e.2.body)) ↔
      ∃ id b, blocks.lookup id = some b ∧ b.getBodyId = bodyId ∧ b.body = bytes := by
    intro bodyId bytes
    simp only [mem_map, Prod.mk.injEq, ← Option.mem_def, mem_lookup_iff]
    constructor
    · rintro ⟨⟨id, b⟩, mem, same⟩
      exact ⟨id, b, mem, same⟩
    · rintro ⟨id, b, mem, same⟩
      exact ⟨⟨id, b⟩, mem, same⟩
  rw [← mem_iff]
  refine (lookup_insertAll ∅ ?_ bodyId bytes).trans (or_iff_left (by simp))
  rintro bodyId bytes bytes' mem (mem' | absent)
  · obtain ⟨id, b, found, rfl, rfl⟩ := (mem_iff bodyId bytes).mp mem
    obtain ⟨id', b', found', same, rfl⟩ := (mem_iff _ bytes').mp mem'
    exact body_unique free (bodies id b found) (bodies id' b' found') same.symm
  · simp at absent

namespace Consistent

variable (free : crypto.CollisionFree) (consistent : buffer.Consistent crypto)

include free consistent

theorem handleBlocksync {block : ConsensusFullBlock} (body : block.BodyMatches crypto) :
    (buffer.handleBlocksync crypto block).Consistent crypto := by
  unfold BlockBuffer.handleBlocksync
  split
  · exact consistent
  · have stored : ∀ id b, (buffer.fullBlocks.insert (crypto.getId block.header) block).lookup id = some b ↔
        (id = crypto.getId block.header ∧ b = block) ∨ buffer.fullBlocks.lookup id = some b := by
      intro id b
      by_cases same : id = crypto.getId block.header
      · subst same
        rw [lookup_insert]
        constructor
        · rintro ⟨⟩
          exact .inl ⟨rfl, rfl⟩
        · rintro (⟨-, rfl⟩ | old)
          · rfl
          · rw [block_unique free (consistent.bodies _ _ old) body (consistent.keyed _ _ old)]
      · simp [lookup_insert_ne same, same]
    refine ⟨fun id b found => ?_, fun id b found => ?_, fun bodyId bytes => ?_⟩
    · obtain ⟨rfl, rfl⟩ | old := (stored id b).mp found
      · rfl
      · exact consistent.keyed id b old
    · obtain ⟨rfl, rfl⟩ | old := (stored id b).mp found
      · exact body
      · exact consistent.bodies id b old
    · simp only [stored]
      by_cases same : bodyId = block.getBodyId
      · subst same
        rw [lookup_insert]
        constructor
        · rintro ⟨⟩
          exact ⟨_, block, .inl ⟨rfl, rfl⟩, rfl, rfl⟩
        · rintro ⟨id, b, ⟨rfl, rfl⟩ | old, sameId, rfl⟩
          · rfl
          · rw [body_unique free (consistent.bodies _ _ old) body sameId]
      · rw [lookup_insert_ne same, consistent.payloads]
        constructor
        · rintro ⟨id, b, old, rest⟩
          exact ⟨id, b, .inr old, rest⟩
        · rintro ⟨id, b, ⟨rfl, rfl⟩ | old, sameId, isBody⟩
          · exact absurd sameId.symm same
          · exact ⟨id, b, old, sameId, isBody⟩

theorem reRoot (newRoot : ConsensusBlockHeader) : (buffer.reRoot crypto newRoot).Consistent crypto := by
  let kept := buffer.fullBlocks.retain fun block => newRoot.seqNum ≤ block.getSeqNum + buffer.stateRootDelay
  have keptOld : ∀ id b, kept.lookup id = some b → buffer.fullBlocks.lookup id = some b := by
    intro id b found
    rw [lookup_retain] at found
    exact (Option.filter_eq_some_iff.mp found).1
  have stored := lookup_insertAll (l := buffer.proposedBlocks crypto newRoot.seqNum) kept (by
    intro id b b' mem other
    obtain ⟨isId, body⟩ := bodyMatches_of_proposed mem
    obtain mem' | old := other
    · obtain ⟨isId', body'⟩ := bodyMatches_of_proposed mem'
      exact block_unique free body body' (isId.trans isId'.symm)
    · exact block_unique free body (consistent.bodies _ _ (keptOld _ _ old))
        (isId.trans (consistent.keyed _ _ (keptOld _ _ old)).symm))
  have keyed : ∀ id b, (kept.insertAll (buffer.proposedBlocks crypto newRoot.seqNum)).lookup id = some b →
      crypto.getId b.header = id ∧ b.BodyMatches crypto := by
    intro id b found
    obtain mem | old := (stored id b).mp found
    · exact bodyMatches_of_proposed mem
    · exact ⟨consistent.keyed _ _ (keptOld _ _ old), consistent.bodies _ _ (keptOld _ _ old)⟩
  refine ⟨fun id b found => (keyed id b found).1, fun id b found => (keyed id b found).2, fun bodyId bytes => ?_⟩
  exact lookup_payloads free (fun id b found => (keyed id b found).2) bodyId bytes

omit free in
theorem handleProposal (author : NodeId) (proposal : ProposalMessage) :
    (buffer.handleProposal crypto author proposal).1.Consistent crypto := by
  simp only [BlockBuffer.handleProposal]
  split
  · exact consistent
  · split
    · exact consistent
    · exact ⟨consistent.keyed, consistent.bodies, consistent.payloads⟩

theorem apply {op : Op} (valid : ∀ block, op = .handleBlocksync block → block.BodyMatches crypto) :
    (op.apply crypto buffer).Consistent crypto := by
  cases op with
  | handleProposal author proposal => exact consistent.handleProposal author proposal
  | handleBlocksync block => exact consistent.handleBlocksync free (valid block rfl)
  | reRoot newRoot => exact consistent.reRoot free newRoot

theorem run {ops : List Op} (valid : ∀ block, .handleBlocksync block ∈ ops → block.BodyMatches crypto) :
    (buffer.run crypto ops).Consistent crypto := by
  induction ops generalizing buffer with
  | nil => exact consistent
  | cons op rest ih =>
    refine ih (consistent.apply free ?_) fun block mem => valid block (mem_cons_of_mem _ mem)
    rintro block rfl
    exact valid block (by simp)

end Consistent

/-! ## The chain below the root -/

/-- A chain of blocks from the first one after genesis. -/
structure GenesisChain (crypto : Crypto) (chain : List ConsensusFullBlock) : Prop where
  linked : Linked crypto genesisBlockId chain
  numbered : Chained ConsensusFullBlock.getSeqNum (fun n block => block.getSeqNum = n + 1) genesisSeqNum chain
  bodies : ∀ b ∈ chain, b.BodyMatches crypto

def Held (crypto : Crypto) (buffer : BlockBuffer) (block : ConsensusFullBlock) : Prop :=
  (buffer.fullBlocks.lookup (crypto.getId block.header)).isSome = true

theorem chainEnd_seqNum {n : SeqNum} {chain : List ConsensusFullBlock}
    (numbered : Chained ConsensusFullBlock.getSeqNum (fun n block => block.getSeqNum = n + 1) n chain) :
    chainEnd ConsensusFullBlock.getSeqNum n chain = n + chain.length := by
  induction chain generalizing n with
  | nil => rfl
  | cons b rest ih =>
    rw [chainEnd, ih numbered.2, numbered.1, length_cons]
    lia

namespace GenesisChain

variable {chain below above : List ConsensusFullBlock} {b : ConsensusFullBlock} (isChain : GenesisChain crypto chain)

include isChain

/-- The number of a block is its place on the chain. -/
theorem seqNum_eq (shape : chain = below ++ b :: above) : b.getSeqNum = below.length + 1 := by
  have numbered := isChain.numbered
  rw [shape, chained_append] at numbered
  rw [numbered.2.1, chainEnd_seqNum numbered.1]
  simp [genesisSeqNum]

theorem nodup (free : crypto.CollisionFree) : (chain.map fun b => crypto.getId b.header).Nodup := by
  have numbers := isChain.numbered.nodup fun n b follows => by rw [follows]; exact Nat.lt_succ_self n
  refine (List.Nodup.of_map _ numbers).map_on fun x memX y memY same => ?_
  exact block_unique free (isChain.bodies x memX) (isChain.bodies y memY) same

end GenesisChain

section Walk

variable {chain below above : List ConsensusFullBlock}

theorem Consistent.lookup_of_held (consistent : buffer.Consistent crypto) (free : crypto.CollisionFree)
    {b : ConsensusFullBlock} (body : b.BodyMatches crypto) (held : buffer.Held crypto b) :
    buffer.fullBlocks.lookup (crypto.getId b.header) = some b := by
  obtain ⟨b', found⟩ := Option.isSome_iff_exists.mp held
  rw [found, block_unique free (consistent.bodies _ _ found) body (consistent.keyed _ _ found)]

/-- The walk down from the root finds the blocks above the first missing one. -/
theorem parentChain_eq (linked : Linked crypto genesisBlockId (below ++ above))
    (stored : ∀ b ∈ above, buffer.fullBlocks.lookup (crypto.getId b.header) = some b)
    (stop : buffer.fullBlocks.lookup (lastId crypto genesisBlockId below) = none) {fuel : Nat}
    (enough : above.length ≤ fuel) :
    buffer.parentChain fuel (lastId crypto genesisBlockId (below ++ above)) = above.reverse := by
  induction above using List.reverseRecOn generalizing fuel with
  | nil =>
    rw [append_nil]
    cases fuel with
    | zero => rfl
    | succ fuel => simp only [parentChain, stop, reverse_nil]
  | append_singleton init b ih =>
    cases fuel with
    | zero => simp at enough
    | succ fuel =>
      rw [← append_assoc] at linked
      obtain ⟨before, isParent, -⟩ := linked_append.mp linked
      have here : lastId crypto genesisBlockId (below ++ (init ++ [b])) = crypto.getId b.header := by
        rw [← append_assoc, lastId_append]
        rfl
      rw [here]
      simp only [parentChain, stored b (by simp)]
      rw [isParent, ih before (fun c mem => stored c (mem_append_left _ mem)) (by simpa using enough)]
      simp

/-- The chain, cut below the blocks that are stored on top of it. -/
structure Cut (crypto : Crypto) (buffer : BlockBuffer) (chain below above : List ConsensusFullBlock) : Prop where
  shape : chain = below ++ above
  held : ∀ b ∈ above, buffer.Held crypto b
  missing : ∀ init b, below = init ++ [b] → ¬ buffer.Held crypto b

theorem exists_cut (crypto : Crypto) (buffer : BlockBuffer) (chain : List ConsensusFullBlock) :
    ∃ below above, Cut crypto buffer chain below above := by
  induction chain using List.reverseRecOn with
  | nil => exact ⟨[], [], rfl, by simp, by simp⟩
  | append_singleton chain b ih =>
    by_cases held : buffer.Held crypto b
    · obtain ⟨below, above, rfl, all, missing⟩ := ih
      refine ⟨below, above ++ [b], by simp, fun c mem => ?_, missing⟩
      obtain old | last := mem_append.mp mem
      · exact all c old
      · exact mem_singleton.mp last ▸ held
    · refine ⟨chain ++ [b], [], by simp, by simp, fun init c same => ?_⟩
      obtain ⟨-, rfl⟩ := append_inj' same rfl |>.imp id singleton_inj.mp
      exact held

/-- The request in terms of the cut. -/
theorem needsBlocksync_eq (free : crypto.CollisionFree) (consistent : buffer.Consistent crypto)
    (isChain : GenesisChain crypto chain) (rooted : buffer.root = lastId crypto genesisBlockId chain)
    (cut : Cut crypto buffer chain below above) :
    buffer.needsBlocksync = if chain = [] ∨ above ≠ [] ∧ buffer.stateRootDelay ≤ above.length then none
      else some ⟨lastId crypto genesisBlockId below, buffer.stateRootDelay - above.length⟩ := by
  have stored : ∀ b ∈ above, buffer.fullBlocks.lookup (crypto.getId b.header) = some b := fun b mem =>
    consistent.lookup_of_held free (isChain.bodies b (cut.shape ▸ mem_append_right _ mem)) (cut.held b mem)
  have stop : buffer.fullBlocks.lookup (lastId crypto genesisBlockId below) = none := by
    rcases eq_nil_or_concat below with rfl | ⟨init, b, rfl⟩
    · cases found : buffer.fullBlocks.lookup genesisBlockId with
      | none => exact found
      | some b => exact absurd (consistent.keyed _ _ found) (free.genesis b.header)
    · have missing := cut.missing init b (by simp)
      rw [concat_eq_append, lastId_append]
      change buffer.fullBlocks.lookup (crypto.getId b.header) = none
      simpa [Held] using missing
  have enough : above.length ≤ buffer.fullBlocks.entries.length := by
    have ids : (above.map fun b => crypto.getId b.header).Nodup := by
      have all := isChain.nodup free
      rw [cut.shape, map_append] at all
      exact (nodup_append.mp all).2.1
    have subset : (above.map fun b => crypto.getId b.header) ⊆ buffer.fullBlocks.keys := by
      intro id mem
      obtain ⟨b, inAbove, rfl⟩ := mem_map.mp mem
      exact mem_keys.mpr (lookup_isSome.mp (by simp [stored b inAbove]))
    simpa [AList.keys, List.keys] using (ids.subperm subset).length_le
  have walk : buffer.rootParentChain = above.reverse := by
    rw [rootParentChain, rooted, cut.shape]
    exact parentChain_eq (cut.shape ▸ isChain.linked) stored stop enough
  have atGenesis : buffer.root = genesisBlockId ↔ chain = [] := by
    rw [rooted]
    rcases eq_nil_or_concat chain with rfl | ⟨init, b, rfl⟩
    · simp [chainEnd]
    · simpa [lastId_append, chainEnd] using free.genesis b.header
  simp only [needsBlocksync, walk, atGenesis]
  by_cases empty : chain = []
  · simp [empty]
  · cases above with
    | nil => simp [rooted, cut.shape, show below ≠ [] by rintro rfl; exact empty cut.shape]
    | cons b rest =>
      have parent : b.getParentId = lastId crypto genesisBlockId below := by
        have linked := isChain.linked
        rw [cut.shape] at linked
        exact (linked_append.mp linked).2.1
      by_cases short : rest.length + 1 < buffer.stateRootDelay
      · simp [empty, parent, short]
      · simp [empty, short, not_lt.mp short]

end Walk

/-! ## The request -/

section Request

variable {chain below above : List ConsensusFullBlock}

/-- What a request should be, for a root with this chain below it: there is none exactly if the root is genesis or its
last blocks are stored, as many as execution is behind; otherwise it ends at the first missing block, does not reach
past genesis, and its answer is enough. -/
structure AsksForMissing (crypto : Crypto) (chain : List ConsensusFullBlock) (buffer : BlockBuffer) : Prop where
  none_iff : buffer.needsBlocksync = none ↔
    chain = [] ∨ ∀ b ∈ chain.drop (chain.length - min buffer.stateRootDelay chain.length), buffer.Held crypto b
  range : ∀ range, buffer.needsBlocksync = some range →
    ∃ below b above, chain = below ++ b :: above ∧ (∀ c ∈ above, buffer.Held crypto c) ∧ ¬ buffer.Held crypto b ∧
      range.lastBlockId = crypto.getId b.header ∧ 0 < range.numBlocks ∧ range.numBlocks ≤ b.getSeqNum ∧
      (((below ++ [b]).drop (below.length + 1 - range.numBlocks)).foldl
        (handleBlocksync crypto) buffer).needsBlocksync = none

section

variable (cut : Cut crypto buffer chain below above)

include cut

/-- The blocks on top of the chain are stored exactly if the cut is below them. -/
theorem Cut.held_drop_iff {n : Nat} (le : n ≤ chain.length) :
    (∀ b ∈ chain.drop (chain.length - n), buffer.Held crypto b) ↔ n ≤ above.length := by
  obtain ⟨rfl, held, missing⟩ := cut
  rw [length_append] at le ⊢
  constructor
  · intro all
    by_contra short
    rcases eq_nil_or_concat below with rfl | ⟨init, b, rfl⟩
    · simp at le
      omega
    · refine missing init b (by simp) (all b ?_)
      simp only [concat_eq_append, length_append, length_singleton, append_assoc] at le ⊢
      rw [drop_append_of_le_length (by omega)]
      simp
  · intro enough b mem
    refine held b ?_
    rw [drop_append, List.drop_eq_nil_of_le (by omega)] at mem
    simpa using mem_of_mem_drop (by simpa using mem)

/-- The root has a chain that is not shorter than the delay, and a delay of zero does not leave the root missing. -/
def Deep (buffer : BlockBuffer) (chain : List ConsensusFullBlock) : Prop :=
  chain = [] ∨ buffer.stateRootDelay ≤ chain.length ∧
    (0 < buffer.stateRootDelay ∨ (buffer.fullBlocks.lookup buffer.root).isSome = true)

theorem Cut.length_unique {below' above' : List ConsensusFullBlock}
    (cut' : Cut crypto buffer chain below' above') : above.length = above'.length := by
  have le : above.length ≤ chain.length := by simp [cut.shape]
  have le' : above'.length ≤ chain.length := by simp [cut'.shape]
  refine le_antisymm ?_ ?_
  · exact (cut'.held_drop_iff le).mp ((cut.held_drop_iff le).mpr le_rfl)
  · exact (cut.held_drop_iff le').mp ((cut'.held_drop_iff le').mpr le_rfl)

theorem Cut.root_held_iff (nonempty : chain ≠ []) (rooted : buffer.root = lastId crypto genesisBlockId chain) :
    (buffer.fullBlocks.lookup buffer.root).isSome = true ↔ above ≠ [] := by
  obtain ⟨rfl, held, missing⟩ := cut
  rcases eq_nil_or_concat above with rfl | ⟨init, b, rfl⟩
  · obtain rfl | ⟨init, b, rfl⟩ := eq_nil_or_concat below
    · exact absurd rfl nonempty
    · refine iff_of_false ?_ (by simp)
      rw [rooted, append_nil, concat_eq_append, lastId_append]
      exact missing init b (by simp)
  · refine iff_of_true ?_ (by simp)
    rw [rooted, concat_eq_append, ← append_assoc, lastId_append]
    exact held b (by simp)

end

section Rooted

variable (free : crypto.CollisionFree) (consistent : buffer.Consistent crypto) (isChain : GenesisChain crypto chain)
  (rooted : buffer.root = lastId crypto genesisBlockId chain)

include free consistent isChain rooted

/-- Below a deep root, the request depends on the number of blocks that are stored. -/
theorem needsBlocksync_of_deep (deep : buffer.Deep chain) (nonempty : chain ≠ [])
    (cut : Cut crypto buffer chain below above) :
    buffer.needsBlocksync = if buffer.stateRootDelay ≤ above.length then none
      else some ⟨lastId crypto genesisBlockId below, buffer.stateRootDelay - above.length⟩ := by
  obtain ⟨-, delayed | held⟩ := deep.resolve_left nonempty
  · rw [needsBlocksync_eq free consistent isChain rooted cut]
    refine if_congr ?_ rfl rfl
    simp only [nonempty, false_or]
    refine and_iff_right_of_imp fun enough => ?_
    rintro rfl
    simp at enough
    lia
  · rw [needsBlocksync_eq free consistent isChain rooted cut]
    simp [nonempty, (cut.root_held_iff nonempty rooted).mp held]

theorem needsBlocksync_eq_none_iff (deep : buffer.Deep chain) (nonempty : chain ≠ []) :
    buffer.needsBlocksync = none ↔ ∀ b ∈ chain.drop (chain.length - buffer.stateRootDelay), buffer.Held crypto b := by
  obtain ⟨below, above, cut⟩ := exists_cut crypto buffer chain
  rw [needsBlocksync_of_deep free consistent isChain rooted deep nonempty cut,
    cut.held_drop_iff (deep.resolve_left nonempty).1]
  simp

/-- No block of the chain is turned away. -/
theorem handleBlocksync_of_mem {b : ConsensusFullBlock} (mem : b ∈ chain) :
    buffer.handleBlocksync crypto b = { buffer with
      payloadCache := buffer.payloadCache.insert b.getBodyId b.body
      fullBlocks := buffer.fullBlocks.insert (crypto.getId b.header) b } := by
  rw [handleBlocksync, if_neg]
  obtain ⟨init, last, rfl⟩ := (eq_nil_or_concat chain).resolve_left (ne_nil_of_mem mem)
  rw [concat_eq_append] at *
  have isLast : buffer.root = crypto.getId last.header := by
    rw [rooted, lastId_append]
    rfl
  rw [rootSeqNum, rootInfo, if_neg (isLast ▸ free.genesis last.header)]
  cases found : buffer.fullBlocks.lookup buffer.root with
  | none => simp
  | some r =>
    obtain rfl := block_unique free (consistent.bodies _ _ found) (isChain.bodies last (by simp))
      ((consistent.keyed _ _ found).trans isLast)
    obtain ⟨below, above, shape⟩ := append_of_mem mem
    have number := isChain.seqNum_eq shape
    have top := isChain.seqNum_eq rfl
    have length := congrArg List.length shape
    simp at length
    simp
    lia

/-- Blocks of the chain, once they have arrived. -/
theorem answered (answer : List ConsensusFullBlock) (sub : ∀ b ∈ answer, b ∈ chain) :
    (answer.foldl (handleBlocksync crypto) buffer).Consistent crypto ∧
      (answer.foldl (handleBlocksync crypto) buffer).root = buffer.root ∧
      (answer.foldl (handleBlocksync crypto) buffer).stateRootDelay = buffer.stateRootDelay ∧
      ∀ b, buffer.Held crypto b ∨ b ∈ answer → (answer.foldl (handleBlocksync crypto) buffer).Held crypto b := by
  induction answer generalizing buffer with
  | nil => exact ⟨consistent, rfl, rfl, by simp⟩
  | cons c rest ih =>
    have inChain := sub c (by simp)
    have stored := handleBlocksync_of_mem free consistent isChain rooted inChain
    have consistent' := consistent.handleBlocksync free (isChain.bodies c inChain)
    have root : (buffer.handleBlocksync crypto c).root = buffer.root := by rw [stored]
    have delay : (buffer.handleBlocksync crypto c).stateRootDelay = buffer.stateRootDelay := by rw [stored]
    obtain ⟨consistent'', root', delay', held⟩ := ih consistent' (root.trans rooted) fun b mem =>
      sub b (mem_cons_of_mem _ mem)
    refine ⟨consistent'', root'.trans root, delay'.trans delay, fun b known => held b ?_⟩
    obtain old | new := known
    · left
      rw [stored, Held]
      by_cases same : crypto.getId b.header = crypto.getId c.header
      · rw [same, lookup_insert]
        rfl
      · rw [lookup_insert_ne same]
        exact old
    · obtain rfl | later := mem_cons.mp new
      · left
        rw [stored, Held, lookup_insert]
        rfl
      · exact .inr later

theorem asksForMissing_of_deep (deep : buffer.Deep chain) : AsksForMissing crypto chain buffer := by
  obtain ⟨below, above, cut⟩ := exists_cut crypto buffer chain
  by_cases nonempty : chain = []
  · have silent : buffer.needsBlocksync = none := by
      rw [needsBlocksync_eq free consistent isChain rooted cut, if_pos (.inl nonempty)]
    exact ⟨iff_of_true silent (.inl nonempty), by simp [silent]⟩
  have enough := (deep.resolve_left nonempty).1
  constructor
  · rw [needsBlocksync_eq_none_iff free consistent isChain rooted deep nonempty, min_eq_left enough]
    simp [nonempty]
  · intro range request
    rw [needsBlocksync_of_deep free consistent isChain rooted deep nonempty cut, Option.ite_none_left_eq_some]
      at request
    obtain ⟨short, isRange⟩ := request
    obtain rfl := Option.some.inj isRange
    have length : chain.length = below.length + above.length := by simp [cut.shape]
    obtain ⟨init, b, rfl⟩ := (eq_nil_or_concat below).resolve_left (by
      rintro rfl
      simp at length
      lia)
    simp only [concat_eq_append, length_append, length_singleton] at length
    have shape : chain = init ++ b :: above := by simp [cut.shape]
    have last : lastId crypto genesisBlockId (init.concat b) = crypto.getId b.header := by
      rw [concat_eq_append, lastId_append]
      rfl
    refine ⟨init, b, above, shape, cut.held, cut.missing init b (by simp), last, by simp only; lia, ?_, ?_⟩
    · rw [isChain.seqNum_eq shape]
      simp only
      lia
    · obtain ⟨consistent', root', delay', held⟩ := answered free consistent isChain rooted
        ((init ++ [b]).drop (init.length + 1 - (buffer.stateRootDelay - above.length))) fun c mem => by
          rw [shape, append_cons]
          exact mem_append_left _ (mem_of_mem_drop mem)
      refine (needsBlocksync_eq_none_iff free consistent' isChain (root'.trans rooted) ?_ nonempty).mpr fun c mem =>
        held c ?_
      · refine .inr ⟨delay'.symm ▸ enough, .inl ?_⟩
        rw [delay']
        lia
      · rw [delay', shape, append_cons, drop_append_of_le_length (by simp; lia), mem_append] at mem
        refine mem.symm.imp (cut.held c) fun fetched => ?_
        convert fetched using 2
        simp
        lia

theorem deep_of_asksForMissing (asks : AsksForMissing crypto chain buffer) : buffer.Deep chain := by
  by_contra notDeep
  obtain ⟨nonempty, shallow⟩ := not_or.mp notDeep
  obtain ⟨below, above, cut⟩ := exists_cut crypto buffer chain
  have request : buffer.needsBlocksync =
      some ⟨lastId crypto genesisBlockId below, buffer.stateRootDelay - above.length⟩ := by
    rw [needsBlocksync_eq free consistent isChain rooted cut, if_neg]
    rintro (empty | ⟨some, enough⟩)
    · exact nonempty empty
    · refine shallow ⟨enough.trans (by simp [cut.shape]), .inr ((cut.root_held_iff nonempty rooted).mpr some)⟩
  obtain ⟨below', b, above', shape, held, missing, -, positive, within, -⟩ := asks.range _ request
  have cut' : Cut crypto buffer chain (below' ++ [b]) above' := by
    refine ⟨by simp [shape], held, fun init c same => ?_⟩
    obtain rfl := singleton_inj.mp (append_inj' same rfl).2
    exact missing
  have sameLength := cut.length_unique cut'
  have length := congrArg List.length shape
  rw [isChain.seqNum_eq shape] at within
  simp at length within positive
  -- the request reaches as far as the delay, the chain does not
  exact shallow ⟨by lia, .inl (by lia)⟩

end Rooted

end Request

/-- Whatever has happened to the buffer, for a root on a chain from genesis: it asks for the missing blocks exactly if
the chain is not shorter than the delay. The payload cache holds the bodies of the stored blocks in any case. -/
theorem asksForMissing_iff_deep (free : crypto.CollisionFree) {delay threshold : SeqNum} {root : BlockId}
    {ops : List Op}
    (valid : ∀ block, .handleBlocksync block ∈ ops → block.BodyMatches crypto) {chain : List ConsensusFullBlock}
    (isChain : GenesisChain crypto chain)
    (rooted : ((BlockBuffer.new delay root threshold).run crypto ops).root = lastId crypto genesisBlockId chain) :
    (AsksForMissing crypto chain ((BlockBuffer.new delay root threshold).run crypto ops) ↔
      ((BlockBuffer.new delay root threshold).run crypto ops).Deep chain) ∧
    ∀ bodyId body, ((BlockBuffer.new delay root threshold).run crypto ops).payloadCache.lookup bodyId = some body ↔
      ∃ id block, ((BlockBuffer.new delay root threshold).run crypto ops).fullBlocks.lookup id = some block ∧
        block.getBodyId = bodyId ∧ block.body = body := by
  have consistent := (consistent_new crypto delay root threshold).run free valid
  refine ⟨⟨?_, ?_⟩, consistent.payloads⟩
  · exact deep_of_asksForMissing free consistent isChain rooted
  · exact asksForMissing_of_deep free consistent isChain rooted

end Buffer

section Examples

open FourValidators

theorem collisionFree : crypto.CollisionFree where
  id := encodeHeader_injective
  body := Function.injective_id
  genesis := encodeHeader_ne_genesisBlockId

def first : ConsensusFullBlock := block 1 crypto.genesisQc 1 0
def second : ConsensusFullBlock := block 2 (qcFor 1 first) 2 0

theorem genesisChain_second : GenesisChain crypto [first, second] where
  linked := ⟨rfl, rfl, trivial⟩
  numbered := ⟨rfl, rfl, trivial⟩
  bodies := by simp [first, second, block, ConsensusFullBlock.BodyMatches, crypto]

/-- Execution is two blocks behind, and the first block is missing. -/
theorem asksForMissing_iff_deep_second :
    AsksForMissing crypto [first, second] ((BlockBuffer.new 2 (encodeHeader second.header) 10).run crypto
      [.handleBlocksync second]) :=
  (asksForMissing_iff_deep collisionFree (by simp [second, block, ConsensusFullBlock.BodyMatches,
    crypto]) genesisChain_second (by decide)).1.mpr (.inr ⟨by decide, .inl (by decide)⟩)

/-- Execution is three blocks behind. All blocks are stored, and the buffer asks for genesis. -/
theorem needsBlocksync_genesis : GenesisChain crypto [first, second] ∧
    (let buffer := (BlockBuffer.new 3 (encodeHeader second.header) 10).run crypto
      [.handleBlocksync second, .handleBlocksync first]
    buffer.root = lastId crypto genesisBlockId [first, second] ∧ (∀ b ∈ [first, second], buffer.Held crypto b) ∧
      buffer.needsBlocksync = some ⟨genesisBlockId, 1⟩) ∧
    (BlockBuffer.new 3 (encodeHeader second.header) 10).needsBlocksync = some ⟨encodeHeader second.header, 3⟩ := by
  refine ⟨genesisChain_second, ⟨by decide, ?_, by decide⟩, by decide⟩
  simp only [Held]
  decide

end Examples

end BlockBuffer

end MonadBft
