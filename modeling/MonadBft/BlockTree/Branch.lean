import MonadBft.BlockTree
import MonadBft.Lib.Chained

/-! # What the block tree operations do

For each operation of the block tree, the entries it leaves: `add` adds one block that is
not coherent, `tryUpdateCoherency` only marks blocks coherent, `prune` only removes blocks
and returns a branch from the old root to the new one.
-/

namespace MonadBft

open Except

/-! ## The store -/

namespace Tree

variable {t t' : Tree} {id : BlockId}

/-- The store without one block. -/
theorem remove_eq_ok {removed : Option BlockTreeEntry} (h : t.remove id = .ok (removed, t')) :
    removed = t.get id ∧ ∀ k, t'.get k = if k = id then none else t.get k := by
  unfold remove at h
  split at h
  case h_1 absent =>
    obtain ⟨rfl, rfl⟩ : none = removed ∧ t = t' := by simpa using h
    refine ⟨absent.symm, fun k => ?_⟩
    split
    case isTrue same => rw [same, absent]
    case isFalse => rfl
  case h_2 entry present =>
    split at h
    · cases h
    case h_2 t₁ payload =>
      obtain ⟨rfl, rfl⟩ : some entry = removed ∧ t₁ = t' := by simpa using h
      refine ⟨present.symm, fun k => ?_⟩
      have tree : t₁.tree = t.tree.erase id := by
        unfold removePayload at payload
        split at payload
        · cases payload
        · split at payload
          · obtain rfl := ok.inj payload
            rfl
          · cases payload
      rw [get, tree]
      by_cases same : k = id
      · subst same
        simp
      · simp [get, same, AList.lookup_erase_ne same]

theorem removeAll_eq_ok {ids : List BlockId} (h : t.removeAll ids = .ok t') (k : BlockId) :
    t'.get k = if k ∈ ids then none else t.get k := by
  induction ids generalizing t with
  | nil =>
    obtain rfl := ok.inj h
    simp
  | cons id rest ih =>
    unfold removeAll at h
    split at h
    · cases h
    case h_2 t₁ first =>
      rw [ih h, (remove_eq_ok first).2]
      by_cases same : k = id <;> by_cases later : k ∈ rest <;> simp [same, later]

/-- The new block has the stored blocks that extend it as its children, and becomes the last child of its parent. -/
theorem insert_eq_ok {block : ConsensusFullBlock} (h : t.insert id block = .ok t') (k : BlockId) :
    t'.get k = if k = id then some ⟨block, false, t.childrenOf id ++ if block.getParentId = id then [id] else []⟩
      else (t.get k).map fun e =>
        if k = block.getParentId then { e with childrenBlocks := e.childrenBlocks ++ [id] } else e := by
  simp only [insert] at h
  split at h
  · cases h
  split at h
  · cases h
  obtain rfl := ok.inj h
  set stored := t.tree.insert id ⟨block, false, t.childrenOf id⟩ with isStored
  have here : stored.lookup id = some ⟨block, false, t.childrenOf id⟩ := by simp [isStored]
  have others : ∀ k, k ≠ id → stored.lookup k = t.get k := fun k differs => by
    simp [isStored, AList.lookup_insert_ne differs, Tree.get]
  simp only [Tree.get]
  split
  case h_1 noParent =>
    have differs : block.getParentId ≠ id := by
      rintro same
      rw [same, here] at noParent
      cases noParent
    by_cases same : k = id
    · subst same
      simp [here, differs]
    · rw [others k same, if_neg same, Tree.get]
      cases found : t.tree.lookup k with
      | none => rfl
      | some e =>
        have notParent : k ≠ block.getParentId := by
          rintro rfl
          rw [others _ same, Tree.get, found] at noParent
          cases noParent
        simp [notParent]
  case h_2 parent isParent =>
    by_cases same : k = block.getParentId
    · subst same
      rw [AList.lookup_insert]
      by_cases self : block.getParentId = id
      · rw [self, here] at isParent
        obtain rfl := Option.some.inj isParent
        simp [self]
      · rw [others _ self, Tree.get] at isParent
        simp [self, isParent]
    · rw [AList.lookup_insert_ne same]
      by_cases self : k = id
      · subst self
        simp [here, Ne.symm same]
      · simp [others k self, self, same, Tree.get]

end Tree

/-! ## Linked blocks -/

/-- The blocks follow each other by parent id, the first after `parentId`. -/
abbrev Linked (crypto : Crypto) (parentId : BlockId) (blocks : List ConsensusFullBlock) : Prop :=
  Chained (fun block => crypto.getId block.header) (fun id block => block.getParentId = id) parentId blocks

/-- The id the next block of a linked list has to follow. -/
abbrev lastId (crypto : Crypto) (parentId : BlockId) (blocks : List ConsensusFullBlock) : BlockId :=
  chainEnd (fun block => crypto.getId block.header) parentId blocks

variable {l₁ l₂ : List ConsensusFullBlock} {parentId : BlockId}

theorem linked_append {crypto : Crypto} :
    Linked crypto parentId (l₁ ++ l₂) ↔ Linked crypto parentId l₁ ∧ Linked crypto (lastId crypto parentId l₁) l₂ :=
  chained_append

theorem lastId_append {crypto : Crypto} :
    lastId crypto parentId (l₁ ++ l₂) = lastId crypto (lastId crypto parentId l₁) l₂ := chainEnd_append

namespace BlockTree

variable {crypto : Crypto} {bt bt' : BlockTree}

def Keyed (crypto : Crypto) (t : Tree) : Prop :=
  ∀ id e, t.get id = some e → crypto.getId e.validatedBlock.header = id

variable {block : ConsensusFullBlock} {fuel : Nat} {queue : List BlockId} {high : Option QuorumCertificate}
  {qc : QuorumCertificate} {range : BlockRange}

/-! ## Marking blocks coherent -/

/-- The block's sequence number is one more than the root's, or than that of a block with its parent's id. -/
def SeqFollows (crypto : Crypto) (root : RootInfo) (block : ConsensusFullBlock) : Prop :=
  (block.getParentId = root.blockId ∧ block.getSeqNum = root.seqNum + 1) ∨
    ∃ parent : ConsensusBlockHeader, crypto.getId parent = block.getParentId ∧ block.getSeqNum = parent.seqNum + 1

/-- `bt'` is `bt` with the blocks of the list marked coherent. -/
structure Marked (crypto : Crypto) (bt bt' : BlockTree) (blocks : List ConsensusFullBlock) : Prop where
  root : bt'.root = bt.root
  entry : ∀ k e, bt'.tree.get k = some e → ∃ e₀, bt.tree.get k = some e₀ ∧
    e.validatedBlock = e₀.validatedBlock ∧ (e.isCoherent = true → e₀.isCoherent = true ∨ e.validatedBlock ∈ blocks)
  seq : ∀ b ∈ blocks, SeqFollows crypto bt.root b

/-! ## Committing a branch -/

def IsCoherentBlock (t : Tree) (block : ConsensusFullBlock) : Prop :=
  ∃ k e, t.get k = some e ∧ e.validatedBlock = block ∧ e.isCoherent = true

def rootOf (crypto : Crypto) (block : ConsensusFullBlock) : RootInfo where
  round := block.getBlockRound
  seqNum := block.getSeqNum
  epoch := block.header.epoch
  blockId := crypto.getId block.header
  timestampNs := block.getTimestamp

/-- `bt'` is `bt` after committing the blocks of the list, the branch from the root to `newRoot`. -/
structure Pruned (crypto : Crypto) (bt bt' : BlockTree) (newRoot : BlockId) (commit : List ConsensusFullBlock) :
    Prop where
  linked : Linked crypto bt.root.blockId commit
  last : lastId crypto bt.root.blockId commit = newRoot
  coherent : ∀ b ∈ commit, IsCoherentBlock bt.tree b
  root : bt'.root = (commit.getLast?.map (rootOf crypto)).getD bt.root
  kept : ∀ k e, bt'.tree.get k = some e → bt.tree.get k = some e
  /-- Blocks whose QC is older than the new root are dropped. -/
  recent : commit ≠ [] → ∀ k e, bt'.tree.get k = some e → bt'.root.round ≤ e.validatedBlock.getParentRound

/-! ## Queries -/

theorem committableQc_eq_some (h : bt.committableQc block high = some qc) : high = some qc ∨ qc = block.getQc := by
  unfold committableQc at h
  grind

theorem highCommittableQc_eq_ok (h : bt.highCommittableQc fuel queue high = .ok (some qc)) :
    high = some qc ∨ ∃ id block, bt.getBlock id = some block ∧ qc = block.getQc := by
  induction fuel generalizing queue high with
  | zero => cases h
  | succ fuel ih =>
    cases queue with
    | nil =>
      obtain rfl : high = some qc := by simpa [highCommittableQc] using h
      exact .inl rfl
    | cons id queue =>
      simp only [highCommittableQc] at h
      split at h
      · cases h
      case h_2 entry found =>
        obtain new | old := ih h
        · refine (committableQc_eq_some new).imp_right fun same => ?_
          exact ⟨id, entry.validatedBlock, by simp [getBlock, found], same⟩
        · exact .inr old

theorem fillPathToRoot_eq_ok {maybeUnknown : BlockId} {numBlocks : SeqNum}
    (h : bt.fillPathToRoot fuel maybeUnknown numBlocks = .ok (some range)) :
    range.lastBlockId = maybeUnknown ∨ ∃ id block, bt.getBlock id = some block ∧
      range.lastBlockId = block.getParentId := by
  induction fuel generalizing maybeUnknown numBlocks with
  | zero => cases h
  | succ fuel ih =>
    simp only [fillPathToRoot] at h
    split at h
    · obtain rfl : { lastBlockId := maybeUnknown, numBlocks } = range := by simpa using h
      exact .inl rfl
    case h_2 known found =>
      split at h
      · simp at h
      split at h
      · cases h
      · obtain same | deeper := ih h
        · exact .inr ⟨_, known, found, same⟩
        · exact .inr deeper

/-! ## Panics -/

section Panics

variable {e : Panic}

/-- A failed `expect` or `assert!` of the block tree, or a walk that does not end. -/
def IsTreePanic (e : Panic) : Prop := e = .blockTree ∨ e = .diverges

variable {t : Tree} {execution : ExecutionCheck}

theorem remove_error {id : BlockId} (h : t.remove id = .error e) : IsTreePanic e := by
  simp only [Tree.remove, Tree.removePayload, IsTreePanic] at *
  grind

theorem removeAll_error {ids : List BlockId} (h : t.removeAll ids = .error e) : IsTreePanic e := by
  induction ids generalizing t with
  | nil => cases h
  | cons id rest ih =>
    unfold Tree.removeAll at h
    split at h
    case h_1 failed =>
      obtain rfl := error.inj h
      exact remove_error failed
    case h_2 => exact ih h

theorem removeBranch_error {rootId : BlockId} {fuel : Nat} {entry : BlockTreeEntry} {commit : List ConsensusFullBlock}
    (h : removeBranch rootId fuel t entry commit = .error e) : IsTreePanic e := by
  induction fuel generalizing t entry commit with
  | zero => exact .inr (error.inj h).symm
  | succ fuel ih =>
    simp only [removeBranch] at h
    split at h
    · exact .inl (error.inj h).symm
    split at h
    · cases h
    split at h
    case h_1 failed =>
      obtain rfl := error.inj h
      exact remove_error failed
    case h_2 => exact .inl (error.inj h).symm
    case h_3 => exact ih h

theorem prune_error {newRoot : BlockId} (h : bt.prune crypto newRoot = .error e) : IsTreePanic e := by
  simp only [prune] at h
  split at h
  · exact .inl (error.inj h).symm
  split at h
  · cases h
  split at h
  case h_1 failed =>
    obtain rfl := error.inj h
    exact remove_error failed
  case h_2 => exact .inl (error.inj h).symm
  case h_3 =>
    split at h
    case h_1 failed =>
      obtain rfl := error.inj h
      exact removeBranch_error failed
    case h_2 =>
      split at h
      case h_1 failed =>
        obtain rfl := error.inj h
        exact removeAll_error failed
      case h_2 => cases h

theorem add_error {block : ConsensusFullBlock} (h : bt.add crypto block = .error e) : IsTreePanic e := by
  simp only [add, Tree.insert, IsTreePanic] at *
  grind

theorem updateCoherency_error {fuel : Nat} {queue : List BlockId} {coherent : List ConsensusFullBlock}
    (h : updateCoherency execution fuel bt queue coherent = .error e) :
    IsTreePanic e := by
  induction fuel generalizing bt queue coherent with
  | zero => exact .inr (error.inj h).symm
  | succ fuel ih =>
    cases queue with
    | nil => cases h
    | cons next queue =>
      simp only [updateCoherency] at h
      split at h
      · exact .inl (error.inj h).symm
      split at h
      · exact .inl (error.inj h).symm
      split at h
      · split at h
        · exact .inl (error.inj h).symm
        · exact ih h
      · exact ih h

theorem tryUpdateCoherency_error {id : BlockId} (h : bt.tryUpdateCoherency crypto execution id = .error e) :
    IsTreePanic e := by
  unfold tryUpdateCoherency at h
  split at h
  · cases h
  split at h
  · cases h
  · exact updateCoherency_error h

theorem getHighCommittableQc_error (h : bt.getHighCommittableQc = .error e) : IsTreePanic e := by
  have loop : ∀ {fuel queue high}, bt.highCommittableQc fuel queue high = .error e → IsTreePanic e := by
    intro fuel
    induction fuel with
    | zero => exact fun h => .inr (error.inj h).symm
    | succ fuel ih =>
      intro queue high h
      cases queue with
      | nil => cases h
      | cons id queue =>
        simp only [highCommittableQc] at h
        split at h
        · exact .inl (error.inj h).symm
        · exact ih h
  exact loop h

theorem maybeFillPathToRoot_error {qc : QuorumCertificate} (h : bt.maybeFillPathToRoot qc = .error e) :
    IsTreePanic e := by
  have loop : ∀ {fuel id numBlocks}, bt.fillPathToRoot fuel id numBlocks = .error e → IsTreePanic e := by
    intro fuel
    induction fuel with
    | zero => exact fun h => .inr (error.inj h).symm
    | succ fuel ih =>
      intro id numBlocks h
      simp only [fillPathToRoot] at h
      split at h
      · cases h
      split at h
      · cases h
      split at h
      · exact .inl (error.inj h).symm
      · exact ih h
  unfold maybeFillPathToRoot at h
  split at h
  · cases h
  · exact loop h

end Panics

end BlockTree

end MonadBft
