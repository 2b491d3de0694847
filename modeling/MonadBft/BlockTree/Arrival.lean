import MonadBft.BlockTree.Invariant

/-! # The order in which blocks arrive

Blocks may arrive before their parents. Whatever the order, once all of them are there the
coherent blocks are those of the branches on which every block passes the check, and each was
reported once, after its parent.
-/

namespace MonadBft

open List

namespace BlockTree

/-- Add the blocks one after the other, updating the coherency after each; the blocks that became coherent. -/
def arrive (crypto : Crypto) (execution : ExecutionCheck) :
    BlockTree → List ConsensusFullBlock → Except Panic (BlockTree × List ConsensusFullBlock)
  | bt, [] => .ok (bt, [])
  | bt, block :: rest =>
    match bt.add crypto block with
    | .error e => .error e
    | .ok bt =>
      match bt.tryUpdateCoherency crypto execution (crypto.getId block.header) with
      | .error e => .error e
      | .ok (bt, coherent) =>
        match arrive crypto execution bt rest with
        | .error e => .error e
        | .ok (bt, later) => .ok (bt, coherent ++ later)

/-- The blocks from the root up to the one with this id. Each of them is one of `blocks` and passes the check over
those below it. -/
inductive Passing (crypto : Crypto) (execution : ExecutionCheck) (root : RootInfo) (blocks : List ConsensusFullBlock) :
    List ConsensusFullBlock → BlockId → Prop where
  | root : Passing crypto execution root blocks [] root.blockId
  | snoc {branch : List ConsensusFullBlock} {block : ConsensusFullBlock}
      (below : Passing crypto execution root blocks branch block.getParentId) (mem : block ∈ blocks)
      (passes : checkCoherency execution block branch root = true) :
      Passing crypto execution root blocks (branch ++ [block]) (crypto.getId block.header)

section Arrival

variable {crypto : Crypto} {execution : ExecutionCheck} {bt bt' : BlockTree} {root : RootInfo}
  {blocks : List ConsensusFullBlock} {ids : List BlockId}

/-! ## The check after a step -/

variable {block : ConsensusFullBlock} {k id : BlockId} {path : List BlockId} {arriving : List ConsensusFullBlock}

section

variable (adds : Adds crypto bt bt' block)

include adds

theorem Adds.stored_ne (stored : (bt.getBlock k).isSome = true) : k ≠ crypto.getId block.header := by
  rintro rfl
  simp [BlockTree.getBlock, adds.fresh] at stored

/-- The check of a block that had a path before. -/
theorem Adds.passes (reaches : bt.Path k path) : bt'.passes execution k = bt.passes execution k := by
  have sameBlocks : path.filterMap bt'.getBlock = path.filterMap bt.getBlock := by
    refine filterMap_congr fun y mem => ?_
    obtain ⟨-, p, child⟩ := reaches.node_of_mem mem
    obtain ⟨b, found, -⟩ := parentOf_eq_some.mp child
    rw [adds.getBlock, if_neg (adds.stored_ne (by simp [found]))]
  have before : bt.getBlocksOnPathFromRoot k = some (path.filterMap bt.getBlock) :=
    getBlocksOnPathFromRoot_eq_some_iff.mpr ⟨path, reaches, rfl⟩
  have after : bt'.getBlocksOnPathFromRoot k = some (path.filterMap bt.getBlock) :=
    getBlocksOnPathFromRoot_eq_some_iff.mpr ⟨path, adds.path reaches, sameBlocks.symm⟩
  simp only [BlockTree.passes, before, after, adds.root]

/-- A path that avoids the new block was there before. -/
theorem Adds.path_of_avoids (reaches : bt'.Path k path)
    (avoids : crypto.getId block.header ∉ path) : bt.Path k path := by
  rw [Path, adds.root] at reaches
  refine reaches.congr fun y mem => ?_
  rw [adds.parentOf, if_neg]
  rintro rfl
  exact avoids mem

end

/-! ## Trees that hold a set of blocks -/

/-- The tree stores exactly the blocks of the list, above its root. -/
structure Holds (crypto : Crypto) (root : RootInfo) (blocks : List ConsensusFullBlock) (bt : BlockTree) : Prop where
  rooted : bt.root = root
  represented : bt.Represented crypto
  stored : ∀ k b, bt.getBlock k = some b ↔ b ∈ blocks ∧ crypto.getId b.header = k
  notRoot : ∀ b ∈ blocks, crypto.getId b.header ≠ root.blockId

theorem holds_new (crypto : Crypto) (root : RootInfo) : Holds crypto root [] (.new root) where
  rooted := rfl
  represented := represented_new crypto root
  stored := by simp [getBlock, BlockTree.new, Tree.get, Tree.empty]
  notRoot := by simp

namespace Holds

variable (holds : Holds crypto root blocks bt)

include holds

theorem child_ne_root {k p : BlockId} (child : bt.tree.parentOf k = some p) : k ≠ bt.root.blockId := by
  obtain ⟨b, found, -⟩ := parentOf_eq_some.mp child
  obtain ⟨mem, rfl⟩ := (holds.stored k b).mp found
  exact holds.rooted ▸ holds.notRoot b mem

theorem searchable : bt.Searchable := holds.represented.searchable fun _ _ _ _ => holds.child_ne_root

theorem setsCoherent (sets : SetsCoherent bt bt' ids) : Holds crypto root blocks bt' where
  rooted := sets.root.trans holds.rooted
  represented := holds.represented.setsCoherent sets
  stored := by
    rw [sets.getBlock]
    exact holds.stored
  notRoot := holds.notRoot

theorem exists_add {block : ConsensusFullBlock} (above : root.round < block.getBlockRound)
    (notRoot : crypto.getId block.header ≠ root.blockId)
    (fresh : ∀ b ∈ blocks, crypto.getId b.header ≠ crypto.getId block.header) :
    ∃ bt', bt.add crypto block = .ok bt' ∧ Adds crypto bt bt' block ∧ Holds crypto root (blocks ++ [block]) bt' := by
  obtain ⟨bt', added, payloads⟩ := BlockTree.exists_add holds.represented.payloads crypto block
  obtain ⟨invalid, -⟩ | adds := add_cases added
  · have absent : bt.tree.get (crypto.getId block.header) = none := by
      cases found : bt.tree.get (crypto.getId block.header) with
      | none => rfl
      | some e =>
        obtain ⟨mem, same⟩ := (holds.stored (crypto.getId block.header) e.validatedBlock).mp (by simp [getBlock, found])
        exact absurd same (fresh _ mem)
    rw [← holds.rooted, ConsensusFullBlock.getBlockRound] at above
    simp [isValidToInsert, absent, above] at invalid
  · refine ⟨bt', added, adds, adds.root.trans holds.rooted, holds.represented.add adds payloads, fun k b => ?_,
      fun b mem => ?_⟩
    · rw [adds.getBlock, mem_append, mem_singleton]
      split
      case isTrue same =>
        subst same
        constructor
        · rintro ⟨⟩
          exact ⟨.inr rfl, rfl⟩
        · rintro ⟨old | rfl, same⟩
          · exact absurd same (fresh b old)
          · rfl
      case isFalse other =>
        rw [holds.stored]
        refine and_congr_left fun here => (or_iff_left ?_).symm
        rintro rfl
        exact other here.symm
    · obtain old | last := mem_append.mp mem
      · exact holds.notRoot b old
      · exact mem_singleton.mp last ▸ notRoot

/-- A path in the tree whose blocks pass, as a branch of blocks. -/
theorem passing_iff {branch : List ConsensusFullBlock} {id : BlockId} :
    Passing crypto execution root blocks branch id ↔
      ∃ path, bt.Path id path ∧ branch = path.filterMap bt.getBlock ∧ ∀ y ∈ path, bt.passes execution y = true := by
  constructor
  · intro passing
    induction passing with
    | root => exact ⟨[], holds.rooted ▸ .root, rfl, by simp⟩
    | @snoc branch block below mem passes ih =>
      obtain ⟨path, reaches, rfl, along⟩ := ih
      have found := (holds.stored _ _).mpr ⟨mem, rfl⟩
      have child := parentOf_eq_some.mpr ⟨block, found, rfl⟩
      have reaches' := PathTo.snoc reaches child (holds.child_ne_root child)
      have onPath : bt.getBlocksOnPathFromRoot (crypto.getId block.header) = some
        (path.filterMap bt.getBlock ++ [block]) :=
        getBlocksOnPathFromRoot_eq_some_iff.mpr ⟨_, reaches', by simp [found]⟩
      refine ⟨_, reaches', by simp [found], fun y mem => ?_⟩
      obtain earlier | last := mem_append.mp mem
      · exact along y earlier
      · obtain rfl := mem_singleton.mp last
        simpa [BlockTree.passes, onPath, holds.rooted] using passes
  · rintro ⟨path, reaches, rfl, along⟩
    induction reaches with
    | root => exact holds.rooted ▸ .root
    | @snoc p x path below child notRoot ih =>
      obtain ⟨block, found, rfl⟩ := parentOf_eq_some.mp child
      obtain ⟨mem, rfl⟩ := (holds.stored x block).mp found
      have onPath : bt.getBlocksOnPathFromRoot (crypto.getId block.header) = some
        (path.filterMap bt.getBlock ++ [block]) :=
        getBlocksOnPathFromRoot_eq_some_iff.mpr ⟨_, .snoc below child notRoot, by simp [found]⟩
      have passes := along (crypto.getId block.header) (by simp)
      rw [filterMap_append, filterMap_cons_some found, filterMap_nil]
      refine .snoc (ih fun y mem => along y (mem_append_left _ mem)) mem ?_
      simpa [BlockTree.passes, onPath, holds.rooted] using passes

end Holds

/-! ## Settled trees -/

/-- The coherent blocks are those whose path passes, and `ids` lists them with parents first. -/
structure Settled (execution : ExecutionCheck) (bt : BlockTree) (ids : List BlockId) : Prop where
  coherent : ∀ k, bt.CoherentEntry k ↔ Passable bt.tree.parentOf bt.root.blockId (bt.passes execution) k
  nodup : ids.Nodup
  mem_iff : ∀ k, k ∈ ids ↔ bt.CoherentEntry k
  ordered : ParentsFirst bt.tree.parentOf bt.rootChildren ids

theorem settled_new (execution : ExecutionCheck) (root : RootInfo) : Settled execution (.new root) [] where
  coherent := by
    intro k
    refine iff_of_false (fun ⟨e, found, _⟩ => by cases found) ?_
    rintro ⟨notRoot, path, reaches, -⟩
    obtain ⟨p, -, child, -⟩ := reaches.inv notRoot
    cases child
  nodup := nodup_nil
  mem_iff := by
    intro k
    exact iff_of_false not_mem_nil fun ⟨e, found, _⟩ => by cases found
  ordered := by
    intro before x after shape
    simp at shape

namespace Settled

variable {block : ConsensusFullBlock} (settled : Settled execution bt ids)

include settled

section

variable (adds : Adds crypto bt bt' block)

include adds

/-- What was marked before the block arrived passes, and nothing is missing but what is above the block. -/
theorem sound_of_adds (k : BlockId) (coherent : bt'.CoherentEntry k) :
    Passable bt'.tree.parentOf bt'.root.blockId (bt'.passes execution) k := by
  have passable := (settled.coherent k).mp (adds.coherentEntry_iff.mp coherent)
  have ⟨_, path, reaches, _⟩ := passable
  rw [adds.root]
  refine passable.congr reaches (fun y mem => ?_) fun y mem => ?_
  · obtain ⟨-, p, child⟩ := reaches.node_of_mem mem
    rw [child, adds.parentOf_of_stored child]
  · obtain ⟨before, after, rfl⟩ := append_of_mem mem
    exact adds.passes reaches.upTo

theorem complete_of_adds (k : BlockId) (path : List BlockId) (reaches : bt'.Path k path)
    (avoids : crypto.getId block.header ∉ path)
    (passable : Passable bt'.tree.parentOf bt'.root.blockId (bt'.passes execution) k) : bt'.CoherentEntry k := by
  have old := adds.path_of_avoids reaches avoids
  refine adds.coherentEntry_iff.mpr ((settled.coherent k).mpr ?_)
  rw [← adds.root]
  refine passable.congr reaches (fun y mem => ?_) fun y mem => ?_
  · obtain ⟨-, p, child⟩ := old.node_of_mem mem
    rw [child, adds.parentOf_of_stored child]
  · obtain ⟨before, after, rfl⟩ := append_of_mem mem
    exact (adds.passes old.upTo).symm

/-- What the update after a new block finds. -/
theorem found_of_adds (holds : Holds crypto root blocks bt') {new : List BlockId}
    (found : (new = [] ∧ ∀ path, bt'.Path (crypto.getId block.header) path → ∀ y ∈ path, bt'.CoherentEntry y) ∨
      ∃ before x after, bt'.Path (crypto.getId block.header) (before ++ x :: after) ∧
        (∀ y ∈ before, bt'.CoherentEntry y) ∧ ¬ bt'.CoherentEntry x ∧ new.Nodup ∧
        (∀ y, y ∈ new ↔ Swept bt'.tree.parentOf (bt'.passes execution) [x] y) ∧
        ParentsFirst bt'.tree.parentOf [x] new) :
    (∀ k, Passable bt'.tree.parentOf bt'.root.blockId (bt'.passes execution) k ↔ bt'.CoherentEntry k ∨ k ∈ new) ∧
      (ids ++ new).Nodup ∧ ParentsFirst bt'.tree.parentOf bt'.rootChildren (ids ++ new) := by
  have ordered : ParentsFirst bt'.tree.parentOf bt'.rootChildren ids := by
    refine settled.ordered.mono ?_ fun x p => adds.parentOf_of_stored
    rw [adds.rootChildren]
    split
    · exact subset_append_left _ _
    · exact List.Subset.refl _
  have mem_iff : ∀ k, k ∈ ids ↔ bt'.CoherentEntry k := fun k => (settled.mem_iff k).trans adds.coherentEntry_iff.symm
  obtain ⟨rfl, all⟩ | ⟨before, x, after, reaches, first, incoherent, nodup, swept, newOrdered⟩ := found
  · refine ⟨fun k => ⟨fun passable => .inl ?_, fun marked => ?_⟩, by simpa using settled.nodup, by simpa using ordered⟩
    · have ⟨_, path, reaches, _⟩ := passable
      refine settled.complete_of_adds adds k path reaches (fun mem => ?_) passable
      -- a path to the new block would be marked, the new block is not
      obtain ⟨lower, upper, rfl⟩ := append_of_mem mem
      obtain ⟨e, stored, -⟩ := adds.coherentEntry_iff.mp (all _ reaches.upTo (crypto.getId block.header) (by simp))
      simp [adds.fresh] at stored
    · exact settled.sound_of_adds adds k (by simpa using marked)
  · have passable_iff := passable_iff_marked_or_swept holds.searchable (settled.sound_of_adds adds)
      (settled.complete_of_adds adds) reaches first
    refine ⟨fun k => by rw [passable_iff, swept], ?_, ?_⟩
    · refine nodup_append.mpr ⟨settled.nodup, nodup, ?_⟩
      rintro k old _ isNew rfl
      -- the path of a marked block is marked, and the path of a found one goes through `x`
      have passed : ∀ y ∈ before, bt'.passes execution y = true := fun y mem => by
        obtain ⟨notRoot, path, reachesY, along⟩ := settled.sound_of_adds adds y (first y mem)
        exact along y (reachesY.mem_self notRoot)
      obtain ⟨-, path, reachesK, through, -⟩ := (swept_iff holds.searchable reaches.upTo
        (reaches.node_of_mem (by simp)).1 passed).mp ((swept k).mp isNew)
      have marked := (settled.mem_iff k).mp old
      have passable := (settled.coherent k).mp marked
      have ⟨_, path', reaches', _⟩ := passable
      obtain rfl := reachesK.unique (adds.path reaches')
      exact incoherent (adds.coherentEntry_iff.mpr ((settled.coherent x).mpr (passable.of_mem reaches' through)))
    · refine ordered.append newOrdered fun y isX => ?_
      obtain rfl := mem_singleton.mp isX
      obtain ⟨p, below, child, reachesP, shape⟩ := reaches.upTo.inv (reaches.node_of_mem (by simp)).1
      by_cases isRoot : p = bt'.root.blockId
      · exact .inl ((holds.represented.rootChildren.2 y).mpr (isRoot ▸ child))
      · obtain ⟨rfl, -⟩ := append_inj' shape rfl
        exact .inr ⟨p, (mem_iff p).mpr (first p (reachesP.mem_self isRoot)), child⟩

end

/-- A block and the update after it. -/
theorem step (holds : Holds crypto root blocks bt) (above : root.round < block.getBlockRound)
    (notRoot : crypto.getId block.header ≠ root.blockId)
    (fresh : ∀ b ∈ blocks, crypto.getId b.header ≠ crypto.getId block.header) :
    ∃ bt₁ bt₂ new, bt.add crypto block = .ok bt₁ ∧
      bt₁.tryUpdateCoherency crypto execution (crypto.getId block.header) = .ok (bt₂, new.filterMap bt₂.getBlock) ∧
      Holds crypto root (blocks ++ [block]) bt₂ ∧ Settled execution bt₂ (ids ++ new) := by
  obtain ⟨bt₁, added, adds, holds₁⟩ := holds.exists_add above notRoot fresh
  obtain ⟨new, bt₂, updated, sets, found⟩ :=
    exists_tryUpdateCoherency holds₁.represented.keyed holds₁.searchable execution (crypto.getId block.header)
  obtain ⟨passable_iff, nodup, ordered⟩ := settled.found_of_adds adds holds₁ found
  have coherent_iff : ∀ k, bt₂.CoherentEntry k ↔ bt₁.CoherentEntry k ∨ k ∈ new := by
    intro k
    rw [sets.coherentEntry_iff]
    refine or_congr_right (and_iff_left_of_imp fun isNew => ?_)
    obtain ⟨notRoot, path, reaches, -⟩ := (passable_iff k).mpr (.inr isNew)
    obtain ⟨p, -, child, -⟩ := reaches.inv notRoot
    obtain ⟨e, stored, -⟩ := Option.map_eq_some_iff.mp child
    simp [stored]
  refine ⟨bt₁, bt₂, new, added, sets.getBlock ▸ updated, holds₁.setsCoherent sets, fun k => ?_, nodup, fun k => ?_, ?_⟩
  · rw [coherent_iff, sets.parentOf, sets.root, sets.passes, passable_iff]
  · rw [coherent_iff, mem_append, settled.mem_iff, adds.coherentEntry_iff]
  · rw [sets.parentOf, sets.rootChildren]
    exact ordered

end Settled

section

variable (settled : Settled execution bt ids)

include settled

/-- All the blocks, in the order of the list. -/
theorem exists_arrive (holds : Holds crypto root blocks bt)
    (distinct : ((blocks ++ arriving).map fun b => crypto.getId b.header).Nodup)
    (above : ∀ b ∈ arriving, root.round < b.getBlockRound) (notRoot : ∀ b ∈ arriving,
      crypto.getId b.header ≠ root.blockId) :
    ∃ bt' new, bt.arrive crypto execution arriving = .ok (bt', new.filterMap bt'.getBlock) ∧
      Holds crypto root (blocks ++ arriving) bt' ∧ Settled execution bt' (ids ++ new) := by
  induction arriving generalizing bt blocks ids with
  | nil => exact ⟨bt, [], rfl, by simpa using holds, by simpa using settled⟩
  | cons block rest ih =>
    have fresh : ∀ b ∈ blocks, crypto.getId b.header ≠ crypto.getId block.header := by
      rw [map_append, nodup_append] at distinct
      exact fun b mem => distinct.2.2 _ (mem_map_of_mem mem) _ (by simp)
    obtain ⟨bt₁, bt₂, new, added, updated, holds₂, settled₂⟩ :=
      settled.step holds (above block (by simp)) (notRoot block (by simp)) fresh
    obtain ⟨bt', later, arrived, holds', settled'⟩ := ih settled₂ holds₂ (by simpa using distinct)
      (fun b mem => above b (mem_cons_of_mem _ mem)) fun b mem => notRoot b (mem_cons_of_mem _ mem)
    -- the blocks that were found are still stored
    have same : new.filterMap bt₂.getBlock = new.filterMap bt'.getBlock := by
      refine filterMap_congr fun k mem => ?_
      obtain ⟨e, stored, -⟩ := (settled₂.mem_iff k).mp (mem_append_right _ mem)
      have found : bt₂.getBlock k = some e.validatedBlock := by simp [getBlock, stored]
      obtain ⟨held, isId⟩ := (holds₂.stored k _).mp found
      rw [found, (holds'.stored k _).mpr ⟨mem_append_left _ held, isId⟩]
    refine ⟨bt', new ++ later, ?_, by simpa using holds', by simpa using settled'⟩
    simp only [arrive, added, updated, arrived]
    rw [same, filterMap_append]

/-! ## What does not depend on the order -/

omit settled in
theorem Holds.of_perm (holds : Holds crypto root arriving bt) (order : arriving.Perm blocks) :
    Holds crypto root blocks bt where
  rooted := holds.rooted
  represented := holds.represented
  stored := fun k b => (holds.stored k b).trans (and_congr_left fun _ => order.mem_iff)
  notRoot := fun b mem => holds.notRoot b (order.mem_iff.mpr mem)

omit settled in
theorem Holds.children_iff (holds : Holds crypto root blocks bt) :
    bt.tree.parentOf k = some id ↔ ∃ b ∈ blocks, crypto.getId b.header = k ∧ b.getParentId = id := by
  rw [parentOf_eq_some]
  simp only [holds.stored]
  constructor
  · rintro ⟨b, ⟨mem, isId⟩, isParent⟩
    exact ⟨b, mem, isId, isParent⟩
  · rintro ⟨b, mem, isId, isParent⟩
    exact ⟨b, ⟨mem, isId⟩, isParent⟩

theorem Settled.coherentEntry_iff (holds : Holds crypto root blocks bt) :
    bt.CoherentEntry id ↔ id ≠ root.blockId ∧ ∃ branch, Passing crypto execution root blocks branch id := by
  simp only [settled.coherent, Passable, holds.passing_iff, Path, holds.rooted]
  refine and_congr_right fun _ => ?_
  constructor
  · rintro ⟨path, reaches, along⟩
    exact ⟨_, path, reaches, rfl, along⟩
  · rintro ⟨-, path, reaches, -, along⟩
    exact ⟨path, reaches, along⟩

theorem Settled.isCoherent_iff (holds : Holds crypto root blocks bt) :
    bt.isCoherent id = true ↔ ∃ branch, Passing crypto execution root blocks branch id := by
  rw [BlockTree.isCoherent_iff, settled.coherentEntry_iff holds, holds.rooted]
  constructor
  · rintro (rfl | ⟨-, passing⟩)
    · exact ⟨[], .root⟩
    · exact passing
  · intro passing
    by_cases isRoot : id = root.blockId
    · exact .inl isRoot
    · exact .inr ⟨isRoot, passing⟩

/-- The blocks that were reported. -/
theorem Settled.reported (holds : Holds crypto root blocks bt) : (ids.filterMap bt.getBlock).Nodup ∧
      (∀ b, b ∈ ids.filterMap bt.getBlock ↔
        b ∈ blocks ∧ ∃ branch, Passing crypto execution root blocks branch (crypto.getId b.header)) ∧
      ∀ before b after, ids.filterMap bt.getBlock = before ++ b :: after →
        b.getParentId = root.blockId ∨ ∃ p ∈ before, crypto.getId p.header = b.getParentId := by
  refine ⟨?_, fun b => ?_, fun before b after shape => ?_⟩
  · refine settled.nodup.filterMap fun k k' b here here' => ?_
    exact ((holds.stored k b).mp here).2.symm.trans ((holds.stored k' b).mp here').2
  · simp only [mem_filterMap, settled.mem_iff, holds.stored, settled.coherentEntry_iff holds]
    constructor
    · rintro ⟨k, ⟨-, passing⟩, mem, rfl⟩
      exact ⟨mem, passing⟩
    · rintro ⟨mem, passing⟩
      exact ⟨_, ⟨holds.notRoot b mem, passing⟩, mem, rfl⟩
  · obtain ⟨lower, upper, rfl, isBefore, rest⟩ := filterMap_eq_append_iff.mp shape
    obtain ⟨skipped, k, upper, rfl, none, here, -⟩ := filterMap_eq_cons_iff.mp rest
    obtain first | ⟨p, mem, child⟩ := settled.ordered (lower ++ skipped) k upper (by simp)
    · obtain ⟨b', here', isParent⟩ := parentOf_eq_some.mp ((holds.represented.rootChildren.2 k).mp first)
      obtain rfl := Option.some.inj (here.symm.trans here')
      exact .inl (isParent.trans (congrArg RootInfo.blockId holds.rooted))
    · obtain ⟨b', here', rfl⟩ := parentOf_eq_some.mp child
      obtain rfl := Option.some.inj (here.symm.trans here')
      have listed : b.getParentId ∈ lower ++ (skipped ++ k :: upper) := by
        rw [← append_assoc]
        exact mem_append_left _ mem
      obtain ⟨e, stored, -⟩ := (settled.mem_iff _).mp listed
      have found : bt.getBlock b.getParentId = some e.validatedBlock := by simp [getBlock, stored]
      obtain inLower | inSkipped := mem_append.mp mem
      · refine .inr ⟨e.validatedBlock, ?_, ((holds.stored _ _).mp found).2⟩
        exact isBefore ▸ mem_filterMap.mpr ⟨_, inLower, found⟩
      · simp [none _ inSkipped] at found

end

/-- Distinct blocks above the root arrive in some order. Then the stored blocks, the children of each, the coherent
blocks and the set of the blocks that were reported are functions of the set of blocks; each coherent block was reported
once, after its parent. -/
theorem arrive_order {arriving : List ConsensusFullBlock}
    (rootRound : ∀ header, crypto.getId header = root.blockId → header.blockRound = root.round)
    (distinct : (blocks.map fun b => crypto.getId b.header).Nodup) (above : ∀ b ∈ blocks, root.round < b.getBlockRound)
    (order : arriving.Perm blocks) :
    ∃ bt out, (BlockTree.new root).arrive crypto execution arriving = .ok (bt, out) ∧
      (∀ id, bt.isCoherent id = true ↔ ∃ branch, Passing crypto execution root blocks branch id) ∧
      (∀ id b, bt.getBlock id = some b ↔ b ∈ blocks ∧ crypto.getId b.header = id) ∧
      (∀ id e, bt.tree.get id = some e → e.childrenBlocks.Nodup ∧
        ∀ k, k ∈ e.childrenBlocks ↔ ∃ b ∈ blocks, crypto.getId b.header = k ∧ b.getParentId = id) ∧
      (bt.rootChildren.Nodup ∧
        ∀ k, k ∈ bt.rootChildren ↔ ∃ b ∈ blocks, crypto.getId b.header = k ∧ b.getParentId = root.blockId) ∧
      out.Nodup ∧ (∀ b, b ∈ out ↔
        b ∈ blocks ∧ ∃ branch, Passing crypto execution root blocks branch (crypto.getId b.header)) ∧
      ∀ before b after, out = before ++ b :: after →
        b.getParentId = root.blockId ∨ ∃ p ∈ before, crypto.getId p.header = b.getParentId := by
  have notRoot : ∀ b ∈ blocks, crypto.getId b.header ≠ root.blockId := fun b mem same =>
    absurd (rootRound b.header same) (above b mem).ne'
  obtain ⟨bt, ids, arrived, holds, settled⟩ := exists_arrive (settled_new execution root) (holds_new crypto root)
    (by simpa using (order.map _).nodup_iff.mpr distinct) (fun b mem => above b (order.mem_iff.mp mem))
    fun b mem => notRoot b (order.mem_iff.mp mem)
  have held := holds.of_perm order
  refine ⟨bt, _, arrived, fun id => settled.isCoherent_iff held, held.stored, fun id e found => ?_, ?_,
    settled.reported held⟩
  · obtain ⟨nodup, lists⟩ := held.represented.children id e found
    exact ⟨nodup, fun k => (lists k).trans held.children_iff⟩
  · obtain ⟨nodup, lists⟩ := held.represented.rootChildren
    refine ⟨nodup, fun k => (lists k).trans ?_⟩
    rw [held.rooted]
    exact held.children_iff

end Arrival

section Examples

open FourValidators

/-- A child arrives before its parent: both are coherent once the parent is there, the parent first. -/
theorem arrive_order_onSide₅ : ∃ bt out, (BlockTree.new genesisRoot).arrive crypto (fun _ _ _ => true)
    [onSide₅, side₃, side₅] =
    .ok (bt, out) ∧ bt.isCoherent (encodeHeader onSide₅.header) = true ∧ out.Nodup ∧ onSide₅ ∈ out ∧ side₅ ∈ out := by
  have passing₅ : Passing crypto (fun _ _ _ => true) genesisRoot [side₃, side₅, onSide₅] [side₅]
    (encodeHeader side₅.header) :=
    @Passing.snoc crypto _ genesisRoot _ [] side₅ .root (by simp) rfl
  have passing₆ : Passing crypto (fun _ _ _ => true) genesisRoot [side₃, side₅, onSide₅] [side₅, onSide₅]
      (encodeHeader onSide₅.header) := @Passing.snoc crypto _ genesisRoot _ [side₅] onSide₅ passing₅ (by simp) rfl
  obtain ⟨bt, out, arrived, coherent, -, -, -, nodup, reported, -⟩ := @arrive_order crypto
    (fun _ _ _ => true) genesisRoot _ _
    (fun header same => absurd same (encodeHeader_ne_genesisBlockId header)) (by decide) (by decide)
    (show [onSide₅, side₃, side₅].Perm [side₃, side₅, onSide₅] from by decide)
  exact ⟨bt, out, arrived, (coherent _).mpr ⟨_, passing₆⟩, nodup, (reported _).mpr ⟨by simp, _, passing₆⟩,
    (reported _).mpr ⟨by simp, _, passing₅⟩⟩

end Examples

end BlockTree

end MonadBft
