import MonadBft.BlockTree.Branch
import MonadBft.Lib.Forest

/-! # The representation of the block tree

Exactly what each operation stores: the children lists, the children of the root and the
index of payloads are kept by hand next to the blocks, and the operations assert that they
fit. `Represented` is what makes the assertions hold. The blocks form a forest in the
sense of `Lib.Forest`, with the last committed block as its root.
-/

namespace MonadBft

open AList MonadBft.Tree List

/-! ## The store -/

namespace Tree

variable {t t' : Tree} {id k : BlockId} {e : BlockTreeEntry}

def parentOf (t : Tree) (id : BlockId) : Option BlockId := (t.get id).map (·.validatedBlock.getParentId)

theorem mem_keys_of_get (found : t.get k = some e) : k ∈ t.tree.keys :=
  mem_keys.mp (lookup_isSome.mp (by simp [show t.tree.lookup k = some e from found]))

theorem size_eq : t.size = t.tree.keys.length := by simp [size, AList.keys, List.keys]

theorem mem_keys_of_parentOf {p : BlockId} (child : t.parentOf k = some p) : k ∈ t.tree.keys := by
  obtain ⟨e, found, -⟩ := Option.map_eq_some_iff.mp child
  exact mem_keys_of_get found

/-- The blocks that the payload index lists for a body. -/
def carriers (t : Tree) (bodyId : Bytes) : Finset BlockId := ((t.payloads.lookup bodyId).map (·.activeBlocks)).getD ∅

/-- The payload index lists for each body the blocks that carry it, and nothing without a block. -/
structure PayloadsExact (t : Tree) : Prop where
  nonempty : ∀ bodyId index, t.payloads.lookup bodyId = some index → index.activeBlocks ≠ ∅
  mem_iff : ∀ bodyId id, id ∈ t.carriers bodyId ↔ ∃ e, t.get id = some e ∧ e.validatedBlock.getBodyId = bodyId

theorem payloadsExact_empty : empty.PayloadsExact where
  nonempty := by
    intro bodyId index found
    cases found
  mem_iff := by simp [carriers, empty, get]

/-! ### Removing -/

/-- Removing a block that the index lists never fails. -/
theorem exists_removePayload {bodyId : Bytes} (nonempty : ∀ b index, t.payloads.lookup b = some index →
    index.activeBlocks ≠ ∅) (listed : id ∈ t.carriers bodyId) : ∃ t', t.removePayload id bodyId = .ok t' ∧
      (∀ b index, t'.payloads.lookup b = some index → index.activeBlocks ≠ ∅) ∧
      ∀ b, t'.carriers b = if b = bodyId then (t.carriers b).erase id else t.carriers b := by
  unfold carriers at listed
  cases found : t.payloads.lookup bodyId with
  | none => simp [found] at listed
  | some index =>
    have active : id ∈ index.activeBlocks := by simpa [found] using listed
    simp only [removePayload, found, if_pos active]
    refine ⟨_, rfl, fun b index' found' => ?_, fun b => ?_⟩
    · split at found'
      · by_cases same : b = bodyId
        · subst same
          simp at found'
        · rw [lookup_erase_ne same] at found'
          exact nonempty b index' found'
      case isFalse rest =>
        by_cases same : b = bodyId
        · subst same
          obtain rfl : _ = index' := by simpa using found'
          exact rest
        · rw [lookup_insert_ne same] at found'
          exact nonempty b index' found'
    · by_cases same : b = bodyId
      · subst same
        simp only [carriers, if_true, found, Option.map_some, Option.getD_some]
        split
        case isTrue none => simp [none]
        case isFalse => simp
      · simp only [carriers, if_neg same]
        split
        · rw [lookup_erase_ne same]
        · rw [lookup_insert_ne same]

theorem exists_remove (exact : t.PayloadsExact) (id : BlockId) :
    ∃ t', t.remove id = .ok (t.get id, t') ∧ t'.PayloadsExact := by
  cases found : t.get id with
  | none => exact ⟨t, by simp only [remove, found], exact⟩
  | some removed =>
    let rest : Tree := { t with tree := t.tree.erase id }
    have listed : id ∈ rest.carriers removed.validatedBlock.getBodyId :=
      (exact.mem_iff _ id).mpr ⟨removed, found, rfl⟩
    obtain ⟨t', done, nonempty, carriers⟩ := exists_removePayload (t := rest) exact.nonempty listed
    have removes : t.remove id = .ok (some removed, t') := by
      simp only [remove, found, show removePayload { t with tree := t.tree.erase id } _ _ = _ from done]
    obtain ⟨-, get⟩ := remove_eq_ok removes
    refine ⟨t', removes, nonempty, fun b k => ?_⟩
    have before : k ∈ rest.carriers b ↔ ∃ e, t.get k = some e ∧ e.validatedBlock.getBodyId = b := exact.mem_iff b k
    rw [carriers, get]
    by_cases sameBody : b = removed.validatedBlock.getBodyId
    · by_cases same : k = id
      · simp [sameBody, same]
      · rw [if_pos sameBody, Finset.mem_erase, if_neg same, ← before]
        exact and_iff_right same
    · rw [if_neg sameBody, before]
      by_cases same : k = id
      · subst same
        simp [found, Ne.symm sameBody]
      · simp [same]

theorem exists_removeAll (exact : t.PayloadsExact) (ids : List BlockId) :
    ∃ t', t.removeAll ids = .ok t' ∧ t'.PayloadsExact := by
  induction ids generalizing t with
  | nil => exact ⟨t, rfl, exact⟩
  | cons id rest ih =>
    obtain ⟨t₁, removed, exact₁⟩ := exists_remove exact id
    obtain ⟨t', done, exact'⟩ := ih exact₁
    exact ⟨t', by simp only [removeAll, removed, done], exact'⟩

/-! ### Inserting -/

theorem mem_childrenOf : k ∈ t.childrenOf id ↔ t.parentOf k = some id := by
  simp only [childrenOf, parentOf, mem_map, List.mem_filter, decide_eq_true_eq, Option.map_eq_some_iff]
  constructor
  · rintro ⟨⟨k, e⟩, ⟨stored, isParent⟩, rfl⟩
    exact ⟨e, mem_lookup_iff.mpr stored, isParent⟩
  · rintro ⟨e, found, isParent⟩
    exact ⟨⟨k, e⟩, ⟨mem_lookup_iff.mp found, isParent⟩, rfl⟩

/-- A block under a new id is inserted. -/
theorem exists_insert (exact : t.PayloadsExact) (fresh : t.get id = none) (block : ConsensusFullBlock) :
    ∃ t', t.insert id block = .ok t' ∧ t'.PayloadsExact := by
  have notListed : ∀ bodyId, id ∉ t.carriers bodyId := by
    intro bodyId listed
    obtain ⟨e, found, -⟩ := (exact.mem_iff bodyId id).mp listed
    simp [fresh] at found
  set index := (t.payloads.lookup block.getBodyId).getD { body := block.body, activeBlocks := ∅ } with isIndex
  have active : index.activeBlocks = t.carriers block.getBodyId := by
    simp only [isIndex, carriers]
    cases t.payloads.lookup block.getBodyId <;> rfl
  have new := active ▸ notListed _
  obtain ⟨tree, inserted⟩ : ∃ tree, t.insert id block = .ok ⟨tree, t.payloads.insert block.getBodyId
      { index with activeBlocks := Insert.insert id index.activeBlocks }⟩ := by
    simp only [insert, fresh, Option.isSome_none, Bool.false_eq_true, if_false, ← isIndex, if_neg new]
    exact ⟨_, rfl⟩
  refine ⟨_, inserted, fun b index' found => ?_, fun b k => ?_⟩
  · by_cases same : b = block.getBodyId
    · subst same
      obtain rfl : _ = index' := by simpa using found
      simp
    · rw [lookup_insert_ne same] at found
      exact exact.nonempty b index' found
  · have carriers : k ∈ carriers ⟨tree, t.payloads.insert block.getBodyId
        { index with activeBlocks := Insert.insert id index.activeBlocks }⟩ b ↔
        (k = id ∧ b = block.getBodyId) ∨ k ∈ t.carriers b := by
      by_cases same : b = block.getBodyId
      · subst same
        simp [carriers, active]
      · simp [carriers, same, lookup_insert_ne same]
    rw [carriers, insert_eq_ok inserted, exact.mem_iff]
    by_cases same : k = id
    · subst same
      simp [fresh, eq_comm]
    · simp only [same, false_and, false_or, if_false, Option.map_eq_some_iff]
      constructor
      · rintro ⟨e, found, body⟩
        refine ⟨_, ⟨e, found, rfl⟩, ?_⟩
        split <;> exact body
      · rintro ⟨_, ⟨e, found, rfl⟩, body⟩
        refine ⟨e, found, ?_⟩
        split at body <;> exact body

/-! ### Marking -/

theorem exists_setCoherent (found : t.get id = some e) :
    ∃ t', t.setCoherent id true = some t' ∧ t'.payloads = t.payloads ∧
      ∀ k, t'.get k = (t.get k).map fun e => if k = id then { e with isCoherent := true } else e := by
  refine ⟨{ t with tree := t.tree.insert id { e with isCoherent := true } },
    by rw [setCoherent, found, Option.map_some], rfl, fun k => ?_⟩
  by_cases same : k = id
  · subst same
    rw [found]
    simp [get]
  · simp [get, same, lookup_insert_ne same]

/-! ### Paths in a store without one block -/

section Removed

variable (get : ∀ k, t'.get k = if k = id then none else t.get k) {root x : BlockId} {path : List BlockId}

include get

theorem get_of_avoids (avoids : id ∉ path) : ∀ y ∈ path, t'.get y = t.get y := by
  intro y mem
  rw [get, if_neg]
  rintro rfl
  exact avoids mem

theorem path_of_avoids (avoids : id ∉ path) (reaches : PathTo t.parentOf root x path) :
    PathTo t'.parentOf root x path :=
  reaches.congr fun y mem => by rw [parentOf, get_of_avoids get avoids y mem, parentOf]

/-- A path that is left was there before. -/
theorem path_of_removed (reaches : PathTo t'.parentOf root x path) : id ∉ path ∧ PathTo t.parentOf root x path := by
  have avoids : id ∉ path := by
    intro mem
    obtain ⟨-, p, child⟩ := reaches.node_of_mem mem
    simp [parentOf, get] at child
  exact ⟨avoids, reaches.congr fun y mem => by rw [parentOf, ← get_of_avoids get avoids y mem, parentOf]⟩

end Removed

end Tree

/-! ## Paths from the root -/

namespace BlockTree

variable {crypto : Crypto} {bt bt' : BlockTree} {id : BlockId}

/-- The ids of the blocks from the root up to a block. -/
abbrev Path (bt : BlockTree) : BlockId → List BlockId → Prop := PathTo bt.tree.parentOf bt.root.blockId

theorem parentOf_eq_some {p : BlockId} : bt.tree.parentOf id = some p ↔ ∃ b, bt.getBlock id = some b ∧
    b.getParentId = p := by
  simp only [parentOf, getBlock, Option.map_eq_some_iff]
  constructor
  · rintro ⟨e, found, rfl⟩
    exact ⟨_, ⟨e, found, rfl⟩, rfl⟩
  · rintro ⟨_, ⟨e, found, rfl⟩, rfl⟩
    exact ⟨e, found, rfl⟩

variable {fuel : Nat} {blocks out : List ConsensusFullBlock} {execution : ExecutionCheck}

theorem walkToRoot_eq_some_iff {visit : BlockId} (notRoot : visit ≠ bt.root.blockId) :
    bt.walkToRoot fuel visit blocks = some out ↔
      ∃ path, bt.Path visit path ∧ path.length ≤ fuel ∧ out = path.filterMap bt.getBlock ++ blocks := by
  induction fuel generalizing visit blocks with
  | zero =>
    refine iff_of_false (by simp [walkToRoot]) ?_
    rintro ⟨path, reaches, short, -⟩
    obtain ⟨p, below, -, -, rfl⟩ := reaches.inv notRoot
    simp at short
  | succ fuel ih =>
    simp only [walkToRoot]
    split
    case h_1 absent =>
      refine iff_of_false (by simp) ?_
      rintro ⟨path, reaches, -⟩
      obtain ⟨p, below, child, -⟩ := reaches.inv notRoot
      obtain ⟨b, found, -⟩ := parentOf_eq_some.mp child
      simp [absent] at found
    case h_2 block found =>
      have child := parentOf_eq_some.mpr ⟨block, found, rfl⟩
      split
      case isTrue atRoot =>
        rw [atRoot] at child
        constructor
        · rintro ⟨⟩
          exact ⟨[visit], .snoc .root child notRoot, by simp, by simp [found]⟩
        · rintro ⟨path, reaches, -, rfl⟩
          obtain rfl := reaches.unique (.snoc .root child notRoot)
          simp [found]
      case isFalse above =>
        rw [ih above]
        constructor
        · rintro ⟨path, reaches, short, rfl⟩
          exact ⟨path ++ [visit], .snoc reaches child notRoot, by simpa using short, by simp [found]⟩
        · rintro ⟨path, reaches, short, rfl⟩
          obtain ⟨p, below, child', reachesP, rfl⟩ := reaches.inv notRoot
          obtain rfl := Option.some.inj (child.symm.trans child')
          exact ⟨below, reachesP, by simpa using short, by simp [found]⟩

/-- `get_blocks_on_path_from_root` finds the path to the root if there is one. -/
theorem getBlocksOnPathFromRoot_eq_some_iff :
    bt.getBlocksOnPathFromRoot id = some blocks ↔ ∃ path, bt.Path id path ∧ blocks = path.filterMap bt.getBlock := by
  unfold getBlocksOnPathFromRoot
  split
  case isTrue isRoot =>
    subst isRoot
    constructor
    · rintro ⟨⟩
      exact ⟨[], .root, rfl⟩
    · rintro ⟨path, reaches, rfl⟩
      obtain rfl := reaches.unique .root
      rfl
  case isFalse notRoot =>
    rw [walkToRoot_eq_some_iff notRoot]
    constructor
    · rintro ⟨path, reaches, -, rfl⟩
      exact ⟨path, reaches, by simp⟩
    · rintro ⟨path, reaches, rfl⟩
      have short := reaches.length_le bt.tree.tree.keys fun _ _ => mem_keys_of_parentOf
      exact ⟨path, reaches, size_eq ▸ short, by simp⟩

theorem getBlocksOnPathFromRoot_isSome_iff :
    (bt.getBlocksOnPathFromRoot id).isSome = true ↔ ∃ path, bt.Path id path := by
  simp only [Option.isSome_iff_exists, getBlocksOnPathFromRoot_eq_some_iff]
  exact ⟨fun ⟨_, path, reaches, _⟩ => ⟨path, reaches⟩, fun ⟨path, reaches⟩ => ⟨_, path, reaches, rfl⟩⟩

/-- The last block of the path to a stored block. -/
theorem filterMap_path {path : List BlockId} (reaches : bt.Path id path) (notRoot : id ≠ bt.root.blockId) :
    ∃ below block p, path = below ++ [id] ∧ bt.getBlock id = some block ∧ bt.tree.parentOf id = some p ∧
      bt.Path p below ∧ path.filterMap bt.getBlock = below.filterMap bt.getBlock ++ [block] := by
  obtain ⟨p, below, child, reachesP, rfl⟩ := reaches.inv notRoot
  obtain ⟨block, found, -⟩ := parentOf_eq_some.mp child
  exact ⟨below, block, p, rfl, found, child, reachesP, by simp [found]⟩

/-- The check that `try_update_coherency` makes for a block with a path to the root. -/
def passes (execution : ExecutionCheck) (bt : BlockTree) (id : BlockId) : Bool :=
  match bt.getBlocksOnPathFromRoot id with
  | none => false
  | some path =>
    match path.getLast? with
    | none => false
    | some block => checkCoherency execution block path.dropLast bt.root

theorem passes_iff : bt.passes execution id = true ↔ id ≠ bt.root.blockId ∧ ∃ below block, bt.Path id (below ++ [id]) ∧
    bt.getBlock id = some block ∧ checkCoherency execution block (below.filterMap bt.getBlock) bt.root = true := by
  unfold passes
  constructor
  · intro h
    split at h
    · cases h
    case h_2 blocks onPath =>
      obtain ⟨path, reaches, rfl⟩ := getBlocksOnPathFromRoot_eq_some_iff.mp onPath
      split at h
      · cases h
      case h_2 block last =>
        have notRoot : id ≠ bt.root.blockId := by
          rintro rfl
          obtain rfl := reaches.unique .root
          simp at last
        obtain ⟨below, block', p, rfl, found, child, reachesP, shape⟩ := filterMap_path reaches notRoot
        obtain rfl : block' = block := by simpa [shape] using last
        exact ⟨notRoot, below, block', reaches, found, by simpa [shape] using h⟩
  · rintro ⟨-, below, block, reaches, found, check⟩
    simp [getBlocksOnPathFromRoot_eq_some_iff.mpr ⟨_, reaches, rfl⟩, found, check]

/-- The sequence number check, along a path from the root. -/
theorem seqFollows_of_passes {block : ConsensusFullBlock} (keyed : Keyed crypto bt.tree)
    (passes : bt.passes execution id = true) (found : bt.getBlock id = some block) :
      SeqFollows crypto bt.root block := by
  obtain ⟨notRoot, below, block', reaches, found', check⟩ := passes_iff.mp passes
  obtain rfl := Option.some.inj (found.symm.trans found')
  obtain ⟨p, below', child, reachesP, shape⟩ := reaches.inv notRoot
  obtain ⟨rfl, -⟩ := append_inj' shape rfl
  obtain rfl : block.getParentId = p := by simpa [parentOf_eq_some, found] using child
  by_cases isRoot : block.getParentId = bt.root.blockId
  · obtain rfl := (isRoot ▸ reachesP : bt.Path bt.root.blockId below).unique .root
    refine .inl ⟨isRoot, ?_⟩
    by_contra differs
    simp [checkCoherency, differs] at check
  · obtain ⟨lower, parent, -, rfl, foundP, -⟩ := filterMap_path reachesP isRoot
    obtain ⟨e, stored, rfl⟩ := Option.map_eq_some_iff.mp foundP
    refine .inr ⟨e.validatedBlock.header, keyed _ e stored, ?_⟩
    by_contra differs
    have differs : ¬ block.getSeqNum = e.validatedBlock.getSeqNum + 1 := differs
    simp [checkCoherency, foundP, differs] at check

/-! ## Coherent blocks are connected -/

def CoherentEntry (bt : BlockTree) (id : BlockId) : Prop := ∃ e, bt.tree.get id = some e ∧ e.isCoherent = true

/-- Every block that is marked coherent has a path to the root, along blocks that are marked coherent. -/
def Connected (bt : BlockTree) : Prop := Hangs bt.tree.parentOf bt.root.blockId bt.CoherentEntry

theorem connected_new (root : RootInfo) : (BlockTree.new root).Connected := by
  rintro id ⟨e, found, -⟩
  cases found

theorem isCoherent_iff : bt.isCoherent id = true ↔ id = bt.root.blockId ∨ bt.CoherentEntry id := by
  unfold isCoherent CoherentEntry
  split
  case isTrue isRoot => simp [isRoot]
  case isFalse notRoot =>
    simp only [notRoot, false_or]
    cases found : bt.tree.get id <;> simp

theorem Connected.path (connected : bt.Connected) (coherent : bt.isCoherent id = true) : ∃ path, bt.Path id path := by
  obtain rfl | entry := isCoherent_iff.mp coherent
  · exact ⟨[], .root⟩
  · obtain ⟨-, path, reaches, -⟩ := connected id entry
    exact ⟨path, reaches⟩

/-! ## Adding a block -/

/-- `bt'` is `bt` with the block under its id, which was free. -/
structure Adds (crypto : Crypto) (bt bt' : BlockTree) (block : ConsensusFullBlock) : Prop where
  fresh : bt.tree.get (crypto.getId block.header) = none
  higher : bt.root.round < block.getBlockRound
  root : bt'.root = bt.root
  rootChildren : bt'.rootChildren = if block.getParentId = bt.root.blockId then
    bt.rootChildren ++ [crypto.getId block.header] else bt.rootChildren
  get : ∀ k, bt'.tree.get k = if k = crypto.getId block.header then
      some ⟨block, false, bt.tree.childrenOf (crypto.getId block.header) ++
        if block.getParentId = crypto.getId block.header then [crypto.getId block.header] else []⟩
    else (bt.tree.get k).map fun e => if k = block.getParentId then
      { e with childrenBlocks := e.childrenBlocks ++ [crypto.getId block.header] } else e

theorem add_cases {block : ConsensusFullBlock} (h : bt.add crypto block = .ok bt') :
    bt.isValidToInsert crypto block.header = false ∧ bt' = bt ∨ Adds crypto bt bt' block := by
  simp only [add] at h
  split at h
  case isTrue valid =>
    obtain ⟨fresh, higher⟩ : bt.tree.get (crypto.getId block.header) = none ∧ bt.root.round < block.getBlockRound := by
      simpa [isValidToInsert, ConsensusFullBlock.getBlockRound] using valid
    split at h
    · cases h
    case h_2 tree inserted =>
      obtain rfl := Except.ok.inj h
      exact .inr ⟨fresh, higher, rfl, rfl, insert_eq_ok inserted⟩
  case isFalse invalid => exact .inl ⟨by simpa using invalid, (Except.ok.inj h).symm⟩

/-- `add` never fails while the payload index is exact. -/
theorem exists_add (exact : bt.tree.PayloadsExact) (crypto : Crypto) (block : ConsensusFullBlock) :
    ∃ bt', bt.add crypto block = .ok bt' ∧ bt'.tree.PayloadsExact := by
  unfold add
  split
  case isTrue valid =>
    have fresh : bt.tree.get (crypto.getId block.header) = none := by
      simp only [isValidToInsert, Bool.and_eq_true, Option.isNone_iff_eq_none] at valid
      exact valid.1
    obtain ⟨t', inserted, exact'⟩ := exists_insert exact fresh block
    simp only [inserted]
    exact ⟨_, rfl, exact'⟩
  case isFalse => exact ⟨bt, rfl, exact⟩

namespace Adds

variable {block : ConsensusFullBlock} (adds : Adds crypto bt bt' block) {k : BlockId}

include adds

theorem entry {e : BlockTreeEntry} (found : bt'.tree.get k = some e) :
    (k = crypto.getId block.header ∧ e.validatedBlock = block ∧ e.isCoherent = false) ∨
      ∃ e₀, bt.tree.get k = some e₀ ∧ e.validatedBlock = e₀.validatedBlock ∧ e.isCoherent = e₀.isCoherent := by
  rw [adds.get] at found
  split at found
  case isTrue same =>
    obtain rfl := Option.some.inj found
    exact .inl ⟨same, rfl, rfl⟩
  case isFalse =>
    obtain ⟨e₀, found₀, rfl⟩ := Option.map_eq_some_iff.mp found
    refine .inr ⟨e₀, found₀, ?_⟩
    split <;> exact ⟨rfl, rfl⟩

theorem getBlock (k : BlockId) :
    bt'.getBlock k = if k = crypto.getId block.header then some block else bt.getBlock k := by
  rw [BlockTree.getBlock, adds.get]
  split
  · rfl
  · rw [Option.map_map, BlockTree.getBlock]
    congr 1
    funext e
    simp only [Function.comp]
    split <;> rfl

theorem parentOf (k : BlockId) :
    bt'.tree.parentOf k = if k = crypto.getId block.header then some block.getParentId else bt.tree.parentOf k := by
  have here := adds.getBlock k
  simp only [BlockTree.getBlock] at here
  have shape : ∀ t : Tree, t.parentOf k = ((t.get k).map (·.validatedBlock)).map (·.getParentId) := fun t => by
    simp [Tree.parentOf, Function.comp_def]
  rw [shape, here, shape]
  split <;> rfl

theorem coherentEntry_iff : bt'.CoherentEntry k ↔ bt.CoherentEntry k := by
  unfold CoherentEntry
  rw [adds.get]
  split
  case isTrue same => simp [same, adds.fresh]
  case isFalse =>
    simp only [Option.map_eq_some_iff]
    constructor
    · rintro ⟨_, ⟨e, found, rfl⟩, coherent⟩
      refine ⟨e, found, ?_⟩
      split at coherent <;> exact coherent
    · rintro ⟨e, found, coherent⟩
      refine ⟨_, ⟨e, found, rfl⟩, ?_⟩
      split <;> exact coherent

theorem parentOf_of_stored {p : BlockId} (child : bt.tree.parentOf k = some p) : bt'.tree.parentOf k = some p := by
  rw [adds.parentOf, if_neg, child]
  rintro rfl
  obtain ⟨e, found, -⟩ := Option.map_eq_some_iff.mp child
  simp [adds.fresh] at found

/-- Paths stay. -/
theorem path {path : List BlockId} (reaches : bt.Path k path) : bt'.Path k path := by
  rw [Path, adds.root]
  refine reaches.congr fun y mem => ?_
  obtain ⟨-, p, child⟩ := reaches.node_of_mem mem
  rw [child, adds.parentOf_of_stored child]

theorem connected (connected : bt.Connected) : bt'.Connected := by
  intro k coherent
  obtain ⟨notRoot, path, reaches, along⟩ := connected k (adds.coherentEntry_iff.mp coherent)
  refine ⟨adds.root ▸ notRoot, path, adds.path reaches, fun y mem => adds.coherentEntry_iff.mpr (along y mem)⟩

end Adds

variable {path : List BlockId}

theorem add_eq_ok {block : ConsensusFullBlock} (h : bt.add crypto block = .ok bt') :
    bt'.root = bt.root ∧ ∀ k e, bt'.tree.get k = some e →
      (k = crypto.getId block.header ∧ e.validatedBlock = block ∧ e.isCoherent = false ∧
        bt.root.round < block.getBlockRound) ∨
        ∃ e₀, bt.tree.get k = some e₀ ∧ e.validatedBlock = e₀.validatedBlock ∧ e.isCoherent = e₀.isCoherent := by
  obtain ⟨-, rfl⟩ | adds := add_cases h
  · exact ⟨rfl, fun k e found => .inr ⟨e, found, rfl, rfl⟩⟩
  · refine ⟨adds.root, fun k e found => (adds.entry found).imp_left fun ⟨isNew, sameBlock, fresh⟩ => ?_⟩
    exact ⟨isNew, sameBlock, fresh, adds.higher⟩

/-! ## Marking blocks coherent -/

/-- Blocks that can be marked from the root up: the parent of each is the root, was marked, or is marked with it. -/
def FromRoot (bt : BlockTree) (ids : List BlockId) : Prop :=
  ∀ x ∈ ids, x ≠ bt.root.blockId ∧ (∃ path, bt.Path x path) ∧
    ∀ p, bt.tree.parentOf x = some p → p = bt.root.blockId ∨ bt.CoherentEntry p ∨ p ∈ ids

/-- `bt'` is `bt` with the blocks marked coherent. -/
structure SetsCoherent (bt bt' : BlockTree) (ids : List BlockId) : Prop where
  root : bt'.root = bt.root
  rootChildren : bt'.rootChildren = bt.rootChildren
  payloads : bt'.tree.payloads = bt.tree.payloads
  get : ∀ k, bt'.tree.get k = (bt.tree.get k).map fun e => if k ∈ ids then { e with isCoherent := true } else e

namespace SetsCoherent

variable {ids : List BlockId}

theorem refl (bt : BlockTree) : SetsCoherent bt bt [] := ⟨rfl, rfl, rfl, by simp⟩

theorem single {e : BlockTreeEntry} (found : bt.tree.get id = some e) :
    ∃ tree, bt.tree.setCoherent id true = some tree ∧ SetsCoherent bt { bt with tree } [id] := by
  obtain ⟨tree, done, payloads, get⟩ := exists_setCoherent found
  exact ⟨tree, done, rfl, rfl, payloads, by simpa using get⟩

theorem trans {bt₁ bt₂ bt₃ : BlockTree} {ids₁ ids₂ : List BlockId} (first : SetsCoherent bt₁ bt₂ ids₁)
    (second : SetsCoherent bt₂ bt₃ ids₂) : SetsCoherent bt₁ bt₃ (ids₁ ++ ids₂) where
  root := second.root.trans first.root
  rootChildren := second.rootChildren.trans first.rootChildren
  payloads := second.payloads.trans first.payloads
  get := by
    intro k
    rw [second.get, first.get, Option.map_map]
    congr 1
    funext e
    by_cases old : k ∈ ids₁ <;> by_cases new : k ∈ ids₂ <;> simp [old, new]

variable (sets : SetsCoherent bt bt' ids)

include sets

theorem getBlock : bt'.getBlock = bt.getBlock := by
  funext k
  rw [BlockTree.getBlock, sets.get, Option.map_map, BlockTree.getBlock]
  congr 1
  funext e
  simp only [Function.comp]
  split <;> rfl

theorem parentOf : bt'.tree.parentOf = bt.tree.parentOf := by
  funext k
  rw [Tree.parentOf, sets.get, Option.map_map, Tree.parentOf]
  congr 1
  funext e
  simp only [Function.comp]
  split <;> rfl

theorem path_iff {k : BlockId} : bt'.Path k path ↔ bt.Path k path := by
  rw [Path, Path, sets.parentOf, sets.root]

theorem getBlocksOnPathFromRoot : bt'.getBlocksOnPathFromRoot = bt.getBlocksOnPathFromRoot := by
  funext id
  refine Option.ext fun blocks => ?_
  rw [getBlocksOnPathFromRoot_eq_some_iff, getBlocksOnPathFromRoot_eq_some_iff, sets.getBlock]
  simp only [sets.path_iff]

theorem passes : bt'.passes execution = bt.passes execution := by
  funext id
  simp only [BlockTree.passes, sets.getBlocksOnPathFromRoot, sets.root]

theorem coherentEntry_iff {k : BlockId} :
    bt'.CoherentEntry k ↔ bt.CoherentEntry k ∨ k ∈ ids ∧ (bt.tree.get k).isSome = true := by
  unfold CoherentEntry
  rw [sets.get]
  cases found : bt.tree.get k with
  | none => simp
  | some e => by_cases listed : k ∈ ids <;> simp [listed]

theorem payloadsExact (exact : bt.tree.PayloadsExact) : bt'.tree.PayloadsExact where
  nonempty := by
    rw [sets.payloads]
    exact exact.nonempty
  mem_iff := by
    intro bodyId k
    have same : bt'.tree.carriers bodyId = bt.tree.carriers bodyId := by rw [carriers, sets.payloads, carriers]
    rw [same, exact.mem_iff, sets.get]
    simp only [Option.map_eq_some_iff]
    constructor
    · rintro ⟨e, found, body⟩
      refine ⟨_, ⟨e, found, rfl⟩, ?_⟩
      split <;> exact body
    · rintro ⟨_, ⟨e, found, rfl⟩, body⟩
      refine ⟨e, found, ?_⟩
      split at body <;> exact body

theorem connected (connected : bt.Connected) (ready : bt.FromRoot ids) : bt'.Connected := by
  have old : ∀ {y}, bt.CoherentEntry y → bt'.CoherentEntry y := fun entry => sets.coherentEntry_iff.mpr (.inl entry)
  have deep : ∀ {x path}, bt.Path x path → x ∈ ids → ∀ y ∈ path, bt'.CoherentEntry y := by
    intro x path reaches
    induction reaches with
    | root => exact fun listed => absurd rfl (ready _ listed).1
    | @snoc p x path reachesP child _ ih =>
      intro listed y mem
      obtain earlier | last := mem_append.mp mem
      · obtain rfl | entry | listedP := (ready x listed).2.2 p child
        · obtain rfl := reachesP.unique .root
          cases earlier
        · obtain ⟨-, path', reachesP', along⟩ := connected p entry
          exact old (along y (reachesP.unique reachesP' ▸ earlier))
        · exact ih listedP y earlier
      · obtain rfl := mem_singleton.mp last
        obtain ⟨e, found, -⟩ := Option.map_eq_some_iff.mp child
        exact sets.coherentEntry_iff.mpr (.inr ⟨listed, by simp [found]⟩)
  intro x coherent
  rw [sets.root, sets.parentOf]
  obtain entry | ⟨listed, -⟩ := sets.coherentEntry_iff.mp coherent
  · obtain ⟨notRoot, path, reaches, along⟩ := connected x entry
    exact ⟨notRoot, path, reaches, fun y mem => old (along y mem)⟩
  · obtain ⟨notRoot, ⟨path, reaches⟩, -⟩ := ready x listed
    exact ⟨notRoot, path, reaches, deep reaches listed⟩

end SetsCoherent

def ChildrenSound (bt : BlockTree) : Prop :=
  ∀ id e, bt.tree.get id = some e → ∀ k ∈ e.childrenBlocks, ∀ p, bt.tree.parentOf k = some p → p = id

theorem SetsCoherent.childrenSound {ids : List BlockId} (sets : SetsCoherent bt bt' ids) (sound : bt.ChildrenSound) :
    bt'.ChildrenSound := by
  intro k e found
  rw [sets.get] at found
  obtain ⟨e₀, found₀, rfl⟩ := Option.map_eq_some_iff.mp found
  rw [sets.parentOf]
  have same : (if k ∈ ids then { e₀ with isCoherent := true } else e₀).childrenBlocks = e₀.childrenBlocks := by
    split <;> rfl
  rw [same]
  exact sound k e₀ found₀

/-- The parents of the blocks are the root or marked. -/
def Ready (bt : BlockTree) (ids : List BlockId) : Prop :=
  ∀ x ∈ ids, ∀ p, bt.tree.parentOf x = some p → p = bt.root.blockId ∨ bt.CoherentEntry p

/-- What the loop of `try_update_coherency` marks: blocks that pass, from the root up if the queued ones can
be marked. -/
theorem updateCoherency_sets {queue : List BlockId} {coherent out : List ConsensusFullBlock}
    (h : updateCoherency execution fuel bt queue coherent = .ok (bt', out)) :
    ∃ ids, SetsCoherent bt bt' ids ∧ out = coherent ++ ids.filterMap bt.getBlock ∧
      (∀ x ∈ ids, bt.passes execution x = true) ∧ (bt.ChildrenSound → bt.Ready queue → bt.FromRoot ids) := by
  induction fuel generalizing bt queue coherent with
  | zero => cases h
  | succ fuel ih =>
    cases queue with
    | nil =>
      obtain ⟨rfl, rfl⟩ : bt = bt' ∧ coherent = out := by simpa [updateCoherency] using h
      exact ⟨[], .refl bt, by simp, by simp, by simp [FromRoot]⟩
    | cons next queue =>
      simp only [updateCoherency] at h
      split at h
      · cases h
      case h_2 blocks onPath =>
        split at h
        · cases h
        case h_2 block last =>
          split at h
          case isFalse =>
            obtain ⟨ids, sets, rfl, passed, ready⟩ := ih h
            exact ⟨ids, sets, rfl, passed, fun sound queued => ready sound fun x mem => queued x
              (mem_cons_of_mem _ mem)⟩
          case isTrue check =>
            have passes : bt.passes execution next = true := by simp [passes, onPath, last, check]
            obtain ⟨notRoot, below, block', reaches, found, -⟩ := passes_iff.mp passes
            obtain rfl : block' = block := by
              rw [getBlocksOnPathFromRoot_eq_some_iff.mpr ⟨_, reaches, rfl⟩] at onPath
              obtain rfl := Option.some.inj onPath
              simpa [found] using last
            obtain ⟨e, stored, rfl⟩ := Option.map_eq_some_iff.mp found
            obtain ⟨tree, done, sets⟩ := SetsCoherent.single stored
            simp only [done] at h
            obtain ⟨ids, rest, rfl, passed, ready⟩ := ih h
            refine ⟨next :: ids, sets.trans rest, by simp [sets.getBlock, found], fun x mem => ?_,
              fun sound queued => ?_⟩
            · obtain rfl | mem := mem_cons.mp mem
              · exact passes
              · exact sets.passes ▸ passed x mem
            have readyIds := ready (sets.childrenSound sound) fun x mem p child => by
              rw [sets.parentOf] at child
              obtain old | isChild := mem_append.mp mem
              · refine (queued x (mem_cons_of_mem _ old) p child).imp_right fun entry => ?_
                exact sets.coherentEntry_iff.mpr (.inl entry)
              · have kids : ((tree.get next).map (·.childrenBlocks)).getD [] = e.childrenBlocks := by
                  simp [show tree.get next = _ from sets.get next, stored]
                rw [kids] at isChild
                obtain rfl := sound next e stored x isChild p child
                exact .inr (sets.coherentEntry_iff.mpr (.inr ⟨by simp, by simp [stored]⟩))
            intro x mem
            obtain rfl | mem := mem_cons.mp mem
            · refine ⟨notRoot, ⟨_, reaches⟩, fun p child => ?_⟩
              exact (queued x (by simp) p child).imp_right .inl
            · obtain ⟨notRootX, ⟨pathX, reachesX⟩, belowX⟩ := readyIds x mem
              refine ⟨notRootX, ⟨pathX, sets.path_iff.mp reachesX⟩, fun p child => ?_⟩
              obtain isRoot | entry | listed := belowX p (by rw [sets.parentOf]; exact child)
              · exact .inl isRoot
              · obtain old | ⟨new, -⟩ := sets.coherentEntry_iff.mp entry
                · exact .inr (.inl old)
                · exact .inr (.inr (mem_singleton.mp new ▸ by simp))
              · exact .inr (.inr (mem_cons_of_mem _ listed))

section

variable (keyed : Keyed crypto bt.tree)

include keyed

/-- The blocks of a path have the ids of the path. -/
theorem map_getId_path (reaches : bt.Path id path) :
    (path.filterMap bt.getBlock).map (fun b => crypto.getId b.header) = path := by
  induction reaches with
  | root => rfl
  | snoc below child notRoot ih =>
    obtain ⟨block, found, -⟩ := parentOf_eq_some.mp child
    obtain ⟨e, stored, rfl⟩ := Option.map_eq_some_iff.mp found
    simp [ih, found, keyed _ e stored]

/-- The first block of a path that is not coherent, as `try_update_coherency` looks for it. -/
def firstIncoherent (crypto : Crypto) (bt : BlockTree) (blocks : List ConsensusFullBlock) : Option ConsensusFullBlock :=
  blocks.find? fun block => (bt.tree.get (crypto.getId block.header)).any (!·.isCoherent)

theorem firstIncoherent_eq_none (reaches : bt.Path id path)
    (h : firstIncoherent crypto bt (path.filterMap bt.getBlock) = none) : ∀ y ∈ path, bt.CoherentEntry y := by
  intro y mem
  obtain ⟨-, p, child⟩ := reaches.node_of_mem mem
  obtain ⟨e, stored, -⟩ := Option.map_eq_some_iff.mp child
  have listed : e.validatedBlock ∈ path.filterMap bt.getBlock :=
    mem_filterMap.mpr ⟨y, mem, by simp [getBlock, stored]⟩
  have coherent := find?_eq_none.mp h _ listed
  rw [keyed y e stored, stored] at coherent
  exact ⟨e, stored, by simpa using coherent⟩

/-- The blocks below it are coherent. -/
theorem firstIncoherent_eq_some (reaches : bt.Path id path)
    {block : ConsensusFullBlock} (h : firstIncoherent crypto bt (path.filterMap bt.getBlock) = some block) :
    ∃ before after, path = before ++ crypto.getId block.header :: after ∧ (∀ y ∈ before, bt.CoherentEntry y) ∧
      ¬ bt.CoherentEntry (crypto.getId block.header) := by
  obtain ⟨incoherent, before, after, shape, coherent⟩ := find?_eq_some_iff_append.mp h
  have ids := map_getId_path keyed reaches
  rw [shape, map_append, map_cons] at ids
  refine ⟨_, _, ids.symm, fun y mem => ?_, ?_⟩
  · obtain ⟨b, inBefore, rfl⟩ := mem_map.mp mem
    have onPath : crypto.getId b.header ∈ path := by
      rw [← ids]
      exact mem_append_left _ mem
    obtain ⟨-, p, child⟩ := reaches.node_of_mem onPath
    obtain ⟨e, stored, -⟩ := Option.map_eq_some_iff.mp child
    exact ⟨e, stored, by simpa [stored] using coherent b inBefore⟩
  · rintro ⟨e, stored, isCoherent⟩
    simp [stored, isCoherent] at incoherent

omit keyed in
theorem tryUpdateCoherency_eq : bt.tryUpdateCoherency crypto execution id =
    match bt.getBlocksOnPathFromRoot id with
    | none => .ok (bt, [])
    | some path =>
      match firstIncoherent crypto bt path with
      | none => .ok (bt, [])
      | some incoherent =>
        updateCoherency execution (bt.tree.size + 1) bt [crypto.getId incoherent.header] [] := rfl

theorem tryUpdateCoherency_sets (h : bt.tryUpdateCoherency crypto execution id = .ok (bt', out)) :
    ∃ ids, SetsCoherent bt bt' ids ∧ out = ids.filterMap bt.getBlock ∧
      (∀ x ∈ ids, bt.passes execution x = true) ∧ (bt.ChildrenSound → bt.FromRoot ids) := by
  have unchanged : .ok (bt, []) = (.ok (bt', out) : Except Panic _) → ∃ ids, SetsCoherent bt bt' ids ∧
      out = ids.filterMap bt.getBlock ∧ (∀ x ∈ ids, bt.passes execution x = true) ∧
        (bt.ChildrenSound → bt.FromRoot ids) := by
    intro same
    obtain ⟨rfl, rfl⟩ : bt = bt' ∧ [] = out := by simpa using same
    exact ⟨[], .refl bt, rfl, nofun, fun _ => nofun⟩
  rw [tryUpdateCoherency_eq] at h
  split at h
  · exact unchanged h
  case h_2 blocks onPath =>
    obtain ⟨path, reaches, rfl⟩ := getBlocksOnPathFromRoot_eq_some_iff.mp onPath
    split at h
    · exact unchanged h
    case h_2 block first =>
      obtain ⟨before, after, rfl, coherent, -⟩ := firstIncoherent_eq_some keyed reaches first
      obtain ⟨ids, sets, rfl, passed, ready⟩ := updateCoherency_sets h
      refine ⟨ids, sets, rfl, passed, fun sound => ready sound fun x mem p child => ?_⟩
      obtain rfl := mem_singleton.mp mem
      obtain ⟨notRoot, -⟩ := reaches.node_of_mem (y := crypto.getId block.header) (by simp)
      obtain ⟨p', below, child', reachesP, shape⟩ := reaches.upTo.inv notRoot
      obtain rfl := Option.some.inj (child.symm.trans child')
      obtain ⟨rfl, -⟩ := append_inj' shape rfl
      by_cases isRoot : p = bt.root.blockId
      · exact .inl isRoot
      · exact .inr (coherent p (reachesP.mem_self isRoot))

theorem tryUpdateCoherency_eq_ok (h : bt.tryUpdateCoherency crypto execution id = .ok (bt', out)) :
    Marked crypto bt bt' out := by
  obtain ⟨ids, sets, rfl, passed, -⟩ := tryUpdateCoherency_sets keyed h
  refine ⟨sets.root, fun k e found => ?_, fun b mem => ?_⟩
  · rw [sets.get] at found
    obtain ⟨e₀, found₀, rfl⟩ := Option.map_eq_some_iff.mp found
    refine ⟨e₀, found₀, ?_⟩
    split
    case isTrue listed => exact ⟨rfl, fun _ => .inr (mem_filterMap.mpr ⟨k, listed, by simp [getBlock, found₀]⟩)⟩
    case isFalse => exact ⟨rfl, .inl⟩
  · obtain ⟨x, listed, found⟩ := mem_filterMap.mp mem
    exact seqFollows_of_passes keyed (passed x listed) found

/-! ## Committing a branch -/

omit keyed

/-- The loop of `prune` removes a path of coherent blocks. -/
theorem removeBranch_eq_ok {rootId : BlockId} {t t' : Tree} {entry : BlockTreeEntry} {commit : List ConsensusFullBlock}
    (h : removeBranch rootId fuel t entry commit = .ok (out, t')) :
    entry.isCoherent = true ∧ ∃ below, PathTo t.parentOf rootId entry.validatedBlock.getParentId below ∧
      (∀ y ∈ below, ∃ e, t.get y = some e ∧ e.isCoherent = true) ∧
      out = below.filterMap (fun y => (t.get y).map (·.validatedBlock)) ++ entry.validatedBlock :: commit ∧
      ∀ k, t'.get k = if k ∈ below then none else t.get k := by
  induction fuel generalizing t entry commit with
  | zero => cases h
  | succ fuel ih =>
    simp only [removeBranch] at h
    split at h
    · cases h
    case isFalse coherent =>
      have coherent : entry.isCoherent = true := by simpa using coherent
      split at h
      case isTrue atRoot =>
        obtain ⟨rfl, rfl⟩ : entry.validatedBlock :: commit = out ∧ t = t' := by simpa using h
        exact ⟨coherent, [], atRoot ▸ .root, by simp, rfl, by simp⟩
      case isFalse notRoot =>
        split at h
        · cases h
        · cases h
        case h_3 parent t₁ removed =>
          obtain ⟨found, get₁⟩ := remove_eq_ok removed
          obtain ⟨parentCoherent, rest, reaches₁, along, rfl, get'⟩ := ih h
          obtain ⟨avoids, reachesP⟩ := path_of_removed get₁ reaches₁
          have same := get_of_avoids get₁ avoids
          have child : t.parentOf entry.validatedBlock.getParentId = some parent.validatedBlock.getParentId := by
            simp [parentOf, ← found]
          refine ⟨coherent, _, .snoc reachesP child notRoot, fun y mem => ?_, ?_, fun k => ?_⟩
          · obtain earlier | last := mem_append.mp mem
            · exact same y earlier ▸ along y earlier
            · exact mem_singleton.mp last ▸ ⟨parent, found.symm, parentCoherent⟩
          · rw [filterMap_congr fun y mem => by rw [same y mem]]
            simp [← found]
          · rw [get', get₁]
            by_cases isParent : k = entry.validatedBlock.getParentId <;> by_cases onRest : k ∈ rest <;>
              simp [isParent, onRest]

theorem exists_removeBranch {rootId : BlockId} {t : Tree} {entry : BlockTreeEntry} (commit : List ConsensusFullBlock)
    {below : List BlockId} (exact : t.PayloadsExact)
    (reaches : PathTo t.parentOf rootId entry.validatedBlock.getParentId below) (coherent : entry.isCoherent = true)
    (along : ∀ y ∈ below, ∃ e, t.get y = some e ∧ e.isCoherent = true) (enough : below.length < fuel) :
    ∃ out t', removeBranch rootId fuel t entry commit = .ok (out, t') ∧ t'.PayloadsExact := by
  induction fuel generalizing t entry commit below with
  | zero => cases enough
  | succ fuel ih =>
    simp only [removeBranch, coherent, Bool.true_eq_false, if_false]
    split
    case isTrue => exact ⟨_, t, rfl, exact⟩
    case isFalse notRoot =>
      obtain ⟨p, rest, child, reachesP, rfl⟩ := reaches.inv notRoot
      obtain ⟨parent, stored, parentCoherent⟩ := along entry.validatedBlock.getParentId (by simp)
      obtain rfl : parent.validatedBlock.getParentId = p := by simpa [parentOf, stored] using child
      obtain ⟨t₁, removed, exact₁⟩ := exists_remove exact entry.validatedBlock.getParentId
      have get₁ := (remove_eq_ok removed).2
      have avoids := reachesP.not_mem_of_child child notRoot
      rw [stored] at removed
      simp only [removed]
      exact ih _ exact₁ (path_of_avoids get₁ avoids reachesP) parentCoherent
        (fun y mem => get_of_avoids get₁ avoids y mem ▸ along y (mem_append_left _ mem)) (by simpa using enough)

include keyed

/-- The ids on the branch that a commit of `newRoot` removes. -/
def committedIds (crypto : Crypto) (bt : BlockTree) (newRoot : BlockId) : List BlockId :=
  ((bt.getBlocksOnPathFromRoot newRoot).getD []).map fun b => crypto.getId b.header

/-- The blocks that a commit of `newRoot` keeps: not on the branch, and with a QC that is not older than `newRoot`. -/
def survives (crypto : Crypto) (bt : BlockTree) (newRoot id : BlockId) : Bool :=
  match bt.getBlock newRoot, bt.getBlock id with
  | some new, some block => id ∉ bt.committedIds crypto newRoot && new.getBlockRound ≤ block.getParentRound
  | _, _ => false

/-- The parent of every coherent block that survives the commit is the new root or a coherent block that survives it. -/
def KeepsBranches (crypto : Crypto) (bt : BlockTree) (newRoot : BlockId) : Prop :=
  newRoot = bt.root.blockId ∨ ∀ id, bt.CoherentEntry id → bt.survives crypto newRoot id = true →
    ∃ p, bt.tree.parentOf id = some p ∧ (p = newRoot ∨ bt.CoherentEntry p ∧ bt.survives crypto newRoot p = true)

theorem committedIds_eq (reaches : bt.Path id path) : bt.committedIds crypto id = path := by
  rw [committedIds, getBlocksOnPathFromRoot_eq_some_iff.mpr ⟨path, reaches, rfl⟩, Option.getD_some,
    map_getId_path keyed reaches]

/-- `bt'` is `bt` after a commit of `newRoot`. -/
structure Cuts (crypto : Crypto) (bt bt' : BlockTree) (newRoot : BlockId) (entry : BlockTreeEntry) : Prop where
  found : bt.tree.get newRoot = some entry
  root : bt'.root = rootOf crypto entry.validatedBlock
  rootChildren : bt'.rootChildren = entry.childrenBlocks
  get : ∀ k, bt'.tree.get k = if bt.survives crypto newRoot k then bt.tree.get k else none

/-- A commit removes the path to the new root, and the blocks that do not survive it. -/
theorem prune_cuts {newRoot : BlockId} {commit : List ConsensusFullBlock}
    (h : bt.prune crypto newRoot = .ok (commit, bt')) :
    newRoot = bt.root.blockId ∧ commit = [] ∧ bt' = bt ∨ newRoot ≠ bt.root.blockId ∧ ∃ path entry,
      bt.Path newRoot path ∧
      (∀ y ∈ path, bt.CoherentEntry y) ∧ commit = path.filterMap bt.getBlock ∧ Cuts crypto bt bt' newRoot entry := by
  simp only [prune] at h
  split at h
  · cases h
  split at h
  case isTrue same =>
    obtain ⟨rfl, rfl⟩ : [] = commit ∧ bt = bt' := by simpa using h
    exact .inl ⟨same, rfl, rfl⟩
  case isFalse notRoot =>
    split at h
    · cases h
    · cases h
    case h_3 entry t₁ removed =>
      obtain ⟨found, get₁⟩ := remove_eq_ok removed
      split at h
      · cases h
      case h_2 commit' t₂ branched =>
        obtain ⟨coherent, below, reaches₁, along, rfl, get₂⟩ := removeBranch_eq_ok branched
        split at h
        · cases h
        case h_2 t₃ removedAll =>
          obtain ⟨rfl, rfl⟩ := Prod.mk.inj (Except.ok.inj h)
          obtain ⟨avoids, reachesP⟩ := path_of_removed get₁ reaches₁
          have same := get_of_avoids get₁ avoids
          have child : bt.tree.parentOf newRoot = some entry.validatedBlock.getParentId := by simp [parentOf, ← found]
          have reaches : bt.Path newRoot (below ++ [newRoot]) := .snoc reachesP child notRoot
          have new : bt.getBlock newRoot = some entry.validatedBlock := by simp [getBlock, ← found]
          refine .inr ⟨notRoot, _, entry, reaches, fun y mem => ?_, ?_, found.symm, rfl, rfl, fun k => ?_⟩
          · obtain earlier | last := mem_append.mp mem
            · obtain ⟨e, stored, marked⟩ := along y earlier
              exact ⟨e, same y earlier ▸ stored, marked⟩
            · exact mem_singleton.mp last ▸ ⟨entry, found.symm, coherent⟩
          · rw [filterMap_congr fun y mem => by rw [same y mem, ← getBlock]]
            simp [new]
          have removedIds : t₂.get k = if k ∈ below ++ [newRoot] then none else bt.tree.get k := by
            rw [get₂, get₁]
            by_cases onBelow : k ∈ below <;> by_cases isNew : k = newRoot <;> simp [onBelow, isNew]
          have deleted : ∀ e, t₂.get k = some e → (k ∈ (t₂.tree.entries.filter fun e =>
              e.2.validatedBlock.getParentRound < entry.validatedBlock.getBlockRound).map (·.1) ↔
                e.validatedBlock.getParentRound < entry.validatedBlock.getBlockRound) := by
            intro e stored
            simp only [mem_map, List.mem_filter, decide_eq_true_eq]
            constructor
            · rintro ⟨⟨k, e'⟩, ⟨mem, old⟩, rfl⟩
              obtain rfl := Option.some.inj (stored.symm.trans (mem_lookup_iff.mpr mem))
              exact old
            · exact fun old => ⟨⟨k, e⟩, ⟨mem_lookup_iff.mp stored, old⟩, rfl⟩
          rw [removeAll_eq_ok removedAll]
          simp only [survives, new, committedIds_eq keyed reaches]
          by_cases onPath : k ∈ below ++ [newRoot]
          · have gone : t₂.get k = none := by rw [removedIds, if_pos onPath]
            cases block : bt.getBlock k <;> simp [gone, onPath]
          · have here : t₂.get k = bt.tree.get k := by rw [removedIds, if_neg onPath]
            cases stored : bt.tree.get k with
            | none => simp [here, stored]
            | some e =>
              have block : bt.getBlock k = some e.validatedBlock := by simp [getBlock, stored]
              rw [here, stored]
              simp only [block, onPath, not_false_eq_true, decide_true, Bool.true_and, deleted e (here.trans stored)]
              by_cases old : e.validatedBlock.getParentRound < entry.validatedBlock.getBlockRound
              · simp [old]
              · simp [old, not_lt.mp old]

/-- `prune` never fails on a block with a coherent path, while the payload index is exact. -/
theorem exists_prune (exact : bt.tree.PayloadsExact) {newRoot : BlockId}
    (notRoot : newRoot ≠ bt.root.blockId) (reaches : bt.Path newRoot path)
    (along : ∀ y ∈ path, bt.CoherentEntry y) :
    ∃ bt' entry, bt.prune crypto newRoot = .ok (path.filterMap bt.getBlock, bt') ∧ bt'.tree.PayloadsExact ∧
      Cuts crypto bt bt' newRoot entry := by
  obtain ⟨p, below, child, reachesP, rfl⟩ := reaches.inv notRoot
  obtain ⟨entry, found, coherent⟩ := along newRoot (by simp)
  obtain rfl : entry.validatedBlock.getParentId = p := by simpa [parentOf, found] using child
  have avoids := reachesP.not_mem_of_child child notRoot
  obtain ⟨t₁, removed, exact₁⟩ := exists_remove exact newRoot
  have get₁ := (remove_eq_ok removed).2
  have reaches₁ := path_of_avoids get₁ avoids reachesP
  have enough : below.length < t₁.size + 1 :=
    Nat.lt_succ_of_le (size_eq ▸ reaches₁.length_le t₁.tree.keys fun _ _ => mem_keys_of_parentOf)
  obtain ⟨out, t₂, branched, exact₂⟩ := exists_removeBranch [] exact₁ reaches₁ coherent
    (fun y mem => get_of_avoids get₁ avoids y mem ▸ along y (mem_append_left _ mem)) enough
  obtain ⟨t₃, removedAll, exact₃⟩ := exists_removeAll exact₂ ((t₂.tree.entries.filter fun e =>
    e.2.validatedBlock.getParentRound < entry.validatedBlock.getBlockRound).map (·.1))
  have isCoherent := isCoherent_iff.mpr (.inr ⟨entry, found, coherent⟩)
  obtain ⟨bt', done, exact'⟩ : ∃ bt', bt.prune crypto newRoot = .ok (out, bt') ∧ bt'.tree.PayloadsExact := by
    rw [found] at removed
    simp only [prune, isCoherent, Bool.true_eq_false, if_false, notRoot, removed, branched, removedAll]
    exact ⟨_, rfl, exact₃⟩
  obtain ⟨isRoot, -⟩ | ⟨-, path, entry, reaches', -, rfl, cuts⟩ := prune_cuts keyed done
  · exact absurd isRoot notRoot
  · exact ⟨bt', entry, reaches.unique reaches' ▸ done, exact', cuts⟩

end

namespace Cuts

variable {newRoot : BlockId} {entry : BlockTreeEntry} (cuts : Cuts crypto bt bt' newRoot entry)

include cuts

theorem blockId (keyed : Keyed crypto bt.tree) : bt'.root.blockId = newRoot := by
  rw [cuts.root]
  exact keyed newRoot entry cuts.found

theorem parentOf (k : BlockId) :
    bt'.tree.parentOf k = if bt.survives crypto newRoot k then bt.tree.parentOf k else none := by
  rw [Tree.parentOf, cuts.get, Tree.parentOf]
  split <;> rfl

theorem coherentEntry_iff {k : BlockId} :
    bt'.CoherentEntry k ↔ bt.CoherentEntry k ∧ bt.survives crypto newRoot k = true := by
  unfold CoherentEntry
  rw [cuts.get]
  split
  case isTrue kept => simp [kept]
  case isFalse gone => simp [gone]

theorem stored {k : BlockId} {e : BlockTreeEntry} (found : bt'.tree.get k = some e) :
    bt.tree.get k = some e ∧ bt.survives crypto newRoot k = true := by
  rw [cuts.get] at found
  split at found
  case isTrue kept => exact ⟨found, kept⟩
  case isFalse => cases found

theorem not_survives_newRoot (keyed : Keyed crypto bt.tree) (notRoot : newRoot ≠ bt.root.blockId)
    (reaches : bt.Path newRoot path) : bt.survives crypto newRoot newRoot ≠ true := by
  have block : bt.getBlock newRoot = some entry.validatedBlock := by simp [getBlock, cuts.found]
  simp [survives, block, committedIds_eq keyed reaches, reaches.mem_self notRoot]

/-- After a commit, the coherent blocks are connected exactly if the commit kept their branches. -/
theorem connected_iff (keyed : Keyed crypto bt.tree) (connected : bt.Connected)
    (notRoot : newRoot ≠ bt.root.blockId) (reaches : bt.Path newRoot path) :
    bt'.Connected ↔ bt.KeepsBranches crypto newRoot := by
  have sameEntries : bt'.CoherentEntry = fun k => bt.CoherentEntry k ∧ bt.survives crypto newRoot k = true := by
    funext k
    exact propext cuts.coherentEntry_iff
  rw [Connected, cuts.blockId keyed, sameEntries, KeepsBranches, or_iff_right notRoot]
  exact hangs_cut_iff connected (fun x kept => by rw [cuts.parentOf, if_pos kept])
    (cuts.not_survives_newRoot keyed notRoot reaches)

end Cuts

section

variable (keyed : Keyed crypto bt.tree)

include keyed

theorem linked_path (reaches : bt.Path id path) : Linked crypto bt.root.blockId (path.filterMap bt.getBlock) ∧
      lastId crypto bt.root.blockId (path.filterMap bt.getBlock) = id := by
  induction reaches with
  | root => exact ⟨trivial, rfl⟩
  | snoc below child notRoot ih =>
    obtain ⟨block, found, isParent⟩ := parentOf_eq_some.mp child
    obtain ⟨e, stored, rfl⟩ := Option.map_eq_some_iff.mp found
    rw [filterMap_append, filterMap_cons_some found, linked_append, lastId_append, ih.2]
    exact ⟨⟨ih.1, isParent, trivial⟩, keyed _ e stored⟩

theorem prune_eq_ok {newRoot : BlockId} {commit : List ConsensusFullBlock}
    (h : bt.prune crypto newRoot = .ok (commit, bt')) : Pruned crypto bt bt' newRoot commit := by
  obtain ⟨same, rfl, rfl⟩ | ⟨notRoot, path, entry, reaches, along, rfl, cuts⟩ := prune_cuts keyed h
  · exact ⟨trivial, same.symm, by simp, rfl, fun _ _ found => found, fun nonempty => absurd rfl nonempty⟩
  obtain ⟨linked, last⟩ := linked_path keyed reaches
  obtain ⟨below, block, -, rfl, found, -, -, shape⟩ := filterMap_path reaches notRoot
  obtain rfl : entry.validatedBlock = block := by simpa [getBlock, cuts.found] using found
  refine ⟨linked, last, fun b mem => ?_, by simp [cuts.root, shape], fun k e stored => (cuts.stored stored).1,
    fun _ k e stored => ?_⟩
  · obtain ⟨y, onPath, here⟩ := mem_filterMap.mp mem
    obtain ⟨e, stored, coherent⟩ := along y onPath
    exact ⟨y, e, stored, by simpa [getBlock, stored] using here, coherent⟩
  · obtain ⟨stored, kept⟩ := cuts.stored stored
    rw [cuts.root]
    have here : bt.getBlock k = some e.validatedBlock := by simp [getBlock, stored]
    simp only [survives, found, here, Bool.and_eq_true, decide_eq_true_eq] at kept
    exact kept.2

end

end BlockTree

end MonadBft
