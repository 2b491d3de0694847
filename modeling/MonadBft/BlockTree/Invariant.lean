import MonadBft.BlockTree.Coherent

/-! # The representation invariant of the block tree

`Represented` says that the lists of children, the children of the root and the index of
payloads agree with the stored blocks. While the rounds of blocks grow along the branches,
every operation keeps it, the searches of the block tree end, and no assertion of the store
fails.
-/

namespace MonadBft

open List Option

namespace BlockTree

section Search

variable {crypto : Crypto} {execution : ExecutionCheck} {bt bt' bt₁ : BlockTree}

/-! ## The searches -/

def childrenIds (bt : BlockTree) (id : BlockId) : List BlockId := ((bt.tree.get id).map (·.childrenBlocks)).getD []

/-- The searches go from a block to its children. -/
abbrev Searchable (bt : BlockTree) : Prop := Downward bt.tree.parentOf bt.root.blockId bt.childrenIds

variable {ids queue found : List BlockId}

theorem SetsCoherent.childrenIds (sets : SetsCoherent bt bt' ids) : bt'.childrenIds = bt.childrenIds := by
  funext id
  rw [BlockTree.childrenIds, sets.get, BlockTree.childrenIds, Option.map_map]
  congr 2
  funext e
  simp only [Function.comp]
  split <;> rfl

/-- Every child of a connected block is connected. -/
theorem Searchable.child (searchable : bt.Searchable) {id : BlockId} {path : List BlockId}
    (notRoot : id ≠ bt.root.blockId)
    (reaches : bt.Path id path) : ∀ k ∈ bt.childrenIds id, k ≠ bt.root.blockId ∧ ∃ path, bt.Path k path := by
  intro k mem
  obtain ⟨p, -, child, -⟩ := reaches.inv notRoot
  have isChild := (searchable.exact id p child k).mp mem
  have notRoot := searchable.acyclic id path k reaches isChild
  exact ⟨notRoot, _, .snoc reaches isChild notRoot⟩

/-- The loop of `try_update_coherency` is a search for the blocks that pass. -/
theorem exists_updateCoherency (searchable : bt.Searchable) {fuel : Nat} {queue marked found : List BlockId}
    (coherent : List ConsensusFullBlock) (sets : SetsCoherent bt bt₁ marked)
    (connected : ∀ q ∈ queue, q ≠ bt.root.blockId ∧ ∃ path, bt.Path q path)
    (h : sweep bt.childrenIds (bt.passes execution) fuel queue [] = some found) :
    ∃ bt', updateCoherency execution fuel bt₁ queue coherent = .ok (bt', coherent ++ found.filterMap bt.getBlock) ∧
      SetsCoherent bt bt' (marked ++ found) := by
  induction fuel generalizing bt₁ queue marked found coherent with
  | zero => cases h
  | succ fuel ih =>
    cases queue with
    | nil =>
      obtain rfl : [] = found := by simpa [sweep] using h
      exact ⟨bt₁, by simp [updateCoherency], by simpa using sets⟩
    | cons next queue =>
      obtain ⟨notRoot, path, reaches⟩ := connected next (by simp)
      obtain ⟨below, block, p, rfl, here, child, reachesP, blocks⟩ := filterMap_path reaches notRoot
      have rest : ∀ q ∈ queue, q ≠ bt.root.blockId ∧ ∃ path, bt.Path q path :=
        fun q mem => connected q (mem_cons_of_mem _ mem)
      have onPath : bt.getBlocksOnPathFromRoot next = some (below.filterMap bt.getBlock ++ [block]) :=
        getBlocksOnPathFromRoot_eq_some_iff.mpr ⟨_, reaches, blocks.symm⟩
      have onPath₁ : bt₁.getBlocksOnPathFromRoot next = some (below.filterMap bt.getBlock ++ [block]) := by
        rw [sets.getBlocksOnPathFromRoot, onPath]
      have isPass : bt.passes execution next = checkCoherency execution block
        (below.filterMap bt.getBlock) bt.root := by
        simp [passes, onPath]
      simp only [sweep, isPass] at h
      simp only [updateCoherency, onPath₁, getLast?_concat, dropLast_concat, sets.root]
      split at h
      case isFalse fails =>
        rw [if_neg fails]
        exact ih coherent sets rest h
      case isTrue pass =>
        rw [if_pos pass]
        obtain ⟨e, stored, -⟩ := map_eq_some_iff.mp here
        have stored₁ := sets.get next
        rw [stored, map_some] at stored₁
        obtain ⟨tree, done, one⟩ := SetsCoherent.single stored₁
        simp only [done]
        have sets' := sets.trans one
        have kids : ((tree.get next).map (·.childrenBlocks)).getD [] = bt.childrenIds next := by
          rw [← sets'.childrenIds, childrenIds]
        rw [sweep_append] at h
        obtain ⟨found', later, rfl⟩ := map_eq_some_iff.mp h
        obtain ⟨bt', ran, setsAll⟩ := ih (coherent ++ [block]) sets' (fun q mem => by
          obtain old | new := mem_append.mp mem
          · exact rest q old
          · exact searchable.child notRoot reaches q new) later
        refine ⟨bt', ?_, by simpa using setsAll⟩
        simp only [sets.root] at ran
        rw [kids, ran]
        simp [here]

/-- The search for a QC to commit is a fold over the blocks that the search visits. -/
theorem highCommittableQc_eq (searchable : bt.Searchable) {fuel : Nat} {high : Option QuorumCertificate}
    (connected : ∀ q ∈ queue, q ≠ bt.root.blockId ∧ ∃ path, bt.Path q path)
    (h : sweep bt.childrenIds (fun _ => true) fuel queue [] = some found) :
    bt.highCommittableQc fuel queue high =
      .ok ((found.filterMap bt.getBlock).foldl (fun high block => bt.committableQc block high) high) := by
  induction fuel generalizing queue found high with
  | zero => cases h
  | succ fuel ih =>
    cases queue with
    | nil =>
      obtain rfl : [] = found := by simpa [sweep] using h
      rfl
    | cons next queue =>
      obtain ⟨notRoot, path, reaches⟩ := connected next (by simp)
      obtain ⟨p, below, child, -⟩ := reaches.inv notRoot
      obtain ⟨e, stored, -⟩ := map_eq_some_iff.mp child
      simp only [sweep, if_true] at h
      rw [sweep_append] at h
      obtain ⟨found', later, rfl⟩ := map_eq_some_iff.mp h
      have kids : e.childrenBlocks = bt.childrenIds next := by simp [childrenIds, stored]
      have block : bt.getBlock next = some e.validatedBlock := by simp [getBlock, stored]
      simp only [highCommittableQc, stored, kids, nil_append, singleton_append, filterMap_cons, block,
        foldl_cons]
      exact ih (fun q mem => by
        obtain old | new := mem_append.mp mem
        · exact connected q (mem_cons_of_mem _ old)
        · exact searchable.child notRoot reaches q new) later

/-- `try_update_coherency` marks the blocks that pass, from the first one on the path that is not coherent. -/
theorem exists_tryUpdateCoherency (keyed : Keyed crypto bt.tree) (searchable : bt.Searchable)
    (execution : ExecutionCheck) (id : BlockId) :
    ∃ ids bt', bt.tryUpdateCoherency crypto execution id = .ok (bt', ids.filterMap bt.getBlock) ∧
      SetsCoherent bt bt' ids ∧
      ((ids = [] ∧ ∀ path, bt.Path id path → ∀ y ∈ path, bt.CoherentEntry y) ∨
        ∃ before x after, bt.Path id (before ++ x :: after) ∧ (∀ y ∈ before, bt.CoherentEntry y) ∧
          ¬ bt.CoherentEntry x ∧ ids.Nodup ∧ (∀ y, y ∈ ids ↔ Swept bt.tree.parentOf (bt.passes execution) [x] y) ∧
          ParentsFirst bt.tree.parentOf [x] ids) := by
  rw [tryUpdateCoherency_eq]
  cases onPath : bt.getBlocksOnPathFromRoot id with
  | none =>
    refine ⟨[], bt, rfl, .refl bt, .inl ⟨rfl, fun path reaches => ?_⟩⟩
    rw [getBlocksOnPathFromRoot_eq_some_iff.mpr ⟨path, reaches, rfl⟩] at onPath
    cases onPath
  | some blocks =>
    obtain ⟨path, reaches, rfl⟩ := getBlocksOnPathFromRoot_eq_some_iff.mp onPath
    simp only
    cases first : firstIncoherent crypto bt (path.filterMap bt.getBlock) with
    | none =>
      refine ⟨[], bt, rfl, .refl bt, .inl ⟨rfl, fun path' reaches' => ?_⟩⟩
      obtain rfl := reaches.unique reaches'
      exact firstIncoherent_eq_none keyed reaches first
    | some block =>
      obtain ⟨before, after, rfl, coherent, incoherent⟩ := firstIncoherent_eq_some keyed reaches first
      obtain ⟨notRoot, -⟩ := reaches.node_of_mem (y := crypto.getId block.header) (by simp)
      obtain ⟨p, below, child, reachesP, -⟩ := reaches.upTo.inv notRoot
      have siblings : Siblings bt.tree.parentOf bt.root.blockId [crypto.getId block.header] p below :=
        ⟨nodup_singleton _, by simpa using child, reachesP⟩
      obtain ⟨found, swept, nodup, mem_iff, ordered⟩ := exists_sweep (bt.passes execution) searchable siblings
        bt.tree.tree.keys fun _ _ => Tree.mem_keys_of_parentOf
      rw [← Tree.size_eq] at swept
      obtain ⟨bt', ran, sets⟩ := exists_updateCoherency searchable [] (.refl bt)
        (by simpa using ⟨notRoot, _, reaches.upTo⟩) swept
      exact ⟨found, bt', by simpa using ran, by simpa using sets,
        .inr ⟨before, _, after, reaches, coherent, incoherent, nodup, mem_iff, ordered⟩⟩

end Search

/-! ## The invariant -/

section Invariant

variable {crypto : Crypto} {bt bt' : BlockTree} {root : RootInfo} {steps : List (BlockTree × Op)}

/-- The list is, without duplicates, that of the stored blocks with this parent. -/
def ListsChildren (bt : BlockTree) (p : BlockId) (l : List BlockId) : Prop :=
  l.Nodup ∧ ∀ k, k ∈ l ↔ bt.tree.parentOf k = some p

structure Represented (crypto : Crypto) (bt : BlockTree) : Prop where
  keyed : Keyed crypto bt.tree
  children : ∀ id e, bt.tree.get id = some e → bt.ListsChildren id e.childrenBlocks
  rootChildren : bt.ListsChildren bt.root.blockId bt.rootChildren
  payloads : bt.tree.PayloadsExact

theorem represented_new (crypto : Crypto) (root : RootInfo) : (BlockTree.new root).Represented crypto where
  keyed := by
    intro id e found
    cases found
  children := by
    intro id e found
    cases found
  rootChildren := ⟨nodup_nil, fun k => iff_of_false not_mem_nil
    (by simp [BlockTree.new, Tree.parentOf, Tree.empty, Tree.get])⟩
  payloads := Tree.payloadsExact_empty

variable {block : ConsensusFullBlock} {blocks commit : List ConsensusFullBlock} {newRoot : BlockId}

/-- A list of children, once the new block is appended to it if it is one of them. -/
theorem Adds.listsChildren (adds : Adds crypto bt bt' block) {p : BlockId} {l : List BlockId}
    (lists : bt.ListsChildren p l) :
    bt'.ListsChildren p (l ++ if block.getParentId = p then [crypto.getId block.header] else []) := by
  have notStored : bt.tree.parentOf (crypto.getId block.header) = none := by simp [Tree.parentOf, adds.fresh]
  have new : crypto.getId block.header ∉ l := by
    rw [lists.2, notStored]
    simp
  constructor
  · split
    · exact nodup_append.mpr ⟨lists.1, nodup_singleton _, by
        rintro k mem _ last rfl; exact new (mem_singleton.mp last ▸ mem)⟩
    · simpa using lists.1
  · intro k
    rw [adds.parentOf, mem_append, lists.2]
    by_cases same : k = crypto.getId block.header
    · subst same
      by_cases isParent : block.getParentId = p <;> simp [notStored, isParent]
    · by_cases isParent : block.getParentId = p <;> simp [same, isParent]

variable (represented : bt.Represented crypto)

include represented

theorem Represented.add (adds : Adds crypto bt bt' block)
    (payloads : bt'.tree.PayloadsExact) : bt'.Represented crypto where
  keyed := adds.keyed represented.keyed
  children := by
    intro k e found
    rw [adds.get] at found
    split at found
    case isTrue same =>
      obtain rfl := some.inj found
      have scanned : bt.ListsChildren k (bt.tree.childrenOf k) :=
        ⟨bt.tree.tree.keys_nodup.sublist (filter_sublist.map _), fun _ => Tree.mem_childrenOf⟩
      simpa [same] using adds.listsChildren scanned
    case isFalse =>
      obtain ⟨e₀, found₀, rfl⟩ := map_eq_some_iff.mp found
      have lists := adds.listsChildren (represented.children k e₀ found₀)
      by_cases isParent : k = block.getParentId
      · simpa [isParent] using lists
      · simpa [isParent, Ne.symm isParent] using lists
  rootChildren := by
    have lists := adds.listsChildren represented.rootChildren
    rw [adds.root, adds.rootChildren]
    by_cases isParent : block.getParentId = bt.root.blockId
    · simpa [isParent] using lists
    · simpa [isParent] using lists
  payloads := payloads

theorem Represented.setsCoherent {ids : List BlockId} (sets : SetsCoherent bt bt' ids) :
    bt'.Represented crypto where
  keyed := sets.keyed represented.keyed
  children := by
    intro k e found
    rw [sets.get] at found
    obtain ⟨e₀, found₀, rfl⟩ := map_eq_some_iff.mp found
    have lists := represented.children k e₀ found₀
    rw [ListsChildren, sets.parentOf]
    split <;> exact lists
  rootChildren := by
    rw [ListsChildren, sets.parentOf, sets.root, sets.rootChildren]
    exact represented.rootChildren
  payloads := sets.payloadsExact represented.payloads

theorem Represented.searchable
    (acyclic : ∀ p path x, bt.Path p path → bt.tree.parentOf x = some p → x ≠ bt.root.blockId) : bt.Searchable where
  nodup := by
    intro x p child
    obtain ⟨e, found, -⟩ := map_eq_some_iff.mp child
    simpa [childrenIds, found] using (represented.children x e found).1
  exact := by
    intro x p child
    obtain ⟨e, found, -⟩ := map_eq_some_iff.mp child
    simpa [childrenIds, found] using (represented.children x e found).2
  acyclic := acyclic

omit represented

/-! ## Rounds -/

/-- Rounds grow along the branches of the tree. -/
structure RoundsGrow (bt : BlockTree) : Prop where
  above : ∀ {k b}, bt.getBlock k = some b → b.getParentRound < b.getBlockRound
  parent : ∀ {k b p}, bt.getBlock k = some b → bt.getBlock b.getParentId = some p → p.getBlockRound ≤ b.getParentRound

theorem roundsGrow_of_follow (follow : RoundsFollow crypto root blocks) (keyed : Keyed crypto bt.tree)
    (stored : ∀ k b, bt.getBlock k = some b → b ∈ blocks) : bt.RoundsGrow where
  above := fun {k b} found => follow.above b (stored k b found)
  parent := by
    intro k b p found foundP
    refine follow.parent b (stored k b found) p (stored _ p foundP) ?_
    obtain ⟨e, here, rfl⟩ := map_eq_some_iff.mp foundP
    exact keyed _ e here

namespace RoundsGrow

variable (grow : bt.RoundsGrow)

include grow

variable {x p : BlockId} {path : List BlockId}

/-- No block of a path, nor one stored under the id of the root, is later than its last one. -/
theorem path_le (reaches : bt.Path x path) {b c : ConsensusFullBlock} (found : bt.getBlock x = some b) {y : BlockId}
    (below : y = bt.root.blockId ∨ y ∈ path) (here : bt.getBlock y = some c) : c.getBlockRound ≤ b.getBlockRound := by
  induction reaches generalizing b with
  | root =>
    obtain rfl | mem := below
    · exact some.inj (here.symm.trans found) ▸ le_rfl
    · cases mem
  | @snoc p x path reachesP child _ ih =>
    by_cases isLast : y = x
    · subst isLast
      exact some.inj (here.symm.trans found) ▸ le_rfl
    have below := below.imp_right fun mem => by simpa [isLast] using mem
    obtain ⟨b', found', rfl⟩ := parentOf_eq_some.mp child
    obtain rfl := some.inj (found.symm.trans found')
    obtain ⟨parent, foundP⟩ : ∃ parent, bt.getBlock b.getParentId = some parent := by
      by_cases isRoot : b.getParentId = bt.root.blockId
      · obtain rfl := (isRoot ▸ reachesP : bt.Path bt.root.blockId path).unique .root
        exact ⟨c, isRoot ▸ (below.resolve_right not_mem_nil) ▸ here⟩
      · obtain ⟨-, parent, -, -, foundP, -⟩ := filterMap_path reachesP isRoot
        exact ⟨parent, foundP⟩
    calc c.getBlockRound ≤ parent.getBlockRound := ih foundP below
      _ ≤ b.getParentRound := grow.parent found foundP
      _ ≤ b.getBlockRound := (grow.above found).le

theorem acyclic (reaches : bt.Path p path) (child : bt.tree.parentOf x = some p) : x ≠ bt.root.blockId := by
  rintro rfl
  obtain ⟨c, atRoot, rfl⟩ := parentOf_eq_some.mp child
  have later := grow.above atRoot
  by_cases isRoot : c.getParentId = bt.root.blockId
  · exact absurd (lt_of_lt_of_le later (grow.parent atRoot (isRoot.symm ▸ atRoot))) (lt_irrefl _)
  · obtain ⟨lower, parent, -, -, foundP, -⟩ := filterMap_path reaches isRoot
    have lower := grow.path_le reaches foundP (.inl rfl) atRoot
    exact absurd ((lower.trans (grow.parent atRoot foundP)).trans_lt later) (lt_irrefl _)

theorem searchable (represented : bt.Represented crypto) : bt.Searchable :=
  represented.searchable fun _ _ _ => grow.acyclic

/-- The children of the new root, and of a block that survives, survive. -/
theorem survives_child (keyed : Keyed crypto bt.tree) {newRoot : BlockId} (reaches : bt.Path newRoot path)
    {new : ConsensusFullBlock} (found : bt.getBlock newRoot = some new) {p k : BlockId}
    (child : bt.tree.parentOf k = some p) (above : p = newRoot ∨ bt.survives crypto newRoot p = true) :
    bt.survives crypto newRoot k = true := by
  obtain ⟨b, foundK, rfl⟩ := parentOf_eq_some.mp child
  have later : new.getBlockRound ≤ b.getParentRound := by
    obtain isNew | kept := above
    · exact grow.parent foundK (isNew ▸ found)
    · unfold survives at kept
      split at kept
      case h_2 => cases kept
      case h_1 new' parent isNew foundP =>
        obtain rfl := some.inj (found.symm.trans isNew)
        have notOlder : new.getBlockRound ≤ parent.getParentRound := by
          simp only [Bool.and_eq_true, decide_eq_true_eq] at kept
          exact kept.2
        calc new.getBlockRound ≤ parent.getParentRound := notOlder
          _ ≤ parent.getBlockRound := (grow.above foundP).le
          _ ≤ b.getParentRound := grow.parent foundK foundP
  have notOnPath : k ∉ path := fun mem =>
    absurd (grow.path_le reaches found (.inr mem) foundK) (not_le.mpr (later.trans_lt (grow.above foundK)))
  simp [survives, found, foundK, committedIds_eq keyed reaches, notOnPath, later]

end RoundsGrow

section

variable (represented : bt.Represented crypto)

include represented

theorem Represented.cuts (grow : bt.RoundsGrow) {entry : BlockTreeEntry}
    {path : List BlockId} (reaches : bt.Path newRoot path) (cuts : Cuts crypto bt bt' newRoot entry)
    (payloads : bt'.tree.PayloadsExact) : bt'.Represented crypto := by
  have found : bt.getBlock newRoot = some entry.validatedBlock := by simp [getBlock, cuts.found]
  have lists : ∀ {p l}, (p = newRoot ∨ bt.survives crypto newRoot p = true) → bt.ListsChildren p l →
      bt'.ListsChildren p l := by
    intro p l above lists
    refine ⟨lists.1, fun k => ?_⟩
    rw [lists.2, cuts.parentOf]
    split
    · rfl
    case isFalse gone =>
      exact iff_of_false (fun child => gone (grow.survives_child represented.keyed reaches found child above)) (by simp)
  refine ⟨fun k e stored => represented.keyed k e (cuts.stored stored).1, fun k e stored => ?_, ?_, payloads⟩
  · obtain ⟨stored, kept⟩ := cuts.stored stored
    exact lists (.inr kept) (represented.children k e stored)
  · rw [cuts.blockId represented.keyed, cuts.rootChildren]
    exact lists (.inl rfl) (represented.children newRoot entry cuts.found)

/-! ## Runs -/

theorem Represented.childrenSound : bt.ChildrenSound := by
  intro id e found k mem p child
  exact some.inj (child.symm.trans (((represented.children id e found).2 k).mp mem))

theorem Represented.step (grow : bt.RoundsGrow) {op : Op} (performs : Performs crypto bt op bt') :
    bt'.Represented crypto ∧ ∀ k b, bt'.getBlock k = some b → bt.getBlock k = some b ∨ op = .add b := by
  obtain rfl | ⟨block, rfl, adds, payloads⟩ | ⟨execution, id, out, -, done⟩ | ⟨newRoot, commit, -, notRoot, -, done⟩ :=
    performs.cases represented.payloads
  · exact ⟨represented, fun _ _ found => .inl found⟩
  · refine ⟨represented.add adds payloads, fun k b found => ?_⟩
    rw [adds.getBlock] at found
    split at found
    · exact .inr (some.inj found ▸ rfl)
    · exact .inl found
  · obtain ⟨ids, sets, -⟩ := tryUpdateCoherency_sets represented.keyed done
    exact ⟨represented.setsCoherent sets, fun k b found => .inl (sets.getBlock ▸ found)⟩
  · obtain ⟨isRoot, -⟩ | ⟨-, path, -, reaches, along, -⟩ := prune_cuts represented.keyed done
    · exact absurd isRoot notRoot
    obtain ⟨bt₁, entry, done', payloads, cuts⟩ :=
      exists_prune represented.keyed represented.payloads notRoot reaches along
    obtain ⟨-, rfl⟩ := Prod.mk.inj (Except.ok.inj (done.symm.trans done'))
    refine ⟨represented.cuts grow reaches cuts payloads, fun k b found => .inl ?_⟩
    obtain ⟨e, stored, rfl⟩ := map_eq_some_iff.mp found
    exact map_eq_some_iff.mpr ⟨e, (cuts.stored stored).1, rfl⟩

end

theorem Op.added_append (ops ops' : List Op) : Op.added (ops ++ ops') = Op.added ops ++ Op.added ops' := by
  induction ops with
  | nil => rfl
  | cons op rest ih => cases op <;> simp [Op.added, ih]

theorem RoundsFollow.mono {blocks blocks' : List ConsensusFullBlock} (follow : RoundsFollow crypto root blocks')
    (sub : blocks ⊆ blocks') : RoundsFollow crypto root blocks where
  above := fun b mem => follow.above b (sub mem)
  root := fun b mem => follow.root b (sub mem)
  parent := fun b mem p memP => follow.parent b (sub mem) p (sub memP)

section

variable (run : Run crypto root steps bt) (follow : RoundsFollow crypto root (Op.added (steps.map (·.2))))

include run follow

theorem represented_of_follow :
    bt.Represented crypto ∧ ∀ k b, bt.getBlock k = some b → b ∈ Op.added (steps.map (·.2)) := by
  induction run with
  | nil => exact ⟨represented_new crypto root, fun k b found => by cases found⟩
  | @snoc steps t t' entry before taken ih =>
    obtain ⟨t, op⟩ := entry
    obtain ⟨rfl, performs⟩ := taken
    rw [map_append, Op.added_append] at follow ⊢
    have follow₀ := follow.mono (subset_append_left _ _)
    obtain ⟨represented, stored⟩ := ih follow₀
    obtain ⟨represented', new⟩ := represented.step (roundsGrow_of_follow follow₀ represented.keyed stored) performs
    refine ⟨represented', fun k b found => ?_⟩
    obtain old | rfl := new k b found
    · exact mem_append_left _ (stored k b old)
    · exact mem_append_right _ (by simp [Op.added])

theorem roundsGrow_of_run : bt.RoundsGrow :=
  have ⟨represented, stored⟩ := represented_of_follow run follow
  roundsGrow_of_follow follow represented.keyed stored

end

/-- One operation of a tree that is represented well. -/
theorem Represented.connected_step (represented : bt.Represented crypto) (connected : bt.Connected) {op : Op}
    (performs : Performs crypto bt op bt') (keeps : ∀ newRoot, op = .prune newRoot → bt.KeepsBranches crypto newRoot) :
    bt'.Connected := by
  obtain rfl | ⟨block, -, adds, -⟩ | ⟨execution, id, out, -, done⟩ | ⟨newRoot, commit, rfl, -, entry, done⟩ :=
    performs.cases represented.payloads
  · exact connected
  · exact adds.connected connected
  · obtain ⟨ids, sets, -, -, ready⟩ := tryUpdateCoherency_sets represented.keyed done
    exact sets.connected connected (ready represented.childrenSound)
  · obtain ⟨commit', bt₁, done', iff, -⟩ := exists_prune_of_connected represented.keyed represented.payloads connected
      (isCoherent_iff.mpr (.inr entry))
    obtain ⟨-, rfl⟩ := Prod.mk.inj (Except.ok.inj (done.symm.trans done'))
    exact iff.mpr (keeps newRoot rfl)

theorem connected_of_run (run : Run crypto root steps bt) (follow : RoundsFollow crypto root
    (Op.added (steps.map (·.2))))
    (keeps : ∀ t newRoot, (t, .prune newRoot) ∈ steps → t.KeepsBranches crypto newRoot) : bt.Connected := by
  induction run with
  | nil => exact connected_new root
  | @snoc steps t t' entry before taken ih =>
    obtain ⟨t, op⟩ := entry
    obtain ⟨rfl, performs⟩ := taken
    have follow₀ : RoundsFollow crypto root (Op.added (steps.map (·.2))) := by
      rw [map_append, Op.added_append] at follow
      exact follow.mono (subset_append_left _ _)
    have connected := ih follow₀ fun t newRoot mem => keeps t newRoot (mem_append_left _ mem)
    exact (represented_of_follow before follow₀).1.connected_step connected performs fun newRoot isPrune =>
      keeps t newRoot (by simp [show op = _ from isPrune])

variable (represented : bt.Represented crypto)

include represented

/-- `prune` finds the branch of every coherent block exactly if the tree is connected. -/
theorem connected_iff_prune (notRoot : ¬ bt.CoherentEntry bt.root.blockId) :
    bt.Connected ↔ ∀ id, bt.isCoherent id = true → ∃ out, bt.prune crypto id = .ok out := by
  constructor
  · intro connected id coherent
    obtain ⟨commit, bt', done, -⟩ := exists_prune_of_connected represented.keyed represented.payloads connected coherent
    exact ⟨(commit, bt'), done⟩
  · intro prunes id entry
    obtain ⟨⟨commit, bt'⟩, done⟩ := prunes id (isCoherent_iff.mpr (.inr entry))
    obtain ⟨rfl, -⟩ | ⟨isNew, path, -, reaches, along, -⟩ := prune_cuts represented.keyed done
    · exact absurd entry notRoot
    · exact ⟨isNew, path, reaches, along⟩

/-- `get_high_committable_qc` looks at every block that hangs on the root. -/
theorem Represented.getHighCommittableQc_eq (grow : bt.RoundsGrow) :
    ∃ found : List BlockId, (∀ x, x ∈ found ↔ Swept bt.tree.parentOf (fun _ => true) bt.rootChildren x) ∧
      bt.getHighCommittableQc =
      .ok ((found.filterMap bt.getBlock).foldl (fun high block => bt.committableQc block high) none) := by
  have searchable := grow.searchable represented
  have siblings : Siblings bt.tree.parentOf bt.root.blockId bt.rootChildren bt.root.blockId [] :=
    ⟨represented.rootChildren.1, fun x mem => (represented.rootChildren.2 x).mp mem, .root⟩
  obtain ⟨found, swept, -, mem, -⟩ := exists_sweep (fun _ => true) searchable siblings bt.tree.tree.keys
    fun _ _ => Tree.mem_keys_of_parentOf
  rw [← Tree.size_eq] at swept
  refine ⟨found, mem, highCommittableQc_eq searchable (fun q mem => ?_) swept⟩
  have child := (represented.rootChildren.2 q).mp mem
  have notRoot := grow.acyclic .root child
  exact ⟨notRoot, _, .snoc .root child notRoot⟩

/-- After a commit, every coherent block can be committed next exactly if the commit kept the branches. -/
theorem Represented.prune_iff (connected : bt.Connected) (coherent : bt.isCoherent newRoot = true)
    (after : ∀ commit bt', bt.prune crypto newRoot = .ok (commit, bt') → bt'.Represented crypto) :
    ∃ commit bt', bt.prune crypto newRoot = .ok (commit, bt') ∧
      ((∀ id, bt'.isCoherent id = true → ∃ out, bt'.prune crypto id = .ok out) ↔ bt.KeepsBranches crypto newRoot) := by
  obtain ⟨commit, bt', done, iff, changed⟩ :=
    exists_prune_of_connected represented.keyed represented.payloads connected coherent
  refine ⟨commit, bt', done, (connected_iff_prune (after commit bt' done) ?_).symm.trans iff⟩
  obtain rfl | ⟨-, notRoot, entry, cuts⟩ := changed
  · exact fun entry => (connected _ entry).1 rfl
  · rw [cuts.blockId represented.keyed, cuts.coherentEntry_iff]
    obtain ⟨-, path, reaches, -⟩ := connected newRoot ((isCoherent_iff.mp coherent).resolve_left notRoot)
    exact fun kept => cuts.not_survives_newRoot represented.keyed notRoot reaches kept.2

omit represented

/-- Rounds that grow along the branches keep the representation of the tree, and with it the operations on the store and
the searches from panicking. `prune` finds the branch of every coherent block as long as the commits before it kept the
branches of coherent blocks. -/
theorem represented_of_run (run : Run crypto root steps bt)
    (follow : RoundsFollow crypto root (Op.added (steps.map (·.2)))) :
    bt.Represented crypto ∧ (∀ block, ∃ bt', bt.add crypto block = .ok bt') ∧
      (∀ id, ∃ out, bt.tree.remove id = .ok out) ∧
      (∀ execution id, ∃ out, bt.tryUpdateCoherency crypto execution id = .ok out) ∧
      (∃ high, bt.getHighCommittableQc = .ok high) ∧
      ((∀ t newRoot, (t, .prune newRoot) ∈ steps → t.KeepsBranches crypto newRoot) →
        ∀ newRoot, bt.isCoherent newRoot = true → ∃ commit bt', bt.prune crypto newRoot = .ok (commit, bt') ∧
          ((∀ id, bt'.isCoherent id = true → ∃ out, bt'.prune crypto id = .ok out) ↔
            bt.KeepsBranches crypto newRoot)) := by
  obtain ⟨represented, -⟩ := represented_of_follow run follow
  have grow := roundsGrow_of_run run follow
  obtain ⟨found, -, high⟩ := represented.getHighCommittableQc_eq grow
  refine ⟨represented, fun block => ?_, fun id => ?_, fun execution id => ?_, ⟨_, high⟩, fun keeps newRoot coherent =>
    ?_⟩
  · obtain ⟨bt', added, -⟩ := exists_add represented.payloads crypto block
    exact ⟨bt', added⟩
  · obtain ⟨t, removed, -⟩ := Tree.exists_remove represented.payloads id
    exact ⟨_, removed⟩
  · obtain ⟨ids, bt', done, -⟩ := exists_tryUpdateCoherency represented.keyed (grow.searchable represented) execution id
    exact ⟨_, done⟩
  · refine represented.prune_iff (connected_of_run run follow keeps) coherent fun commit bt' done => ?_
    have performs : Performs crypto bt (.prune newRoot) bt' := ⟨coherent, by simp [Op.apply, done, Except.map]⟩
    have run' : Run crypto root (steps ++ [(bt, .prune newRoot)]) bt' := run.snoc ⟨rfl, performs⟩
    have follow' : RoundsFollow crypto root (Op.added ((steps ++ [(bt, Op.prune newRoot)]).map (·.2))) := by
      simpa [Op.added_append, Op.added] using follow
    exact (represented_of_follow run' follow').1

end Invariant

section Examples

open FourValidators

/-- The child of the committed block is committed next. -/
theorem represented_of_run_side₅ : ∃ steps bt, Run crypto genesisRoot steps bt ∧
    RoundsFollow crypto genesisRoot (Op.added (steps.map (·.2))) ∧ bt.Represented crypto ∧
    bt.root.blockId = encodeHeader side₅.header ∧
    ∃ out, bt.prune crypto (encodeHeader onSide₅.header) = .ok out := by
  obtain ⟨steps, bt, run, isOps, guards, check⟩ := exists_run_of_replay crypto genesisRoot (guardPrune crypto)
    (arrives onSide₅ ++ arrives side₃ ++ arrives side₅ ++ [.prune (encodeHeader side₅.header)])
    (fun bt => bt.isCoherent (encodeHeader onSide₅.header) && bt.root.blockId = encodeHeader side₅.header)
    (by decide +kernel)
  simp only [Bool.and_eq_true, decide_eq_true_eq] at check
  have follow : RoundsFollow crypto genesisRoot (Op.added (steps.map (·.2))) := by
    rw [isOps]
    exact ⟨by decide, by decide, by decide⟩
  obtain ⟨represented, -, -, -, -, prunes⟩ := represented_of_run run follow
  obtain ⟨commit, bt', done, -⟩ := prunes (fun t newRoot mem => keepsBranches_sound (guards t _ mem)) _ check.1
  exact ⟨steps, bt, run, follow, represented, check.2, _, done⟩

/-- The lower block is committed: its sibling's child can no longer be committed, though it is coherent. -/
theorem prune_panics_on_orphan : ∃ steps bt, Run crypto genesisRoot steps bt ∧
    RoundsFollow crypto genesisRoot (Op.added (steps.map (·.2))) ∧ bt.root.blockId = encodeHeader side₃.header ∧
    bt.isCoherent (encodeHeader onSide₅.header) = true ∧
    ¬ ∃ out, bt.prune crypto (encodeHeader onSide₅.header) = .ok out := by
  obtain ⟨steps, bt, run, isOps, -, check⟩ := exists_run_of_replay crypto genesisRoot (fun _ _ => true)
    (arrives side₅ ++ arrives onSide₅ ++ arrives side₃ ++ [.prune (encodeHeader side₃.header)])
    (fun bt => bt.root.blockId = encodeHeader side₃.header && bt.isCoherent (encodeHeader onSide₅.header) &&
      !(bt.prune crypto (encodeHeader onSide₅.header)).toBool) (by decide +kernel)
  simp only [Bool.and_eq_true, decide_eq_true_eq, Bool.not_eq_true'] at check
  refine ⟨steps, bt, run, ?_, check.1.1, check.1.2, ?_⟩
  · rw [isOps]
    exact ⟨by decide, by decide, by decide⟩
  · rintro ⟨out, done⟩
    simp [done, Except.toBool] at check

end Examples

end BlockTree

end MonadBft
