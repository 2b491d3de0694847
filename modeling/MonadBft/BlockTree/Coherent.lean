import MonadBft.Instance

/-! # Coherent blocks stay connected

Runs of the operations of the block tree. A commit drops the blocks whose QC is older than
the new root, and not those that do not descend from it. A block of another branch may
survive its own parent in this way; it stays marked coherent, and the tree no longer has a
path to it.
-/

namespace MonadBft

open List

namespace BlockTree

/-! ## Runs of operations -/

inductive Op where
  | add (block : ConsensusFullBlock)
  | tryUpdateCoherency (execution : ExecutionCheck) (id : BlockId)
  | prune (newRoot : BlockId)

def Op.apply (crypto : Crypto) (bt : BlockTree) : Op → Except Panic BlockTree
  | .add block => bt.add crypto block
  | .tryUpdateCoherency execution id => (bt.tryUpdateCoherency crypto execution id).map (·.1)
  | .prune newRoot => (bt.prune crypto newRoot).map (·.2)

/-- `prune` is only called on a coherent block. -/
def Op.allowed (bt : BlockTree) : Op → Bool
  | .prune newRoot => bt.isCoherent newRoot
  | _ => true

def Op.added : List Op → List ConsensusFullBlock
  | [] => []
  | .add block :: rest => block :: Op.added rest
  | _ :: rest => Op.added rest

def Performs (crypto : Crypto) (bt : BlockTree) (op : Op) (bt' : BlockTree) : Prop :=
  op.allowed bt = true ∧ op.apply crypto bt = .ok bt'

abbrev Run (crypto : Crypto) (root : RootInfo) (steps : List (BlockTree × Op)) (bt : BlockTree) : Prop :=
  Trace (Trace.Recorded (Performs crypto)) (.new root) steps bt

/-- A block is later than its QC, and the QC is not older than the block it certifies. -/
structure RoundsFollow (crypto : Crypto) (root : RootInfo) (blocks : List ConsensusFullBlock) : Prop where
  above : ∀ b ∈ blocks, b.getParentRound < b.getBlockRound
  root : ∀ b ∈ blocks, b.getParentId = root.blockId → root.round ≤ b.getParentRound
  parent : ∀ b ∈ blocks, ∀ p ∈ blocks, crypto.getId p.header = b.getParentId → p.getBlockRound ≤ b.getParentRound

section Runs

variable {crypto : Crypto} {bt bt' : BlockTree} {root : RootInfo} {steps : List (BlockTree × Op)}

/-- Apply the operations one after the other; `none` if one of them panics or fails the guard. -/
def replay (crypto : Crypto) (guard : BlockTree → Op → Bool) (bt : BlockTree) :
    List Op → Option (BlockTree × List (BlockTree × Op))
  | [] => some (bt, [])
  | op :: rest =>
    match op.allowed bt && guard bt op, op.apply crypto bt with
    | true, .ok bt' => (replay crypto guard bt' rest).map fun (final, steps) => (final, (bt, op) :: steps)
    | _, _ => none

theorem trace_of_replay {guard : BlockTree → Op → Bool} {final : BlockTree} {ops : List Op}
    (h : replay crypto guard bt ops = some (final, steps)) :
    Trace (Trace.Recorded (Performs crypto)) bt steps final ∧ steps.map (·.2) = ops ∧
      ∀ t op, (t, op) ∈ steps → guard t op = true := by
  induction ops generalizing bt steps with
  | nil =>
    obtain ⟨rfl, rfl⟩ : bt = final ∧ [] = steps := by simpa [replay] using h
    exact ⟨.nil, rfl, by simp⟩
  | cons op rest ih =>
    unfold replay at h
    split at h
    case h_2 => cases h
    case h_1 bt' checked applied =>
      obtain ⟨⟨final', later⟩, rest', same⟩ := Option.map_eq_some_iff.mp h
      obtain ⟨rfl, rfl⟩ := Prod.mk.inj same
      obtain ⟨allowed, guarded⟩ := Bool.and_eq_true_iff.mp checked
      obtain ⟨run, events, guards⟩ := ih rest'
      have step : Trace.Recorded (Performs crypto) bt (bt, op) bt' := ⟨rfl, allowed, applied⟩
      refine ⟨run.cons step, by simp [events], fun t op' mem => ?_⟩
      obtain same | mem := mem_cons.mp mem
      · obtain ⟨rfl, rfl⟩ := Prod.mk.inj same
        exact guarded
      · exact guards t op' mem

variable {newRoot : BlockId}

/-- To commit the root again changes nothing. -/
theorem prune_root (isRoot : newRoot = bt.root.blockId) (coherent : bt.isCoherent newRoot = true) :
    bt.prune crypto newRoot = .ok ([], bt) := by
  subst isRoot
  simp [prune, coherent]

/-- What one operation does to the tree. -/
theorem Performs.cases (exact : bt.tree.PayloadsExact) {op : Op} (performs : Performs crypto bt op bt') :
    bt' = bt ∨ (∃ block, op = .add block ∧ Adds crypto bt bt' block ∧ bt'.tree.PayloadsExact) ∨
    (∃ execution id out, op = .tryUpdateCoherency execution id ∧
      bt.tryUpdateCoherency crypto execution id = .ok (bt', out)) ∨
    ∃ newRoot commit, op = .prune newRoot ∧ newRoot ≠ bt.root.blockId ∧ bt.CoherentEntry newRoot ∧
      bt.prune crypto newRoot = .ok (commit, bt') := by
  obtain ⟨allowed, applied⟩ := performs
  cases op with
  | add block =>
    obtain ⟨bt₁, added, exact'⟩ := exists_add exact crypto block
    obtain rfl := Except.ok.inj (added.symm.trans applied)
    obtain ⟨-, same⟩ | adds := add_cases added
    · exact .inl same
    · exact .inr (.inl ⟨block, rfl, adds, exact'⟩)
  | tryUpdateCoherency execution id =>
    cases done : bt.tryUpdateCoherency crypto execution id with
    | error e => simp [Op.apply, done, Except.map] at applied
    | ok result =>
      obtain rfl : result.1 = bt' := by simpa [Op.apply, done, Except.map] using applied
      exact .inr (.inr (.inl ⟨execution, id, result.2, rfl, done⟩))
  | prune newRoot =>
    cases done : bt.prune crypto newRoot with
    | error e => simp [Op.apply, done, Except.map] at applied
    | ok result =>
      obtain rfl : result.2 = bt' := by simpa [Op.apply, done, Except.map] using applied
      by_cases isRoot : newRoot = bt.root.blockId
      · obtain rfl := Except.ok.inj ((prune_root isRoot allowed).symm.trans done)
        exact .inl rfl
      · have entry := (isCoherent_iff.mp allowed).resolve_left isRoot
        exact .inr (.inr (.inr ⟨newRoot, result.1, rfl, isRoot, entry, done⟩))

/-- A run with a decidable property, found by replaying operations. -/
theorem exists_run_of_replay (crypto : Crypto) (root : RootInfo) (guard : BlockTree → Op → Bool) (ops : List Op)
    (P : BlockTree → Bool) (h : (replay crypto guard (.new root) ops).map (fun (bt, _) => P bt) = some true) :
    ∃ steps bt, Run crypto root steps bt ∧ steps.map (·.2) = ops ∧ (∀ t op, (t, op) ∈ steps → guard t op = true) ∧
      P bt = true := by
  obtain ⟨⟨bt, steps⟩, replayed, holds⟩ := Option.map_eq_some_iff.mp h
  obtain ⟨run, isOps, guards⟩ := trace_of_replay replayed
  exact ⟨steps, bt, run, isOps, guards, holds⟩

/-! ## Connected trees -/

/-- Listed children are blocks that name this one as their parent, whether they are stored or not. -/
def ChildrenExtend (crypto : Crypto) (bt : BlockTree) : Prop :=
  ∀ id e, bt.tree.get id = some e → ∀ header, crypto.getId header ∈ e.childrenBlocks → header.getParentId = id

/-- A tree whose coherent blocks are connected, and what keeps it so. -/
structure WellConnected (crypto : Crypto) (bt : BlockTree) : Prop where
  keyed : Keyed crypto bt.tree
  payloads : bt.tree.PayloadsExact
  children : bt.ChildrenExtend crypto
  connected : bt.Connected

theorem ChildrenExtend.sound (extends_ : bt.ChildrenExtend crypto) (keyed : Keyed crypto bt.tree) :
    bt.ChildrenSound := by
  intro id e found k mem p child
  obtain ⟨e', found', rfl⟩ := Option.map_eq_some_iff.mp child
  exact extends_ id e found e'.validatedBlock.header (keyed k e' found' ▸ mem)

theorem wellConnected_new (crypto : Crypto) (root : RootInfo) : (BlockTree.new root).WellConnected crypto where
  keyed := by
    intro id e found
    cases found
  payloads := Tree.payloadsExact_empty
  children := by
    intro id e found
    cases found
  connected := connected_new root

theorem Adds.keyed {block : ConsensusFullBlock} (adds : Adds crypto bt bt' block) (keyed : Keyed crypto bt.tree) :
    Keyed crypto bt'.tree := by
  intro k e found
  obtain ⟨rfl, rfl, -⟩ | ⟨e₀, found₀, same, -⟩ := adds.entry found
  · rfl
  · exact same ▸ keyed k e₀ found₀

theorem SetsCoherent.keyed {ids : List BlockId} (sets : SetsCoherent bt bt' ids) (keyed : Keyed crypto bt.tree) :
    Keyed crypto bt'.tree := by
  intro k e found
  rw [sets.get] at found
  obtain ⟨e₀, found₀, rfl⟩ := Option.map_eq_some_iff.mp found
  split <;> exact keyed k e₀ found₀

/-- A commit keeps the tree connected exactly if it keeps the branches of coherent blocks. -/
theorem exists_prune_of_connected (keyed : Keyed crypto bt.tree) (payloads : bt.tree.PayloadsExact)
    (connected : bt.Connected) (coherent : bt.isCoherent newRoot = true) :
    ∃ commit bt', bt.prune crypto newRoot = .ok (commit, bt') ∧ (bt'.Connected ↔ bt.KeepsBranches crypto newRoot) ∧
      (bt' = bt ∨ bt'.tree.PayloadsExact ∧ newRoot ≠ bt.root.blockId ∧ ∃ entry, Cuts crypto bt bt' newRoot entry) := by
  by_cases isRoot : newRoot = bt.root.blockId
  · exact ⟨[], bt, prune_root isRoot coherent, iff_of_true connected (.inl isRoot), .inl rfl⟩
  · have entry := (isCoherent_iff.mp coherent).resolve_left isRoot
    obtain ⟨-, path, reaches, along⟩ := connected newRoot entry
    obtain ⟨bt', entry, done, exact', cuts⟩ := exists_prune keyed payloads isRoot reaches along
    exact ⟨_, bt', done, cuts.connected_iff keyed connected isRoot reaches, .inr ⟨exact', isRoot, entry, cuts⟩⟩

namespace WellConnected

variable (well : bt.WellConnected crypto)

include well

theorem add (injective : Function.Injective crypto.getId) {block : ConsensusFullBlock} (adds : Adds crypto bt bt' block)
    (payloads : bt'.tree.PayloadsExact) : bt'.WellConnected crypto where
  keyed := adds.keyed well.keyed
  payloads := payloads
  children := by
    intro k e found header mem
    rw [adds.get] at found
    split at found
    case isTrue same =>
      obtain rfl := Option.some.inj found
      obtain scanned | self := mem_append.mp mem
      · -- a stored block that names the new one
        obtain ⟨e, stored, isParent⟩ := Option.map_eq_some_iff.mp (Tree.mem_childrenOf.mp scanned)
        obtain rfl := injective (well.keyed _ e stored)
        exact isParent.trans same.symm
      · split at self
        case isTrue isSelf =>
          obtain rfl := injective (mem_singleton.mp self)
          exact isSelf.trans same.symm
        case isFalse => cases self
    case isFalse =>
      obtain ⟨e₀, found₀, rfl⟩ := Option.map_eq_some_iff.mp found
      split at mem
      case isTrue isParent =>
        obtain old | new := mem_append.mp mem
        · exact well.children k e₀ found₀ header old
        · obtain rfl := injective (mem_singleton.mp new)
          exact isParent.symm
      case isFalse => exact well.children k e₀ found₀ header mem
  connected := adds.connected well.connected

theorem tryUpdateCoherency {execution : ExecutionCheck} {id : BlockId} {out : List ConsensusFullBlock}
    (h : bt.tryUpdateCoherency crypto execution id = .ok (bt', out)) : bt'.WellConnected crypto := by
  obtain ⟨ids, sets, -, -, ready⟩ := tryUpdateCoherency_sets well.keyed h
  refine ⟨sets.keyed well.keyed, sets.payloadsExact well.payloads, ?_,
    sets.connected well.connected (ready (well.children.sound well.keyed))⟩
  intro k e found header mem
  rw [sets.get] at found
  obtain ⟨e₀, found₀, rfl⟩ := Option.map_eq_some_iff.mp found
  refine well.children k e₀ found₀ header ?_
  split at mem <;> exact mem

theorem exists_prune {newRoot : BlockId} (coherent : bt.isCoherent newRoot = true) :
    ∃ commit bt', bt.prune crypto newRoot = .ok (commit, bt') ∧
      (bt'.Connected ↔ bt.KeepsBranches crypto newRoot) ∧
      (bt.KeepsBranches crypto newRoot → bt'.WellConnected crypto) := by
  obtain ⟨commit, bt', done, iff, same | ⟨payloads, -, entry, cuts⟩⟩ :=
    exists_prune_of_connected well.keyed well.payloads well.connected coherent
  · exact ⟨commit, bt', done, iff, fun _ => same ▸ well⟩
  · refine ⟨commit, bt', done, iff, fun keeps => ⟨?_, payloads, ?_, iff.mpr keeps⟩⟩
    · exact fun k e found => well.keyed k e (cuts.stored found).1
    · exact fun k e found => well.children k e (cuts.stored found).1

theorem step (injective : Function.Injective crypto.getId) {op : Op} (performs : Performs crypto bt op bt')
    (keeps : ∀ newRoot, op = .prune newRoot → bt.KeepsBranches crypto newRoot) : bt'.WellConnected crypto := by
  obtain rfl | ⟨block, -, adds, payloads⟩ | ⟨execution, id, out, -, done⟩ | ⟨newRoot, commit, rfl, -, entry, done⟩ :=
    performs.cases well.payloads
  · exact well
  · exact well.add injective adds payloads
  · exact well.tryUpdateCoherency done
  · obtain ⟨commit', bt₁, done', -, kept⟩ := well.exists_prune (isCoherent_iff.mpr (.inr entry))
    obtain ⟨-, rfl⟩ := Prod.mk.inj (Except.ok.inj (done.symm.trans done'))
    exact kept (keeps newRoot rfl)

end WellConnected

theorem wellConnected_of_run (injective : Function.Injective crypto.getId) (run : Run crypto root steps bt)
    (keeps : ∀ t newRoot, (t, .prune newRoot) ∈ steps → t.KeepsBranches crypto newRoot) : bt.WellConnected crypto := by
  induction run with
  | nil => exact wellConnected_new crypto root
  | @snoc steps t t' entry before taken ih =>
    obtain ⟨t, op⟩ := entry
    obtain ⟨rfl, performs⟩ := taken
    have well := ih fun t newRoot mem => keeps t newRoot (mem_append_left _ mem)
    exact well.step injective performs fun newRoot isPrune => keeps t newRoot (by simp [show op = _ from isPrune])

/-- In a run whose commits all keep the branches of coherent blocks, every coherent block is connected: the walk to the
root finds its path, and `prune` finds the branch to commit. A further commit keeps this exactly if it keeps the
branches. -/
theorem coherent_connected (injective : Function.Injective crypto.getId) (run : Run crypto root steps bt)
    (keeps : ∀ t newRoot, (t, .prune newRoot) ∈ steps → t.KeepsBranches crypto newRoot) :
    bt.Connected ∧ ∀ id, bt.isCoherent id = true → (bt.getBlocksOnPathFromRoot id).isSome = true ∧
      ∃ commit bt', bt.prune crypto id = .ok (commit, bt') ∧ (bt'.Connected ↔ bt.KeepsBranches crypto id) := by
  have well := wellConnected_of_run injective run keeps
  refine ⟨well.connected, fun id coherent => ⟨?_, ?_⟩⟩
  · exact getBlocksOnPathFromRoot_isSome_iff.mpr (well.connected.path coherent)
  · obtain ⟨commit, bt', done, iff, -⟩ := well.exists_prune coherent
    exact ⟨commit, bt', done, iff⟩

/-- `KeepsBranches`, computed. -/
def keepsBranches (crypto : Crypto) (bt : BlockTree) (newRoot : BlockId) : Bool :=
  let keeps (id : BlockId) : Bool := (bt.tree.get id).any (·.isCoherent) && bt.survives crypto newRoot id
  newRoot = bt.root.blockId || bt.tree.tree.keys.all fun id =>
    !keeps id || (bt.tree.parentOf id).any fun p => p = newRoot || keeps p

theorem keepsBranches_sound (h : bt.keepsBranches crypto newRoot = true) : bt.KeepsBranches crypto newRoot := by
  have entry_iff : ∀ {id}, (bt.tree.get id).any (·.isCoherent) = true ↔ bt.CoherentEntry id := by
    intro id
    unfold CoherentEntry
    cases bt.tree.get id <;> simp
  simp only [keepsBranches, Bool.or_eq_true, decide_eq_true_eq, all_eq_true] at h
  refine h.imp_right fun all id entry kept => ?_
  have ⟨e, found, _⟩ := entry
  have here := all id (Tree.mem_keys_of_get found)
  rw [entry_iff.mpr entry, kept] at here
  cases child : bt.tree.parentOf id with
  | none => simp [child] at here
  | some p =>
    refine ⟨p, rfl, ?_⟩
    simpa [child, entry_iff] using here

def guardPrune (crypto : Crypto) (bt : BlockTree) : Op → Bool
  | .prune newRoot => bt.keepsBranches crypto newRoot
  | _ => true

end Runs

section Examples

open FourValidators

/-- Add a block and update its coherency, with nothing to check about execution. -/
def arrives (b : ConsensusFullBlock) : List Op := [.add b, .tryUpdateCoherency (fun _ _ _ => true)
    (encodeHeader b.header)]

/-- Two blocks on the root, and a child of the higher one. -/
def side₅ : ConsensusFullBlock := block 5 crypto.genesisQc 1 0
def side₃ : ConsensusFullBlock := block 3 crypto.genesisQc 1 1
def onSide₅ : ConsensusFullBlock := block 6 (qcFor 5 side₅) 2 0

/-- The higher block is committed; its child stays. -/
theorem coherent_connected_side₅ : ∃ steps bt, Run crypto genesisRoot steps bt ∧
    bt.isCoherent (encodeHeader onSide₅.header) = true ∧
    (bt.getBlocksOnPathFromRoot (encodeHeader onSide₅.header)).isSome = true ∧ bt.Connected := by
  obtain ⟨steps, bt, run, -, guards, coherent⟩ := exists_run_of_replay crypto genesisRoot (guardPrune crypto)
    (arrives side₃ ++ arrives side₅ ++ arrives onSide₅ ++ [.prune (encodeHeader side₅.header)])
    (fun bt => bt.isCoherent (encodeHeader onSide₅.header)) (by decide +kernel)
  have both := coherent_connected encodeHeader_injective run fun t newRoot mem => keepsBranches_sound (guards t _ mem)
  exact ⟨steps, bt, run, coherent, (both.2 _ coherent).1, both.1⟩

/-- The lower block is committed: the higher one is dropped, but its child stays, coherent and without a path to the
root. -/
theorem coherent_orphan : ∃ steps bt, Run crypto genesisRoot steps bt ∧
    RoundsFollow crypto genesisRoot (Op.added (steps.map (·.2))) ∧
    bt.isCoherent (encodeHeader onSide₅.header) = true ∧
    bt.getBlocksOnPathFromRoot (encodeHeader onSide₅.header) = none ∧
    bt.prune crypto (encodeHeader onSide₅.header) = .error .blockTree := by
  let panics (bt : BlockTree) : Bool :=
    match bt.prune crypto (encodeHeader onSide₅.header) with
    | .error .blockTree => true
    | _ => false
  obtain ⟨steps, bt, run, isOps, -, check⟩ := exists_run_of_replay crypto genesisRoot (fun _ _ => true)
    (arrives side₃ ++ arrives side₅ ++ arrives onSide₅ ++ [.prune (encodeHeader side₃.header)])
    (fun bt => bt.isCoherent (encodeHeader onSide₅.header) &&
      (bt.getBlocksOnPathFromRoot (encodeHeader onSide₅.header)).isNone && panics bt) (by decide +kernel)
  simp only [Bool.and_eq_true, Option.isNone_iff_eq_none] at check
  refine ⟨steps, bt, run, ?_, check.1.1, check.1.2, ?_⟩
  · rw [isOps]
    exact ⟨by decide, by decide, by decide⟩
  · have panicked := check.2
    simp only [panics] at panicked
    split at panicked
    · assumption
    · cases panicked

end Examples

end BlockTree

end MonadBft
