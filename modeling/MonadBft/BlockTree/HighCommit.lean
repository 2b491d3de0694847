import MonadBft.BlockTree.Invariant

/-! # The highest committable QC

`get_high_committable_qc` looks at the QCs that the blocks of the tree carry and returns one of the highest round among
those that commit a coherent block above the root. The block that it commits was certified in a round at least as high
as for any other; its own round is lower where it was proposed again.
-/

namespace MonadBft.BlockTree

open List Option

section Search

variable {crypto : Crypto} {bt : BlockTree}

/-- Reachable from the root through the lists of children. -/
inductive Reached (bt : BlockTree) : BlockId → Prop where
  | root {id : BlockId} (mem : id ∈ bt.rootChildren) : Reached bt id
  | child {p id : BlockId} {e : BlockTreeEntry} (above : Reached bt p) (stored : bt.tree.get p = some e)
      (mem : id ∈ e.childrenBlocks) : Reached bt id

/-- `qc` certifies `block`, in the round after the one in which the parent `newRoot` of `block` was certified. -/
structure Commits (bt : BlockTree) (qc : QuorumCertificate) (block : ConsensusFullBlock) (newRoot : BlockId) :
    Prop where
  certified : bt.getBlock qc.getBlockId = some block
  consecutive : qc.getRound = block.getParentRound + 1
  parent : block.getParentId = newRoot
  above : newRoot ≠ bt.root.blockId
  coherent : bt.isCoherent newRoot = true

/-- A block that is reachable from the root carries a QC that commits `newRoot`. -/
structure Offers (bt : BlockTree) (qc : QuorumCertificate) (block : ConsensusFullBlock) (newRoot : BlockId) : Prop where
  carried : ∃ id carrier, bt.Reached id ∧ bt.getBlock id = some carrier ∧ carrier.getQc = qc
  commits : bt.Commits qc block newRoot

/-- The lists of children lead to the same blocks as the parent pointers. -/
theorem Represented.reached_iff (represented : bt.Represented crypto) {id : BlockId} :
    bt.Reached id ↔ Swept bt.tree.parentOf (fun _ => true) bt.rootChildren id := by
  constructor
  · intro reached
    induction reached with
    | root mem => exact .start mem rfl
    | child _ stored mem ih => exact .child ih (((represented.children _ _ stored).2 _).mp mem) rfl
  · intro swept
    induction swept with
    | start mem _ => exact .root mem
    | @child p x above child _ ih =>
      -- A parent pointer does not say that the parent is stored; that it was swept does.
      have stored : ∃ e, bt.tree.get p = some e := by
        cases above with
        | start mem _ =>
          obtain ⟨e, stored, -⟩ := map_eq_some_iff.mp ((represented.rootChildren.2 p).mp mem)
          exact ⟨e, stored⟩
        | child _ child _ =>
          obtain ⟨e, stored, -⟩ := map_eq_some_iff.mp child
          exact ⟨e, stored⟩
      obtain ⟨e, stored⟩ := stored
      exact .child ih stored (((represented.children p e stored).2 x).mpr child)

/-! ## The fold -/

def AtLeast (high out : Option QuorumCertificate) : Prop := ∀ h, high = some h → ∃ q, out = some q ∧
    h.getRound ≤ q.getRound

theorem AtLeast.trans {high middle out : Option QuorumCertificate} (first : AtLeast high middle)
    (second : AtLeast middle out) : AtLeast high out := by
  intro h isHigh
  obtain ⟨q, isMiddle, le⟩ := first h isHigh
  obtain ⟨q', isOut, le'⟩ := second q isMiddle
  exact ⟨q', isOut, le.trans le'⟩

/-- A block replaces the QC by its own if that commits and is higher. -/
theorem committableQc_spec (carrier : ConsensusFullBlock) (high : Option QuorumCertificate) :
    (bt.committableQc carrier high = high ∨
      bt.committableQc carrier high = some carrier.getQc ∧ ∃ block newRoot, bt.Commits carrier.getQc block newRoot) ∧
    AtLeast high (bt.committableQc carrier high) ∧
    ∀ block newRoot, bt.Commits carrier.getQc block newRoot → AtLeast (some carrier.getQc)
      (bt.committableQc carrier high) := by
  have same : AtLeast high high := fun h isHigh => ⟨h, isHigh, le_rfl⟩
  -- One case for each place where the search goes on to the next block.
  unfold committableQc
  dsimp only
  split
  case isTrue lower =>
    refine ⟨.inl rfl, same, fun block newRoot commits h isHigh => ?_⟩
    cases high with
    | none => simp at lower
    | some high => exact ⟨high, rfl, by simpa [← some.inj isHigh] using lower⟩
  case isFalse higher =>
    split
    case h_1 unknown => exact ⟨.inl rfl, same, fun block _ commits => by simp [commits.certified] at unknown⟩
    case h_2 block certified =>
      unfold getCommittableId
      by_cases consecutive : carrier.getQc.getRound = block.getParentRound + 1
      · have commits_iff : ∀ block' newRoot, bt.Commits carrier.getQc block' newRoot →
            block.getParentId ≠ bt.root.blockId ∧ bt.isCoherent block.getParentId = true := by
          intro block' newRoot commits
          obtain rfl := some.inj (certified.symm.trans commits.certified)
          exact commits.parent ▸ ⟨commits.above, commits.coherent⟩
        rw [if_pos (show carrier.getQc.getRound = block.header.qc.getRound + 1 from consecutive)]
        dsimp only
        split
        case isTrue isRoot => exact ⟨.inl rfl, same, fun _ _ commits => absurd isRoot (commits_iff _ _ commits).1⟩
        case isFalse notRoot =>
          split
          case isTrue coherent =>
            have commits : bt.Commits carrier.getQc block block.getParentId :=
              ⟨certified, consecutive, rfl, notRoot, coherent⟩
            refine ⟨.inr ⟨rfl, block, _, commits⟩, ?_, fun _ _ _ h isHigh => ⟨_, rfl, (some.inj isHigh ▸ le_rfl)⟩⟩
            rintro h rfl
            exact ⟨_, rfl, by simpa using (not_le.mp (by simpa using higher)).le⟩
          case isFalse incoherent => exact ⟨.inl rfl, same, fun _ _ commits => absurd
            (commits_iff _ _ commits).2 incoherent⟩
      · rw [if_neg (show ¬carrier.getQc.getRound = block.header.qc.getRound + 1 from consecutive)]
        refine ⟨.inl rfl, same, fun block' _ commits => absurd ?_ consecutive⟩
        rw [some.inj (certified.symm.trans commits.certified)]
        exact commits.consecutive

theorem foldl_committableQc_spec (carriers : List ConsensusFullBlock) (high : Option QuorumCertificate) :
    let out := carriers.foldl (fun high block => bt.committableQc block high) high
    (out = high ∨ ∃ carrier ∈ carriers, out = some carrier.getQc ∧ ∃ block newRoot,
      bt.Commits carrier.getQc block newRoot) ∧
    AtLeast high out ∧ ∀ carrier ∈ carriers, ∀ block newRoot, bt.Commits carrier.getQc block newRoot →
      AtLeast (some carrier.getQc) out := by
  induction carriers generalizing high with
  | nil => exact ⟨.inl rfl, fun h isHigh => ⟨h, isHigh, le_rfl⟩, by simp⟩
  | cons first rest ih =>
    obtain ⟨source, mono, reaches⟩ := bt.committableQc_spec first high
    obtain ⟨source', mono', reaches'⟩ := ih (bt.committableQc first high)
    refine ⟨?_, mono.trans mono', ?_⟩
    · obtain same | ⟨carrier, mem, found⟩ := source'
      · rw [foldl_cons, same]
        exact source.imp_right fun found => ⟨first, by simp, found⟩
      · exact .inr ⟨carrier, mem_cons_of_mem _ mem, found⟩
    · intro carrier mem block newRoot commits
      obtain rfl | later := mem_cons.mp mem
      · exact (reaches block newRoot commits).trans mono'
      · exact reaches' carrier later block newRoot commits

/-! ## The result -/

/-- Where a commit of `newRoot` ends. -/
theorem Offers.prune (represented : bt.Represented crypto) (grow : bt.RoundsGrow) (connected : bt.Connected)
    {qc : QuorumCertificate} {block : ConsensusFullBlock} {newRoot : BlockId} (offers : bt.Offers qc block newRoot) :
    ∃ commit bt', bt.prune crypto newRoot = .ok (commit, bt') ∧ bt'.root.blockId = newRoot ∧
      bt'.root.round ≤ block.getParentRound := by
  obtain ⟨commit, bt', done, -, same | ⟨-, -, entry, cuts⟩⟩ :=
    exists_prune_of_connected represented.keyed represented.payloads connected offers.commits.coherent
  · -- The tree stays as it is only for the root itself.
    have prunes := offers.commits.above
    have entry := (isCoherent_iff.mp offers.commits.coherent).resolve_left prunes
    obtain ⟨-, path, reaches, along⟩ := connected newRoot entry
    obtain ⟨bt'', entry, done', -, cuts⟩ := exists_prune represented.keyed represented.payloads prunes reaches along
    obtain ⟨-, rfl⟩ := Prod.mk.inj (Except.ok.inj (done.symm.trans done'))
    exact absurd (cuts.blockId represented.keyed) (same ▸ prunes.symm)
  · refine ⟨commit, bt', done, cuts.blockId represented.keyed, ?_⟩
    rw [cuts.root]
    exact grow.parent offers.commits.certified (by simp [offers.commits.parent, getBlock, cuts.found])

/-- In a well-formed tree the search returns a QC exactly if a reachable block carries one that commits, and then one of
the highest round. The block that it commits was certified in a round at least as high as for any other; if that was
its own round, no other QC leads to a higher root. -/
theorem high_committable_qc_highest (represented : bt.Represented crypto) (grow : bt.RoundsGrow)
    (connected : bt.Connected) : ∃ high, bt.getHighCommittableQc = .ok high ∧
      ((∃ qc, high = some qc) ↔ ∃ qc block newRoot, bt.Offers qc block newRoot) ∧
      ∀ qc, high = some qc → ∃ block newRoot, bt.Offers qc block newRoot ∧
        ∃ commit bt', bt.prune crypto newRoot = .ok (commit, bt') ∧ bt'.root.blockId = newRoot ∧
          ∀ qc' block' newRoot', bt.Offers qc' block' newRoot' →
            qc'.getRound ≤ qc.getRound ∧ block'.getParentRound ≤ block.getParentRound ∧
            ∃ commit' bt'', bt.prune crypto newRoot' = .ok (commit', bt'') ∧
              (bt'.root.round = block.getParentRound → bt''.root.round ≤ bt'.root.round) := by
  obtain ⟨found, visits, returns⟩ := represented.getHighCommittableQc_eq grow
  obtain ⟨source, -, reaches⟩ := bt.foldl_committableQc_spec (found.filterMap bt.getBlock) none
  set high := (found.filterMap bt.getBlock).foldl (fun high block => bt.committableQc block high) none
  have offered : ∀ qc, high = some qc → ∃ block newRoot, bt.Offers qc block newRoot := by
    intro qc isHigh
    obtain isNone | ⟨carrier, mem, isQc, block, newRoot, commits⟩ := source
    · simp [isHigh] at isNone
    · obtain ⟨id, visited, isCarrier⟩ := mem_filterMap.mp mem
      obtain rfl := some.inj (isHigh.symm.trans isQc)
      exact ⟨block, newRoot, ⟨id, carrier, represented.reached_iff.mpr ((visits id).mp visited), isCarrier, rfl⟩,
        commits⟩
  have highest : ∀ qc block newRoot, bt.Offers qc block newRoot → AtLeast (some qc) high := by
    rintro qc block newRoot ⟨⟨id, carrier, reached, isCarrier, rfl⟩, commits⟩
    exact reaches carrier (mem_filterMap.mpr ⟨id, (visits id).mpr (represented.reached_iff.mp reached), isCarrier⟩)
      block newRoot commits
  refine ⟨high, returns, ⟨fun ⟨qc, isHigh⟩ => ⟨qc, offered qc isHigh⟩, ?_⟩, fun qc isHigh => ?_⟩
  · rintro ⟨qc, block, newRoot, offers⟩
    obtain ⟨q, isHigh, -⟩ := highest qc block newRoot offers qc rfl
    exact ⟨q, isHigh⟩
  · obtain ⟨block, newRoot, offers⟩ := offered qc isHigh
    obtain ⟨commit, bt', done, isRoot, -⟩ := offers.prune represented grow connected
    refine ⟨block, newRoot, offers, commit, bt', done, isRoot, fun qc' block' newRoot' offers' => ?_⟩
    obtain ⟨q, isHigh', le⟩ := highest qc' block' newRoot' offers' qc' rfl
    obtain rfl := some.inj (isHigh.symm.trans isHigh')
    have rounds : block'.getParentRound ≤ block.getParentRound := by
      have first := offers.commits.consecutive
      have second := offers'.commits.consecutive
      lia
    obtain ⟨commit', bt'', done', -, bound⟩ := offers'.prune represented grow connected
    exact ⟨le, rounds, commit', bt'', done', fun own => own ▸ bound.trans rounds⟩

end Search

section Examples

open FourValidators

/-- A block of round 1 that is certified again in round 5, and a branch of which the second block is committed in
round 4. -/
def reproposed : ConsensusFullBlock := block 1 crypto.genesisQc 1 0
def branch₂ : ConsensusFullBlock := block 2 crypto.genesisQc 1 1
def branch₃ : ConsensusFullBlock := block 3 (qcFor 2 branch₂) 2 0
def branch₄ : ConsensusFullBlock := block 4 (qcFor 3 branch₃) 3 0
def branch₅ : ConsensusFullBlock := block 5 (qcFor 4 branch₄) 4 0
def onReproposed₆ : ConsensusFullBlock := block 6 (qcFor 5 reproposed) 2 0
def onReproposed₇ : ConsensusFullBlock := block 7 (qcFor 6 onReproposed₆) 3 0

def onBranch : List Op := arrives branch₂ ++ arrives branch₃ ++ arrives branch₄ ++ arrives branch₅

/-- Rounds, sequence numbers and what `prune` says of a new root. -/
def rootAfter (bt : BlockTree) (newRoot : ConsensusFullBlock) : Option (Round × SeqNum) :=
  match bt.prune crypto (encodeHeader newRoot.header) with
  | .ok (_, bt') => some (bt'.root.round, bt'.root.seqNum)
  | .error _ => none

theorem high_committable_qc_highest_branch : ∃ steps bt, Run crypto genesisRoot steps bt ∧
    ∃ high, bt.getHighCommittableQc = .ok high ∧
      ((∃ qc, high = some qc) ↔ ∃ qc block newRoot, bt.Offers qc block newRoot) ∧ high = some (qcFor 4 branch₄) := by
  let isHigh (bt : BlockTree) : Bool :=
    match bt.getHighCommittableQc with
    | .ok high => high = some (qcFor 4 branch₄)
    | .error _ => false
  obtain ⟨steps, bt, run, isOps, guards, check⟩ := exists_run_of_replay crypto genesisRoot (guardPrune crypto) onBranch
    isHigh (by decide +kernel)
  have follow : RoundsFollow crypto genesisRoot (Op.added (steps.map (·.2))) := by
    rw [isOps]
    exact ⟨by decide, by decide, by decide⟩
  obtain ⟨high, returns, iff, -⟩ := high_committable_qc_highest (represented_of_follow run follow).1
    (roundsGrow_of_run run follow) (connected_of_run run follow fun t newRoot mem => keepsBranches_sound
      (guards t _ mem))
  refine ⟨steps, bt, run, high, returns, iff, ?_⟩
  simpa [isHigh, returns] using check

/-- The highest QC commits the reproposed block, although another one leads to a root of a higher round and sequence
number. -/
theorem lower_root_for_higher_qc : ∃ steps bt, Run crypto genesisRoot steps bt ∧
    RoundsFollow crypto genesisRoot (Op.added (steps.map (·.2))) ∧
    bt.getHighCommittableQc = .ok (some (qcFor 6 onReproposed₆)) ∧
    bt.rootAfter reproposed = some (1, 1) ∧ bt.rootAfter branch₃ = some (3, 2) := by
  let isHigh (bt : BlockTree) : Bool :=
    match bt.getHighCommittableQc with
    | .ok high => high = some (qcFor 6 onReproposed₆)
    | .error _ => false
  obtain ⟨steps, bt, run, isOps, -, check⟩ := exists_run_of_replay crypto genesisRoot (fun _ _ => true)
    (onBranch ++ arrives reproposed ++ arrives onReproposed₆ ++ arrives onReproposed₇)
    (fun bt => isHigh bt && bt.rootAfter reproposed = some (1, 1) && bt.rootAfter branch₃ = some (3, 2))
      (by decide +kernel)
  simp only [Bool.and_eq_true, decide_eq_true_eq] at check
  refine ⟨steps, bt, run, ?_, ?_, check.1.2, check.2⟩
  · rw [isOps]
    exact ⟨by decide, by decide, by decide⟩
  · have high := check.1.1
    simp only [isHigh] at high
    split at high
    · simpa [‹bt.getHighCommittableQc = _›] using high
    · cases high

end Examples

end MonadBft.BlockTree
