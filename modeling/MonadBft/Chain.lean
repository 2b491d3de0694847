import MonadBft.Instance

/-! # The chain of finalized blocks

The blocks that a replica finalizes follow each other by parent id and sequence number,
from the root it started with, and each was emitted as proposed before. Their block rounds
grow as long as no block extends a QC that is older than the certified block itself.
-/

namespace MonadBft

open ConsensusCommand ConsensusFullBlock Replica BlockTree List Option

def ConsensusCommand.finalized? : ConsensusCommand → Option ConsensusFullBlock
  | .commitBlocks (.finalized block) => some block
  | _ => none

def finalizedIn (commands : List ConsensusCommand) : List ConsensusFullBlock := commands.filterMap (·.finalized?)

@[simp] theorem finalizedIn_append (l₁ l₂ : List ConsensusCommand) :
    finalizedIn (l₁ ++ l₂) = finalizedIn l₁ ++ finalizedIn l₂ := filterMap_append

theorem finalizedIn_finalized (blocks : List ConsensusFullBlock) :
    finalizedIn (blocks.map fun block => .commitBlocks (.finalized block)) = blocks := by
  simp [finalizedIn, filterMap_map, finalized?]

theorem finalizedIn_proposed (blocks : List ConsensusFullBlock) :
    finalizedIn (blocks.map fun block => .commitBlocks (.proposed block)) = [] := by
  simp [finalizedIn, filterMap_map, finalized?]

/-- Every finalized block was emitted as proposed before. -/
def ProposedFirst (commands : List ConsensusCommand) : Prop :=
  ∀ before block after, commands = before ++ .commitBlocks (.finalized block) :: after →
    .commitBlocks (.proposed block) ∈ before

theorem ProposedFirst.append {l₁ l₂ : List ConsensusCommand} (h : ProposedFirst l₁)
    (new : ∀ block ∈ finalizedIn l₂, .commitBlocks (.proposed block) ∈ l₁) : ProposedFirst (l₁ ++ l₂) := by
  intro before block after split
  obtain ⟨rest, rfl, inSecond⟩ | ⟨rest, inFirst, tail⟩ := append_eq_append_iff.mp split
  · exact mem_append_left _ (new block (by simp [inSecond, finalizedIn, finalized?]))
  · cases rest with
    | nil =>
      obtain rfl : _ = l₂ := tail
      rw [inFirst, append_nil] at new
      exact new block (by simp [finalizedIn, finalized?])
    | cons c rest =>
      obtain ⟨rfl, -⟩ := List.cons.inj tail
      exact h before block rest inFirst

/-! ## Steps that change the tree -/

section Steps

variable {K : Evidence} {net : Network} {node : Node} {s s' : ConsensusState} {label : Label}

/-- What a step does to the block tree, and which blocks it emits. -/
theorem Step.tree_cases (taken : Step K net node s label s') : (∃ block, (block ∈ label.event.blocks ∨
        s.pendingBlockTree.getBlock (net.crypto.getId block.header) = some block) ∧
      s.pendingBlockTree.add net.crypto block = .ok s'.pendingBlockTree ∧ label.commands = []) ∨
    (∃ execution id blocks,
      s.pendingBlockTree.tryUpdateCoherency net.crypto execution id = .ok (s'.pendingBlockTree, blocks) ∧
      label.commands = blocks.map fun block => .commitBlocks (.proposed block)) ∨
    (∃ qc id blocks, K.qc qc ∧ s.pendingBlockTree.prune net.crypto id = .ok (blocks, s'.pendingBlockTree) ∧
      label.commands = blocks.map fun block => .commitBlocks (.finalized block)) ∨
    (s'.pendingBlockTree = s.pendingBlockTree ∧ finalizedIn label.commands = []) := by
  cases taken with
  | addBlock source evidence body done => exact .inl ⟨_, source, done, rfl⟩
  | markCoherent now done => exact .inr (.inl ⟨_, _, _, done, rfl⟩)
  | commit evidence parent committable done scheduled => exact .inr (.inr (.inl ⟨_, _, _, evidence, done, rfl⟩))
  | sendVote now ready sent =>
    refine .inr (.inr (.inr ⟨rfl, filterMap_eq_nil_iff.mpr fun c mem => ?_⟩))
    obtain ⟨_, _, rfl⟩ | ⟨_, rfl⟩ := sent c mem
    all_goals rfl
  | proposeTip now basis done =>
    obtain ⟨rfl, rfl⟩ | ⟨_, _, rfl, rfl⟩ | ⟨_, _, rfl, rfl⟩ := ConsensusState.proposeTip_eq_ok done
    all_goals exact .inr (.inr (.inr ⟨rfl, rfl⟩))
  | proposeFresh now basis looked known leads inEpoch done =>
    obtain ⟨rfl, rfl⟩ | ⟨_, rfl, rfl, -⟩ := ConsensusState.proposeFresh_eq_ok done
    all_goals exact .inr (.inr (.inr ⟨rfl, rfl⟩))
  | bookkeeping quiet =>
    refine .inr (.inr (.inr ⟨quiet.tree, filterMap_eq_nil_iff.mpr fun c mem => ?_⟩))
    have silent := quiet.quiet c mem
    cases c <;> first | rfl | cases silent
  | advance | timeout =>
    exact .inr (.inr (.inr ⟨rfl, by simp [finalizedIn, Env.fromPacemakerCommand, finalized?]⟩))
  | vote | noEndorse => exact .inr (.inr (.inr ⟨rfl, rfl⟩))

end Steps

/-! ## The chain -/

/-- The finalized blocks are a chain from `root` to the root of the tree, and coherent blocks were emitted as
proposed. -/
structure Finalizing (crypto : Crypto) (root : RootInfo) (commands : List ConsensusCommand) (s : ConsensusState) :
    Prop where
  linked : Linked crypto root.blockId (finalizedIn commands)
  treeRoot : s.pendingBlockTree.root = ((finalizedIn commands).getLast?.map (rootOf crypto)).getD root
  coherent : ∀ {block}, BlockTree.IsCoherentBlock s.pendingBlockTree.tree block →
    .commitBlocks (.proposed block) ∈ commands ∧ BlockTree.SeqFollows crypto root block
  seq : ∀ block ∈ finalizedIn commands, BlockTree.SeqFollows crypto root block
  first : ProposedFirst commands

section Finalizing

variable {K : Evidence} {net : Network} {node : Node} {s s' : ConsensusState} {label : Label} {root : RootInfo}
  {commands : List ConsensusCommand}

theorem Finalizing.rootId (h : Finalizing net.crypto root commands s) :
    s.pendingBlockTree.root.blockId = lastId net.crypto root.blockId (finalizedIn commands) := by
  rw [h.treeRoot, lastId, chainEnd_eq]
  cases (finalizedIn commands).getLast? <;> rfl

/-- A sequence number that follows the current root follows the first root, or a block. -/
theorem Finalizing.seqFollows (h : Finalizing net.crypto root commands s) {block : ConsensusFullBlock}
    (follows : BlockTree.SeqFollows net.crypto s.pendingBlockTree.root block) :
    BlockTree.SeqFollows net.crypto root block := by
  rw [h.treeRoot] at follows
  cases isLast : (finalizedIn commands).getLast? with
  | none => simpa [isLast] using follows
  | some last =>
    obtain ⟨parent, seq⟩ | hasParent := follows
    · simp only [isLast, map_some, getD_some, rootOf] at parent seq
      exact .inr ⟨last.header, parent.symm, seq⟩
    · exact .inr hasParent

theorem Step.finalizing (taken : Step K net node s label s') (supported : Supported K net.crypto s)
    (h : Finalizing net.crypto root commands s) : Finalizing net.crypto root (commands ++ label.commands) s' := by
  obtain ⟨block, -, added, silent⟩ | ⟨execution, id, blocks, marked, emits⟩ | ⟨_, id, blocks, -, pruned, emits⟩ |
    ⟨same, silent⟩ := taken.tree_cases
  · obtain ⟨sameRoot, entry⟩ := add_eq_ok added
    rw [silent, append_nil]
    refine { h with treeRoot := sameRoot ▸ h.treeRoot, coherent := ?_ }
    rintro b ⟨k, e, found, rfl, coherent⟩
    obtain ⟨-, -, fresh, -⟩ | ⟨e₀, found₀, same, sameCoherent⟩ := entry k e found
    · simp [fresh] at coherent
    · exact same ▸ h.coherent ⟨k, e₀, found₀, rfl, sameCoherent ▸ coherent⟩
  · have marked := tryUpdateCoherency_eq_ok supported.keyed marked
    have none := emits ▸ finalizedIn_proposed blocks
    refine ⟨by simpa [none] using h.linked, by simpa [none, marked.root] using h.treeRoot, ?_,
      by simpa [none] using h.seq, h.first.append (by simp [none])⟩
    rintro b ⟨k, e, found, rfl, coherent⟩
    obtain ⟨e₀, found₀, same, old⟩ := marked.entry k e found
    obtain coherent₀ | new := old coherent
    · obtain ⟨proposed, seq⟩ := h.coherent ⟨k, e₀, found₀, rfl, coherent₀⟩
      exact same ▸ ⟨mem_append_left _ proposed, seq⟩
    · refine ⟨mem_append_right _ ?_, h.seqFollows (marked.seq _ new)⟩
      rw [emits]
      exact mem_map_of_mem (f := fun block => commitBlocks (.proposed block)) new
  · have pruned := prune_eq_ok supported.keyed pruned
    have finalized := emits ▸ finalizedIn_finalized blocks
    have known := fun b mem => h.coherent (pruned.coherent b mem)
    refine ⟨?_, ?_, ?_, ?_, h.first.append fun b mem => (known b (finalized ▸ mem)).1⟩
    · rw [finalizedIn_append, finalized, linked_append, ← h.rootId]
      exact ⟨h.linked, pruned.linked⟩
    · rw [pruned.root, finalizedIn_append, finalized, getLast?_append, h.treeRoot]
      cases blocks.getLast? <;> rfl
    · rintro b ⟨k, e, found, rfl, coherent⟩
      obtain ⟨proposed, seq⟩ := h.coherent ⟨k, e, pruned.kept k e found, rfl, coherent⟩
      exact ⟨mem_append_left _ proposed, seq⟩
    · intro b mem
      rw [finalizedIn_append, finalized] at mem
      exact (mem_append.mp mem).elim (h.seq b) fun new => (known b new).2
  · refine ⟨by simpa [silent] using h.linked, by simpa [silent, same] using h.treeRoot, ?_, by simpa [silent]
      using h.seq, h.first.append (by simp [silent])⟩
    intro b coherent
    obtain ⟨proposed, seq⟩ := h.coherent (same ▸ coherent)
    exact ⟨mem_append_left _ proposed, seq⟩

theorem finalizing_of_trace {labels : List Label} (run : Trace (Step K net node) s labels s')
    (supported : Supported K net.crypto s) (start : Finalizing net.crypto root [] s) :
    Finalizing net.crypto root (labels.flatMap (·.commands)) s' := by
  induction run with
  | nil => exact start
  | snoc before taken ih =>
    rw [flatMap_append, flatMap_singleton]
    exact taken.finalizing (supported_of_trace before supported) ih

theorem finalizing_new {em : EpochManager} {highCertificate : RoundCertificate}
    (started : ConsensusState.new em root highCertificate = some s) : Finalizing net.crypto root [] s := by
  obtain ⟨pacemaker, -, rfl⟩ := map_eq_some_iff.mp started
  refine ⟨trivial, rfl, ?_, by simp [finalizedIn], ?_⟩
  · rintro b ⟨k, e, found, -⟩
    cases found
  · intro before block after split
    simp at split

/-- Sequence numbers count along the chain, since an id determines its header. -/
theorem Finalizing.counting (h : Finalizing net.crypto root commands s)
    (injective : Function.Injective net.crypto.getId)
    (rooted : ∀ header, net.crypto.getId header = root.blockId → header.seqNum = root.seqNum) :
    Chained getSeqNum (fun n block => block.getSeqNum = n + 1) root.seqNum (finalizedIn commands) := by
  refine h.linked.transfer (fun b isFirst follows => ?_) fun b _ b' mem' follows => ?_
  · obtain ⟨-, seq⟩ | ⟨parent, same, seq⟩ := h.seq b (mem_of_mem_head? isFirst)
    · exact seq
    · rw [seq, rooted parent (same.trans follows)]
  · obtain ⟨isRoot, seq⟩ | ⟨parent, same, seq⟩ := h.seq b' mem'
    · rw [seq, ← rooted b.header (follows.symm.trans isRoot)]
      rfl
    · rw [seq, injective (same.trans follows)]
      rfl

end Finalizing

/-! ## Block rounds -/

/-- Every block that the events bring extends a QC of an earlier round, which is not older than the block it
certifies. -/
def Replica.RoundsOrdered (crypto : Crypto) (history : List Replica.Handled) : Prop :=
  ∀ h ∈ history, ∀ block ∈ h.event.blocks, block.getParentRound < block.getBlockRound ∧
    ∀ h' ∈ history, ∀ parent ∈ h'.event.blocks, crypto.getId parent.header = block.getParentId →
      parent.getBlockRound ≤ block.getParentRound

instance (crypto : Crypto) (history : List Replica.Handled) : Decidable (Replica.RoundsOrdered crypto history) :=
  inferInstanceAs (Decidable (∀ h ∈ history, ∀ block ∈ h.event.blocks, _ ∧
    ∀ h' ∈ history, ∀ parent ∈ h'.event.blocks, _ → _))

/-- The stored blocks satisfy `B` and are above the root, and the finalized ones have growing rounds. -/
structure Rising (B : ConsensusFullBlock → Prop) (root : RootInfo) (commands : List ConsensusCommand)
    (s : ConsensusState) : Prop where
  stored : ∀ {id e}, s.pendingBlockTree.tree.get id = some e →
    B e.validatedBlock ∧ s.pendingBlockTree.root.round < e.validatedBlock.getBlockRound
  rounds : Chained getBlockRound (fun round block => round < block.getBlockRound) root.round
    (finalizedIn commands)

section Rising

variable {K : Evidence} {net : Network} {node : Node} {s s' : ConsensusState} {label : Label} {root : RootInfo}
  {commands : List ConsensusCommand} {B : ConsensusFullBlock → Prop}

theorem Finalizing.rootRound (h : Finalizing net.crypto root commands s) :
    s.pendingBlockTree.root.round = chainEnd getBlockRound root.round (finalizedIn commands) := by
  rw [h.treeRoot, chainEnd_eq]
  cases (finalizedIn commands).getLast? <;> rfl

variable (ordered : ∀ {block}, B block → block.getParentRound < block.getBlockRound ∧
  ∀ {parent}, B parent → net.crypto.getId parent.header = block.getParentId →
    parent.getBlockRound ≤ block.getParentRound)

include ordered

theorem Step.rising (taken : Step K net node s label s') (supported : Supported K net.crypto s)
    (finalizing : Finalizing net.crypto root commands s) (brought : ∀ block ∈ label.event.blocks, B block)
    (h : Rising B root commands s) : Rising B root (commands ++ label.commands) s' := by
  obtain ⟨block, source, added, silent⟩ | ⟨execution, id, blocks, marked, emits⟩ | ⟨_, id, blocks, -, pruned, emits⟩ |
    ⟨same, silent⟩ := taken.tree_cases
  · obtain ⟨sameRoot, entry⟩ := add_eq_ok added
    rw [silent, append_nil]
    refine ⟨fun {k e} found => ?_, h.rounds⟩
    rw [sameRoot]
    obtain ⟨rfl, rfl, -, later⟩ | ⟨e₀, found₀, same, -⟩ := entry k e found
    · refine ⟨source.elim (brought _) fun stored => ?_, later⟩
      obtain ⟨e₀, found₀, same⟩ := map_eq_some_iff.mp stored
      exact same ▸ (h.stored found₀).1
    · exact same ▸ h.stored found₀
  · have marked := tryUpdateCoherency_eq_ok supported.keyed marked
    have none := emits ▸ finalizedIn_proposed blocks
    refine ⟨fun {k e} found => ?_, by simpa [none] using h.rounds⟩
    obtain ⟨e₀, found₀, same, -⟩ := marked.entry k e found
    rw [marked.root, same]
    exact h.stored found₀
  · have pruned := prune_eq_ok supported.keyed pruned
    have finalized := emits ▸ finalizedIn_finalized blocks
    have known : ∀ b ∈ blocks, B b ∧ s.pendingBlockTree.root.round < b.getBlockRound := by
      intro b mem
      obtain ⟨k, e, found, rfl, -⟩ := pruned.coherent b mem
      exact h.stored found
    refine ⟨fun {k e} found => ⟨(h.stored (pruned.kept k e found)).1, ?_⟩, ?_⟩
    · -- what survives a commit has a QC that is not older than the new root
      cases blocks with
      | nil =>
        rw [pruned.root]
        exact (h.stored (pruned.kept k e found)).2
      | cons b rest =>
        have recent := pruned.recent (by simp) k e found
        exact recent.trans_lt (ordered (h.stored (pruned.kept k e found)).1).1
    · rw [finalizedIn_append, finalized, chained_append, ← finalizing.rootRound]
      refine ⟨h.rounds, pruned.linked.transfer (fun b isFirst _ => ?_) fun b mem b' mem' follows => ?_⟩
      · exact (known b (mem_of_mem_head? isFirst)).2
      · obtain ⟨above, parents⟩ := ordered (known b' mem').1
        exact (parents (known b mem).1 follows.symm).trans_lt above
  · refine ⟨fun {k e} found => ?_, by simpa [silent] using h.rounds⟩
    rw [same] at found ⊢
    exact h.stored found

theorem rising_of_trace {labels : List Label} (run : Trace (Step K net node) s labels s')
    (supported : Supported K net.crypto s) (finalizing : Finalizing net.crypto root [] s)
    (brought : ∀ label ∈ labels, ∀ block ∈ label.event.blocks, B block)
    (start : Rising B root [] s) : Rising B root (labels.flatMap (·.commands)) s' := by
  induction run with
  | nil => exact start
  | snoc before taken ih =>
    rw [flatMap_append, flatMap_singleton]
    exact taken.rising ordered (supported_of_trace before supported) (finalizing_of_trace before supported finalizing)
      (brought _ (by simp)) (ih fun l mem => brought l (mem_append_left _ mem))

end Rising

section Runs

variable {net : Network} {node : Node} {em : EpochManager} {root : RootInfo} {highCertificate : RoundCertificate}
  {history : List Replica.Handled} {r : Replica}

/-- The finalized blocks of a run are one chain from the root it started with. -/
theorem finalized_chain (run : Replica.RunFrom net node em root highCertificate history r)
    (injective : Function.Injective net.crypto.getId)
    (rooted : ∀ header, net.crypto.getId header = root.blockId → header.seqNum = root.seqNum) :
    Linked net.crypto root.blockId (finalizedIn (emitted history)) ∧
    Chained getSeqNum (fun n block => block.getSeqNum = n + 1) root.seqNum
      (finalizedIn (emitted history)) ∧
    ((finalizedIn (emitted history)).map fun block => net.crypto.getId block.header).Nodup ∧
    ProposedFirst (emitted history) ∧ (Replica.RoundsOrdered net.crypto history →
      Chained getBlockRound (fun round block => round < block.getBlockRound) root.round
        (finalizedIn (emitted history))) := by
  obtain ⟨s₀, labels, started, trace, explains⟩ := run.steps
  have supported : Supported (.wellFormed fun _ => True) net.crypto s₀ :=
    ConsensusState.supported_new started (Evidence.wellFormed_cert _)
  have finalizing := finalizing_of_trace trace supported (finalizing_new started)
  rw [explains.emitted]
  have counting := finalizing.counting injective rooted
  refine ⟨finalizing.linked, counting, ?_, finalizing.first, fun ordered => ?_⟩
  · -- blocks with different sequence numbers have different ids
    have distinct := counting.nodup fun n block follows => by rw [follows]; exact Nat.lt_succ_self n
    refine (nodup_map_iff_inj_on distinct.of_map).mpr fun b mem b' mem' same => ?_
    exact inj_on_of_nodup_map distinct mem mem' (congrArg ConsensusBlockHeader.seqNum (injective same))
  · refine (rising_of_trace (B := fun block => ∃ h ∈ history, block ∈ h.event.blocks) ?_ trace supported
      (finalizing_new started) ?_ ⟨?_, trivial⟩).rounds
    · rintro block ⟨h, mem, brought⟩
      obtain ⟨above, parents⟩ := ordered h mem block brought
      exact ⟨above, fun ⟨h', mem', brought'⟩ => parents h' mem' _ brought'⟩
    · intro label mem block brought
      obtain ⟨h, known, same⟩ := explains.event mem
      exact ⟨h, known, same ▸ brought⟩
    · intro id e found
      obtain ⟨pacemaker, -, rfl⟩ := map_eq_some_iff.mp started
      cases found

end Runs

section Examples

open FourValidators

/-- Four blocks in consecutive rounds finalize the first two. -/
theorem finalized_chain_consecutive :
    ∃ history r, Replica.RunFrom net (node 0) epochManager genesisRoot (.qc crypto.genesisQc) history r ∧
      (finalizedIn (emitted history)).map (·.getSeqNum) = [1, 2] ∧
      Linked crypto genesisBlockId (finalizedIn (emitted history)) ∧
      Chained getBlockRound (fun round block => round < block.getBlockRound) genesisRound
        (finalizedIn (emitted history)) := by
  let block₃ := block 3 (qcFor 2 block₂) 2 0
  let block₄ := block 4 (qcFor 3 block₃) 3 0
  obtain ⟨history, r, run, -, check⟩ := exists_run 0
    [proposal 2 block₂ (noTip tc₁) (some tc₁), proposal 3 block₃ none none, proposal 4 block₄ none none,
      proposal 5 (block 5 (qcFor 4 block₄) 4 0) none none]
    (fun _ history => decide ((finalizedIn (emitted history)).map (·.getSeqNum) = [1, 2] ∧
      Replica.RoundsOrdered crypto history))
    (by decide +kernel)
  obtain ⟨seqNums, ordered⟩ := of_decide_eq_true check
  obtain ⟨linked, -, -, -, rounds⟩ := finalized_chain run encodeHeader_injective fun header same =>
    absurd same (encodeHeader_ne_genesisBlockId header)
  exact ⟨history, r, run, seqNums, linked, rounds ordered⟩

/-- A block of round ten that was certified in round five is finalized together with its child of round six. -/
theorem finalized_rounds_fall :
    ∃ history r, Replica.RunFrom net (node 0) epochManager genesisRoot (.qc crypto.genesisQc) history r ∧
      (finalizedIn (emitted history)).map (·.getBlockRound) = [10, 6] := by
  let early := block 10 crypto.genesisQc 1 0
  let block₆ := block 6 (qcFor 5 early) 2 1
  let block₇ := block 7 (qcFor 6 block₆) 3 2
  obtain ⟨history, r, run, -, check⟩ := exists_run 0
    [proposal 6 block₆ none none, proposal 7 block₇ none none, proposal 8 (block 8 (qcFor 7 block₇) 4 3) none none,
      .blockSync ⟨encodeHeader early.header, 1⟩ [early]]
    (fun _ history => decide ((finalizedIn (emitted history)).map (·.getBlockRound) = [10, 6]))
    (by decide +kernel)
  exact ⟨history, r, run, of_decide_eq_true check⟩

end Examples

end MonadBft
