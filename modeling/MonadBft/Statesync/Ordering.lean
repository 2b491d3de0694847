import MonadBft.MonadState
import MonadBft.Statesync.Missing

/-! # The order of events during sync

A new target travels through the loopback executor while the state sync executor still works
on the old one. `MonadState` asserts that they meet in one of the orders it was written for:
a report for the old target that arrives while blocks below the new root are missing fails an
assertion, and so does a new target that arrives after the old one took the node live. These
are the only orders that fail.
-/

namespace MonadBft

open SyncMode Replica BlockBuffer List Option

/-! ## The buffer during sync -/

namespace BlockBuffer

variable {crypto : Crypto} {buffer buffer' : BlockBuffer}

/-- A root whose blocks are there is known. -/
theorem exists_rootInfo (crypto : Crypto) (complete : buffer.needsBlocksync = none) :
    ∃ root, buffer.rootInfo crypto = some root := by
  unfold rootInfo
  split
  · exact ⟨_, rfl⟩
  case isFalse notGenesis =>
    cases found : buffer.fullBlocks.lookup buffer.root with
    | some root => exact ⟨_, rfl⟩
    | none =>
      have empty : buffer.rootParentChain = [] := by
        unfold rootParentChain
        cases buffer.fullBlocks.entries.length with
        | zero => rfl
        | succ n => simp [parentChain, found]
      simp [needsBlocksync, notGenesis, empty] at complete

/-- The second buffer has the root and the blocks of the first one, and perhaps more. -/
structure Grows (buffer buffer' : BlockBuffer) : Prop where
  root : buffer'.root = buffer.root
  delay : buffer'.stateRootDelay = buffer.stateRootDelay
  stored : ∀ id b, buffer.fullBlocks.lookup id = some b → buffer'.fullBlocks.lookup id = some b

namespace Grows

theorem refl (buffer : BlockBuffer) : Grows buffer buffer := ⟨rfl, rfl, fun _ _ found => found⟩

theorem trans {buffer₁ buffer₂ buffer₃ : BlockBuffer} (first : Grows buffer₁ buffer₂) (second : Grows buffer₂ buffer₃) :
    Grows buffer₁ buffer₃ where
  root := second.root.trans first.root
  delay := second.delay.trans first.delay
  stored := fun id b found => second.stored id b (first.stored id b found)

variable (grows : Grows buffer buffer')

include grows

theorem rootInfo {root : RootInfo} (known : buffer.rootInfo crypto = some root) :
    buffer'.rootInfo crypto = some root := by
  unfold BlockBuffer.rootInfo at known ⊢
  rw [grows.root]
  split at known
  case isTrue genesis => rwa [if_pos genesis]
  case isFalse notGenesis =>
    obtain ⟨b, found, rfl⟩ := map_eq_some_iff.mp known
    rw [if_neg notGenesis, grows.stored _ b found, map_some]

theorem size_le : buffer.fullBlocks.entries.length ≤ buffer'.fullBlocks.entries.length := by
  have subset : buffer.fullBlocks.keys ⊆ buffer'.fullBlocks.keys := by
    intro id mem
    obtain ⟨b, found⟩ := isSome_iff_exists.mp (AList.lookup_isSome.mpr (AList.mem_keys.mp mem))
    exact AList.mem_keys.mpr (AList.lookup_isSome.mp (by simp [grows.stored id b found]))
  simpa [AList.keys, List.keys] using (buffer.fullBlocks.keys_nodup.subperm subset).length_le

theorem parentChain_prefix {fuel fuel' : Nat} (le : fuel ≤ fuel') (next : BlockId) :
    buffer.parentChain fuel next <+: buffer'.parentChain fuel' next := by
  induction fuel generalizing fuel' next with
  | zero => exact nil_prefix
  | succ fuel ih =>
    obtain ⟨fuel', rfl⟩ := Nat.exists_eq_succ_of_ne_zero (Nat.ne_zero_of_lt le)
    cases found : buffer.fullBlocks.lookup next with
    | none => simp [parentChain, found]
    | some b =>
      simp only [parentChain, found, grows.stored next b found]
      exact cons_prefix_cons.mpr ⟨rfl, ih (Nat.le_of_succ_le_succ le) _⟩

/-- Nothing more is missing. -/
theorem needsBlocksync (complete : buffer.needsBlocksync = none) : buffer'.needsBlocksync = none := by
  unfold BlockBuffer.needsBlocksync at complete ⊢
  rw [grows.root, grows.delay]
  split at complete
  case isTrue genesis => rw [if_pos genesis]
  case isFalse notGenesis =>
    rw [if_neg notGenesis]
    have isPrefix : buffer.rootParentChain <+: buffer'.rootParentChain := by
      unfold rootParentChain
      rw [grows.root]
      exact grows.parentChain_prefix grows.size_le _
    simp only at complete ⊢
    split at complete
    case h_1 => cases complete
    case h_2 last isLast =>
      have long : buffer.stateRootDelay ≤ buffer.rootParentChain.length := by simpa using complete
      have nonempty : buffer'.rootParentChain ≠ [] := by
        rintro empty
        rw [empty, prefix_nil] at isPrefix
        simp [isPrefix] at isLast
      rw [getLast?_eq_some_getLast nonempty]
      simpa using long.trans isPrefix.length_le

end Grows

theorem grows_handleBlocksync (free : crypto.CollisionFree) (consistent : buffer.Consistent crypto)
    {block : ConsensusFullBlock}
    (body : block.BodyMatches crypto) : Grows buffer (buffer.handleBlocksync crypto block) := by
  unfold handleBlocksync
  split
  · exact .refl buffer
  · refine ⟨rfl, rfl, fun id b found => ?_⟩
    by_cases same : id = crypto.getId block.header
    · subst same
      rw [AList.lookup_insert, block_unique free (consistent.bodies _ _ found) body (consistent.keyed _ _ found)]
    · rwa [AList.lookup_insert_ne same]

theorem grows_blocks (free : crypto.CollisionFree) (consistent : buffer.Consistent crypto)
    {blocks : List ConsensusFullBlock} (bodies : ∀ b ∈ blocks, b.BodyMatches crypto) :
    (blocks.foldl (handleBlocksync crypto) buffer).Consistent crypto ∧
      Grows buffer (blocks.foldl (handleBlocksync crypto) buffer) := by
  induction blocks generalizing buffer with
  | nil => exact ⟨consistent, .refl buffer⟩
  | cons b rest ih =>
    have body := bodies b (by simp)
    obtain ⟨consistent', grows⟩ := ih (consistent.handleBlocksync free body) fun c mem =>
      bodies c (mem_cons_of_mem _ mem)
    exact ⟨consistent', (grows_handleBlocksync free consistent body).trans grows⟩

/-- A new target is above the root. -/
theorem lt_of_handleProposal {author : NodeId} {proposal : ProposalMessage} {root : ConsensusBlockHeader}
    {highQc : QuorumCertificate} (picked : (buffer.handleProposal crypto author proposal).2 = some (root, highQc)) :
    ∃ n, buffer.rootSeqNum crypto = some n ∧ n < root.seqNum := by
  simp only [handleProposal] at picked
  split at picked
  · cases picked
  case h_2 n known =>
    split at picked
    · cases picked
    · obtain ⟨finalized, -, far⟩ := bind_eq_some_iff.mp picked
      split at far
      · cases far
      case isFalse above =>
        obtain ⟨rfl, -⟩ := Prod.mk.inj (some.inj far)
        exact ⟨n, known, by lia⟩

section HandleProposal

variable (crypto buffer) (author : NodeId) (proposal : ProposalMessage)

theorem handleProposal_blocks : (buffer.handleProposal crypto author proposal).1.root = buffer.root ∧
    (buffer.handleProposal crypto author proposal).1.stateRootDelay = buffer.stateRootDelay ∧
    (buffer.handleProposal crypto author proposal).1.fullBlocks = buffer.fullBlocks := by
  simp only [handleProposal]
  split
  · exact ⟨rfl, rfl, rfl⟩
  · split <;> exact ⟨rfl, rfl, rfl⟩

theorem grows_handleProposal : Grows buffer (buffer.handleProposal crypto author proposal).1 := by
  obtain ⟨root, delay, blocks⟩ := handleProposal_blocks crypto buffer author proposal
  exact ⟨root, delay, fun id b found => by rwa [blocks]⟩

/-- A proposal brings no block that was missing. -/
theorem needsBlocksync_of_handleProposal (complete : (buffer.handleProposal crypto author proposal).1.needsBlocksync =
    none) :
    buffer.needsBlocksync = none := by
  obtain ⟨root, delay, blocks⟩ := handleProposal_blocks crypto buffer author proposal
  exact Grows.needsBlocksync ⟨root.symm, delay.symm, fun id b found => by rwa [← blocks]⟩ complete

end HandleProposal

/-- What the buffer knows of its root is what the header of the root says. -/
theorem rootInfo_seqNum (free : crypto.CollisionFree) (consistent : buffer.Consistent crypto)
    {header : ConsensusBlockHeader}
    (isRoot : buffer.root = crypto.getId header) {root : RootInfo} (known : buffer.rootInfo crypto = some root) :
    root.seqNum = header.seqNum := by
  unfold BlockBuffer.rootInfo at known
  rw [isRoot, if_neg (free.genesis header)] at known
  obtain ⟨b, found, rfl⟩ := map_eq_some_iff.mp known
  have sameHeader := free.id (consistent.keyed _ _ found)
  rw [← sameHeader]
  rfl

end BlockBuffer

/-! ## Going live -/

/-- Commands for the loopback and the state sync executor. -/
def Command.isSync : Command → Bool
  | .requestStateSync _ _ => true
  | .requestSync _ => true
  | _ => false

section Live

variable {m : MonadEnv} {r : Replica}

/-- A panic of live consensus, not of `MonadState`. -/
def MonadPanic.IsConsensus (reason : MonadPanic) : Prop := ∃ p, reason = .consensus p

/-- Only live consensus may panic, and nothing is sent to the executors of sync mode. -/
def Quiet (call : Outcome MonadPanic Replica Command) : Prop :=
  call.Sat MonadPanic.IsConsensus fun _ commands => ∀ c ∈ commands, c.isSync = false

theorem Quiet.andThen {call : Outcome MonadPanic Replica Command} {next : Replica → Outcome MonadPanic Replica Command}
    (first : Quiet call) (second : ∀ r, Quiet (next r)) : Quiet (call.andThen next) := by
  refine Outcome.Sat.andThen first fun r commands quiet => (second r).mono (fun _ panics => panics)
    fun r' later quiet' c mem => ?_
  obtain old | new := mem_append.mp mem
  · exact quiet c old
  · exact quiet' c new

theorem quiet_map {commands : List ConsensusCommand} : ∀ c ∈ commands.map Command.consensus, c.isSync = false := by
  intro c mem
  obtain ⟨command, -, rfl⟩ := mem_map.mp mem
  rfl

theorem Replica.quiet_filtered (call : ReplicaCall) : Quiet (filtered m call) := by
  unfold filtered
  split
  · exact ⟨_, rfl⟩
  · split
    · exact ⟨_, rfl⟩
    · exact quiet_map

theorem Replica.quiet_updateLive (event : ConsensusEvent) : Quiet (r.updateLive m event) := by
  have quiet := quiet_filtered (m := m) (r.update m.env event)
  unfold updateLive
  split
  case h_1 reason panics =>
    rw [panics] at quiet
    exact quiet
  case h_2 r' commands done =>
    rw [done] at quiet
    split
    · split
      · exact ⟨_, rfl⟩
      · intro c mem
        obtain old | last := mem_append.mp mem
        · exact quiet c old
        · rw [mem_singleton.mp last]
          rfl
    · exact quiet

theorem Replica.quiet_handleValidatedProposals (proposals : List (NodeId × ProposalMessage)) :
    Quiet (r.handleValidatedProposals m proposals) := by
  induction proposals generalizing r with
  | nil => exact fun c mem => absurd mem not_mem_nil
  | cons p rest ih => exact (quiet_filtered _).andThen fun r => ih

theorem Replica.quiet_requestBlocksIfMissingAncestor : Quiet r.requestBlocksIfMissingAncestor := by
  unfold requestBlocksIfMissingAncestor
  split
  · exact ⟨_, rfl⟩
  · exact quiet_map

end Live

namespace SyncMode

variable {m : MonadEnv} {s : SyncMode}

/-- `call` takes the node live, or fails in live consensus. -/
def TakesLive (call : MonadCall) : Prop :=
  call.Sat MonadPanic.IsConsensus fun state commands => (∃ r, state = .live r) ∧ ∀ c ∈ commands, c.isSync = false

theorem takesLive_goLive {root : RootInfo} (valid : ∀ b ∈ s.blockBuffer.rootParentChain, validCommitted m b = true) :
    TakesLive (s.goLive m root) := by
  unfold goLive
  simp only [all_eq_true.mpr valid, Bool.true_eq_false, and_false, if_false]
  split
  · exact ⟨_, rfl⟩
  case h_2 consensus _ =>
    refine Outcome.Sat.lift (Outcome.Sat.mono (Quiet.andThen ?_ fun r => (quiet_updateLive _).andThen fun r =>
      (quiet_handleValidatedProposals _).andThen fun r => quiet_requestBlocksIfMissingAncestor)
      (fun _ panics => panics) fun r commands none => ⟨⟨r, rfl⟩, none⟩)
    intro c mem
    obtain first | ⟨block, committed⟩ | last := by simpa using mem
    · rw [first]
      rfl
    · obtain rfl | rfl | rfl := committed.2 <;> rfl
    · rw [last]
      rfl

/-! ### `maybe_start_consensus`, case by case -/

section Complete

variable {root : RootInfo} (complete : s.blockBuffer.needsBlocksync = none)
  (known : s.blockBuffer.rootInfo m.env.net.crypto = some root)

include complete known

theorem maybeStartConsensus_started (started : s.dbStatus = .started) : s.maybeStartConsensus m = .ok (.sync s) [] := by
  simp only [maybeStartConsensus, complete, known, started]

theorem doneSync_target (started : s.dbStatus = .started) (covers : m.database.covers (m.stateRootSeqNum root.seqNum) =
    true) :
    s.doneSync m (m.stateRootSeqNum root.seqNum) = { s with dbStatus := .done }.goLive m root := by
  simp [doneSync, started, rootSeqNum, known, covers, complete]

section

variable (waiting : s.dbStatus = .waiting) (below : m.database.latest.getD 0 ≤ root.seqNum)

include waiting below

theorem maybeStartConsensus_ahead (ahead : needsStateSync m (m.stateRootSeqNum root.seqNum) = false)
    (kept : m.database.earliest.any (· ≤ m.stateRootSeqNum root.seqNum) = true) :
    s.maybeStartConsensus m = { s with dbStatus := .done }.goLive m root := by
  have covers : m.database.covers (m.stateRootSeqNum root.seqNum) = true := by
    unfold needsStateSync at ahead
    cases latest : m.database.latest with
    | none => simp [latest] at ahead
    | some n => simpa [Database.covers, kept, latest] using ahead
  simp only [maybeStartConsensus, complete, known, waiting, not_lt.mpr below, ahead, kept, if_false, Bool.false_eq_true,
    Bool.true_eq_false]
  exact doneSync_target (s := { s with dbStatus := .started }) complete known rfl covers

end

end Complete

/-! ### What going live takes -/

/-- Going live on a root whose blocks and whose state are there. -/
def GoesLive (m : MonadEnv) (s : SyncMode) (r : Replica) (commands : List Command) : Prop :=
  ∃ root, s.blockBuffer.needsBlocksync = none ∧ s.blockBuffer.rootInfo m.env.net.crypto = some root ∧
    m.database.covers (m.stateRootSeqNum root.seqNum) = true ∧
    { s with dbStatus := .done }.goLive m root = .ok (.live r) commands

variable {r : Replica} {commands : List Command}

theorem goesLive_of_doneSync {n : SeqNum} (live : s.doneSync m n = .ok (.live r) commands) :
    s.GoesLive m r commands := by
  unfold doneSync at live
  split at live
  · cases live
  cases known : s.blockBuffer.rootInfo m.env.net.crypto with
  | none => simp [rootSeqNum, known] at live
  | some root =>
    simp only [rootSeqNum, known, map_some] at live
    split at live
    · cases live
    split at live
    · cases live
    case isFalse isTarget =>
      obtain rfl := not_ne_iff.mp isTarget
      split at live
      · cases live
      case isFalse covers =>
        split at live
        · cases live
        case h_2 complete => exact ⟨root, complete, known, by simpa using covers, live⟩

theorem goesLive_of_maybeStartConsensus (notDone : s.dbStatus ≠ .done)
    (live : s.maybeStartConsensus m = .ok (.live r) commands) : s.GoesLive m r commands := by
  unfold maybeStartConsensus at live
  split at live
  · cases live
  split at live
  · cases live
  cases status : s.dbStatus with
  | done => exact absurd status notDone
  | started =>
    rw [status] at live
    cases live
  | waiting =>
    simp only [status] at live
    split at live
    · cases live
    split at live
    · split at live <;> cases live
    split at live
    · cases live
    · exact goesLive_of_doneSync (s := { s with dbStatus := .started }) live

end SyncMode

/-! ## The node and its executors -/

/-- What does not change while a node syncs. -/
structure SyncConfig where
  net : Network
  node : Node
  executionDelay : SeqNum
  statesyncToLiveThreshold : SeqNum
  /-- The number of the block that a finalized header belongs to. -/
  finalizedSeqNum : Bytes → SeqNum

inductive SyncEvent where
  | consensus (event : ConsensusEvent)
  /-- The loopback executor delivers the oldest new target. -/
  | requestSync
  /-- The state sync executor reports its oldest target. -/
  | doneSync
  | blockSync (fullBlocks : List ConsensusFullBlock)

structure SyncInput where
  now : Surroundings
  database : Database
  event : SyncEvent

def SyncConfig.env (cfg : SyncConfig) (input : SyncInput) : MonadEnv where
  env := { net := cfg.net, node := cfg.node, now := input.now }
  database := input.database
  executionDelay := cfg.executionDelay

/-- A node, the new targets on their way to it, and the targets that the state sync executor has yet to report. -/
structure SyncSystem where
  state : MonadState
  requests : List (ConsensusBlockHeader × QuorumCertificate)
  targets : List SeqNum

namespace SyncSystem

/-- A node that starts from a checkpoint. -/
def start (cfg : SyncConfig) (epochManager : EpochManager) (root : BlockId) (highCertificate : RoundCertificate) :
    SyncSystem where
  state := .sync {
    highCertificate
    blockBuffer := .new cfg.executionDelay root cfg.statesyncToLiveThreshold
    dbStatus := .waiting
    updatingTarget := false
    epochManager
    certificateCache := .empty }
  requests := []
  targets := []

/-- What the node is given, and what is left in the queues. -/
def next (sys : SyncSystem) : SyncEvent → Option (MonadEvent × SyncSystem)
  | .consensus event =>
    match sys.state with
    | .sync _ => some (.consensus event, sys)
    | .live _ => none
  | .requestSync =>
    match sys.requests with
    | [] => none
    | (root, highQc) :: requests => some (.requestSync root highQc, { sys with requests })
  | .doneSync =>
    match sys.targets with
    | [] => none
    | n :: targets => some (.doneSync n, { sys with targets })
  | .blockSync fullBlocks => some (.blockSync fullBlocks, sys)

theorem next_state {sys rest : SyncSystem} {input : SyncEvent} {event : MonadEvent}
    (given : sys.next input = some (event, rest)) : rest.state = sys.state := by
  cases input with
  | consensus event =>
    simp only [next] at given
    split at given
    · cases given
      rfl
    · cases given
  | requestSync =>
    simp only [next] at given
    split at given
    · cases given
    · cases given
      rfl
  | doneSync =>
    simp only [next] at given
    split at given
    · cases given
    · cases given
      rfl
  | blockSync blocks =>
    cases given
    rfl

/-- Hand the commands of an update to the executors. -/
def absorb (cfg : SyncConfig) (sys : SyncSystem) (state : MonadState) (commands : List Command) : SyncSystem where
  state
  requests := sys.requests ++ commands.filterMap fun
    | .requestStateSync root highQc => some (root, highQc)
    | _ => none
  targets := sys.targets ++ commands.filterMap fun
    | .requestSync target => some (cfg.finalizedSeqNum target)
    | _ => none

def handle (cfg : SyncConfig) (sys : SyncSystem) (input : SyncInput) : Option (Outcome MonadPanic SyncSystem Command) :=
  (sys.next input.event).map fun (event, rest) =>
    match rest.state.update (cfg.env input) event with
    | .panic reason => .panic reason
    | .ok state commands => .ok (rest.absorb cfg state commands) commands

theorem absorb_quiet {cfg : SyncConfig} {sys : SyncSystem} {state : MonadState} {commands : List Command}
    (quiet : ∀ c ∈ commands, c.isSync = false) : sys.absorb cfg state commands = { sys with state } := by
  have none {β : Type} (f : Command → Option β) (sync : ∀ c, c.isSync = false → f c = none) :
    commands.filterMap f = [] :=
    filterMap_eq_nil_iff.mpr fun c mem => sync c (quiet c mem)
  rw [absorb, none, none, append_nil, append_nil]
  all_goals
    intro c isQuiet
    cases c <;> simp_all [Command.isSync]

end SyncSystem

/-! ## Orderly events -/

/-- What an event of state sync changes before `maybe_start_consensus` runs. -/
def SyncMode.received (crypto : Crypto) (s : SyncMode) : MonadEvent → Option SyncMode
  | .requestSync root highQc => some { s with
      highCertificate := .qc highQc
      blockBuffer := s.blockBuffer.reRoot crypto root
      dbStatus := .waiting
      updatingTarget := false }
  | .blockSync fullBlocks => some { s with
      blockBuffer := fullBlocks.foldl (handleBlocksync crypto) s.blockBuffer }
  | .doneSync _ => some s
  | _ => none

/-- The conditions under which a node in sync mode `s`, while the executor has `targets` to report, can be given an
event; `s'` is what the event makes of `s`. -/
structure Orderly (cfg : SyncConfig) (m : MonadEnv) (targets : List SeqNum) (s s' : SyncMode) (event : MonadEvent) :
    Prop where
  /-- Blocks come with their own bodies. -/
  bodies : ∀ blocks, event = .blockSync blocks → ∀ b ∈ blocks, b.BodyMatches m.env.net.crypto
  /-- The database holds no block above the root. -/
  below : ∀ root, s'.blockBuffer.rootInfo m.env.net.crypto = some root → m.database.latest.getD 0 ≤ root.seqNum
  /-- A reported target is in the database. -/
  reported : ∀ n, event = .doneSync n → m.database.covers n = true
  /-- Committed blocks are valid. -/
  valid : s'.blockBuffer.needsBlocksync = none → ∀ b ∈ s'.blockBuffer.rootParentChain, validCommitted m b = true
  /-- The root has the header of the state to sync to. -/
  result : ∀ root, s'.dbStatus = .waiting → s'.blockBuffer.needsBlocksync = none →
    s'.blockBuffer.rootInfo m.env.net.crypto = some root → needsStateSync m (m.stateRootSeqNum root.seqNum) = true →
    m.executionDelay ≤ root.seqNum ∧ ∃ target, s'.blockBuffer.rootDelayedExecutionResult = some [target] ∧
      cfg.finalizedSeqNum target = m.stateRootSeqNum root.seqNum
  /-- A database that is far enough reaches back far enough. -/
  kept : ∀ root, s'.dbStatus = .waiting → s'.blockBuffer.needsBlocksync = none →
    s'.blockBuffer.rootInfo m.env.net.crypto = some root → needsStateSync m (m.stateRootSeqNum root.seqNum) = false →
    m.database.earliest.any (· ≤ m.stateRootSeqNum root.seqNum) = true
  /-- No report arrives while blocks below the root are missing. -/
  complete : ∀ n, event = .doneSync n → s.blockBuffer.needsBlocksync = none
  /-- The report for the root does not arrive while a new target is on its way. -/
  early : ∀ n root, event = .doneSync n → s.updatingTarget = true →
    s.blockBuffer.rootInfo m.env.net.crypto = some root → n < m.stateRootSeqNum root.seqNum
  /-- A database that is far enough is not found while a new target or a report is on its way. -/
  idle : ∀ root, s'.dbStatus = .waiting → s'.blockBuffer.needsBlocksync = none →
    s'.blockBuffer.rootInfo m.env.net.crypto = some root → needsStateSync m (m.stateRootSeqNum root.seqNum) = false →
    s'.updatingTarget = false ∧ targets = []

def SyncSystem.Orderly (cfg : SyncConfig) (sys : SyncSystem) (input : SyncInput) : Prop :=
  ∀ s s' event rest, sys.state = .sync s → sys.next input.event = some (event, rest) →
    s.received cfg.net.crypto event = some s' → MonadBft.Orderly cfg (cfg.env input) sys.targets s s' event

/-! ## The invariant -/

/-- At most one new target is on its way, and it is above the root. -/
def Pending (cfg : SyncConfig) (requests : List (ConsensusBlockHeader × QuorumCertificate)) (s : SyncMode) : Prop :=
  s.updatingTarget = false ∧ requests = [] ∨ s.updatingTarget = true ∧ ∃ request root,
    requests = [request] ∧ s.blockBuffer.rootInfo cfg.net.crypto = some root ∧ root.seqNum < request.1.seqNum

/-- Older targets, below that of the root. -/
def Overdue (cfg : SyncConfig) (targets : List SeqNum) (s : SyncMode) : Prop :=
  targets = [] ∨ ∃ header, s.blockBuffer.root = cfg.net.crypto.getId header ∧ ∀ o ∈ targets,
    o + cfg.executionDelay < header.seqNum

/-- A node in sync mode with its queues. -/
structure Syncing (cfg : SyncConfig) (requests : List (ConsensusBlockHeader × QuorumCertificate))
    (targets : List SeqNum) (s : SyncMode) : Prop where
  consistent : s.blockBuffer.Consistent cfg.net.crypto
  pending : Pending cfg requests s
  waiting : s.dbStatus = .waiting → Overdue cfg targets s ∧ (s.blockBuffer.needsBlocksync = none → targets = [])
  /-- The last target is that of the root, the others are lower. -/
  started : s.dbStatus = .started → s.blockBuffer.needsBlocksync = none ∧ ∃ root older,
    s.blockBuffer.rootInfo cfg.net.crypto = some root ∧ cfg.executionDelay ≤ root.seqNum ∧
    targets = older ++ [root.seqNum - cfg.executionDelay] ∧ ∀ o ∈ older, o < root.seqNum - cfg.executionDelay
  notDone : s.dbStatus ≠ .done

section Grows

variable {cfg : SyncConfig} {requests requests' : List (ConsensusBlockHeader × QuorumCertificate)}
  {targets : List SeqNum} {s s' : SyncMode}

theorem Pending.empty (pending : Pending cfg requests s) (notUpdating : s.updatingTarget = false) : requests = [] := by
  obtain ⟨-, empty⟩ | ⟨updating, -⟩ := pending
  · exact empty
  · simp [notUpdating] at updating

theorem Pending.grows (pending : Pending cfg requests s) (grows : s.blockBuffer.Grows s'.blockBuffer)
    (sameFlag : s'.updatingTarget = s.updatingTarget) : Pending cfg requests s' := by
  unfold Pending at pending ⊢
  rw [sameFlag]
  refine pending.imp_right fun ⟨updating, request, root, single, known, above⟩ => ?_
  exact ⟨updating, request, root, single, grows.rootInfo known, above⟩

theorem Overdue.grows (overdue : Overdue cfg targets s) (grows : s.blockBuffer.Grows s'.blockBuffer) :
    Overdue cfg targets s' := by
  unfold Overdue
  rw [grows.root]
  exact overdue

/-- More blocks below the same root. -/
theorem Syncing.grows (syncing : Syncing cfg requests targets s) (grows : s.blockBuffer.Grows s'.blockBuffer)
    (sameStatus : s'.dbStatus = s.dbStatus) (consistent : s'.blockBuffer.Consistent cfg.net.crypto)
    (missing : s.dbStatus = .waiting → s'.blockBuffer.needsBlocksync = none → s.blockBuffer.needsBlocksync = none)
    (pending : Pending cfg requests' s') : Syncing cfg requests' targets s' where
  consistent := consistent
  pending := pending
  waiting := fun waiting => by
    rw [sameStatus] at waiting
    obtain ⟨overdue, none⟩ := syncing.waiting waiting
    exact ⟨overdue.grows grows, fun complete => none (missing waiting complete)⟩
  started := fun started =>
    have ⟨complete, root, older, known, rest⟩ := syncing.started (sameStatus ▸ started)
    ⟨grows.needsBlocksync complete, root, older, grows.rootInfo known, rest⟩
  notDone := sameStatus ▸ syncing.notDone

end Grows

/-- The invariant of the node and its executors: once it is live, nothing is on its way. -/
def SyncSystem.Consistent (cfg : SyncConfig) (sys : SyncSystem) : Prop :=
  match sys.state with
  | .sync s => Syncing cfg sys.requests sys.targets s
  | .live _ => sys.requests = [] ∧ sys.targets = []

open SyncSystem

theorem SyncSystem.consistent_start (cfg : SyncConfig) (epochManager : EpochManager) (root : BlockId)
    (highCertificate : RoundCertificate) : (start cfg epochManager root highCertificate).Consistent cfg where
  consistent := consistent_new _ _ _ _
  pending := .inl ⟨rfl, rfl⟩
  waiting := fun _ => ⟨.inl rfl, fun _ => rfl⟩
  started := fun started => by cases started
  notDone := by simp

theorem stateRootSeqNum_eq {m : MonadEnv} {n : SeqNum} (le : m.executionDelay ≤ n) :
    m.stateRootSeqNum n = n - m.executionDelay := by
  rw [MonadEnv.stateRootSeqNum, max_eq_left le]

/-- `call` panics only in live consensus, and keeps the invariant. -/
def SyncSystem.Keeps (cfg : SyncConfig) (sys : SyncSystem) (call : MonadCall) : Prop :=
  call.Sat MonadPanic.IsConsensus fun state commands => (sys.absorb cfg state commands).Consistent cfg

theorem keeps_of_quiet {cfg : SyncConfig} {sys : SyncSystem} {state : MonadState} {commands : List Command}
    (quiet : ∀ c ∈ commands, c.isSync = false) (consistent : Consistent cfg { sys with state }) :
    Keeps cfg sys (.ok state commands) := by
  rw [Keeps, Outcome.sat_ok, absorb_quiet quiet]
  exact consistent

/-- Going live with nothing on its way. -/
theorem keeps_of_takesLive {cfg : SyncConfig} {sys : SyncSystem} {call : MonadCall} (live : SyncMode.TakesLive call)
    (noRequests : sys.requests = []) (noTargets : sys.targets = []) : Keeps cfg sys call := by
  refine live.mono (fun _ panics => panics) fun state commands => ?_
  rintro ⟨⟨r, rfl⟩, quiet⟩
  rw [absorb_quiet quiet]
  exact ⟨noRequests, noTargets⟩

section Events

variable {cfg : SyncConfig} {input : SyncInput} {sys : SyncSystem} {s : SyncMode} {event : MonadEvent}

/-- `maybe_start_consensus` of a node that waits for its blocks. -/
theorem keeps_maybeStartConsensus (free : cfg.net.crypto.CollisionFree) {s₀ : SyncMode}
    (orderly : Orderly cfg (cfg.env input) sys.targets s₀ s event)
    (consistent : s.blockBuffer.Consistent cfg.net.crypto)
    (waiting : s.dbStatus = .waiting) (pending : Pending cfg sys.requests s) (overdue : Overdue cfg sys.targets s) :
    Keeps cfg sys (s.maybeStartConsensus (cfg.env input)) := by
  cases complete : s.blockBuffer.needsBlocksync with
  | some range =>
    simp only [maybeStartConsensus, complete]
    exact keeps_of_quiet (by simp [Command.isSync])
      ⟨consistent, pending, fun _ => ⟨overdue, by simp [complete]⟩, by simp [waiting], by simp [waiting]⟩
  | none =>
    obtain ⟨root, known⟩ := exists_rootInfo cfg.net.crypto complete
    have below := orderly.below root known
    cases behind : needsStateSync (cfg.env input) ((cfg.env input).stateRootSeqNum root.seqNum) with
    | true =>
      obtain ⟨deep, target, result, isTarget⟩ := orderly.result root waiting complete known behind
      have known' : s.blockBuffer.rootInfo (cfg.env input).env.net.crypto = some root := known
      simp only [maybeStartConsensus, complete, known', waiting, not_lt.mpr below, behind, result, if_false, if_true]
      rw [Keeps, Outcome.sat_ok]
      rw [stateRootSeqNum_eq deep] at isTarget
      refine ⟨consistent, ?_, by simp, fun _ => ⟨complete, root, sys.targets, known, deep, ?_, ?_⟩, by simp⟩
      · change Pending cfg (sys.requests ++ []) { s with dbStatus := .started }
        rw [append_nil]
        exact pending
      · simp [absorb, isTarget, SyncConfig.env]
      · intro o due
        obtain empty | ⟨header, isRoot, lower⟩ := overdue
        · simp [empty] at due
        · have sameSeqNum := rootInfo_seqNum free consistent isRoot known
          have := lower o due
          lia
    | false =>
      obtain ⟨notUpdating, noTargets⟩ := orderly.idle root waiting complete known behind
      have noRequests := pending.empty notUpdating
      rw [maybeStartConsensus_ahead complete known waiting below behind
        (orderly.kept root waiting complete known behind)]
      exact keeps_of_takesLive (takesLive_goLive (orderly.valid complete)) noRequests noTargets

variable (syncing : Syncing cfg sys.requests sys.targets s)

include syncing

theorem Syncing.keeps_requestSync (free : cfg.net.crypto.CollisionFree)
    {root : ConsensusBlockHeader} {highQc : QuorumCertificate}
    {requests : List (ConsensusBlockHeader × QuorumCertificate)}
    (queued : sys.requests = (root, highQc) :: requests) {s' : SyncMode}
    (received : s.received cfg.net.crypto (.requestSync root highQc) = some s')
    (orderly : Orderly cfg (cfg.env input) sys.targets s s' (.requestSync root highQc)) :
    Keeps cfg { sys with requests } (s'.maybeStartConsensus (cfg.env input)) := by
  obtain rfl := some.inj received
  obtain ⟨-, empty⟩ | ⟨-, request, old, single, known, above⟩ := syncing.pending
  · simp [empty] at queued
  rw [single] at queued
  obtain ⟨rfl, rfl⟩ := List.cons.inj queued
  refine keeps_maybeStartConsensus free orderly (syncing.consistent.reRoot free root) rfl (.inl ⟨rfl, rfl⟩) ?_
  -- the new root is above the old one, and so is its target
  cases status : s.dbStatus with
  | done => exact absurd status syncing.notDone
  | waiting =>
    obtain ⟨empty | ⟨header, isRoot, lower⟩, -⟩ := syncing.waiting status
    · exact .inl empty
    · have sameSeqNum := rootInfo_seqNum free syncing.consistent isRoot known
      exact .inr ⟨root, rfl, fun o due => ((lower o due).trans_eq sameSeqNum.symm).trans above⟩
  | started =>
    obtain ⟨-, old', older, known', deep, targets, lower⟩ := syncing.started status
    obtain rfl := some.inj (known.symm.trans known')
    refine .inr ⟨root, rfl, fun o due => ?_⟩
    simp only [targets, mem_append, mem_singleton] at due
    simp only at above
    obtain inOlder | rfl := due
    · have := lower o inOlder
      lia
    · lia

theorem Syncing.keeps_blockSync (free : cfg.net.crypto.CollisionFree)
    {blocks : List ConsensusFullBlock} {s' : SyncMode} (received : s.received cfg.net.crypto
      (.blockSync blocks) = some s')
    (orderly : Orderly cfg (cfg.env input) sys.targets s s' (.blockSync blocks)) :
    Keeps cfg sys (s'.maybeStartConsensus (cfg.env input)) := by
  obtain ⟨sameStatus, sameFlag, sameBuffer⟩ : s'.dbStatus = s.dbStatus ∧ s'.updatingTarget = s.updatingTarget ∧
      s'.blockBuffer = blocks.foldl (handleBlocksync cfg.net.crypto) s.blockBuffer := by
    obtain rfl := some.inj received
    exact ⟨rfl, rfl, rfl⟩
  obtain ⟨consistent, grows⟩ := grows_blocks free syncing.consistent (orderly.bodies blocks rfl)
  rw [← sameBuffer] at consistent grows
  have pending := syncing.pending.grows grows sameFlag
  cases status : s'.dbStatus with
  | waiting =>
    obtain ⟨overdue, -⟩ := syncing.waiting (sameStatus ▸ status)
    exact keeps_maybeStartConsensus free orderly consistent status pending (overdue.grows grows)
  | started =>
    obtain ⟨complete, root, -, known, -⟩ := syncing.started (sameStatus ▸ status)
    rw [maybeStartConsensus_started (m := cfg.env input) (grows.needsBlocksync complete) (grows.rootInfo known) status]
    exact keeps_of_quiet (by simp) (syncing.grows grows sameStatus consistent (by simp [← sameStatus, status]) pending)
  | done => exact absurd (sameStatus ▸ status) syncing.notDone

theorem Syncing.keeps_doneSync {n : SeqNum} {targets : List SeqNum}
    (queued : sys.targets = n :: targets) (orderly : Orderly cfg (cfg.env input) sys.targets s s (.doneSync n)) :
    Keeps cfg { sys with targets } (s.doneSync (cfg.env input) n) := by
  have status : s.dbStatus = .started := by
    cases status : s.dbStatus with
    | waiting => simp [(syncing.waiting status).2 (orderly.complete n rfl)] at queued
    | started => rfl
    | done => exact absurd status syncing.notDone
  obtain ⟨complete, root, older, known, deep, shape, lower⟩ := syncing.started status
  have target : (cfg.env input).stateRootSeqNum root.seqNum = root.seqNum - cfg.executionDelay :=
    stateRootSeqNum_eq deep
  rw [queued] at shape
  cases older with
  | nil =>
    -- the target of the root
    obtain ⟨rfl, rfl⟩ := List.cons.inj shape
    have notUpdating : s.updatingTarget = false := by
      by_contra updating
      have early := orderly.early _ root rfl (by simpa using updating) known
      rw [target] at early
      exact lt_irrefl _ early
    have noRequests := syncing.pending.empty notUpdating
    have covers := orderly.reported _ rfl
    rw [← target] at covers ⊢
    rw [doneSync_target complete known status covers]
    exact keeps_of_takesLive (takesLive_goLive (orderly.valid complete)) noRequests rfl
  | cons o older =>
    -- an older target is dropped
    obtain ⟨rfl, rfl⟩ := List.cons.inj shape
    have early := lower n (by simp)
    have dropped : s.doneSync (cfg.env input) n = .ok (.sync s) [] := by
      simp only [doneSync, status, ne_eq, not_true, if_false, rootSeqNum]
      have known' : s.blockBuffer.rootInfo (cfg.env input).env.net.crypto = some root := known
      simp only [known', map_some, target, early, if_true]
    rw [dropped]
    exact keeps_of_quiet (by simp) ⟨syncing.consistent, syncing.pending, fun waiting => by simp [status] at waiting,
      fun _ => ⟨complete, root, older, known, deep, rfl, fun x mem => lower x (mem_cons_of_mem _ mem)⟩, syncing.notDone⟩

theorem Syncing.certificates (cache : CertificateCache) :
    Syncing cfg sys.requests sys.targets { s with certificateCache := cache } :=
  ⟨syncing.consistent, syncing.pending, syncing.waiting, syncing.started, syncing.notDone⟩

theorem Syncing.keeps_consensus (event : ConsensusEvent) : Keeps cfg sys (s.updateSync (cfg.env input) event) := by
  have unchanged : ∀ cache, Keeps cfg sys (.ok (.sync { s with certificateCache := cache }) []) :=
    fun cache => keeps_of_quiet (by simp) (syncing.certificates cache)
  cases event with
  | timeout | blockSync | sendVote => exact unchanged s.certificateCache
  | message message =>
    simp only [updateSync]
    split
    case h_2 => exact unchanged _
    case h_1 author proposal _ _ =>
      have grows := grows_handleProposal cfg.net.crypto s.blockBuffer author proposal
      have consistent := syncing.consistent.handleProposal author proposal
      have missing := needsBlocksync_of_handleProposal cfg.net.crypto s.blockBuffer author proposal
      split
      · exact keeps_of_quiet (by simp)
          (syncing.grows grows rfl consistent (fun _ => missing) (syncing.pending.grows grows rfl))
      case h_2 root highQc picked =>
        obtain ⟨old, known, above⟩ := lt_of_handleProposal picked
        obtain ⟨oldRoot, knownRoot, rfl⟩ := map_eq_some_iff.mp known
        split
        · exact keeps_of_quiet (by simp)
            (syncing.grows grows rfl consistent (fun _ => missing) (syncing.pending.grows grows rfl))
        case isFalse notUpdating =>
          -- nothing was on its way before
          have noRequests := syncing.pending.empty (by simpa using notUpdating)
          have pending : Pending cfg [(root, highQc)]
              { s with
                blockBuffer := (s.blockBuffer.handleProposal cfg.net.crypto author proposal).1
                updatingTarget := true } :=
            .inr ⟨rfl, _, oldRoot, rfl, grows.rootInfo knownRoot, above⟩
          rw [Keeps, Outcome.sat_ok]
          simp only [SyncSystem.Consistent, SyncSystem.absorb, noRequests, filterMap_cons, filterMap_nil,
            nil_append, append_nil]
          exact syncing.grows grows rfl consistent (fun _ => missing) pending

omit syncing

/-- Every orderly event keeps the invariant. -/
theorem SyncSystem.Consistent.handle (consistent : sys.Consistent cfg) (free : cfg.net.crypto.CollisionFree)
    (orderly : sys.Orderly cfg input) {outcome : Outcome MonadPanic SyncSystem Command}
    (handled : sys.handle cfg input = some outcome) :
    outcome.Sat MonadPanic.IsConsensus fun sys' _ => sys'.Consistent cfg := by
  obtain ⟨⟨event, rest⟩, given, rfl⟩ := map_eq_some_iff.mp handled
  have of_keeps : Keeps cfg rest (rest.state.update (cfg.env input) event) →
      (match rest.state.update (cfg.env input) event with
        | .panic reason => .panic reason
        | .ok state commands => .ok (rest.absorb cfg state commands) commands :
        Outcome MonadPanic SyncSystem Command).Sat MonadPanic.IsConsensus fun sys' _ => sys'.Consistent cfg := by
    intro keeps
    split
    case h_1 reason panics =>
      rw [Keeps, panics] at keeps
      exact keeps
    case h_2 state commands done =>
      rw [Keeps, done] at keeps
      exact keeps
  refine of_keeps ?_
  cases mode : sys.state with
  | live r =>
    rw [Consistent, mode] at consistent
    obtain ⟨noRequests, noTargets⟩ := consistent
    cases kind : input.event with
    | consensus => simp [next, kind, mode] at given
    | requestSync => simp [next, kind, noRequests] at given
    | doneSync => simp [next, kind, noTargets] at given
    | blockSync blocks =>
      simp only [next, kind, some.injEq, Prod.mk.injEq] at given
      obtain ⟨rfl, rfl⟩ := given
      simp only [mode, MonadState.update]
      exact keeps_of_quiet (by simp) ⟨noRequests, noTargets⟩
  | sync s =>
    have syncing : Syncing cfg sys.requests sys.targets s := by
      rw [Consistent, mode] at consistent
      exact consistent
    cases kind : input.event with
    | consensus event =>
      simp only [next, kind, mode, some.injEq, Prod.mk.injEq] at given
      obtain ⟨rfl, rfl⟩ := given
      simp only [mode, MonadState.update]
      exact syncing.keeps_consensus event
    | requestSync =>
      cases queued : sys.requests with
      | nil => simp [next, kind, queued] at given
      | cons request requests =>
        have next : sys.next input.event = some (.requestSync request.1 request.2, { sys with requests }) := by
          simp [next, kind, queued]
        obtain ⟨rfl, rfl⟩ := Prod.mk.inj (some.inj (given.symm.trans next))
        simp only [mode, MonadState.update]
        exact syncing.keeps_requestSync free queued rfl (orderly s _ _ _ mode next rfl)
    | doneSync =>
      cases queued : sys.targets with
      | nil => simp [next, kind, queued] at given
      | cons n targets =>
        have next : sys.next input.event = some (.doneSync n, { sys with targets }) := by
          simp [next, kind, queued]
        obtain ⟨rfl, rfl⟩ := Prod.mk.inj (some.inj (given.symm.trans next))
        simp only [mode, MonadState.update]
        exact syncing.keeps_doneSync queued (orderly s s _ _ mode next rfl)
    | blockSync blocks =>
      have next : sys.next input.event = some (.blockSync blocks, sys) := by
        simp [next, kind]
      obtain ⟨rfl, rfl⟩ := Prod.mk.inj (some.inj (given.symm.trans next))
      simp only [mode, MonadState.update]
      exact syncing.keeps_blockSync free rfl (orderly s _ _ _ mode next rfl)

/-- A node that was not done goes live on the root that the event left. -/
theorem SyncMode.goesLive_of_update {m : MonadEnv} {r : Replica} {commands : List Command}
    (notDone : s.dbStatus ≠ .done) (live : MonadState.update m (.sync s) event = .ok (.live r) commands) :
    ∃ s', s.received m.env.net.crypto event = some s' ∧ s'.GoesLive m r commands := by
  cases event with
  | consensus event =>
    obtain ⟨s', isSync, -⟩ := updateSync_eq_ok live
    cases isSync
  | requestSync root highQc => exact ⟨_, rfl, goesLive_of_maybeStartConsensus (by simp) live⟩
  | doneSync n => exact ⟨s, rfl, goesLive_of_doneSync live⟩
  | blockSync blocks => exact ⟨_, rfl, goesLive_of_maybeStartConsensus notDone live⟩
  | mempool event => cases live

end Events

/-! ## Runs -/

def SyncSystem.Handles (cfg : SyncConfig) (sys : SyncSystem) (input : SyncInput) (sys' : SyncSystem) : Prop :=
  ∃ commands, sys.handle cfg input = some (.ok sys' commands)

/-- A run from a checkpoint, with the state in which every event was handled. -/
def SyncSystem.Run (cfg : SyncConfig) (epochManager : EpochManager) (root : BlockId)
    (highCertificate : RoundCertificate) : List (SyncSystem × SyncInput) → SyncSystem → Prop :=
  Trace (Trace.Recorded (Handles cfg)) (start cfg epochManager root highCertificate)

section Runs

variable {cfg : SyncConfig} {epochManager : EpochManager} {root : BlockId} {highCertificate : RoundCertificate}
  {history : List (SyncSystem × SyncInput)} {sys : SyncSystem} {input : SyncInput}

variable (run : Run cfg epochManager root highCertificate history sys)
  (free : cfg.net.crypto.CollisionFree) (orderly : ∀ entry ∈ history, entry.1.Orderly cfg entry.2)

include run free orderly

theorem SyncSystem.Run.consistent : sys.Consistent cfg := by
  induction run with
  | nil => exact consistent_start cfg epochManager root highCertificate
  | snoc _ taken ih =>
    obtain ⟨rfl, commands, handled⟩ := taken
    have before := ih fun entry mem => orderly entry (mem_append_left _ mem)
    exact before.handle free (orderly _ (by simp)) handled

/-- A node whose events were all orderly handles an orderly event without a panic of its own, and if it goes live, the
blocks and the state of its root are there. -/
theorem SyncSystem.handle_of_orderly (orderlyNow : sys.Orderly cfg input)
    {outcome : Outcome MonadPanic SyncSystem Command} (handled : sys.handle cfg input = some outcome) :
    outcome.Sat MonadPanic.IsConsensus fun sys' commands => ∀ s r, sys.state = .sync s → sys'.state = .live r →
      ∃ event rest s', sys.next input.event = some (event, rest) ∧ s.received cfg.net.crypto event = some s' ∧
        s'.GoesLive (cfg.env input) r commands := by
  have consistent := run.consistent free orderly
  have kept := consistent.handle free orderlyNow handled
  cases outcome with
  | panic reason => exact kept
  | ok sys' commands =>
    intro s r mode live
    have notDone : s.dbStatus ≠ .done := by
      rw [Consistent, mode] at consistent
      exact consistent.notDone
    obtain ⟨⟨event, rest⟩, given, result⟩ := map_eq_some_iff.mp handled
    have sameState := (next_state given).trans mode
    simp only [sameState] at result
    split at result
    · cases result
    case h_2 state commands' done =>
      obtain ⟨rfl, rfl⟩ := Outcome.ok.inj result
      obtain rfl : state = .live r := live
      obtain ⟨s', received, goesLive⟩ := goesLive_of_update notDone done
      exact ⟨event, rest, s', given, received, goesLive⟩

end Runs

section Examples

open FourValidators

def syncConfig : SyncConfig where
  net := net
  node := node 0
  executionDelay := 1
  statesyncToLiveThreshold := 0
  finalizedSeqNum := fun header => header.headD 0

def executed₁ : ConsensusFullBlock :=
  let first := block 1 crypto.genesisQc 1 0
  { first with header := { first.header with delayedExecutionResults := [[0]] } }

def startExecuted₁ : SyncSystem := .start syncConfig epochManager (encodeHeader executed₁.header) (.qc crypto.genesisQc)

def unsynced (event : SyncEvent) : SyncInput := ⟨now, ⟨none, none⟩, event⟩

def synced (event : SyncEvent) : SyncInput := ⟨now, ⟨some 0, some 0⟩, event⟩

def requested₁ : SyncSystem where
  state := .sync {
    highCertificate := .qc crypto.genesisQc
    blockBuffer := (BlockBuffer.new 1 (encodeHeader executed₁.header) 0).handleBlocksync crypto executed₁
    dbStatus := .started
    updatingTarget := false
    epochManager
    certificateCache := .empty }
  requests := []
  targets := [0]

theorem orderly_blocks : startExecuted₁.Orderly syncConfig (unsynced (.blockSync [executed₁])) := by
  intro s s' event rest mode given received
  cases mode
  cases given
  cases received
  refine ⟨?_, ?_, ?_, ?_, ?_, ?_, ?_, ?_, ?_⟩
  · intro blocks isBlocks b mem
    cases isBlocks
    rw [mem_singleton.mp mem]
    rfl
  · intro root _
    exact Nat.zero_le _
  · intro n isReport
    cases isReport
  · exact fun _ => all_eq_true.mp rfl
  · intro root _ _ known _
    cases known
    exact ⟨le_rfl, [0], rfl, rfl⟩
  · intro root _ _ _ behind
    cases behind
  · intro n isReport
    cases isReport
  · intro n root isReport
    cases isReport
  · intro root _ _ _ behind
    cases behind

theorem orderly_report : requested₁.Orderly syncConfig (synced .doneSync) := by
  intro s s' event rest mode given received
  cases mode
  cases given
  cases received
  refine ⟨?_, ?_, ?_, ?_, ?_, ?_, ?_, ?_, ?_⟩
  · intro blocks isBlocks
    cases isBlocks
  · intro root _
    exact Nat.zero_le _
  · intro n isReport
    cases isReport
    rfl
  · exact fun _ => all_eq_true.mp rfl
  · intro root waiting
    cases waiting
  · intro root waiting
    cases waiting
  · intro n _
    rfl
  · intro n root _ updating
    cases updating
  · intro root waiting
    cases waiting

/-- The state of genesis is reported, and the node goes live. -/
theorem handle_of_orderly_report : ∃ sys commands r, requested₁.handle syncConfig (synced .doneSync) = some
    (.ok sys commands) ∧
    sys.state = .live r ∧ ∃ event rest s', requested₁.next (synced .doneSync).event = some (event, rest) ∧
      SyncMode.GoesLive (syncConfig.env (synced .doneSync)) s' r commands := by
  have run : Run syncConfig epochManager (encodeHeader executed₁.header) (.qc crypto.genesisQc)
      [(startExecuted₁, unsynced (.blockSync [executed₁]))] requested₁ := Trace.nil.snoc ⟨rfl, [.requestSync [0]], rfl⟩
  have goesLive : ∃ sys ∈ (requested₁.handle syncConfig (synced .doneSync)).bind Outcome.state?,
    sys.state.live?.isSome = true := by
    decide +kernel
  obtain ⟨sys, isState, isLive⟩ := goesLive
  obtain ⟨r, isLive⟩ := isSome_iff_exists.mp isLive
  obtain ⟨outcome, handled, isState⟩ := bind_eq_some_iff.mp isState
  obtain ⟨commands, rfl⟩ := Outcome.state?_eq_some.mp isState
  obtain ⟨event, rest, s', given, received, live⟩ :=
    handle_of_orderly run collisionFree (by simpa using orderly_blocks) orderly_report handled _ r rfl
      (MonadState.live?_eq_some.mp isLive)
  exact ⟨sys, commands, r, handled, MonadState.live?_eq_some.mp isLive, event, rest, s', given, live⟩

def SyncSystem.replay (cfg : SyncConfig) (sys : SyncSystem) : List SyncInput → Option MonadPanic
  | [] => none
  | input :: rest =>
    match sys.handle cfg input with
    | none => none
    | some (.panic reason) => some reason
    | some (.ok sys _) => sys.replay cfg rest

def block₂' : ConsensusFullBlock := block 2 (qcFor 1 executed₁) 2 0
def block₃' : ConsensusFullBlock := block 3 (qcFor 2 block₂') 3 0
def block₄' : ConsensusFullBlock := block 4 (qcFor 3 block₃') 4 0

def newTarget : List SyncInput :=
  [unsynced (.blockSync [executed₁]), unsynced (.consensus (proposal 2 block₂' none none)),
    unsynced (.consensus (proposal 3 block₃' none none)), unsynced (.consensus (proposal 4 block₄' none none))]

/-- Two orders that end in a panic: the new target, whose block is missing, arrives before the report for the old one,
or after it. The database is at genesis, below both roots. -/
theorem replay_panics : startExecuted₁.replay syncConfig (newTarget ++ [unsynced .requestSync, synced .doneSync]) =
      some .doneSyncNotStarted ∧
    startExecuted₁.replay syncConfig (newTarget ++ [synced .doneSync, synced .requestSync]) =
      some .requestSyncLive := by
  decide +kernel

end Examples

end MonadBft
