import MonadBft.Archive.Workers
import MonadBft.Lib.Outcome

/-! # Progress of the archive workers

What the progress markers promise. A worker is caught up below its start block, and it marks a number only after
every block from its first one up to that number was handled without an error. Three slips limit this: the index
worker subtracts one from a failed block 0, the end of a group ignores the stop override, and the end of a group is
computed by an addition that can overflow.
-/

namespace MonadBft

open List Option

namespace Archive

variable {κ : Type} {kind : Kind} {params : Params} {handled : Nat → Handled κ}

/-! ## The first failure of a group -/

variable {start count n last : Nat} {around : Surroundings κ} {worker : Worker κ}

section

variable (keeps : kind.skipBadBlocks = false)

include keeps

theorem firstFailure_eq_none (found : firstFailure kind handled start count = none)
    (above : start ≤ n) (below : n < start + count) :
    (handled n).ok = true := by
  induction count generalizing start with
  | zero => omega
  | succ count ih =>
    rw [firstFailure, keeps, Bool.or_false] at found
    split at found
    next ok =>
      by_cases here : n = start
      · rw [here]
        exact ok
      · exact ih found (by omega) (by omega)
    next => cases found

theorem firstFailure_eq_some {start count errBlock : Nat}
    (found : firstFailure kind handled start count = some errBlock) :
    start ≤ errBlock ∧ errBlock < start + count ∧ (handled errBlock).ok = false ∧
      ∀ n, start ≤ n → n < errBlock → (handled n).ok = true := by
  induction count generalizing start with
  | zero => cases found
  | succ count ih =>
    rw [firstFailure, keeps, Bool.or_false] at found
    split at found
    next ok =>
      obtain ⟨above, below, failed, before⟩ := ih found
      refine ⟨by omega, by omega, failed, fun n from_ upto => ?_⟩
      by_cases here : n = start
      · rw [here]
        exact ok
      · exact before n (by omega) upto
    next failed =>
      cases found
      exact ⟨le_rfl, by omega, by simpa using failed, fun n from_ upto => by omega⟩

/-! ## What a group adds -/

/-- A group of blocks `start..=last`: it handles some of them, those below `reached` without an error, and marks at
most the one before `reached`. -/
structure Advances (around : Surroundings κ) (start last : Nat) (worker worker' : Worker κ) (reached : Nat) : Prop where
  start_le : start ≤ reached
  le_last : reached ≤ last + 1
  processed : ∀ n ∈ worker'.processed, n ∈ worker.processed ∨ start ≤ n ∧ n ≤ last
  kept : worker.done ⊆ worker'.done
  done : ∀ n, start ≤ n → n < reached → n ∈ worker'.done
  handled : ∀ n ∈ worker'.done, n ∈ worker.done ∨ (around.handled n).ok ∧ (around.handled n).puts ⊆ worker'.puts
  puts : worker.puts ⊆ worker'.puts
  markers : ∀ n ∈ worker'.markers, n ∈ worker.markers ∨ n < reached

omit keeps in
/-- The blocks below `reached` are handled, and the one before it is marked. -/
theorem advances_of_handled {worker' : Worker κ} {reached latest : Nat} (above : start ≤ reached)
    (upto : reached ≤ last + 1)
    (ok : ∀ n, start ≤ n → n < reached → (around.handled n).ok = true) (number : latest = reached - 1)
    (processed : ∀ n ∈ worker'.processed, n ∈ worker.processed ∨ start ≤ n ∧ n ≤ last)
    (done : worker'.done = worker.done ++ (List.range' start (reached - start)).filter fun n => (around.handled n).ok)
    (puts : worker.puts ++ ((List.range' start (reached - start)).flatMap fun n => (around.handled n).puts) ⊆
      worker'.puts)
    (markers : worker'.markers = if latest ≠ 0 then worker.markers ++ [latest] else worker.markers) :
    Advances around start last worker worker' reached := by
  refine ⟨above, upto, processed, done ▸ subset_append_left _ _, fun n above below => ?_, fun n mem => ?_,
    (append_subset.mp puts).1, fun n mem => ?_⟩
  · rw [done]
    refine mem_append_right _ (List.mem_filter.mpr ⟨mem_range'_1.mpr ⟨above, by omega⟩, ?_⟩)
    exact ok n above below
  · rw [done] at mem
    refine (mem_append.mp mem).imp_right fun new => ?_
    obtain ⟨inside, isOk⟩ := List.mem_filter.mp new
    exact ⟨isOk, fun put mem => (append_subset.mp puts).2 (mem_flatMap.mpr ⟨n, inside, mem⟩)⟩
  · rw [markers] at mem
    split at mem
    · refine (mem_append.mp mem).imp_right fun new => ?_
      rw [mem_singleton.mp new]
      omega
    · exact .inl mem

theorem processBlocks_advances
    (before : ∀ errBlock latest, kind.beforeFailed errBlock = some latest → latest = errBlock - 1)
    {worker' : Worker κ} {start last latest : Nat} (nonempty : start ≤ last)
    (result : processBlocks kind params around worker start last = some (worker', latest)) :
    ∃ reached, Advances around start last worker worker' reached ∧ latest = reached - 1 := by
  rw [processBlocks] at result
  split at result
  next found =>
    cases result
    have ok : ∀ n, start ≤ n → n < last + 1 → (around.handled n).ok = true := fun n above below =>
      firstFailure_eq_none keeps found above (by omega)
    refine ⟨last + 1, advances_of_handled (by omega) le_rfl ok rfl (fun n mem => ?_) rfl (List.Subset.refl _) rfl, rfl⟩
    refine (mem_append.mp mem).imp_right fun new => ?_
    have bounds := mem_range'_1.mp new
    omega
  next errBlock found =>
    obtain ⟨above, below, -, ok⟩ := firstFailure_eq_some keeps found
    split at result
    · cases result
    next latest' atFailed =>
      cases result
      have number := before errBlock latest atFailed
      refine ⟨errBlock, advances_of_handled above (by omega) ok number (fun n mem => ?_) rfl ?_ rfl, number⟩
      · simp only [append_assoc, mem_append, mem_cons, mem_range'_1] at mem
        obtain old | new := mem
        · exact .inl old
        · exact .inr (by omega)
      · exact subset_append_of_subset_left _ (subset_append_left _ _)

/-! ## What a pass does -/

/-- The numbers of a pass stay in range: the end of the group can be computed, no group reaches over the stop block,
and the index worker's block 0 does not fail. -/
structure Safe (kind : Kind) (params : Params) (worker : Worker κ) (around : Surroundings κ) : Prop where
  fits : worker.startBlock + params.maxBlocksPerIteration < 2 ^ 64
  stops : ∀ stop latest, params.stopBlockOverride = some stop → around.latestSource = some (some latest) →
    worker.startBlock ≤ stop → latest ≤ stop ∨ worker.startBlock + params.maxBlocksPerIteration ≤ stop + 1
  genesis : kind.beforeFailed 0 = none → worker.startBlock = 0 → (around.handled 0).ok = true

/-- The first block and the markers written and blocks processed since. -/
structure Progress (params : Params) (Full : Nat → List κ → Prop) (first : Nat) (worker : Worker κ) : Prop where
  caughtUp : ∀ n, first ≤ n → n < worker.startBlock → n ∈ worker.done
  marked : ∀ marker ∈ worker.markers, ∀ n, first ≤ n → n ≤ marker → n ∈ worker.done
  full : ∀ n ∈ worker.done, Full n worker.puts
  stopped : ∀ stop, params.stopBlockOverride = some stop → ∀ n ∈ worker.processed, n ≤ stop

theorem processBlocks_eq_none (defined : ∀ errBlock, kind.beforeFailed errBlock = none → errBlock = 0)
    (result : processBlocks kind params around worker start last = none) :
    kind.beforeFailed 0 = none ∧ start = 0 ∧ (around.handled 0).ok = false := by
  rw [processBlocks] at result
  split at result
  · cases result
  next errBlock found =>
    obtain ⟨above, -, failed, -⟩ := firstFailure_eq_some keeps found
    split at result
    next undefined =>
      obtain rfl := defined errBlock undefined
      exact ⟨undefined, Nat.le_zero.mp above, failed⟩
    next => cases result

end

section

variable (keeps : kind.skipBadBlocks = false) (positive : 0 < params.maxBlocksPerIteration)
  (before : ∀ errBlock latest, kind.beforeFailed errBlock = some latest → latest = errBlock - 1)
  (defined : ∀ errBlock, kind.beforeFailed errBlock = none → errBlock = 0)

include keeps positive before defined

variable {around : Surroundings κ} {latestSource first : Nat} {worker : Worker κ}

/-- A safe pass stops, does nothing, or handles a group that ends at the stop block or before. -/
theorem pass_cases (known : around.latestSource = some (some latestSource))
    (safe : Safe kind params worker around) :
    pass kind params worker around = .stopped ∨ pass kind params worker around = .again worker ∨
    ∃ last reached next worker', pass kind params worker around = .again { worker' with startBlock := next } ∧
      Advances around worker.startBlock last worker worker' reached ∧ next ≤ reached ∧
      ∀ stop, params.stopBlockOverride = some stop → last ≤ stop := by
  have fits := safe.fits
  rw [pass, known]
  dsimp only [some_or]
  split
  · exact .inl rfl
  next within =>
    have limit : (addU64 worker.startBlock params.maxBlocksPerIteration).bind (subU64 · 1) =
        some (worker.startBlock + params.maxBlocksPerIteration - 1) := by
      rw [addU64, if_pos fits, bind_some, subU64, if_pos (by omega)]
    rw [limit]
    dsimp only
    split
    · exact .inr (.inl rfl)
    next nonempty =>
      cases result : processBlocks kind params around worker worker.startBlock
          (min latestSource (worker.startBlock + params.maxBlocksPerIteration - 1)) with
      | none =>
        obtain ⟨undefined, zero, failed⟩ := processBlocks_eq_none keeps defined result
        rw [safe.genesis undefined zero] at failed
        cases failed
      | some pair =>
        obtain ⟨worker', latest⟩ := pair
        obtain ⟨reached, advances, number⟩ := processBlocks_advances keeps before (not_lt.mp nonempty) result
        have inside : ∀ stop, params.stopBlockOverride = some stop →
            min latestSource (worker.startBlock + params.maxBlocksPerIteration - 1) ≤ stop := by
          intro stop atStop
          rw [atStop, any_some, decide_eq_true_iff] at within
          have bound := safe.stops stop latestSource atStop known (not_lt.mp within)
          omega
        refine .inr (.inr ?_)
        dsimp only
        split
        · exact ⟨_, reached, 0, worker', rfl, advances, Nat.zero_le _, inside⟩
        next nonzero =>
          have upto := advances.le_last
          rw [addU64, if_pos (by omega)]
          exact ⟨_, reached, latest + 1, worker', rfl, advances, by omega, inside⟩

variable {Full : Nat → List κ → Prop} (grows : ∀ n puts puts', puts ⊆ puts' → Full n puts → Full n puts')

include grows

theorem Progress.step {worker' : Worker κ} (known : around.latestSource = some (some latestSource))
    (writes : ∀ n, (around.handled n).ok = true → Full n (around.handled n).puts)
    (safe : Safe kind params worker around)
    (result : pass kind params worker around = .again worker') (progress : Progress params Full first worker) :
    Progress params Full first worker' := by
  rcases pass_cases keeps positive before defined known safe with
    stopped | idle | ⟨last, reached, next, moved, group, advances, upto, inside⟩
  · cases stopped.symm.trans result
  · cases idle.symm.trans result
    exact progress
  · cases group.symm.trans result
    have caughtUp : ∀ n, first ≤ n → n < reached → n ∈ moved.done := by
      intro n above below
      by_cases old : n < worker.startBlock
      · exact advances.kept (progress.caughtUp n above old)
      · exact advances.done n (not_lt.mp old) below
    refine ⟨fun n above below => caughtUp n above (lt_of_lt_of_le below upto), fun marker mem n above below => ?_,
      fun n mem => ?_, fun stop atStop n mem => ?_⟩
    · obtain old | new := advances.markers marker mem
      · exact advances.kept (progress.marked marker old n above below)
      · exact caughtUp n above (lt_of_le_of_lt below new)
    · obtain old | ⟨ok, puts⟩ := advances.handled n mem
      · exact grows n _ _ advances.puts (progress.full n old)
      · exact grows n _ _ puts (writes n ok)
    · obtain old | new := advances.processed n mem
      · exact progress.stopped stop atStop n old
      · exact le_trans new.2 (inside stop atStop)

/-- A safe pass over a source whose latest block is known. -/
def SafeStep (kind : Kind) (params : Params) (Handles : (Nat → Handled κ) → Prop) (worker : Worker κ)
    (around : Surroundings κ) (worker' : Worker κ) : Prop :=
  (∃ latest, around.latestSource = some (some latest)) ∧ Handles around.handled ∧ Safe kind params worker around ∧
    pass kind params worker around = .again worker'

variable {Handles : (Nat → Handled κ) → Prop}

theorem Progress.run (writes : ∀ handled, Handles handled → ∀ n, (handled n).ok = true → Full n (handled n).puts)
    {passes : List (Surroundings κ)}
    (run : Trace (SafeStep kind params Handles) (.new first) passes worker) : Progress params Full first worker := by
  induction run with
  | nil =>
    exact ⟨fun n above below => absurd above (not_le.mpr below), fun _ mem => absurd mem not_mem_nil,
      fun _ mem => absurd mem not_mem_nil, fun _ _ _ mem => absurd mem not_mem_nil⟩
  | snoc _ taken ih =>
    obtain ⟨⟨latest, known⟩, handles, safe, result⟩ := taken
    exact ih.step keeps positive before defined grows known (writes _ handles) safe result

/-- In every run of safe passes the markers and the start block tell the truth, and the next safe pass neither
overflows nor panics. -/
def NeverOverstates (kind : Kind) (params : Params) (Handles : (Nat → Handled κ) → Prop) (Full : Nat → List κ → Prop)
    (first : Nat) : Prop :=
  ∀ passes worker, Trace (SafeStep kind params Handles) (.new first) passes worker →
    Progress params Full first worker ∧
    ∀ around, (∃ latest, around.latestSource = some (some latest)) → Safe kind params worker around →
      pass kind params worker around ≠ .overflow ∧ pass kind params worker around ≠ .panic

theorem neverOverstates (writes : ∀ handled, Handles handled → ∀ n, (handled n).ok = true → Full n (handled n).puts)
    (first : Nat) : NeverOverstates kind params Handles Full first := by
  intro passes worker run
  refine ⟨Progress.run keeps positive before defined grows writes run, fun around known safe => ?_⟩
  obtain ⟨latest, known⟩ := known
  rcases pass_cases keeps positive before defined known safe with result | result | ⟨_, _, _, _, result, -⟩ <;>
  · rw [result]
    exact ⟨by simp, by simp⟩

end

/-! ## The two workers -/

section Workers

variable {Block Receipts Traces Tx Receipt CallTrace Offset : Type}

/-- The blocks of a pass are archived from some source, fallback and archive. -/
def Archives (Block Receipts Traces : Type) (handled : Nat → Handled (ArchivePut Block Receipts Traces)) : Prop :=
  ∃ reader fallback archiver, handled = archiveBlock reader fallback archiver

def Archived (n : Nat) (puts : List (ArchivePut Block Receipts Traces)) : Prop :=
  ∃ block receipts, .block n block ∈ puts ∧ .receipts n receipts ∈ puts

/-- The blocks of a pass are indexed, with their logs if there is a log index. -/
def Indexes (Tx Receipt CallTrace Offset : Type) (withLogs : Bool) (handled : Nat → Handled IndexPut) : Prop :=
  ∃ (reader : Nat → Option (BlockDataWithOffsets Tx Receipt CallTrace Offset))
    (writer : IndexWriter Tx Receipt CallTrace Offset),
    writer.logIndex.isSome = withLogs ∧ handled = handleBlock reader writer

def Indexed (withLogs : Bool) (n : Nat) (puts : List IndexPut) : Prop :=
  .transactions n ∈ puts ∧ (withLogs = true → .logs n ∈ puts)

theorem archived_of_ok {handled : Nat → Handled (ArchivePut Block Receipts Traces)}
    (archives : Archives Block Receipts Traces handled) (n : Nat)
    (ok : (handled n).ok = true) : Archived n (handled n).puts := by
  obtain ⟨reader, fallback, archiver, rfl⟩ := archives
  rw [archiveBlock] at ok ⊢
  simp only [Bool.and_eq_true, isSome_iff_exists] at ok
  obtain ⟨⟨block, atBlock⟩, receipts, atReceipts⟩ := ok
  refine ⟨block, receipts, ?_, ?_⟩
  · simp [atBlock]
  · simp [atReceipts]

theorem indexed_of_ok {withLogs : Bool} {handled : Nat → Handled IndexPut}
    (indexes : Indexes Tx Receipt CallTrace Offset withLogs handled) (n : Nat) (ok : (handled n).ok = true) :
    Indexed withLogs n (handled n).puts := by
  obtain ⟨reader, writer, rfl, rfl⟩ := indexes
  rw [handleBlock] at ok ⊢
  split at ok
  · cases ok
  · split at ok
    next written =>
      split at ok
      next absent => simp [Indexed, written, absent]
      next logs found =>
        split at ok
        next logged => simp [Indexed, written, found, logged]
        next => cases ok
    next => cases ok

theorem firstBlock_eq_some {params : Params} {latestStored : Option (Option Nat)}
    (fits : params.startBlockOverride = none → ∀ latest, latestStored = some (some latest) → latest + 1 < 2 ^ 64) :
    ∃ first, firstBlock params latestStored = some first := by
  rw [firstBlock]
  split
  next startBlock _ => exact ⟨startBlock, rfl⟩
  next absent =>
    dsimp only
    split
    · exact ⟨0, rfl⟩
    next nonzero =>
      have small : (latestStored.getD (some 0)).getD 0 + 1 < 2 ^ 64 := by
        cases latestStored with
        | none => simp at nonzero
        | some stored =>
          cases stored with
          | none => simp at nonzero
          | some latest => exact fits absent latest rfl
      exact ⟨_, if_pos small⟩

/-! A source with the empty blocks 0 to 9, one of which may be missing. -/

def emptyBlocks (missing : Nat) : BlockDataReader Unit Unit Unit where
  getBlockByNumber := fun n => if n = missing then none else some ()
  getBlockReceipts := fun _ => some ()
  getBlockTraces := fun _ => some ()

def archivePass (missing : Nat) : Surroundings (ArchivePut Unit Unit Unit) where
  latestSource := some (some 9)
  handled := archiveBlock (emptyBlocks missing) none ⟨fun _ => true, fun _ _ => true, fun _ _ => true⟩
  ahead := 0
  interrupted := fun _ => []

def indexPass (missing : Nat) : Surroundings IndexPut where
  latestSource := some (some 9)
  handled := handleBlock (fun n => if n = missing then none else some (⟨[], [], [], none⟩ :
    BlockDataWithOffsets Unit Unit Unit Unit)) ⟨fun _ => true, none⟩
  ahead := 0
  interrupted := fun _ => []

end Workers

end Archive

end MonadBft
