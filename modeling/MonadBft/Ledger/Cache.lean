import MonadBft.Ledger.Crashes

/-! # The ledger's block cache

`update_cache` keeps three maps: blocks by id, bodies by id, and by round an index of both, from which the lowest round
is evicted when there are too many. The maps stay in step unless the block that is cached is the one that is evicted:
it then stays in the caches and is not listed. Fetches are answered as from the files in every case.
-/

namespace MonadBft.BlockLedger

open Ledger SortedMap List Function

section

variable {crypto : Crypto} {codec : Codec} {ledger ledger' : BlockLedger} {block : ConsensusFullBlock}
  {index : Round → Option (BlockId × Bytes)} {blocks : AList fun _ : BlockId => ConsensusFullBlock}
  {bodies : AList fun _ : Bytes => Bytes}

/-- The cache is bounded, the index lists its blocks, and the bodies are those of cached blocks. -/
structure Consistent (ledger : BlockLedger) : Prop where
  bounded : ledger.blockCache.entries.length ≤ blockCacheSize
  listed : ∀ id, (∃ block, ledger.blockCache.lookup id = some block) ↔ ∃ e ∈ ledger.blockCacheIndex.entries, e.2.1 = id
  used : ∀ id body, ledger.blockPayloadCache.lookup id = some body →
    ∃ id' block, ledger.blockCache.lookup id' = some block ∧ block.getBodyId = id

/-- The cache is full of later rounds. -/
def SelfEvicts (ledger : BlockLedger) (block : ConsensusFullBlock) : Prop :=
  blockCacheSize ≤ ledger.blockCacheIndex.entries.length ∧ ∀ e ∈ ledger.blockCacheIndex.entries,
    block.getBlockRound < e.1

/-- Cached blocks are indexed under their rounds, and what is indexed is cached. -/
structure InStep (crypto : Crypto) (index : Round → Option (BlockId × Bytes))
    (blocks : AList fun _ : BlockId => ConsensusFullBlock) (bodies : AList fun _ : Bytes => Bytes) : Prop where
  ids : ∀ id block, blocks.lookup id = some block → crypto.getId block.header = id
  cached : ∀ id block, blocks.lookup id = some block → index block.getBlockRound = some (id, block.getBodyId)
  entry : ∀ round e, index round = some e → ∃ block, blocks.lookup e.1 = some block ∧ block.getBlockRound = round
  used : ∀ id body, bodies.lookup id = some body → ∃ id' block, blocks.lookup id' = some block ∧ block.getBodyId = id

theorem InStep.uncache (inStep : InStep crypto index blocks bodies) {round : Round} {e : BlockId × Bytes}
    (found : index round = some e) :
    InStep crypto (update index round none) (blocks.erase e.1) (bodies.erase e.2) := by
  obtain ⟨ids, cached, entry, used⟩ := inStep
  obtain ⟨dropped, isDropped, atRound⟩ := entry round e found
  have body := Option.some.inj ((cached _ _ isDropped).symm.trans (atRound ▸ found))
  -- Only the dropped block has its round.
  have other : ∀ id block, blocks.lookup id = some block → id ≠ e.1 → block.getBlockRound ≠ round := by
    intro id block isBlock ne same
    have here := cached id block isBlock
    rw [same, found] at here
    exact ne (congrArg Prod.fst (Option.some.inj here)).symm
  refine ⟨fun id block kept => ?_, fun id block kept => ?_, fun round' e' found' => ?_, fun id body' kept => ?_⟩
  · exact ids id block (AList.lookup_erase_eq_some.mp kept).2
  · obtain ⟨ne, isBlock⟩ := AList.lookup_erase_eq_some.mp kept
    rw [update_of_ne (other id block isBlock ne)]
    exact cached id block isBlock
  · rw [update_apply] at found'
    have lookup : e'.1 ≠ e.1 → (blocks.erase e.1).lookup e'.1 = blocks.lookup e'.1 := AList.lookup_erase_ne
    grind
  · obtain ⟨ne, isBody⟩ := AList.lookup_erase_eq_some.mp kept
    obtain ⟨id', block, isBlock, uses⟩ := used id body' isBody
    have lookup : id' ≠ e.1 → (blocks.erase e.1).lookup id' = blocks.lookup id' := AList.lookup_erase_ne
    grind

/-- A block whose round is free goes into all three maps. -/
theorem InStep.insert (inStep : InStep crypto index blocks bodies) (injective : Injective crypto.getId)
    (free : index block.getBlockRound = none) :
    InStep crypto (update index block.getBlockRound (some (crypto.getId block.header, block.getBodyId)))
      (blocks.insert (crypto.getId block.header) block) (bodies.insert block.getBodyId block.body) := by
  obtain ⟨ids, cached, entry, used⟩ := inStep
  have apart : ∀ id other, blocks.lookup id = some other →
      id ≠ crypto.getId block.header ∧ other.getBlockRound ≠ block.getBlockRound := by
    intro id other isOther
    have here := cached id other isOther
    have differ : other.getBlockRound ≠ block.getBlockRound := fun same => by simp [same, free] at here
    refine ⟨fun same => differ ?_, differ⟩
    exact congrArg ConsensusBlockHeader.blockRound (injective ((ids id other isOther).trans same))
  refine ⟨fun id other kept => ?_, fun id other kept => ?_, fun round e found => ?_, fun id body kept => ?_⟩
  · obtain ⟨rfl, rfl⟩ | ⟨-, isOther⟩ := AList.lookup_insert_eq_some.mp kept
    · rfl
    · exact ids id other isOther
  · obtain ⟨rfl, rfl⟩ | ⟨-, isOther⟩ := AList.lookup_insert_eq_some.mp kept
    · exact update_self ..
    · rw [update_of_ne (apart id other isOther).2]
      exact cached id other isOther
  · rw [update_apply] at found
    simp only [AList.lookup_insert_eq_some]
    grind
  · simp only [AList.lookup_insert_eq_some] at kept ⊢
    grind

/-- The index is bounded and in step with the caches. -/
structure Tracks (crypto : Crypto) (ledger : BlockLedger) : Prop where
  inStep : InStep crypto ledger.blockCacheIndex.get? ledger.blockCache ledger.blockPayloadCache
  size : ledger.blockCacheIndex.entries.length ≤ blockCacheSize

theorem Tracks.onDisk (tracks : Tracks crypto ledger) (disk : Disk) : Tracks crypto { ledger with disk } :=
  ⟨tracks.inStep, tracks.size⟩

theorem tracks_new (disk : Disk) : Tracks crypto (new disk) :=
  ⟨⟨by simp [new], by simp [new], by simp [new], by simp [new]⟩, Nat.zero_le _⟩

theorem Tracks.consistent (tracks : Tracks crypto ledger) : Consistent ledger := by
  obtain ⟨inStep, size⟩ := tracks
  have listed : ∀ id, (∃ block, ledger.blockCache.lookup id = some block) ↔
      ∃ e ∈ ledger.blockCacheIndex.entries, e.2.1 = id := by
    intro id
    constructor
    · rintro ⟨block, isBlock⟩
      exact ⟨_, get?_eq_some_iff.mp (inStep.cached id block isBlock), rfl⟩
    · rintro ⟨e, mem, rfl⟩
      obtain ⟨block, isBlock, -⟩ := inStep.entry e.1 e.2 (get?_eq_some_iff.mpr mem)
      exact ⟨block, isBlock⟩
  refine ⟨?_, listed, inStep.used⟩
  have sub : ledger.blockCache.keys ⊆ ledger.blockCacheIndex.entries.map (·.2.1) := by
    intro id mem
    have found := (listed id).mp (Option.isSome_iff_exists.mp (AList.lookup_isSome.mpr (AList.mem_keys.mp mem)))
    exact mem_map.mpr found
  have count := (subperm_of_subset ledger.blockCache.keys_nodup sub).length_le
  rw [AList.keys, List.keys, length_map, length_map] at count
  exact count.trans size

/-! ## Caching a block -/

/-- The index with a block in it. -/
def indexWith (crypto : Crypto) (ledger : BlockLedger) (block : ConsensusFullBlock) :
    SortedMap Round (BlockId × Bytes) :=
  ledger.blockCacheIndex.insert block.getBlockRound (crypto.getId block.header, block.getBodyId)

theorem Tracks.indexBlock (tracks : Tracks crypto ledger) (block : ConsensusFullBlock) :
    InStep crypto (update ledger.blockCacheIndex.get? block.getBlockRound none)
      (ledger.indexBlock crypto block).blockCache (ledger.indexBlock crypto block).blockPayloadCache ∧
    (ledger.indexBlock crypto block).blockCacheIndex = ledger.indexWith crypto block := by
  rw [BlockLedger.indexBlock]
  split
  next free =>
    rw [← free, update_eq_self]
    exact ⟨tracks.inStep, rfl⟩
  next removed found => exact ⟨tracks.inStep.uncache found, rfl⟩

theorem evictBlock_cases (result : ledger.evictBlock = .ok ledger') :
    ledger.blockCacheIndex.entries.length ≤ blockCacheSize ∧ ledger' = ledger ∨
    blockCacheSize < ledger.blockCacheIndex.entries.length ∧ ∃ e, ledger.blockCacheIndex.entries.head? = some e ∧
      ledger' = { ledger with blockCacheIndex := ledger.blockCacheIndex.erase e.1 }.uncache e.2 := by
  rw [evictBlock] at result
  split at result
  next full =>
    split at result
    next => cases result
    next round evicted first => exact .inr ⟨full, _, first, (Except.ok.inj result).symm⟩
  next bounded => exact .inl ⟨not_lt.mp bounded, (Except.ok.inj result).symm⟩

theorem updateCache_eq_ok (result : ledger.updateCache crypto block = .ok ledger') :
    ∃ kept, (ledger.indexBlock crypto block).evictBlock = .ok kept ∧ ledger' = { kept with
      blockPayloadCache := kept.blockPayloadCache.insert block.getBodyId block.body
      blockCache := kept.blockCache.insert (crypto.getId block.header) block } := by
  rw [updateCache] at result
  split at result
  next => cases result
  next kept evicts => exact ⟨kept, evicts, (Except.ok.inj result).symm⟩

/-- The maps stay in step unless the block evicts itself. -/
theorem Tracks.updateCache (tracks : Tracks crypto ledger) (injective : Injective crypto.getId)
    (stays : ¬SelfEvicts ledger block) (result : ledger.updateCache crypto block = .ok ledger') :
      Tracks crypto ledger' := by
  obtain ⟨dropped, indexed⟩ := tracks.indexBlock block
  obtain ⟨kept, evicts, rfl⟩ := updateCache_eq_ok result
  obtain ⟨bounded, rfl⟩ | ⟨full, ⟨round, evicted⟩, first, rfl⟩ := evictBlock_cases evicts
  · refine ⟨?_, bounded⟩
    convert dropped.insert injective (update_self ..) using 1
    funext round
    simp only [indexed, indexWith, get?_insert, update_apply]
    grind
  · rw [indexed] at full first
    have other : round ≠ block.getBlockRound := by
      rintro rfl
      exact stays (lt_of_head?_insert tracks.size full first)
    have atRound : ledger.blockCacheIndex.get? round = some evicted := by
      rw [← get?_insert_ne other]
      exact get?_eq_some_iff.mpr (mem_of_mem_head? first)
    constructor
    · convert (dropped.uncache ((update_of_ne other ..).trans atRound)).insert injective
        ((update_of_ne other.symm ..).trans (update_self ..)) using 1
      · funext round'
        simp only [uncache, indexed, indexWith, get?_insert, get?_erase, update_apply]
        grind
      · rfl
      · rfl
    · obtain ⟨rest, shape⟩ := head?_eq_some_iff.mp first
      have grown := length_insertEntry_le block.getBlockRound (crypto.getId block.header, block.getBodyId)
        ledger.blockCacheIndex.entries
      change (ledger.indexWith crypto block).entries.length ≤ _ at grown
      change ((ledger.indexBlock crypto block).blockCacheIndex.erase round).entries.length ≤ _
      rw [indexed, entries_erase_of_head shape]
      rw [shape, length_cons] at grown
      exact (Nat.le_of_succ_le_succ grown).trans tracks.size

/-- A block that evicts itself is cached and not listed. -/
theorem Tracks.not_consistent (tracks : Tracks crypto ledger) (injective : Injective crypto.getId)
    (evictsItself : SelfEvicts ledger block) (result : ledger.updateCache crypto block = .ok ledger') :
      ¬Consistent ledger' := by
  obtain ⟨full, later⟩ := evictsItself
  have shape : (ledger.indexWith crypto block).entries = _ := entries_insert_of_forall_lt later
  obtain ⟨-, indexed⟩ := tracks.indexBlock block
  obtain ⟨kept, evicts, rfl⟩ := updateCache_eq_ok result
  obtain ⟨bounded, -⟩ | ⟨-, e, first, rfl⟩ := evictBlock_cases evicts
  · rw [indexed, shape, length_cons] at bounded
    exact absurd full (not_le.mpr bounded)
  intro consistent
  obtain ⟨⟨round, entry⟩, mem, same⟩ := (consistent.listed _).mp ⟨block, AList.lookup_insert ..⟩
  rw [indexed, shape] at first
  cases first
  change (round, entry) ∈ ((ledger.indexBlock crypto block).blockCacheIndex.erase _).entries at mem
  rw [indexed, entries_erase_of_head shape] at mem
  -- The block that is listed under the id is the same block, at a later round.
  obtain ⟨other, isOther, atRound⟩ := tracks.inStep.entry round entry (get?_eq_some_iff.mpr mem)
  have header := injective ((tracks.inStep.ids _ other isOther).trans same)
  have round : other.getBlockRound = block.getBlockRound := congrArg ConsensusBlockHeader.blockRound header
  exact absurd (later _ mem) (atRound ▸ round ▸ lt_irrefl _)

/-! ## Fetching -/

variable (faithful : Faithful crypto codec)

include faithful

theorem fetchLoop_eq (sound : Sound crypto codec ledger) (count : Nat) (next : BlockId)
    (headers : List ConsensusBlockHeader) : ledger.fetchLoop codec count next headers =
    (new ledger.disk).fetchLoop codec count next headers := by
  have alone : ∀ id, (new ledger.disk).findHeader codec id = ledger.findHeader codec id :=
    fun id => (findHeader_eq sound faithful id).symm
  induction count generalizing next headers with
  | zero => rfl
  | succ count ih => simp only [fetchLoop, alone, ih]

/-! ## Runs -/

omit faithful in
/-- A command changes only the files, or caches the block that it proposes. -/
theorem Handles.caches {command : LedgerCommand} (handles : Handles crypto codec ledger (.run command) ledger') :
    ∃ disk, (∀ block, command ≠ .proposed block) ∧ ledger' = { ledger with disk } ∨
      ∃ block, command = .proposed block ∧ updateCache crypto { ledger with disk } block = .ok ledger' := by
  obtain ⟨disk, blocks, bodies, index⟩ := ledger
  cases handles with | run returns
  rw [exec] at returns
  cases command <;> grind

theorem run_proposed {events : List Event} (run : Trace (CleanStep crypto codec) (.new .empty) events ledger)
    (block : ConsensusFullBlock) (matching : block.BodyMatches crypto) : ∃ ledger' disk, CleanStep crypto codec ledger
      (.run (.proposed block)) ledger' ∧ updateCache crypto { ledger with disk } block = .ok ledger' := by
  obtain ⟨sound, -⟩ := run_sound faithful run
  have clean : CommandMatches crypto (.proposed block) := matching
  obtain ⟨ledger', responses, returns, -⟩ := exec_sound sound faithful clean
  obtain ⟨disk, ⟨other, -⟩ | ⟨_, ⟨⟩, result⟩⟩ := Handles.caches (.run returns)
  · exact absurd rfl (other block)
  · exact ⟨ledger', disk, ⟨matching, .run returns⟩, result⟩

theorem run_tracks {entries : List (BlockLedger × Event)}
    (run : Trace (Trace.Recorded (CleanStep crypto codec)) (.new .empty) entries ledger)
    (stays : ∀ before block, (before, .run (.proposed block)) ∈ entries → ¬SelfEvicts before block) :
    Tracks crypto ledger := by
  induction run with
  | nil => exact tracks_new _
  | @snoc entries _ after entry _ step ih =>
    have tracks := ih fun ledger block mem => stays ledger block (mem_append_left _ mem)
    obtain ⟨before, event⟩ := entry
    obtain ⟨rfl, -, handles⟩ := step
    cases handles with
    | crash => exact tracks_new _
    | run returns =>
      obtain ⟨disk, ⟨-, rfl⟩ | ⟨block, rfl, result⟩⟩ := Handles.caches (.run returns)
      · exact tracks.onDisk disk
      · exact (tracks.onDisk disk).updateCache faithful.id (stays before block (by simp)) result

omit faithful

/-- Fetches are answered as by the files alone. As long as every block stays that is cached, the maps are in step; one
that evicts itself leaves them out of step. -/
theorem cache_transparent (faithful : Faithful crypto codec) {entries : List (BlockLedger × Event)}
    (run : Trace (Trace.Recorded (CleanStep crypto codec)) (.new .empty) entries ledger) :
    (∀ range, ledger.ledgerFetchHeaders codec range = (new ledger.disk).ledgerFetchHeaders codec range) ∧
    (∀ id, ledger.ledgerFetchPayload codec id = (new ledger.disk).ledgerFetchPayload codec id) ∧
    ((∀ before block, (before, .run (.proposed block)) ∈ entries → ¬SelfEvicts before block) →
      Consistent ledger ∧ ∀ block ledger', Handles crypto codec ledger (.run (.proposed block)) ledger' →
        SelfEvicts ledger block → ¬Consistent ledger') := by
  obtain ⟨sound, -⟩ := run_sound faithful run.of_recorded
  refine ⟨fun range => ?_, ledgerFetchPayload_eq sound faithful, fun stays => ?_⟩
  · rw [ledgerFetchHeaders, ledgerFetchHeaders, fetchLoop_eq faithful sound]
  have tracks := run_tracks faithful run stays
  refine ⟨tracks.consistent, fun block ledger' handles evictsItself => ?_⟩
  obtain ⟨disk, ⟨other, -⟩ | ⟨_, ⟨⟩, result⟩⟩ := handles.caches
  · exact absurd rfl (other block)
  exact (tracks.onDisk disk).not_consistent faithful.id evictsItself result

end

open FourValidators

/-- Blocks of the rounds from two on fill the cache. -/
theorem fills (n : Nat) (le : n ≤ blockCacheSize) : ∃ entries ledger,
    Trace (Trace.Recorded (CleanStep crypto fourCodec)) (.new .empty) entries ledger ∧
    (∀ before block, (before, .run (.proposed block)) ∈ entries → ¬SelfEvicts before block) ∧
    ledger.blockCacheIndex.entries.length = n ∧ ∀ e ∈ ledger.blockCacheIndex.entries, 1 < e.1 ∧ e.1 < n + 2 := by
  induction n with
  | zero => exact ⟨[], _, .nil, nofun, rfl, nofun⟩
  | succ n ih =>
    obtain ⟨entries, ledger, run, stay, length, rounds⟩ := ih (Nat.le_of_succ_le le)
    let block := block (n + 2) crypto.genesisQc 1 0
    obtain ⟨ledger', disk, step, result⟩ := run_proposed fourCodec_faithful run.of_recorded block rfl
    have stays : ¬SelfEvicts ledger block := fun full => absurd (full.1.trans_eq length) (by omega)
    refine ⟨entries ++ [(ledger, _)], ledger', run.snoc ⟨rfl, step⟩, fun before block mem => ?_, ?_⟩
    · obtain old | new := mem_append.mp mem
      · exact stay before block old
      · cases mem_singleton.mp new
        exact stays
    have onDisk := (run_tracks fourCodec_faithful run stay).onDisk disk
    have shape : (indexWith crypto { ledger with disk } block).entries = _ :=
      entries_insert_of_lt fun e mem => (rounds e mem).2
    obtain ⟨-, indexed⟩ := onDisk.indexBlock block
    obtain ⟨kept, evicts, rfl⟩ := updateCache_eq_ok result
    obtain ⟨-, rfl⟩ | ⟨full, -⟩ := evictBlock_cases evicts
    · change (indexBlock ..).blockCacheIndex.entries.length = _ ∧ ∀ e ∈ (indexBlock ..).blockCacheIndex.entries, _
      rw [indexed, shape]
      refine ⟨by simp [length], fun e mem => ?_⟩
      obtain old | new := mem_append.mp mem
      · exact ⟨(rounds e old).1, (rounds e old).2.trans (Nat.lt_succ_self _)⟩
      · cases mem_singleton.mp new
        exact ⟨Nat.succ_lt_succ (Nat.succ_pos n), Nat.lt_succ_self _⟩
    · rw [indexed, shape, length_append, length] at full
      exact absurd le (not_le.mpr full)

/-- A full cache: a block of a later round evicts the oldest one, and a block of the first round evicts itself. -/
theorem cache_transparent_full : ∃ entries ledger oldest itself,
    Trace (Trace.Recorded (CleanStep crypto fourCodec)) (.new .empty) entries ledger ∧
    ledger.blockCacheIndex.entries.length = blockCacheSize ∧
    CleanStep crypto fourCodec ledger (.run (.proposed (block 1002 crypto.genesisQc 1 0))) oldest ∧ Consistent oldest ∧
    Handles crypto fourCodec ledger (.run (.proposed firstBlock)) itself ∧ ¬Consistent itself := by
  obtain ⟨entries, ledger, run, stay, length, rounds⟩ := fills blockCacheSize le_rfl
  obtain ⟨oldest, -, later, -⟩ := run_proposed fourCodec_faithful run.of_recorded (block 1002 crypto.genesisQc 1 0) rfl
  obtain ⟨itself, -, first, -⟩ := run_proposed fourCodec_faithful run.of_recorded firstBlock rfl
  refine ⟨entries, ledger, oldest, itself, run, length, later, ?_, first.2, ?_⟩
  · have run' : Trace _ _ (entries ++ [(ledger, _)]) oldest := run.snoc ⟨rfl, later⟩
    refine ((cache_transparent fourCodec_faithful run').2.2 fun before block mem evictsItself => ?_).1
    obtain old | new := mem_append.mp mem
    · exact stay before block old evictsItself
    · cases mem_singleton.mp new
      obtain ⟨e, mem⟩ := exists_mem_of_length_pos (length.symm ▸ (by decide : 0 < blockCacheSize))
      exact absurd (evictsItself.2 e mem) (rounds e mem).2.not_gt
  · exact ((cache_transparent fourCodec_faithful run).2.2 stay).2 firstBlock itself first.2
      ⟨length.ge, fun e mem => (rounds e mem).1⟩

/-- A thousand blocks of later rounds, then one of the first round: it stays in the cache and is not listed. -/
theorem cache_unlisted : ∃ events ledger,
    Trace (CleanStep crypto fourCodec) (.new .empty) events ledger ∧ ¬Consistent ledger := by
  obtain ⟨entries, ledger, run, stay, length, rounds⟩ := fills blockCacheSize le_rfl
  obtain ⟨ledger', disk, step, result⟩ := run_proposed fourCodec_faithful run.of_recorded firstBlock rfl
  have evictsItself : SelfEvicts { ledger with disk } firstBlock := ⟨length.ge, fun e mem => (rounds e mem).1⟩
  have tracks := run_tracks fourCodec_faithful run stay
  exact ⟨_, ledger', run.of_recorded.snoc step,
    (tracks.onDisk disk).not_consistent fourCodec_faithful.id evictsItself result⟩

end MonadBft.BlockLedger
