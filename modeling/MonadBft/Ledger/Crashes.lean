import MonadBft.Instance
import MonadBft.Ledger

/-! # Crashes of the block ledger

The file operations of a command fall into groups: touching a file, creating and writing one, linking a head under a
temporary name and renaming it. A process that is killed only between groups leaves whole files and no temporary
link, and then no later command fails and every block that was written once is found. Killed inside a group it
leaves an empty file that is trusted from then on, or a temporary link that fails every later command.
-/

namespace MonadBft

open List Option Function

namespace Ledger

variable {crypto : Crypto} {codec : Codec} {disk disk' : Disk}

/-! ## Groups of file operations -/

/-- An operation that has to be followed by another one to leave the directory whole. -/
def FileOp.completes : FileOp → Bool
  | .touch _ _ => true
  | .create _ _ => false
  | .write _ _ _ => true
  | .symlink _ _ => false
  | .rename _ => true

/-- The process is not killed between two operations of a group. -/
def CleanCut (ops : List FileOp) (done : Nat) : Prop := ∀ op, (ops.take done).getLast? = some op → op.completes = true

instance (ops : List FileOp) (done : Nat) : Decidable (CleanCut ops done) :=
  decidable_of_iff (((ops.take done).getLast?).all (·.completes) = true) (by
    cases last : (ops.take done).getLast? <;> simp [CleanCut, last])

inductive Group : List FileOp → Prop where
  | touch (dir : Dir) (id : Bytes) : Group [.touch dir id]
  | file (dir : Dir) (id content : Bytes) : Group [.create dir id, .write dir id content]
  | link (head : Head) (id : BlockId) : Group [.symlink head id, .rename head]

variable {group rest : List FileOp} {done : Nat} {block : ConsensusFullBlock}

theorem CleanCut.tail (done : Nat) (clean : CleanCut (group ++ rest) (group.length + done)) :
    CleanCut rest done := by
  intro op last
  refine clean op ?_
  rw [take_length_add_append, getLast?_append, last]
  rfl

/-- A clean cut is before a group or after it. -/
theorem Group.cut (isGroup : Group group) (clean : CleanCut (group ++ rest) done) :
    (group ++ rest).take done = [] ∨ ∃ later, (group ++ rest).take done = group ++ rest.take later ∧
      CleanCut rest later := by
  have after : group.length ≤ done → ∃ later, (group ++ rest).take done = group ++ rest.take later ∧
    CleanCut rest later := by
    intro le
    obtain ⟨later, rfl⟩ := Nat.exists_eq_add_of_le le
    exact ⟨later, take_length_add_append _, clean.tail later⟩
  cases isGroup with
  | touch dir id =>
    cases done with
    | zero => exact .inl rfl
    | succ done => exact .inr (after (by simp))
  | file dir id content =>
    rcases done with _ | _ | done
    · exact .inl rfl
    · exact absurd (clean (.create dir id) rfl) (by simp [FileOp.completes])
    · exact .inr (after (by simp))
  | link head id =>
    rcases done with _ | _ | done
    · exact .inl rfl
    · exact absurd (clean (.symlink head id) rfl) (by simp [FileOp.completes])
    · exact .inr (after (by simp))

theorem group_writeFile (disk : Disk) (dir : Dir) (id content : Bytes) : Group (writeFile disk dir id content) := by
  rw [writeFile]
  split
  · exact .touch dir id
  · exact .file dir id content

/-! ## What a group does -/

/-- The file is there afterwards; one that was there is kept. -/
def Disk.ensureFile (disk : Disk) (dir : Dir) (id content : Bytes) : Disk :=
  if (disk.file dir id).isSome then disk else disk.setFile dir id content

def Disk.setHead (disk : Disk) (head : Head) (id : BlockId) : Disk :=
  { disk with head := update disk.head head (some id) }

theorem applyOps_append (ops rest : List FileOp) :
    applyOps disk (ops ++ rest) = (applyOps disk ops).bind fun disk => applyOps disk rest := by
  induction ops generalizing disk with
  | nil => rfl
  | cons op ops ih =>
    rw [cons_append, applyOps, applyOps]
    cases op.apply disk with
    | none => rfl
    | some next => exact ih

theorem applyOps_writeFile (dir : Dir) (id content : Bytes) :
    applyOps disk (writeFile disk dir id content) = some (disk.ensureFile dir id content) := by
  rw [writeFile, Disk.ensureFile]
  split
  · rfl
  · have twice : (disk.setFile dir id []).setFile dir id content = disk.setFile dir id content := by
      rw [Disk.setFile, Disk.setFile]
      congr 1
      funext dir' id'
      by_cases here : dir' = dir ∧ id' = id
      · rw [if_pos here, if_pos here]
      · simp only [if_neg here]
    exact congrArg some twice

theorem applyOps_updateHead {head : Head} (free : disk.wip head = none) (id : BlockId) :
    applyOps disk (updateHead head id) = some (disk.setHead head id) := by
  have first : (FileOp.symlink head id).apply disk =
      some { disk with wip := update disk.wip head (some id) } := by
    rw [FileOp.apply, free]
    rfl
  have second : (FileOp.rename head).apply { disk with wip := update disk.wip head (some id) } =
      some (disk.setHead head id) := by
    rw [FileOp.apply]
    simp only [update_self, update_idem, Disk.setHead]
    rw [← free, update_eq_self]
  rw [updateHead, applyOps, first, bind_some, applyOps, second]
  rfl

section

variable (dir : Dir) (id content : Bytes)

theorem ensureFile_file (dir' : Dir) (id' : Bytes) : (disk.ensureFile dir id content).file dir' id' =
      if dir' = dir ∧ id' = id ∧ disk.file dir id = none then some content else disk.file dir' id' := by
  rw [Disk.ensureFile]
  cases found : disk.file dir id with
  | none => simp [Disk.setFile]
  | some old => simp

theorem ensureFile_isSome : ((disk.ensureFile dir id content).file dir id).isSome := by
  rw [ensureFile_file]
  cases found : disk.file dir id with
  | none => simp
  | some old => simp

@[simp] theorem ensureFile_wip : (disk.ensureFile dir id content).wip = disk.wip := by
  rw [Disk.ensureFile]
  split <;> rfl

@[simp] theorem ensureFile_head : (disk.ensureFile dir id content).head = disk.head := by
  rw [Disk.ensureFile]
  split <;> rfl

end

def Keeps (disk disk' : Disk) : Prop := ∀ dir id content, disk.file dir id = some content →
    disk'.file dir id = some content

theorem Keeps.trans {disk'' : Disk} (first : Keeps disk disk') (second : Keeps disk' disk'') : Keeps disk disk'' :=
  fun dir id content found => second dir id content (first dir id content found)

theorem keeps_ensureFile (dir : Dir) (id content : Bytes) : Keeps disk (disk.ensureFile dir id content) := by
  intro dir' id' content' found
  rw [ensureFile_file, if_neg, found]
  rintro ⟨rfl, rfl, absent⟩
  cases found.symm.trans absent

/-! ## Commands cut between groups -/

section

variable (crypto codec disk block)

/-- The directory after each group of a proposed block. -/
def afterBody : Disk :=
  disk.ensureFile .bodies (crypto.getBodyId block.body) (codec.encodeBody block.body)

def afterHeader : Disk :=
  (afterBody crypto codec disk block).ensureFile .headers (crypto.getId block.header) (codec.encodeHeader block.header)

def afterProposed : Disk :=
  (afterHeader crypto codec disk block).setHead .proposed (crypto.getId block.header)

end

theorem applyOps_body (block : ConsensusFullBlock) :
    applyOps disk (writeBftBody crypto codec disk block.body) = some (afterBody crypto codec disk block) :=
  applyOps_writeFile _ _ _

/-- Writing the body does not decide about the header. -/
theorem applyOps_header (block : ConsensusFullBlock) :
    applyOps (afterBody crypto codec disk block) (writeBftHeader crypto codec disk block.header) =
      some (afterHeader crypto codec disk block) := by
  have same : writeBftHeader crypto codec disk block.header =
      writeBftHeader crypto codec (afterBody crypto codec disk block) block.header := by
    have file : (afterBody crypto codec disk block).file .headers (crypto.getId block.header) =
        disk.file .headers (crypto.getId block.header) := by
      rw [afterBody, ensureFile_file, if_neg]
      rintro ⟨other, -⟩
      cases other
    rw [writeBftHeader, writeBftHeader, writeFile, writeFile, file]
  rw [same]
  exact applyOps_writeFile _ _ _

theorem applyOps_proposed (free : disk.wip .proposed = none) (block : ConsensusFullBlock) :
    applyOps (afterHeader crypto codec disk block) (updateHead .proposed (crypto.getId block.header)) =
      some (afterProposed crypto codec disk block) := by
  refine applyOps_updateHead ?_ _
  rw [afterHeader, ensureFile_wip, afterBody, ensureFile_wip, free]

/-- A head is not moved or moved. -/
theorem cut_updateHead {head : Head} {id : BlockId} (clean : CleanCut (updateHead head id) done)
    (applied : applyOps disk ((updateHead head id).take done) = some disk') :
    disk' = disk ∨ applyOps disk (updateHead head id) = some disk' := by
  rw [← append_nil (updateHead head id)] at clean applied
  obtain nothing | ⟨done, whole, -⟩ := (Group.link head id).cut clean
  · rw [updateHead, nothing] at applied
    exact .inl (some.inj applied).symm
  · rw [updateHead, whole, take_nil, append_nil] at applied
    exact .inr applied

/-- What a clean cut of a proposed block leaves. -/
theorem cut_proposed (free : disk.wip .proposed = none)
    (clean : CleanCut (BlockLedger.fileOps crypto codec disk (.proposed block)) done)
    (applied : applyOps disk ((BlockLedger.fileOps crypto codec disk (.proposed block)).take done) = some disk') :
    disk' = disk ∨ disk' = afterBody crypto codec disk block ∨ disk' = afterHeader crypto codec disk block ∨
      disk' = afterProposed crypto codec disk block := by
  rw [BlockLedger.fileOps, append_assoc] at clean applied
  have isBody : Group (writeBftBody crypto codec disk block.body) := group_writeFile _ _ _ _
  obtain nothing | ⟨done, first, clean⟩ := isBody.cut clean
  · rw [nothing] at applied
    exact .inl (some.inj applied).symm
  rw [first, applyOps_append, applyOps_body, bind_some] at applied
  have isHeader : Group (writeBftHeader crypto codec disk block.header) := group_writeFile _ _ _ _
  obtain nothing | ⟨done, second, clean⟩ := isHeader.cut clean
  · rw [nothing] at applied
    exact .inr (.inl (some.inj applied).symm)
  rw [second, applyOps_append, applyOps_header, bind_some] at applied
  obtain same | moved := cut_updateHead clean applied
  · exact .inr (.inr (.inl same))
  · exact .inr (.inr (.inr (some.inj (moved.symm.trans (applyOps_proposed free block)))))

theorem apply_proposed (free : disk.wip .proposed = none) (block : ConsensusFullBlock) :
    applyOps disk (BlockLedger.fileOps crypto codec disk (.proposed block)) = some
      (afterProposed crypto codec disk block) := by
  rw [BlockLedger.fileOps, append_assoc, applyOps_append, applyOps_body, bind_some, applyOps_append,
    applyOps_header, bind_some, applyOps_proposed free]

/-! ## Whole directories -/

/-- Every file is whole, every header has its body, no temporary link is left, and the proposed head exists. -/
structure Whole (crypto : Crypto) (codec : Codec) (disk : Disk) : Prop where
  bodies : ∀ id content, disk.file .bodies id = some content → ∃ body, content = codec.encodeBody body ∧
    crypto.getBodyId body = id
  headers : ∀ id content, disk.file .headers id = some content → ∃ header, content = codec.encodeHeader header ∧
    crypto.getId header = id ∧ (disk.file .bodies header.blockBodyId).isSome
  wip : ∀ head, disk.wip head = none
  proposedHead : ∀ id, disk.head .proposed = some id → (disk.file .headers id).isSome

theorem whole_empty : Whole crypto codec .empty :=
  ⟨fun _ _ found => absurd found (by simp [Disk.empty]), fun _ _ found => absurd found (by simp [Disk.empty]),
    fun _ => rfl, fun _ found => absurd found (by simp [Disk.empty])⟩

theorem Keeps.isSome (keeps : Keeps disk disk') {dir : Dir} {id : Bytes} (found : (disk.file dir id).isSome) :
    (disk'.file dir id).isSome := by
  obtain ⟨content, found⟩ := isSome_iff_exists.mp found
  rw [keeps dir id content found]
  rfl

variable (whole : Whole crypto codec disk)

include whole

theorem Whole.ensureFile {dir : Dir} {id content : Bytes}
    (body : dir = .bodies → ∃ body, content = codec.encodeBody body ∧ crypto.getBodyId body = id)
    (header : dir = .headers → ∃ header, content = codec.encodeHeader header ∧ crypto.getId header = id ∧
      (disk.file .bodies header.blockBodyId).isSome) : Whole crypto codec (disk.ensureFile dir id content) := by
  have keeps : Keeps disk _ := keeps_ensureFile dir id content
  refine ⟨fun id' content' found => ?_, fun id' content' found => ?_, fun head => ?_, fun id' found => ?_⟩
  · rw [ensureFile_file] at found
    split at found
    next new =>
      obtain ⟨rfl, rfl, -⟩ := new
      exact some.inj found ▸ body rfl
    next => exact whole.bodies id' content' found
  · have known : ∃ header, content' = codec.encodeHeader header ∧ crypto.getId header = id' ∧
        (disk.file .bodies header.blockBodyId).isSome := by
      rw [ensureFile_file] at found
      split at found
      next new =>
        obtain ⟨rfl, rfl, -⟩ := new
        exact some.inj found ▸ header rfl
      next => exact whole.headers id' content' found
    obtain ⟨header, same, atId, body⟩ := known
    exact ⟨header, same, atId, keeps.isSome body⟩
  · rw [ensureFile_wip, whole.wip]
  · rw [ensureFile_head] at found
    exact keeps.isSome (whole.proposedHead id' found)

theorem Whole.afterBody (block : ConsensusFullBlock) : Whole crypto codec (afterBody crypto codec disk block) :=
  whole.ensureFile (fun _ => ⟨block.body, rfl, rfl⟩) nofun

theorem Whole.afterHeader (matching : block.BodyMatches crypto) :
    Whole crypto codec (afterHeader crypto codec disk block) := by
  refine (whole.afterBody block).ensureFile nofun fun _ => ⟨block.header, rfl, rfl, ?_⟩
  rw [matching]
  exact ensureFile_isSome _ _ _

theorem Whole.afterProposed (matching : block.BodyMatches crypto) :
    Whole crypto codec (afterProposed crypto codec disk block) := by
  have before := whole.afterHeader matching
  refine ⟨before.bodies, before.headers, before.wip, fun id found => ?_⟩
  change update (Ledger.afterHeader crypto codec disk block).head .proposed
    (some (crypto.getId block.header)) .proposed = some id at found
  rw [update_self] at found
  cases found
  exact ensureFile_isSome _ _ _

theorem Whole.finalized (id : BlockId) : Whole crypto codec (disk.setHead .finalized id) := by
  refine ⟨whole.bodies, whole.headers, whole.wip, fun id' found => whole.proposedHead id' ?_⟩
  change update disk.head .finalized (some id) .proposed = some id' at found
  rwa [update_of_ne (by simp)] at found

end Ledger

open Ledger

namespace BlockLedger

variable {crypto : Crypto} {codec : Codec} {ledger ledger' : BlockLedger}

/-! ## Whole ledgers -/

/-- The directory is whole and the caches agree with it. -/
structure Sound (crypto : Crypto) (codec : Codec) (ledger : BlockLedger) : Prop where
  whole : Whole crypto codec ledger.disk
  cached : ∀ id block, ledger.blockCache.lookup id = some block → crypto.getId block.header = id ∧
    ledger.disk.file .headers id = some (codec.encodeHeader block.header)
  payloads : ∀ id body, ledger.blockPayloadCache.lookup id = some body →
    ledger.disk.file .bodies id = some (codec.encodeBody body)

variable {disk disk' : Disk} {block : ConsensusFullBlock} {command : LedgerCommand}

theorem sound_new (whole : Whole crypto codec disk) : Sound crypto codec (new disk) :=
  ⟨whole, fun _ _ found => absurd found (by simp [new]), fun _ _ found => absurd found (by simp [new])⟩

variable (sound : Sound crypto codec ledger)

include sound

theorem Sound.onDisk (whole : Whole crypto codec disk) (keeps : Keeps ledger.disk disk) :
    Sound crypto codec { ledger with disk } :=
  ⟨whole, fun id block found => (sound.cached id block found).imp_right (keeps _ _ _),
    fun id body found => keeps _ _ _ (sound.payloads id body found)⟩

theorem Sound.uncache (entry : BlockId × Bytes) : Sound crypto codec (ledger.uncache entry) := by
  refine ⟨sound.whole, fun id block found => ?_, fun id body found => ?_⟩
  · by_cases here : id = entry.1
    · rw [here] at found
      exact absurd found (by simp [BlockLedger.uncache])
    · exact sound.cached id block (AList.lookup_erase_ne here ▸ found)
  · by_cases here : id = entry.2
    · rw [here] at found
      exact absurd found (by simp [BlockLedger.uncache])
    · exact sound.payloads id body (AList.lookup_erase_ne here ▸ found)

theorem Sound.indexBlock (block : ConsensusFullBlock) :
    Sound crypto codec (ledger.indexBlock crypto block) ∧ (ledger.indexBlock crypto block).disk = ledger.disk := by
  rw [BlockLedger.indexBlock]
  have indexed : Sound crypto codec { ledger with
      blockCacheIndex := ledger.blockCacheIndex.insert block.getBlockRound
        (crypto.getId block.header, block.getBodyId) } :=
    ⟨sound.whole, sound.cached, sound.payloads⟩
  split
  · exact ⟨indexed, rfl⟩
  · exact ⟨indexed.uncache _, rfl⟩

theorem Sound.evictBlock :
    ∃ ledger', ledger.evictBlock = .ok ledger' ∧ Sound crypto codec ledger' ∧ ledger'.disk = ledger.disk := by
  rw [BlockLedger.evictBlock]
  split
  next ended =>
    cases first : ledger.blockCacheIndex.entries.head? with
    | none =>
      rw [head?_eq_none_iff] at first
      rw [first] at ended
      exact absurd ended (by decide)
    | some entry =>
      have popped : Sound crypto codec { ledger with blockCacheIndex := ledger.blockCacheIndex.erase entry.1 } :=
        ⟨sound.whole, sound.cached, sound.payloads⟩
      exact ⟨_, rfl, popped.uncache entry.2, rfl⟩
  next => exact ⟨ledger, rfl, sound, rfl⟩

/-- Caching a block whose files are there. -/
theorem Sound.updateCache
    (header : ledger.disk.file .headers (crypto.getId block.header) = some (codec.encodeHeader block.header))
    (body : ledger.disk.file .bodies block.getBodyId = some (codec.encodeBody block.body)) :
    ∃ ledger', ledger.updateCache crypto block = .ok ledger' ∧ Sound crypto codec ledger' ∧
      ledger'.disk = ledger.disk := by
  obtain ⟨indexed, sameIndexed⟩ := sound.indexBlock block
  obtain ⟨evicted, result, kept, sameEvicted⟩ := indexed.evictBlock
  have same := sameEvicted.trans sameIndexed
  rw [BlockLedger.updateCache, result]
  refine ⟨_, rfl, ⟨kept.whole, fun id other found => ?_, fun id other found => ?_⟩, same⟩
  · by_cases here : id = crypto.getId block.header
    · rw [here, AList.lookup_insert] at found
      cases found
      exact ⟨here.symm, by rw [same, here, header]⟩
    · exact kept.cached id other (AList.lookup_insert_ne here ▸ found)
  · by_cases here : id = block.getBodyId
    · rw [here, AList.lookup_insert] at found
      cases found
      rw [same, here, body]
    · exact kept.payloads id other (AList.lookup_insert_ne here ▸ found)

omit sound

/-! ## Reading -/

/-- Decoding gives back what was encoded, and ids are collision-free. -/
structure Faithful (crypto : Crypto) (codec : Codec) : Prop where
  header : ∀ header, codec.decodeHeader (codec.encodeHeader header) = some header
  body : ∀ body, codec.decodeBody (codec.encodeBody body) = some body
  id : Injective crypto.getId
  bodyId : Injective crypto.getBodyId

variable (faithful : Faithful crypto codec)

include faithful

theorem readBftHeader_whole (whole : Whole crypto codec disk) (id : BlockId) :
    (disk.file .headers id = none ∧ readBftHeader codec disk id = .ok none) ∨
    ∃ header, readBftHeader codec disk id = .ok (some header) ∧ crypto.getId header = id ∧
      disk.file .headers id = some (codec.encodeHeader header) ∧ (disk.file .bodies header.blockBodyId).isSome := by
  rw [readBftHeader]
  cases found : disk.file .headers id with
  | none => exact .inl ⟨rfl, rfl⟩
  | some content =>
    obtain ⟨header, rfl, atId, body⟩ := whole.headers id content found
    refine .inr ⟨header, ?_, atId, rfl, body⟩
    rw [readFile, faithful.header]

theorem readBftBody_whole (whole : Whole crypto codec disk) (id : Bytes) :
    (disk.file .bodies id = none ∧ readBftBody codec disk id = .ok none) ∨
    ∃ body, readBftBody codec disk id = .ok (some body) ∧ crypto.getBodyId body = id := by
  rw [readBftBody]
  cases found : disk.file .bodies id with
  | none => exact .inl ⟨rfl, rfl⟩
  | some content =>
    obtain ⟨body, rfl, atId⟩ := whole.bodies id content found
    refine .inr ⟨body, ?_, atId⟩
    rw [readFile, faithful.body]

include sound

/-- The caches only have what the files have. -/
theorem findHeader_eq (id : BlockId) : ledger.findHeader codec id = readBftHeader codec ledger.disk id := by
  rw [findHeader]
  cases cached : ledger.blockCache.lookup id with
  | none => rfl
  | some block =>
    dsimp only
    rw [readBftHeader, (sound.cached id block cached).2, readFile, faithful.header]

theorem ledgerFetchPayload_eq (id : Bytes) :
    ledger.ledgerFetchPayload codec id = (new ledger.disk).ledgerFetchPayload codec id := by
  rw [ledgerFetchPayload]
  cases cached : ledger.blockPayloadCache.lookup id with
  | none => rfl
  | some body => simp [ledgerFetchPayload, new, readBftBody, sound.payloads id body cached, readFile, faithful.body]

theorem findHeader_sound (id : BlockId) :
    (ledger.disk.file .headers id = none ∧ ledger.findHeader codec id = .ok none) ∨
    ∃ header, ledger.findHeader codec id = .ok (some header) ∧ crypto.getId header = id ∧
      (ledger.disk.file .bodies header.blockBodyId).isSome := by
  rw [findHeader_eq sound faithful]
  refine (readBftHeader_whole faithful sound.whole id).imp_right ?_
  rintro ⟨header, found, atId, -, body⟩
  exact ⟨header, found, atId, body⟩

theorem ledgerFetchPayload_sound (id : Bytes) :
    (ledger.disk.file .bodies id = none ∧ ledger.ledgerFetchPayload codec id = .ok (.notAvailable id)) ∨
    ∃ body, ledger.ledgerFetchPayload codec id = .ok (.found body) ∧ crypto.getBodyId body = id := by
  rw [ledgerFetchPayload_eq sound faithful]
  obtain ⟨absent, result⟩ | ⟨body, result, atId⟩ := readBftBody_whole faithful sound.whole id
  · exact .inl ⟨absent, by simp [ledgerFetchPayload, new, result]⟩
  · exact .inr ⟨body, by simp [ledgerFetchPayload, new, result], atId⟩

theorem fetchLoop_returns (count : Nat) (next : BlockId)
    (headers : List ConsensusBlockHeader) : ∃ result, ledger.fetchLoop codec count next headers = .ok result := by
  induction count generalizing next headers with
  | zero => exact ⟨_, rfl⟩
  | succ count ih =>
    rw [fetchLoop]
    obtain ⟨-, result⟩ | ⟨header, result, -⟩ := findHeader_sound sound faithful next
    · rw [result]
      exact ⟨_, rfl⟩
    · rw [result]
      exact ih _ _

theorem ledgerFetchHeaders_returns (range : BlockRange) :
    ∃ response, ledger.ledgerFetchHeaders codec range = .ok response := by
  rw [ledgerFetchHeaders]
  split
  · exact ⟨_, rfl⟩
  · obtain ⟨result, found⟩ := fetchLoop_returns sound faithful range.numBlocks range.lastBlockId []
    rw [found]
    cases result with
    | none => exact ⟨_, rfl⟩
    | some headers => exact ⟨_, rfl⟩

theorem readProposedHead_returns : ∃ header, readProposedHeadBftHeader codec ledger.disk = .ok header := by
  rw [readProposedHeadBftHeader]
  cases head : ledger.disk.head .proposed with
  | none => exact ⟨_, rfl⟩
  | some id =>
    obtain ⟨-, result⟩ | ⟨header, result, -⟩ := readBftHeader_whole faithful sound.whole id
    · exact ⟨_, result⟩
    · exact ⟨_, result⟩

def Stored (crypto : Crypto) (codec : Codec) (disk : Disk) (block : ConsensusFullBlock) : Prop :=
  disk.file .headers (crypto.getId block.header) = some (codec.encodeHeader block.header) ∧
    disk.file .bodies block.getBodyId = some (codec.encodeBody block.body)

omit faithful sound in
theorem Stored.keeps (stored : Stored crypto codec disk block) (keeps : Keeps disk disk') :
    Stored crypto codec disk' block :=
  ⟨keeps _ _ _ stored.1, keeps _ _ _ stored.2⟩

omit sound in
theorem stored_afterProposed (whole : Whole crypto codec disk) (matching : block.BodyMatches crypto) :
    Stored crypto codec (afterProposed crypto codec disk block) block := by
  have after := whole.afterProposed matching
  have header : ((afterProposed crypto codec disk block).file .headers (crypto.getId block.header)).isSome :=
    ensureFile_isSome _ _ _
  have body : ((afterProposed crypto codec disk block).file .bodies block.getBodyId).isSome := by
    rw [ConsensusFullBlock.getBodyId, matching]
    exact (keeps_ensureFile _ _ _).isSome (ensureFile_isSome _ _ _)
  obtain ⟨content, found⟩ := isSome_iff_exists.mp header
  obtain ⟨header', rfl, atId, -⟩ := after.headers _ _ found
  obtain ⟨content, found'⟩ := isSome_iff_exists.mp body
  obtain ⟨body', rfl, atBodyId⟩ := after.bodies _ _ found'
  cases faithful.id atId
  rw [ConsensusFullBlock.getBodyId, matching] at atBodyId
  cases faithful.bodyId atBodyId
  exact ⟨found, found'⟩

/-! ## Runs -/

/-- The blocks of a command come with their own bodies, as `ConsensusFullBlock::new` checks. -/
def CommandMatches (crypto : Crypto) : LedgerCommand → Prop
  | .proposed block => block.BodyMatches crypto
  | .finalized block => block.BodyMatches crypto
  | .fetchHeaders _ => True
  | .fetchPayload _ => True

/-- The process is only killed between groups of file operations. -/
def CleanEvent (crypto : Crypto) (codec : Codec) (ledger : BlockLedger) : Event → Prop
  | .run command => CommandMatches crypto command
  | .crash command done => CommandMatches crypto command ∧ CleanCut (fileOps crypto codec ledger.disk command) done

def CleanStep (crypto : Crypto) (codec : Codec) (ledger : BlockLedger) (event : Event) (ledger' : BlockLedger) : Prop :=
  CleanEvent crypto codec ledger event ∧ Handles crypto codec ledger event ledger'

omit faithful sound in
theorem keeps_afterProposed (crypto : Crypto) (codec : Codec) (disk : Disk) (block : ConsensusFullBlock) :
    Keeps disk (afterHeader crypto codec disk block) ∧ Keeps disk (afterProposed crypto codec disk block) := by
  have header : Keeps disk (afterHeader crypto codec disk block) := (keeps_ensureFile _ _ _).trans
    (keeps_ensureFile _ _ _)
  exact ⟨header, header⟩

/-- A command on a sound ledger returns, leaves a sound ledger and keeps all files. -/
theorem exec_sound (matching : CommandMatches crypto command) :
    ∃ ledger' responses, ledger.exec crypto codec command = .ok ledger' responses ∧ Sound crypto codec ledger' ∧
      Keeps ledger.disk ledger'.disk ∧
      ∀ block, command = .proposed block → Stored crypto codec ledger'.disk block := by
  rw [exec]
  cases command with
  | proposed block =>
    have stored := stored_afterProposed faithful sound.whole matching
    have keeps := (keeps_afterProposed crypto codec ledger.disk block).2
    have onDisk := sound.onDisk (sound.whole.afterProposed matching) keeps
    obtain ⟨ledger', result, sound', same⟩ := onDisk.updateCache stored.1 stored.2
    rw [apply_proposed (sound.whole.wip .proposed)]
    dsimp only
    rw [result]
    refine ⟨ledger', [], rfl, sound', same ▸ keeps, ?_⟩
    rintro _ ⟨⟩
    exact same ▸ stored
  | finalized block =>
    rw [fileOps, applyOps_updateHead (sound.whole.wip .finalized)]
    exact ⟨_, [], rfl, sound.onDisk (sound.whole.finalized _) fun _ _ _ => id, fun _ _ _ => id, by simp⟩
  | fetchHeaders range =>
    obtain ⟨response, result⟩ := ledgerFetchHeaders_returns sound faithful range
    rw [fileOps, applyOps]
    dsimp only
    rw [result]
    exact ⟨ledger, _, rfl, sound, fun _ _ _ => id, by simp⟩
  | fetchPayload id =>
    obtain ⟨-, result⟩ | ⟨body, result, -⟩ := ledgerFetchPayload_sound sound faithful id <;>
    · rw [fileOps, applyOps]
      dsimp only
      rw [result]
      exact ⟨ledger, _, rfl, sound, fun _ _ _ => fun found => found, by simp⟩

omit faithful sound in
/-- A clean cut of a command leaves a whole directory with all the files it had. -/
theorem crash_whole (whole : Whole crypto codec disk) {done : Nat} (matching : CommandMatches crypto command)
    (clean : CleanCut (fileOps crypto codec disk command) done)
    (applied : applyOps disk ((fileOps crypto codec disk command).take done) = some disk') :
    Whole crypto codec disk' ∧ Keeps disk disk' := by
  cases command with
  | proposed block =>
    obtain ⟨header, proposed⟩ := keeps_afterProposed crypto codec disk block
    obtain rfl | rfl | rfl | rfl := cut_proposed (whole.wip .proposed) clean applied
    · exact ⟨whole, fun _ _ _ found => found⟩
    · exact ⟨whole.afterBody block, keeps_ensureFile _ _ _⟩
    · exact ⟨whole.afterHeader matching, header⟩
    · exact ⟨whole.afterProposed matching, proposed⟩
  | finalized block =>
    rw [fileOps] at clean applied
    obtain rfl | moved := cut_updateHead clean applied
    · exact ⟨whole, fun _ _ _ found => found⟩
    · obtain rfl := some.inj (moved.symm.trans (applyOps_updateHead (whole.wip .finalized) _))
      exact ⟨whole.finalized _, fun _ _ _ found => found⟩
  | fetchHeaders range =>
    rw [fileOps, take_nil] at applied
    cases applied
    exact ⟨whole, fun _ _ _ found => found⟩
  | fetchPayload id =>
    rw [fileOps, take_nil] at applied
    cases applied
    exact ⟨whole, fun _ _ _ found => found⟩

theorem step_sound {event : Event} (step : CleanStep crypto codec ledger event ledger') :
    Sound crypto codec ledger' ∧ Keeps ledger.disk ledger'.disk ∧
      ∀ block, event = .run (.proposed block) → Stored crypto codec ledger'.disk block := by
  obtain ⟨clean, handles⟩ := step
  cases handles with
  | run returns =>
    obtain ⟨after, responses, result, sound', keeps, stored⟩ := exec_sound sound faithful clean
    cases result.symm.trans returns
    exact ⟨sound', keeps, fun block same => stored block (Event.run.inj same)⟩
  | crash applied =>
    obtain ⟨whole, keeps⟩ := crash_whole sound.whole clean.1 clean.2 applied
    exact ⟨sound_new whole, keeps, fun block same => Event.noConfusion same⟩

omit sound in
theorem run_sound {events : List Event} (run : Trace (CleanStep crypto codec) (.new .empty) events ledger) :
    Sound crypto codec ledger ∧ ∀ block, .run (.proposed block) ∈ events → Stored crypto codec ledger.disk block := by
  induction run with
  | nil => exact ⟨sound_new whole_empty, fun _ mem => absurd mem not_mem_nil⟩
  | snoc _ step ih =>
    obtain ⟨sound', keeps, stored⟩ := step_sound ih.1 faithful step
    refine ⟨sound', fun block mem => ?_⟩
    obtain old | new := mem_append.mp mem
    · exact (ih.2 block old).keeps keeps
    · exact stored block (mem_singleton.mp new).symm

theorem Stored.found (stored : Stored crypto codec ledger.disk block) :
    readBftHeader codec ledger.disk (crypto.getId block.header) = .ok (some block.header) ∧
      readBftBody codec ledger.disk block.getBodyId = .ok (some block.body) ∧
      ledger.findHeader codec (crypto.getId block.header) = .ok (some block.header) ∧
      ledger.ledgerFetchPayload codec block.getBodyId = .ok (.found block.body) := by
  have header : readBftHeader codec ledger.disk (crypto.getId block.header) = .ok (some block.header) := by
    rw [readBftHeader, stored.1, readFile, faithful.header]
  have body : readBftBody codec ledger.disk block.getBodyId = .ok (some block.body) := by
    rw [readBftBody, stored.2, readFile, faithful.body]
  refine ⟨header, body, (findHeader_eq sound faithful _).trans header, ?_⟩
  rw [ledgerFetchPayload_eq sound faithful]
  simp [ledgerFetchPayload, new, body]

omit faithful sound

/-! A codec for the four validators' headers. -/

open FourValidators

noncomputable def fourCodec : Codec where
  encodeHeader := encodeHeader
  decodeHeader := partialInv encodeHeader
  encodeBody := encodeBytes
  decodeBody := fun content => if content = [] then none else some content.tail

theorem fourCodec_faithful : Faithful FourValidators.crypto fourCodec where
  header := fun header => partialInv_left FourValidators.encodeHeader_injective header
  body := fun _ => rfl
  id := FourValidators.encodeHeader_injective
  bodyId := fun _ _ same => same

def firstBlock : ConsensusFullBlock := FourValidators.block 1 FourValidators.crypto.genesisQc 1 5

/-- In every run that is killed only between groups of file operations, nothing panics, every block whose proposal ran
to completion is found as it was, and a header that is found has its body. -/
theorem survives_clean_crashes (faithful : Faithful crypto codec) {events : List Event}
    (run : Trace (CleanStep crypto codec) (.new .empty) events ledger) :
    (∀ command, CommandMatches crypto command → ∃ ledger' responses,
      ledger.exec crypto codec command = .ok ledger' responses) ∧
    (∃ header, readProposedHeadBftHeader codec ledger.disk = .ok header) ∧
    (∀ block, .run (.proposed block) ∈ events →
      readBftHeader codec ledger.disk (crypto.getId block.header) = .ok (some block.header) ∧
      readBftBody codec ledger.disk block.getBodyId = .ok (some block.body) ∧
      ledger.findHeader codec (crypto.getId block.header) = .ok (some block.header) ∧
      ledger.ledgerFetchPayload codec block.getBodyId = .ok (.found block.body)) ∧
    ∀ id header, ledger.findHeader codec id = .ok (some header) →
      ∃ body, ledger.ledgerFetchPayload codec header.blockBodyId = .ok (.found body) := by
  obtain ⟨sound, stored⟩ := run_sound faithful run
  refine ⟨fun command matching => ?_, readProposedHead_returns sound faithful, fun block mem => ?_,
    fun id header found => ?_⟩
  · obtain ⟨ledger', responses, returns, -⟩ := exec_sound sound faithful matching
    exact ⟨ledger', responses, returns⟩
  · exact (stored block mem).found sound faithful
  · obtain ⟨-, absent⟩ | ⟨header', found', -, body⟩ := findHeader_sound sound faithful id
    · cases absent.symm.trans found
    · cases found'.symm.trans found
      obtain ⟨absent, -⟩ | ⟨body', result, -⟩ := ledgerFetchPayload_sound sound faithful header.blockBodyId
      · rw [absent] at body
        cases body
      · exact ⟨body', result⟩

/-- The process is killed between the body and the header of a block, which is then proposed again. -/
theorem survives_crash_after_body : ∃ ledger, Trace (CleanStep FourValidators.crypto fourCodec) (.new .empty)
      [.crash (.proposed firstBlock) 2, .run (.proposed firstBlock)] ledger ∧
    ledger.findHeader fourCodec (FourValidators.crypto.getId firstBlock.header) = .ok (some firstBlock.header) := by
  have cut : CleanStep FourValidators.crypto fourCodec (.new .empty) (.crash (.proposed firstBlock) 2) (.new _) :=
    ⟨⟨rfl, by decide⟩, .crash rfl⟩
  have run := Trace.single cut
  obtain ⟨ledger', responses, returns⟩ :=
    (survives_clean_crashes fourCodec_faithful run).1 (.proposed firstBlock) rfl
  have again : Trace (CleanStep FourValidators.crypto fourCodec) (.new .empty)
      ([.crash (.proposed firstBlock) 2] ++ [.run (.proposed firstBlock)]) ledger' := run.snoc ⟨rfl, .run returns⟩
  exact ⟨ledger', again, ((survives_clean_crashes fourCodec_faithful again).2.2.1 firstBlock (by simp)).2.2.1⟩

/-- Killed after the header file was created, the process later trusts the empty file: the proposal of the block runs
to completion and the head cannot be read. Killed before the temporary link was renamed, the next proposal panics. -/
theorem torn_by_crashes :
    (∃ ledger ledger', Handles FourValidators.crypto fourCodec (.new .empty) (.crash (.proposed firstBlock) 3) ledger ∧
      Handles FourValidators.crypto fourCodec ledger (.run (.proposed firstBlock)) ledger' ∧
      readProposedHeadBftHeader fourCodec ledger'.disk = .error .headerDecode) ∧
    ∃ ledger, Handles FourValidators.crypto fourCodec (.new .empty) (.crash (.proposed firstBlock) 5) ledger ∧
      ledger.exec FourValidators.crypto fourCodec (.proposed firstBlock) = .panic .io := by
  have empty : fourCodec.decodeHeader [] = none := by
    refine dif_neg ?_
    rintro ⟨header, same⟩
    exact absurd same (by simp [FourValidators.encodeHeader])
  refine ⟨⟨_, _, .crash rfl, .run rfl, ?_⟩, ⟨_, .crash rfl, rfl⟩⟩
  change readFile fourCodec.decodeHeader .headerDecode (some []) = .error .headerDecode
  rw [readFile, empty]

end BlockLedger

end MonadBft
