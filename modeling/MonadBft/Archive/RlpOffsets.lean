import MonadBft.Lib.Rlp

/-! # Offsets of transactions, receipts and traces

`rlp_offset_scanner.rs` finds the byte ranges of the items of an RLP list from their length prefixes alone. A prefix
that leads out of its list makes it panic or return ranges outside of the list.
-/

namespace MonadBft

open Rlp List

inductive ScanFailure where
  | err (message : String)
  /-- A slice out of range, or a sum that does not fit into `usize`. -/
  | panic
deriving DecidableEq, Repr

structure RangeRlp where
  start : Nat
  stop : Nat
deriving DecidableEq, Repr

def RangeRlp.shift (offset : Nat) (range : RangeRlp) : RangeRlp := ⟨range.start + offset, range.stop + offset⟩

structure TxByteOffsets where
  tx : RangeRlp
  receipt : RangeRlp
  trace : RangeRlp
deriving DecidableEq, Repr

namespace RlpScanner

def select (data : List Byte) (range : RangeRlp) : List Byte := (data.take range.stop).drop range.start

def add (a b : Nat) : Except ScanFailure Nat := if a + b < 2 ^ 64 then .ok (a + b) else .error .panic

/-- `checked_mul` by 256 and `checked_add`. -/
def pushByte (result : Nat) (byte : Byte) : Except ScanFailure Nat :=
  if result * 256 + byte.toNat < 2 ^ 64 then .ok (result * 256 + byte.toNat) else .error (.err "uint overflow")

def decodeUint (bytes : List Byte) : Except ScanFailure Nat :=
  if bytes = [] then .error (.err "empty bytes for uint")
  else if bytes.head? = some 0 ∧ 1 < bytes.length then .error (.err "leading zero in uint")
  else bytes.foldlM pushByte 0

/-- A length of `lengthOfLength` bytes, behind the first byte. -/
def decodeLong (kind : String) (lengthOfLength : Nat) (rest : List Byte) : Except ScanFailure (Nat × Nat) :=
  if rest.length < lengthOfLength then .error (.err ("input too short for " ++ kind ++ " length"))
  else do
    let length ← decodeUint (rest.take lengthOfLength)
    return (length, ← add (1 + lengthOfLength) length)

/-- The length of the content and the total length of the item at `position`. -/
def decodeLength (data : List Byte) (position : Nat) : Except ScanFailure (Nat × Nat) :=
  if data.length < position then .error .panic
  else match data.drop position with
  | [] => .error (.err "unexpected end of input")
  | first :: rest =>
    let b := first.toNat
    if b ≤ 0x7f then .ok (1, 1)
    else if b ≤ 0xb7 then .ok (b - 0x80, b - 0x80 + 1)
    else if b ≤ 0xbf then decodeLong "string" (b - 0xb7) rest
    else if b ≤ 0xf7 then .ok (b - 0xc0, b - 0xc0 + 1)
    else decodeLong "list" (b - 0xf7) rest

/-- Every item has a first byte. -/
theorem decodeLength_pos {data : List Byte} {position content total : Nat}
    (ok : decodeLength data position = .ok (content, total)) : content ≤ total ∧ 0 < total := by
  simp only [decodeLength, decodeLong, add, bind, Except.bind, pure, Except.pure] at ok
  repeat' split at ok
  all_goals grind

/-- The ranges of the items from `position` on; the loop ends at or after `stop`. -/
def scan (data : List Byte) (stop position : Nat) : Except ScanFailure (List RangeRlp) :=
  if position < stop then
    match _ : decodeLength data position with
    | .error failure => .error failure
    | .ok (_, total) => do
      let next ← add position total
      return ⟨position, next⟩ :: (← scan data stop (position + total))
  else .ok []
termination_by stop - position
decreasing_by
  have := decodeLength_pos (by assumption)
  omega

def listRanges (data : List Byte) (position : Nat) : Except ScanFailure (List RangeRlp) := do
  let (contentLen, prefixLen) ← decodeLength data position
  let itemsStart ← add position (prefixLen - contentLen)
  scan data (← add itemsStart contentLen) itemsStart

def getRlpListRanges (data : List Byte) : Except ScanFailure (List RangeRlp) := listRanges data 0

/-- The position behind the prefix of the block and its header. -/
def skipHeader (blockRlp : List Byte) : Except ScanFailure Nat := do
  let (blockContentLen, blockPrefixLen) ← decodeLength blockRlp 0
  let position := blockPrefixLen - blockContentLen
  let (_, headerLen) ← decodeLength blockRlp position
  add position headerLen

def getTransactionRanges (blockRlp : List Byte) : Except ScanFailure (List RangeRlp) := do
  listRanges blockRlp (← skipHeader blockRlp)

/-- The ranges of the transactions are moved to their place in the block, and each gets its receipt and its trace. -/
def zipRanges (txsStart : Nat) (txRanges receiptRanges traceRanges : List RangeRlp) :
    Except ScanFailure (List TxByteOffsets) :=
  let txRanges := txRanges.map (.shift txsStart)
  if ∃ range ∈ txRanges, 2 ^ 64 ≤ range.stop then .error .panic
  else if txRanges.length ≠ receiptRanges.length ∨ txRanges.length ≠ traceRanges.length then
    .error (.err (s!"Mismatched counts: {txRanges.length} transactions, {receiptRanges.length} receipts, " ++
      s!"{traceRanges.length} traces"))
  else .ok (((txRanges.zip receiptRanges).zip traceRanges).map fun ((tx, receipt), trace) => ⟨tx, receipt, trace⟩)

def getAllTxOffsets (blockRlp receiptsRlp tracesRlp : List Byte) : Except ScanFailure (List TxByteOffsets) := do
  let txsStart ← skipHeader blockRlp
  let (_, txsPrefixLen) ← decodeLength blockRlp txsStart
  let txsEnd ← add txsStart txsPrefixLen
  if blockRlp.length < txsEnd then .error .panic
  else
    let txRanges ← getRlpListRanges (select blockRlp ⟨txsStart, txsEnd⟩)
    let receiptRanges ← getRlpListRanges receiptsRlp
    let traceRanges ← getRlpListRanges tracesRlp
    zipRanges txsStart txRanges receiptRanges traceRanges

/-! ## What the bytes declare -/

def bigEndian (digits : List Byte) : Nat := digits.foldl (fun n byte => n * 256 + byte.toNat) 0

/-- The bytes start with an item: a prefix of `head` bytes declares `content` bytes behind it. A byte below `0x80` is
its own content. -/
inductive Declares : List Byte → Nat → Nat → Prop where
  | single {first : Byte} {rest : List Byte} (small : first.toNat < 0x80) : Declares (first :: rest) 0 1
  | short {first : Byte} {rest : List Byte} {length : Nat} (le : length ≤ 55)
      (tag : first.toNat = 0x80 + length ∨ first.toNat = 0xc0 + length) : Declares (first :: rest) 1 length
  | long {first : Byte} {digits rest : List Byte} (few : 0 < digits.length ∧ digits.length ≤ 8)
      (tag : first.toNat = 0xb7 + digits.length ∨ first.toNat = 0xf7 + digits.length)
      (canonical : digits.head? = some 0 → digits.length = 1) :
      Declares (first :: (digits ++ rest)) (1 + digits.length) (bigEndian digits)

section Bytes

variable (data : List Byte)

/-- No item starts at `position`: the bytes end there or inside the prefix, or the length has a leading zero. -/
def Unreadable (position : Nat) : Prop :=
  position ≤ data.length ∧ ∀ head content, ¬Declares (data.drop position) head content

/-- The item at `position` has its content from `start` to `stop`, wherever the input ends; `usize` can hold `stop`. -/
def ItemAt (position start stop : Nat) : Prop :=
  ∃ head content, Declares (data.drop position) head content ∧
    start = position + head ∧ stop = start + content ∧ stop < 2 ^ 64

/-- The items from `position` up to `stop`: one is unreadable, or the places where they end have the property. -/
inductive ItemsThen (stop : Nat) : Nat → (List Nat → Prop) → Prop where
  | unreadable {position : Nat} {property : List Nat → Prop} (more : position < stop)
      (unreadable : Unreadable data position) : ItemsThen stop position property
  | done {position : Nat} {property : List Nat → Prop} (done : stop ≤ position) (holds : property []) :
      ItemsThen stop position property
  | item {position start next : Nat} {property : List Nat → Prop} (more : position < stop)
      (item : ItemAt data position start next) (later : ItemsThen stop next fun ends => property (next :: ends)) :
      ItemsThen stop position property

/-- The list at `position`: it or one of its items is unreadable, or the places where they end have the property. -/
def ListThen (position : Nat) (property : List Nat → Prop) : Prop :=
  Unreadable data position ∨ ∃ start stop, ItemAt data position start stop ∧ ItemsThen data stop start property

/-- The block or its header is unreadable, or the place where the header ends has the property. -/
def HeaderThen (property : Nat → Prop) : Prop :=
  Unreadable data 0 ∨ ∃ start stop, ItemAt data 0 start stop ∧
    (Unreadable data start ∨ ∃ headerStart position, ItemAt data start headerStart position ∧ property position)

/-- The list at `position` ends inside the input, and its last item ends with it. -/
def Exact (position : Nat) (ends : List Nat) : Prop :=
  ∃ start stop, ItemAt data position start stop ∧ stop ≤ data.length ∧ ends.getLastD start = stop

end Bytes

/-- The transactions are unreadable, or their list is exact. -/
def TransactionsReadable (blockRlp : List Byte) : Prop :=
  HeaderThen blockRlp fun position => ListThen blockRlp position (Exact blockRlp position)

/-- The list of transactions is unreadable, or it ends inside the block; then a list is unreadable, or the counts
differ, or the lists are exact. -/
def OffsetsReadable (blockRlp receiptsRlp tracesRlp : List Byte) : Prop :=
  HeaderThen blockRlp fun position => Unreadable blockRlp position ∨
    ∃ start stop, ItemAt blockRlp position start stop ∧ stop ≤ blockRlp.length ∧
      let txsRlp := select blockRlp ⟨position, stop⟩
      ListThen txsRlp 0 fun txs => ListThen receiptsRlp 0 fun receipts => ListThen tracesRlp 0 fun traces =>
        (∀ stop ∈ txs, stop + position < 2 ^ 64) ∧ (txs.length = receipts.length ∧ txs.length = traces.length →
          Exact txsRlp 0 txs ∧ Exact receiptsRlp 0 receipts ∧ Exact tracesRlp 0 traces)

section Prefix

variable {data : List Byte} {position : Nat}

/-- The checks of the multiplication and the addition do not fail for eight bytes. -/
theorem foldlM_pushByte {bytes : List Byte} {result k : Nat} (lt : result < 256 ^ k) (few : k + bytes.length ≤ 8) :
    bytes.foldlM pushByte result = .ok (bytes.foldl (fun n byte => n * 256 + byte.toNat) result) := by
  induction bytes generalizing result k with
  | nil => rfl
  | cons byte bytes ih =>
    rw [length_cons] at few
    have next : result * 256 + byte.toNat < 256 ^ (k + 1) := by
      have := byte.isLt
      rw [Nat.pow_succ]
      omega
    have fits : 256 ^ (k + 1) ≤ 2 ^ 64 := (Nat.pow_le_pow_right (by decide) (by omega : k + 1 ≤ 8)).trans (by decide)
    rw [foldlM_cons, pushByte, if_pos (next.trans_le fits)]
    exact ih next (by omega)

/-- A declared length is what `decode_length` returns, if the sum with its prefix fits. -/
theorem decodeLength_of_declares {head content : Nat} (declares : Declares (data.drop position) head content) :
    decodeLength data position = (add head content).map fun total => (content, total) := by
  have inside : ¬data.length < position := by
    intro outside
    rw [List.drop_eq_nil_of_le outside.le] at declares
    cases declares
  rw [decodeLength, if_neg inside]
  generalize data.drop position = bytes at declares
  cases declares with
  | single small =>
    simp only
    rw [if_pos (by omega)]
    rfl
  | short le tag =>
    have fits : 1 + content < 2 ^ 64 := by omega
    simp only [add, if_pos fits, Except.map]
    rcases tag with tag | tag
    · rw [if_neg (by omega), if_pos (by omega), tag, Nat.add_sub_cancel_left, Nat.add_comm]
    · rw [if_neg (by omega), if_neg (by omega), if_neg (by omega), if_pos (by omega), tag, Nat.add_sub_cancel_left,
        Nat.add_comm]
  | @long first digits rest few tag canonical =>
    have value : decodeUint digits = .ok (bigEndian digits) := by
      have nonempty := length_pos_iff.mp few.1
      rw [decodeUint, if_neg nonempty, if_neg (fun ⟨zero, many⟩ => many.ne' (canonical zero)),
        foldlM_pushByte (k := 0) (by decide) (by omega)]
      rfl
    have long (kind : String) : decodeLong kind digits.length (digits ++ rest) =
        (add (1 + digits.length) (bigEndian digits)).map fun total => (bigEndian digits, total) := by
      rw [decodeLong, if_neg (by simp), take_left, value]
      change (add _ _ >>= fun total => pure (bigEndian digits, total)) = _
      cases add (1 + digits.length) (bigEndian digits) <;> rfl
    simp only
    rcases tag with tag | tag
    · rw [if_neg (by omega), if_neg (by omega), if_pos (by omega), tag, Nat.add_sub_cancel_left, long]
    · rw [if_neg (by omega), if_neg (by omega), if_neg (by omega), if_neg (by omega), tag, Nat.add_sub_cancel_left,
        long]

/-- Where nothing is declared, `decode_length` returns an error. -/
theorem decodeLength_of_unreadable (unreadable : Unreadable data position) :
    ∃ message, decodeLength data position = .error (.err message) := by
  obtain ⟨inside, undeclared⟩ := unreadable
  rw [decodeLength, if_neg (not_lt.mpr inside)]
  generalize data.drop position = bytes at undeclared
  cases bytes with
  | nil => exact ⟨_, rfl⟩
  | cons first rest =>
    have large := first.isLt
    -- a long prefix of which no digit is missing has a leading zero
    have long (kind : String) (k : Nat) (few : 0 < k ∧ k ≤ 8) (tag : first.toNat = 0xb7 + k ∨ first.toNat = 0xf7 + k) :
        ∃ message, decodeLong kind k rest = .error (.err message) := by
      rw [decodeLong]
      split
      · exact ⟨_, rfl⟩
      next enough =>
        have length := length_take_of_le (not_lt.mp enough)
        by_cases canonical : (rest.take k).head? = some 0 → (rest.take k).length = 1
        · have declares := @Declares.long first _ (rest.drop k) (length.symm ▸ few) (length.symm ▸ tag) canonical
          rw [take_append_drop] at declares
          exact absurd declares (undeclared _ _)
        · obtain ⟨zero, many⟩ := Classical.not_imp.mp canonical
          rw [decodeUint, if_neg (by rintro empty; simp [empty] at zero), if_pos ⟨zero, by omega⟩]
          exact ⟨_, rfl⟩
    simp only
    split_ifs with single short longString shortList
    · exact absurd (.single (by omega)) (undeclared 0 1)
    · exact absurd (.short (by omega) (.inl (by omega))) (undeclared 1 (first.toNat - 0x80))
    · exact long _ _ (by omega) (.inl (by omega))
    · exact absurd (.short (by omega) (.inr (by omega))) (undeclared 1 (first.toNat - 0xc0))
    · exact long _ _ (by omega) (.inr (by omega))

end Prefix

/-! ## Clean calls -/

/-- A call returns, and a result has the property. -/
def Clean {α : Type} (result : Except ScanFailure α) (post : α → Prop) : Prop :=
  match result with
  | .error failure => failure ≠ .panic
  | .ok a => post a

/-- The ranges of adjacent items that end at `ends`. -/
def rangesFrom : Nat → List Nat → List RangeRlp
  | _, [] => []
  | start, stop :: ends => ⟨start, stop⟩ :: rangesFrom stop ends

section Clean

variable {data : List Byte} {position start stop : Nat} {α : Type} {post : α → Prop}

theorem clean_add_iff {a b : Nat} {f : Nat → Except ScanFailure α} :
    Clean (add a b >>= f) post ↔ a + b < 2 ^ 64 ∧ Clean (f (a + b)) post := by
  rw [add]
  split
  next fits => exact (and_iff_right fits).symm
  next large => exact iff_of_false (fun clean => clean rfl) fun fits => large fits.1

theorem ItemAt.lt (item : ItemAt data position start stop) : position < stop := by
  obtain ⟨head, content, declares, rfl, rfl, -⟩ := item
  generalize data.drop position = bytes at declares
  cases declares <;> omega

theorem ItemAt.unique {start' stop' : Nat} (item : ItemAt data position start stop)
    (item' : ItemAt data position start' stop') : start = start' ∧ stop = stop' := by
  obtain ⟨head, content, declares, rfl, rfl, fits⟩ := item
  obtain ⟨head', content', declares', rfl, rfl, fits'⟩ := item'
  have same := (decodeLength_of_declares declares).symm.trans (decodeLength_of_declares declares')
  rw [add, if_pos (by omega), add, if_pos (by omega)] at same
  obtain ⟨rfl, total⟩ := Prod.mk.inj (Except.ok.inj same)
  omega

/-- Reading a prefix at `position`, for a continuation that fails with the end of the item. -/
theorem decodeLength_clean_iff {f : Nat × Nat → Except ScanFailure α} {g : Nat → Nat → Except ScanFailure α}
    (continues : ∀ {head content}, head + content < 2 ^ 64 → (Clean (f (content, head + content)) post ↔
      position + head + content < 2 ^ 64 ∧ Clean (g (position + head) (position + head + content)) post)) :
    Clean (decodeLength data position >>= f) post ↔ Unreadable data position ∨
      ∃ start stop, ItemAt data position start stop ∧ Clean (g start stop) post := by
  have step {head content : Nat} (declares : Declares (data.drop position) head content) :
      decodeLength data position >>= f = add head content >>= fun total => f (content, total) := by
    rw [decodeLength_of_declares declares]
    cases add head content <;> rfl
  constructor
  · intro clean
    by_cases readable : ∃ head content, Declares (data.drop position) head content
    · obtain ⟨head, content, declares⟩ := readable
      rw [step declares, clean_add_iff] at clean
      obtain ⟨fits, clean⟩ := (continues clean.1).mp clean.2
      exact .inr ⟨_, _, ⟨head, content, declares, rfl, rfl, fits⟩, clean⟩
    · refine .inl ⟨not_lt.mp fun outside => ?_, by simpa using readable⟩
      rw [decodeLength, if_pos outside] at clean
      exact clean rfl
  · rintro (unreadable | ⟨start, stop, ⟨head, content, declares, rfl, rfl, fits⟩, clean⟩)
    · obtain ⟨message, failed⟩ := decodeLength_of_unreadable unreadable
      rw [failed]
      exact nofun
    · have small : head + content < 2 ^ 64 := by omega
      rw [step declares, clean_add_iff]
      exact ⟨small, (continues small).mpr ⟨fits, clean⟩⟩

theorem item_clean_iff {f : Nat → Except ScanFailure α} :
    Clean (decodeLength data position >>= fun item => add position item.2 >>= f) post ↔
      Unreadable data position ∨ ∃ start stop, ItemAt data position start stop ∧ Clean (f stop) post :=
  decodeLength_clean_iff (g := fun _ => f) fun _ => by rw [clean_add_iff, Nat.add_assoc]

theorem scan_eq : scan data stop position = if position < stop then
    decodeLength data position >>= fun item => add position item.2 >>= fun next =>
      scan data stop next >>= fun rest => pure (⟨position, next⟩ :: rest)
    else pure [] := by
  rw [scan]
  split
  · split
    next failed => rw [failed]; rfl
    next content total decoded =>
      rw [decoded]
      change (add position total >>= _) = (add position total >>= _)
      rw [add]
      split <;> rfl
  · rfl

/-- The loop reads the items up to `stop`, which end one behind the other. -/
theorem scan_clean_iff {f : List RangeRlp → Except ScanFailure α} {property : List Nat → Prop}
    (continues : ∀ {ends}, (position :: ends).IsChain (· < ·) →
      (Clean (f (rangesFrom position ends)) post ↔ property ends)) :
    Clean (scan data stop position >>= f) post ↔ ItemsThen data stop position property := by
  -- what is left to scan gets shorter, as every item moves the position on
  induction left : stop - position using Nat.strong_induction_on generalizing position f property with
  | _ left ih =>
    rw [scan_eq]
    split
    next more =>
      have tail {start next : Nat} (item : ItemAt data position start next) :
          Clean (scan data stop next >>= fun rest => f (⟨position, next⟩ :: rest)) post ↔
            ItemsThen data stop next fun ends => property (next :: ends) :=
        ih (stop - next) (by have := item.lt; omega) (fun chain => continues (.cons_cons item.lt chain)) rfl
      simp only [bind_assoc, pure_bind]
      refine item_clean_iff.trans ⟨?_, ?_⟩
      · rintro (unreadable | ⟨start, next, item, clean⟩)
        · exact .unreadable more unreadable
        · exact .item more item ((tail item).mp clean)
      · rintro (⟨-, unreadable⟩ | ⟨done, -⟩ | ⟨-, item, later⟩)
        · exact .inl unreadable
        · omega
        · exact .inr ⟨_, _, item, (tail item).mpr later⟩
    next done =>
      refine (continues (.singleton _)).trans ⟨.done (not_lt.mp done), ?_⟩
      rintro (⟨more, -⟩ | ⟨-, holds⟩ | ⟨more, -, -⟩)
      · exact absurd more done
      · exact holds
      · exact absurd more done

theorem listRanges_clean_iff {f : List RangeRlp → Except ScanFailure α} {property : List Nat → Prop}
    (continues : ∀ {start stop ends}, ItemAt data position start stop → (start :: ends).IsChain (· < ·) →
      (Clean (f (rangesFrom start ends)) post ↔ property ends)) :
    Clean (listRanges data position >>= f) post ↔ ListThen data position property := by
  simp only [listRanges, bind_assoc]
  refine (decodeLength_clean_iff (g := fun start stop => scan data stop start >>= f) fun _ => ?_).trans ?_
  · simp only [clean_add_iff, Nat.add_sub_cancel]
    exact and_iff_right_of_imp fun fits => by omega
  · exact or_congr .rfl (exists_congr fun start => exists_congr fun stop => and_congr_right fun item =>
      scan_clean_iff fun chain => continues item chain)

/-- The header of the block ends at `position`. -/
def HeaderEnds (blockRlp : List Byte) (position : Nat) : Prop :=
  ∃ start stop headerStart, ItemAt blockRlp 0 start stop ∧ ItemAt blockRlp start headerStart position

theorem skipHeader_clean_iff {f : Nat → Except ScanFailure α} {property : Nat → Prop}
    (continues : ∀ {position}, HeaderEnds data position → (Clean (f position) post ↔ property position)) :
    Clean (skipHeader data >>= f) post ↔ HeaderThen data property := by
  simp only [skipHeader, bind_assoc]
  refine (decodeLength_clean_iff (g := fun start _ => decodeLength data start >>= fun item => add start item.2 >>= f)
    fun fits => ?_).trans ?_
  · simp only [Nat.add_sub_cancel, Nat.zero_add]
    exact (and_iff_right fits).symm
  · refine or_congr .rfl (exists_congr fun start => exists_congr fun stop => and_congr_right fun block => ?_)
    exact item_clean_iff.trans <| or_congr .rfl (exists_congr fun headerStart => exists_congr fun position =>
      and_congr_right fun header => continues ⟨start, stop, headerStart, block, header⟩)

end Clean

/-! ## Covered lists -/

/-- The ranges are adjacent and cover the bytes from `position` to `stop`. -/
def Covers (stop : Nat) : Nat → List RangeRlp → Prop
  | position, [] => position = stop
  | position, range :: rest => range.start = position ∧ position < range.stop ∧ Covers stop range.stop rest

/-- The ranges cover the content of the list at `position`, which ends inside the input. -/
def Lists (data : List Byte) (position : Nat) (ranges : List RangeRlp) : Prop :=
  ∃ start stop, ItemAt data position start stop ∧ stop ≤ data.length ∧ Covers stop start ranges

/-- The ranges cover the list of transactions behind the header. -/
def ListsTransactions (blockRlp : List Byte) (ranges : List RangeRlp) : Prop :=
  ∃ position, HeaderEnds blockRlp position ∧ Lists blockRlp position ranges

section Lists

variable {data : List Byte} {position start stop : Nat} {ends : List Nat}

theorem HeaderEnds.lists_iff (header : HeaderEnds data position) {ranges : List RangeRlp} :
    ListsTransactions data ranges ↔ Lists data position ranges := by
  refine ⟨?_, fun lists => ⟨position, header, lists⟩⟩
  rintro ⟨position', ⟨start', _, _, block', header'⟩, lists⟩
  obtain ⟨start, _, _, block, header⟩ := header
  obtain ⟨rfl, -⟩ := block.unique block'
  obtain ⟨-, rfl⟩ := header.unique header'
  exact lists

theorem covers_iff (chain : (start :: ends).IsChain (· < ·)) :
    Covers stop start (rangesFrom start ends) ↔ ends.getLastD start = stop := by
  induction ends generalizing start with
  | nil => exact .rfl
  | cons next ends ih =>
    obtain ⟨lt, chain⟩ := isChain_cons_cons.mp chain
    simpa only [rangesFrom, Covers, lt, getLastD_cons, true_and] using ih chain

theorem covers_shift {offset : Nat} {ranges : List RangeRlp} :
    Covers (stop + offset) (start + offset) (ranges.map (.shift offset)) ↔ Covers stop start ranges := by
  induction ranges generalizing start with
  | nil => simp [Covers]
  | cons range rest ih => simp [Covers, RangeRlp.shift, ih]

theorem lists_iff (item : ItemAt data position start stop) (chain : (start :: ends).IsChain (· < ·)) :
    Lists data position (rangesFrom start ends) ↔ Exact data position ends := by
  refine exists_congr fun start' => exists_congr fun stop' => and_congr_right fun item' => and_congr_right fun _ => ?_
  obtain ⟨rfl, rfl⟩ := item.unique item'
  exact covers_iff chain

/-- The prefix of an item is read in the same way without what follows the item. -/
theorem Declares.take {bytes : List Byte} {head content n : Nat} (declares : Declares bytes head content)
    (le : head ≤ n) (pos : 0 < n) : Declares (bytes.take n) head content := by
  obtain ⟨n, rfl⟩ := Nat.exists_eq_succ_of_ne_zero pos.ne'
  cases declares with
  | single small => exact .single small
  | short le tag => exact .short le tag
  | long few tag canonical =>
    rw [take_succ_cons, take_append, take_of_length_le (by omega)]
    exact .long few tag canonical

/-- The transactions are read from a copy of their list; their ranges are moved to its place in the block. -/
theorem lists_select_iff {start' stop' : Nat} (item : ItemAt data position start stop) (inside : stop ≤ data.length)
    (item' : ItemAt (select data ⟨position, stop⟩) 0 start' stop') (chain : (start' :: ends).IsChain (· < ·)) :
    Lists data position ((rangesFrom start' ends).map (.shift position)) ↔
      Exact (select data ⟨position, stop⟩) 0 ends := by
  have lt := item.lt
  obtain ⟨head, content, declares, isStart, isStop, fits⟩ := id item
  -- the copy begins with the same item
  have copy : ItemAt (select data ⟨position, stop⟩) 0 (start - position) (stop - position) := by
    refine ⟨head, content, ?_, by omega, by omega, by omega⟩
    rw [select, drop_zero, drop_take]
    refine declares.take ?_ ?_ <;> simp only <;> omega
  have length : (select data ⟨position, stop⟩).length = stop - position := by
    rw [select, length_drop, length_take, Nat.min_eq_left inside]
  obtain ⟨rfl, rfl⟩ := copy.unique item'
  have shifted : Covers (stop - position + position) (start - position + position)
      ((rangesFrom (start - position) ends).map (.shift position)) ↔ _ := covers_shift
  rw [Nat.sub_add_cancel (by omega), Nat.sub_add_cancel (by omega), covers_iff chain] at shifted
  constructor
  · rintro ⟨_, _, again, -, covers⟩
    obtain ⟨rfl, rfl⟩ := item.unique again
    exact ⟨_, _, copy, length.ge, shifted.mp covers⟩
  · rintro ⟨_, _, again, -, last⟩
    obtain ⟨rfl, rfl⟩ := copy.unique again
    exact ⟨start, stop, item, inside, shifted.mpr last⟩

theorem map_stop_rangesFrom (start : Nat) (ends : List Nat) : (rangesFrom start ends).map (·.stop) = ends := by
  induction ends generalizing start with
  | nil => rfl
  | cons stop ends ih => simp [rangesFrom, ih]

theorem length_rangesFrom (start : Nat) (ends : List Nat) : (rangesFrom start ends).length = ends.length := by
  simpa using congrArg List.length (map_stop_rangesFrom start ends)

/-- The last part of `get_all_tx_offsets`, for any properties of the three lists of ranges. -/
theorem zipRanges_clean_iff {txsStart : Nat} {txRanges receiptRanges traceRanges : List RangeRlp}
    {isTxs isReceipts isTraces : List RangeRlp → Prop} :
    Clean (zipRanges txsStart txRanges receiptRanges traceRanges) (fun offsets => isTxs (offsets.map (·.tx)) ∧
        isReceipts (offsets.map (·.receipt)) ∧ isTraces (offsets.map (·.trace))) ↔
      (∀ stop ∈ txRanges.map (·.stop), stop + txsStart < 2 ^ 64) ∧
        (txRanges.length = receiptRanges.length ∧ txRanges.length = traceRanges.length →
          isTxs (txRanges.map (.shift txsStart)) ∧ isReceipts receiptRanges ∧ isTraces traceRanges) := by
  have overflows : (∃ range ∈ txRanges.map (RangeRlp.shift txsStart), 2 ^ 64 ≤ range.stop) ↔
      ¬∀ stop ∈ txRanges.map (·.stop), stop + txsStart < 2 ^ 64 := by
    simp [RangeRlp.shift]
  rw [zipRanges]
  split
  next overflow => exact iff_of_false (fun clean => clean rfl) fun fits => overflows.mp overflow fits.1
  next small =>
    rw [overflows, not_not] at small
    refine Iff.trans ?_ (and_iff_right small).symm
    simp only [length_map, ne_eq, ← not_and_or]
    split
    next mismatch => exact iff_of_true nofun fun same => absurd same mismatch
    next same =>
      refine Iff.trans ?_ (imp_iff_right (not_not.mp same)).symm
      refine and_congr (iff_of_eq (congrArg isTxs ?_))
        (and_congr (iff_of_eq (congrArg isReceipts ?_)) (iff_of_eq (congrArg isTraces ?_)))
      all_goals exact ext_getElem (by simp; omega) (by simp)

end Lists

/-- The calls return, and the ranges that they return cover the content of the lists, exactly for readable bytes. -/
theorem offsets_clean_iff (blockRlp receiptsRlp tracesRlp : List Byte) :
    (Clean (getTransactionRanges blockRlp) (ListsTransactions blockRlp) ↔ TransactionsReadable blockRlp) ∧
    (Clean (getAllTxOffsets blockRlp receiptsRlp tracesRlp) (fun offsets =>
        ListsTransactions blockRlp (offsets.map (·.tx)) ∧ Lists receiptsRlp 0 (offsets.map (·.receipt)) ∧
          Lists tracesRlp 0 (offsets.map (·.trace))) ↔
      OffsetsReadable blockRlp receiptsRlp tracesRlp) := by
  constructor
  · refine skipHeader_clean_iff fun {position} header => ?_
    rw [← bind_pure (listRanges blockRlp position)]
    exact listRanges_clean_iff fun item chain => header.lists_iff.trans (lists_iff item chain)
  · refine skipHeader_clean_iff fun {position} header => ?_
    refine item_clean_iff.trans (or_congr .rfl (exists_congr fun start => exists_congr fun stop =>
      and_congr_right fun item => ?_))
    split
    next outside => exact iff_of_false (fun clean => clean rfl) fun readable => absurd readable.1 (not_le.mpr outside)
    next inside =>
      rw [not_lt] at inside
      refine Iff.trans ?_ (and_iff_right inside).symm
      refine listRanges_clean_iff fun txs txChain => listRanges_clean_iff fun receipts receiptChain =>
        listRanges_clean_iff fun traces traceChain => ?_
      rw [zipRanges_clean_iff, map_stop_rangesFrom, header.lists_iff, lists_select_iff item inside txs txChain,
        lists_iff receipts receiptChain, lists_iff traces traceChain]
      simp only [length_rangesFrom]

theorem offsets_clean_oneTx :
    Clean (getTransactionRanges [0xc3, 0x80, 0xc1, 0x01]) (ListsTransactions [0xc3, 0x80, 0xc1, 0x01]) := by
  refine (offsets_clean_iff _ [] []).1.mpr (.inr ⟨1, 4, ⟨1, 3, .short (by decide) (by decide), rfl, rfl, by decide⟩,
    .inr ?_⟩)
  refine ⟨2, 2, ⟨1, 0, .short (by decide) (by decide), rfl, rfl, by decide⟩, .inr ?_⟩
  have txs : ItemAt [0xc3, 0x80, 0xc1, 0x01] 2 3 4 := ⟨1, 1, .short (by decide) (by decide), rfl, rfl, by decide⟩
  refine ⟨3, 4, txs, .item (by decide) ⟨0, 1, .single (by decide), rfl, rfl, by decide⟩ (.done le_rfl ?_)⟩
  exact ⟨3, 4, txs, le_rfl, rfl⟩

/-- A header that ends behind the block is a panic, and a receipt may end behind the receipts. -/
theorem offsets_unclean : getTransactionRanges [0xc1, 0x85] = .error .panic ∧
    getAllTxOffsets [0xc3, 0x80, 0xc1, 0x01] [0xc1, 0x85] [0xc1, 0x01] = .ok [⟨⟨3, 4⟩, ⟨1, 7⟩, ⟨1, 2⟩⟩] := by
  decide +kernel

end RlpScanner

end MonadBft
