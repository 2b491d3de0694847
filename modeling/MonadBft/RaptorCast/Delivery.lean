import Mathlib.Data.List.Rotate
import MonadBft.Lib.MapM
import MonadBft.RaptorCast.Packets

/-! # Delivery of RaptorCast packets

Every packet that is built is parsed to the symbol it was built for, and every symbol is in a packet, unless the message
is dropped. The builder panics when a message has more symbols than the code has triples.
-/

namespace MonadBft.Packets

open List Option

variable {Sig Addr : Type}

/-! ## What the parser reads -/

@[simp] theorem length_leBytes (width n : Nat) : (leBytes width n).length = width := by
  induction width generalizing n with
  | zero => rfl
  | succ width ih => rw [leBytes, length_cons, ih]

theorem ofLeBytes_leBytes {width n : Nat} (small : n < 256 ^ width) : ofLeBytes (leBytes width n) = n := by
  induction width generalizing n with
  | zero =>
    rw [Nat.pow_zero] at small
    rw [leBytes, ofLeBytes]
    omega
  | succ width ih =>
    rw [Nat.pow_succ] at small
    rw [leBytes, ofLeBytes, ih (by omega)]
    omega

theorem bind_of_ok {α β : Type} {read : Except MessageValidationError α} {value : α} (ok : read = .ok value)
    (next : α → Except MessageValidationError β) : read >>= next = next value := by
  rw [ok]
  rfl

theorem splitOff_append {mid : Nat} {front : Bytes} (length : front.length = mid) (rest : Bytes) :
    splitOff mid (front ++ rest) = .ok (front, rest) := by
  simp [splitOff, ← length]

theorem takeSiblings_append (siblings : List Hash20) (rest : Bytes) :
    takeSiblings siblings.length (siblings.flatMap (·.1) ++ rest) = .ok (siblings, rest) := by
  induction siblings with
  | nil => rfl
  | cons sibling siblings ih =>
    rw [length_cons, flatMap_cons, append_assoc, takeSiblings, splitOff_append sibling.2]
    change (if length : sibling.1.length = 20 then _ else _) = _
    rw [dif_pos sibling.2, ih]
    rfl

theorem SignatureCache.tryGetOrInsert_of_recovered {scheme : Scheme Sig} (cache : SignatureCache scheme)
    {signedOver : Bytes} {author : NodeId} (isAuthor : recoverAuthor scheme signedOver = some author) :
    ∃ cache', cache.tryGetOrInsert signedOver = .ok (author, cache') := by
  unfold tryGetOrInsert
  split
  next found known =>
    obtain rfl : author = found := by simpa [isAuthor] using cache.recovered _ _ known
    exact ⟨cache, rfl⟩
  next =>
    split
    next found known =>
      obtain rfl : author = found := by simpa [isAuthor] using known
      exact ⟨_, rfl⟩
    next failed => simp [isAuthor] at failed

namespace BuildArgs

/-- What a packet of a chunk is parsed to. -/
def validated (args : BuildArgs Sig Addr) (chunk : Chunk) (packet : Bytes) : ValidatedMessage :=
  ⟨packet, args.selfId, args.epochNo.toNat, args.unixTsMs.toNat, (truncate (args.scheme.hash args.appMessage)).1,
    args.appMessage.length, args.buildTarget.isRaptorBroadcast, chunk.recipient.1, chunk.chunkId, chunk.payload⟩

/-- Whoever accepts the timestamp parses the packet to its chunk. -/
def Parses (args : BuildArgs Sig Addr) (chunk : Chunk) (packet : Bytes) : Prop :=
  ∀ (cache : SignatureCache args.scheme) (now : Option UInt64) (maxAgeMs : Nat),
    ensureValidTimestamp now args.unixTsMs.toNat maxAgeMs = .ok () →
      ∃ cache', parseMessage cache now packet maxAgeMs = .ok (args.validated chunk packet, cache')

variable {args : BuildArgs Sig Addr}

theorem length_fields (args : BuildArgs Sig Addr) (n : Nat) : (args.fields n).length = headerLen - signatureSize := by
  simp [fields, (truncate (args.scheme.hash args.appMessage)).2, headerLen, signatureSize]

theorem length_flatMap_siblings (siblings : List Hash20) : (siblings.flatMap (·.1)).length = 20 * siblings.length := by
  induction siblings with
  | nil => rfl
  | cons sibling rest ih =>
    rw [flatMap_cons, length_append, ih, sibling.2, length_cons]
    omega

/-- The signer of a header and a root is found from the bytes they are sent as. -/
theorem recoverAuthor_signed {scheme : Scheme Sig} (ideal : scheme.Ideal) (author : NodeId) (fields root : Bytes) :
    recoverAuthor scheme (scheme.serialize (scheme.sign author (fields ++ root)) ++ fields ++ root) = some author := by
  rw [recoverAuthor, append_assoc, take_left' (ideal.length _), drop_left' (ideal.length _),
    ideal.deserialize]
  exact ideal.recover _ _

/-- A packet whose proof leads to the signed root is parsed to its chunk. -/
theorem parses_packet (ideal : args.scheme.Ideal) (sized : args.appMessage.length < 2 ^ 32) {chunk : Chunk}
    (smallId : chunk.chunkId < 2 ^ 16) (filled : chunk.payload ≠ []) {leafIdx : Nat} (leafSmall : leafIdx < 256)
    {siblings : List Hash20} (count : siblings.length = treeDepth - 1) {rebuilt : Merkle.MerkleProof Hash20}
    (isProof : Merkle.MerkleProof.newFromLeafIdx siblings ⟨leafIdx, leafSmall⟩ = some rebuilt) {root : Hash20}
    (computes : rebuilt.computeRoot args.scheme.merkle (args.scheme.hash (body chunk leafIdx)) = some root) :
    args.Parses chunk (args.scheme.serialize (args.scheme.sign args.selfId
      (args.fields args.appMessage.length ++ root.1)) ++
      args.fields args.appMessage.length ++ (proofSlots siblings ++ body chunk leafIdx)) := by
  intro cache now maxAgeMs accepted
  set fields := args.fields args.appMessage.length with isFields
  set signature := args.scheme.sign args.selfId (fields ++ root.1)
  let flags := (if args.buildTarget.isRaptorBroadcast then 128 else 0) + treeDepth
  let appHash := truncate (args.scheme.hash args.appMessage)
  have header : (args.scheme.serialize signature ++ fields).length = headerLen := by
    rw [length_append, ideal.length, isFields, length_fields]
    rfl
  have slots : proofSlots siblings = siblings.flatMap (·.1) := by
    rw [proofSlots, count]
    exact append_nil _
  -- The header ends before the proof, and the leaf is the hash of all that follows it.
  have front : (args.scheme.serialize signature ++ fields ++ (proofSlots siblings ++
      body chunk leafIdx)).take headerLen = args.scheme.serialize signature ++ fields := take_left' header
  have back : (args.scheme.serialize signature ++ fields ++ (proofSlots siblings ++ body chunk leafIdx)).drop
      (headerLen + 20 * (treeDepth - 1)) = body chunk leafIdx := by
    rw [← append_assoc]
    exact drop_left' (by rw [length_append, header, slots, length_flatMap_siblings, count])
  obtain ⟨cache', found⟩ := cache.tryGetOrInsert_of_recovered (recoverAuthor_signed ideal args.selfId fields root.1)
  refine ⟨cache', ?_⟩
  -- The packet as the fields that are read, in their order.
  have layout : args.scheme.serialize signature ++ fields ++ (proofSlots siblings ++ body chunk leafIdx) =
      args.scheme.serialize signature ++ (leBytes 2 0 ++ ([flags] ++ (leBytes 8 args.epochNo.toNat ++
        (leBytes 8 args.unixTsMs.toNat ++ (appHash.1 ++ (leBytes 4 args.appMessage.length ++ (siblings.flatMap (·.1) ++
          (chunk.recipient.1 ++ ([leafIdx] ++ ([0] ++ (leBytes 2 chunk.chunkId ++ chunk.payload))))))))))) := by
    simp only [isFields, BuildArgs.fields, body, slots, append_assoc, flags, appHash]
  rw [layout] at front back ⊢
  have depth : flags % 2 ^ 7 = treeDepth := by
    unfold flags
    split <;> rfl
  have isBroadcast : decide (flags / 2 ^ 7 ≠ 0) = args.buildTarget.isRaptorBroadcast := by
    unfold flags
    split <;> simp_all [treeDepth]
  -- The header is read first; its depth says how long the proof is.
  refine (bind_of_ok (splitOff_append (ideal.length _) _) _).trans ?_
  refine (bind_of_ok (by rw [ideal.deserialize]; rfl) _).trans ?_
  refine (bind_of_ok (splitOff_append (length_leBytes 2 0) _) _).trans ?_
  refine (bind_of_ok (by rw [ofLeBytes_leBytes (by decide)]; rfl) _).trans ?_
  refine (bind_of_ok (splitOff_append (length_singleton) _) _).trans ?_
  simp only [headD_cons, depth]
  refine (bind_of_ok rfl _).trans ?_
  refine (bind_of_ok (splitOff_append (length_leBytes 8 _) _) _).trans ?_
  refine (bind_of_ok (splitOff_append (length_leBytes 8 _) _) _).trans ?_
  rw [ofLeBytes_leBytes (show args.unixTsMs.toNat < 256 ^ 8 from args.unixTsMs.toNat_lt)]
  refine (bind_of_ok accepted _).trans ?_
  refine (bind_of_ok (splitOff_append appHash.2 _) _).trans ?_
  refine (bind_of_ok (splitOff_append (length_leBytes 4 _) _) _).trans ?_
  -- Then the proof and the chunk; the proof is rebuilt from the leaf index of the chunk.
  refine (bind_of_ok (by rw [← count, takeSiblings_append]) _).trans ?_
  refine (bind_of_ok (splitOff_append chunk.recipient.2 _) _).trans ?_
  refine (bind_of_ok (splitOff_append (length_singleton) _) _).trans ?_
  refine (bind_of_ok (by rw [leafProof, headD_cons, dif_pos leafSmall, isProof]; rfl) _).trans ?_
  refine (bind_of_ok (splitOff_append (length_singleton) _) _).trans ?_
  refine (bind_of_ok (splitOff_append (length_leBytes 2 _) _) _).trans ?_
  refine (bind_of_ok (if_pos (decide_eq_true filled)) _).trans ?_
  -- The root that the chunk leads to is the one that was signed.
  refine (bind_of_ok (by rw [back, computes]; rfl) _).trans ?_
  refine (bind_of_ok (by rw [front]; exact found) _).trans ?_
  rw [validated, ← isBroadcast, ofLeBytes_leBytes (show args.epochNo.toNat < 256 ^ 8 from args.epochNo.toNat_lt),
    ofLeBytes_leBytes (show args.appMessage.length < 256 ^ 4 from sized),
    ofLeBytes_leBytes (show chunk.chunkId < 256 ^ 2 from smallId)]
  rfl

/-! ## Signing -/

variable {chunks : List Chunk} {spans : List Span} {first last total : Nat} {bound : Nat → Nat}

/-- A batch is signed, and every packet of it is parsed to its chunk. -/
theorem signBatch_spec (ideal : args.scheme.Ideal) (sized : args.appMessage.length < 2 ^ 32)
    (fits : chunks.length ≤ chunksPerMerkleBatch) (wellFormed : ∀ c ∈ chunks, c.chunkId < 2 ^ 16 ∧ c.payload ≠ []) :
    ∃ packets, args.signBatch args.appMessage.length chunks = some packets ∧
      List.Forall₂ args.Parses chunks packets := by
  obtain ⟨tree, built, start, length, hashed, isLeaf⟩ := Merkle.MerkleTree.newWithDepth_spec args.scheme.merkle
    (chunks.zipIdx.map fun e => args.scheme.hash (body e.1 e.2)) (show 1 ≤ treeDepth by decide) (by decide)
  obtain ⟨root, isRoot⟩ : ∃ root, tree.root = some root :=
    ⟨_, getElem?_eq_getElem (show 0 < tree.tree.length by rw [treeDepth] at length; omega)⟩
  have each : ∀ e ∈ chunks.zipIdx, ∃ p, packet tree (args.scheme.serialize (args.scheme.sign args.selfId
      (args.fields args.appMessage.length ++ root.1)) ++ args.fields args.appMessage.length) e.1 e.2 = some p ∧
        args.Parses e.1 p := by
    intro ⟨chunk, i⟩ inside
    have known := mk_mem_zipIdx_iff_getElem?.mp inside
    have below := lt_of_lt_of_le (List.getElem?_eq_some_iff.mp known).1 fits
    have leafSmall : i < 256 := lt_trans below (by decide)
    obtain ⟨smallId, filled⟩ := wellFormed chunk (mem_of_getElem? known)
    -- The leaf of a chunk is the hash of its body, so its proof leads to the root.
    have value := isLeaf i below
    rw [Merkle.MerkleTree.leafAt, getElem?_map, getElem?_zipIdx, known] at value
    simp only [map_some, Nat.zero_add, getD_some] at value
    obtain ⟨proof, isProof, count, -, rebuilds⟩ := Merkle.MerkleTree.exists_proof
      (show 1 ≤ treeDepth by decide) start hashed isRoot (show ((⟨i, leafSmall⟩ : Fin 256) : Nat) < _ from below) value
    obtain ⟨rebuilt, again, computes⟩ := rebuilds (by decide)
    refine ⟨_, ?_, parses_packet ideal sized smallId filled leafSmall count again computes⟩
    rw [packet, dif_pos leafSmall, isProof]
    rfl
  obtain ⟨packets, run, parsed⟩ := MapM.exists_mapM (fun e p => args.Parses e.1 p) chunks.zipIdx each
  refine ⟨packets, ?_, ?_⟩
  · simp only [signBatch, built, isRoot, bind_eq_bind, bind_some, ideal.length, ne_eq, not_true_eq_false,
      if_false]
    exact run
  · rw [← zipIdx_map_fst 0 chunks]
    exact forall₂_map_left_iff.mpr parsed

/-- The batches are signed one after the other. -/
theorem signAll_spec (ideal : args.scheme.Ideal) (sized : args.appMessage.length < 2 ^ 32) {fuel : Nat}
    (enough : chunks.length < fuel) (wellFormed : ∀ c ∈ chunks, c.chunkId < 2 ^ 16 ∧ c.payload ≠ []) :
    ∃ packets, args.signAll args.appMessage.length fuel chunks = some packets ∧
      List.Forall₂ args.Parses chunks packets := by
  -- Each batch takes at least one chunk, so one turn for each chunk is enough.
  induction fuel generalizing chunks with
  | zero => omega
  | succ fuel ih =>
    cases chunks with
    | nil => exact ⟨[], rfl, .nil⟩
    | cons chunk rest =>
      obtain ⟨batch, signed, parsed⟩ := signBatch_spec ideal sized
        (show ((chunk :: rest).take chunksPerMerkleBatch).length ≤ _ from length_take_le ..)
        fun c inside => wellFormed c (mem_of_mem_take inside)
      have fewer : ((chunk :: rest).drop chunksPerMerkleBatch).length < fuel := by
        rw [length_cons] at enough
        rw [length_drop, length_cons, chunksPerMerkleBatch, treeDepth]
        omega
      obtain ⟨later, run, others⟩ := ih fewer fun c inside => wellFormed c (mem_of_mem_drop inside)
      refine ⟨batch ++ later, by simp [signAll, signed, run], ?_⟩
      rw [← take_append_drop chunksPerMerkleBatch (chunk :: rest)]
      exact rel_append parsed others

/-! ## Assignment -/

/-- The spans follow each other from `first` to `last`, and none is empty. -/
def Tiles : List Span → Nat → Nat → Prop
  | [], first, last => first = last
  | span :: rest, first, last => span.start = first ∧ first < span.stop ∧ Tiles rest span.stop last

section

variable (tiles : Tiles spans first last)

include tiles

theorem Tiles.le : first ≤ last := by
  induction spans generalizing first with
  | nil => exact Nat.le_of_eq tiles
  | cons span rest ih => exact le_trans tiles.2.1.le (ih tiles.2.2)

/-- Every index is in one span. -/
theorem Tiles.covers :
    spans.flatMap (fun span => List.range' span.start (span.stop - span.start)) = List.range' first (last - first) := by
  induction spans generalizing first with
  | nil => simp [show first = last from tiles]
  | cons span rest ih =>
    obtain ⟨start, positive, later⟩ := tiles
    have less := later.le
    rw [flatMap_cons, ih later, start, show last - first = (span.stop - first) + (last - span.stop) by omega,
      ← range'_append_1, show first + (span.stop - first) = span.stop by omega]

theorem Tiles.exists_span_iff (j : Nat) :
    (∃ span ∈ spans, span.start ≤ j ∧ j < span.stop) ↔ first ≤ j ∧ j < last := by
  have less := tiles.le
  have same : (∃ span ∈ spans, j ∈ List.range' span.start (span.stop - span.start)) ↔
    j ∈ List.range' first (last - first) := by
    rw [← tiles.covers, mem_flatMap]
  simp only [mem_range'_1] at same
  rw [show first + (last - first) = last by omega] at same
  rw [← same]
  exact exists_congr fun span => and_congr_right fun _ => by omega

/-- What the chunks of a span are given. -/
def spanSlots (restart : Bool) (span : Span) : Slots :=
  (List.range (span.stop - span.start)).map fun i => some (span.nodeId,
    ((if restart then 0 else span.start) + i) % 2 ^ 16)

theorem Tiles.length_slots {restart : Bool} : (spans.flatMap (spanSlots restart)).length = last - first := by
  have covers := congrArg List.length tiles.covers
  simpa [length_flatMap, spanSlots, Function.comp_def] using covers

theorem Tiles.slot (restart : Bool) {span : Span} (inside : span ∈ spans) {j : Nat}
    (after : span.start ≤ j) (before : j < span.stop) :
    first ≤ j ∧ (spans.flatMap (spanSlots restart))[j - first]? =
      some (some (span.nodeId, (if restart then j - span.start else j) % 2 ^ 16)) := by
  induction spans generalizing first with
  | nil => cases inside
  | cons head rest ih =>
    obtain ⟨start, positive, later⟩ := tiles
    have size : (spanSlots restart head).length = head.stop - first := by simp [spanSlots, start]
    rw [flatMap_cons]
    rcases mem_cons.mp inside with rfl | inside
    · refine ⟨by omega, ?_⟩
      rw [getElem?_append_left (by omega), spanSlots, getElem?_map, getElem?_range (by omega), ← start]
      cases restart with
      | true => simp
      | false => simp [show span.start + (j - span.start) = j by omega]
    · obtain ⟨least, slot⟩ := ih later inside
      refine ⟨by omega, ?_⟩
      rw [getElem?_append_right (by omega), size, show j - first - (head.stop - first) = j - head.stop by omega, slot]

end

/-- The spans of the recipients whose range is not empty. -/
def spansFrom (bound : Nat → Nat) : List NodeId → Nat → List Span
  | [], _ => []
  | nodeId :: rest, count =>
    if bound count = bound (count + 1) then spansFrom bound rest (count + 1)
    else ⟨nodeId, bound count, bound (count + 1)⟩ :: spansFrom bound rest (count + 1)

theorem spansFrom_tiles (mono : Monotone bound) (nodes : List NodeId) (count : Nat) :
    Tiles (spansFrom bound nodes count) (bound count) (bound (count + nodes.length)) := by
  induction nodes generalizing count with
  | nil => rfl
  | cons nodeId rest ih =>
    have later := ih (count + 1)
    rw [show count + 1 + rest.length = count + (nodeId :: rest).length by simp; omega] at later
    rw [spansFrom]
    split
    next same =>
      rw [same]
      exact later
    next differ => exact ⟨rfl, lt_of_le_of_ne (mono (Nat.le_succ count)) differ, later⟩

theorem spansFrom_sublist (bound : Nat → Nat) (nodes : List NodeId) (count : Nat) :
    ((spansFrom bound nodes count).map (·.nodeId)).Sublist nodes := by
  induction nodes generalizing count with
  | nil => exact .slnil
  | cons nodeId rest ih =>
    rw [spansFrom]
    split
    · exact (ih _).cons _
    · exact (ih _).cons_cons _

/-- The loop gives each recipient its range, and what is before and after it stays. -/
theorem assignBetween_eq (mono : Monotone bound) (restart : Bool) (nodes : List NodeId) {count : Nat}
    (ends : bound (count + nodes.length) = total) {filled : Slots} (length : filled.length = bound count)
    (spans : List Span) :
    assignBetween bound restart nodes count (bound count) (filled ++ List.replicate (total - bound count) none) spans =
      some (filled ++ (spansFrom bound nodes count).flatMap (spanSlots restart),
        spans ++ spansFrom bound nodes count) := by
  -- The chunks before `bound count` are given out, and none after them.
  induction nodes generalizing count filled spans with
  | nil =>
    have whole : total - bound count = 0 := by
      rw [← ends]
      exact Nat.sub_self _
    simp [assignBetween, spansFrom, whole]
  | cons nodeId rest ih =>
    rw [show count + (nodeId :: rest).length = count + 1 + rest.length by simp; omega] at ends
    have step : bound count ≤ bound (count + 1) := mono (Nat.le_succ count)
    have inside : bound (count + 1) ≤ total := ends ▸ mono (Nat.le_add_right ..)
    rw [assignBetween, spansFrom]
    split
    next same =>
      rw [same] at length ⊢
      exact ih ends length spans
    next differ =>
      have taken : assignRange (filled ++ List.replicate (total - bound count) none) nodeId (bound count)
          (bound (count + 1))
          (if restart then 0 else bound count) = some (filled ++ spanSlots restart
            ⟨nodeId, bound count, bound (count + 1)⟩ ++ List.replicate (total - bound (count + 1)) none) := by
        rw [assignRange, if_pos ⟨step, by simp [length]; omega⟩, take_left' length, drop_append,
          drop_eq_nil_of_le (by omega), drop_replicate, length, nil_append]
        rw [show total - bound count - (bound (count + 1) - bound count) = total - bound (count + 1) by omega]
        rfl
      have next := ih ends (show (filled ++ spanSlots restart ⟨nodeId, bound count, bound (count + 1)⟩).length =
        bound (count + 1) by simp [spanSlots, length]; omega) (spans ++ [⟨nodeId, bound count, bound (count + 1)⟩])
      rw [taken, show bound count + (bound (count + 1) - bound count) = bound (count + 1) by omega]
      refine next.trans ?_
      simp

/-- All packets are given out when the ranges of as many recipients end at equal parts. -/
theorem assignBetween_parts (n : Nat) (restart : Bool) {nodes : List NodeId} (count : nodes.length = total)
    (positive : 0 < total) :
    assignBetween (fun k => n * k / total) restart nodes 0 0 (List.replicate n none) [] =
        some ((spansFrom (fun k => n * k / total) nodes 0).flatMap (spanSlots restart),
          spansFrom (fun k => n * k / total) nodes 0) ∧
      Tiles (spansFrom (fun k => n * k / total) nodes 0) 0 n := by
  set bound := fun k => n * k / total
  have mono : Monotone bound := fun _ _ less => Nat.div_le_div_right (Nat.mul_le_mul_left n less)
  have start : bound 0 = 0 := by simp [bound]
  have ends : bound (0 + nodes.length) = n := by simp [bound, count, positive]
  have assigned := assignBetween_eq mono restart nodes ends (show ([] : Slots).length = bound 0 from start.symm) []
  have tiles := spansFrom_tiles mono nodes 0
  rw [start] at assigned tiles
  rw [ends] at tiles
  exact ⟨assigned, tiles⟩

/-- With as many packets for each node the ranges are of one length. -/
theorem spansFrom_even {n total : Nat} (positive : 0 < n) (some_ : 0 < total) (nodes : List NodeId) (count : Nat) :
    (spansFrom (fun k => n * total * k / total) nodes count).map (·.nodeId) = nodes ∧
      ∀ span ∈ spansFrom (fun k => n * total * k / total) nodes count, span.stop = span.start + n := by
  have bound (k : Nat) : n * total * k / total = n * k := by
    rw [Nat.mul_right_comm, Nat.mul_div_cancel _ some_]
  induction nodes generalizing count with
  | nil => exact ⟨rfl, fun _ inside => nomatch inside⟩
  | cons nodeId rest ih =>
    obtain ⟨nodes, sizes⟩ := ih (count + 1)
    simp only [bound] at nodes sizes ⊢
    have apart : n * count ≠ n * (count + 1) := by
      rw [Nat.mul_succ]
      omega
    rw [spansFrom, if_neg apart]
    refine ⟨by rw [map_cons, nodes], fun span inside => ?_⟩
    rcases mem_cons.mp inside with rfl | later
    · exact Nat.mul_succ n count
    · exact sizes span later

/-- The peers, from the one of the seed on. -/
theorem iterSkipSelfAndAuthor_eq {group : Group} {author : NodeId} (isValidator : group.validatorId = some author)
    (seed : Nat) : iterSkipSelfAndAuthor group author seed = group.sortedOtherPeers.rotate seed := by
  simp only [iterSkipSelfAndAuthor, isValidator, ne_eq, not_true_eq_false, if_false, reduceCtorEq]
  set peers := group.sortedOtherPeers
  have all : (List.range peers.length).map (fun i => peers[(i + seed % peers.length) % peers.length]?) =
      (peers.rotate seed).map some := by
    refine ext_getElem (by simp) fun i inside _ => ?_
    have below : i < peers.length := by simpa using inside
    rw [getElem_map, getElem_range, getElem_map, getElem_rotate, Nat.add_mod_mod,
      getElem?_eq_getElem (Nat.mod_lt _ (by omega))]
  calc (List.range peers.length).filterMap (fun i => peers[(i + seed % peers.length) % peers.length]?)
      = ((peers.rotate seed).map some).filterMap id := by rw [← all, filterMap_map, Function.id_comp]
    _ = peers.rotate seed := by rw [filterMap_map, Function.id_comp, filterMap_some]

/-! ## Delivery -/

end BuildArgs

/-- A nonempty list of distinct nodes, one node, or a nonempty group of the sender. -/
def BuildTarget.Allowed (selfId : NodeId) : BuildTarget → Prop
  | .broadcast nodes => nodes ≠ [] ∧ nodes.Nodup
  | .raptorcast _ => False
  | .pointToPoint _ => True
  | .fullNodeRaptorCast group => group.sortedOtherPeers ≠ [] ∧ group.validatorId = some selfId

/-- The ids start again for each recipient. -/
def BuildTarget.restarts : BuildTarget → Bool
  | .broadcast _ => true
  | _ => false

def BuildTarget.copies : BuildTarget → Nat
  | .broadcast nodes => nodes.length
  | _ => 1

theorem BuildTarget.copies_pos {selfId : NodeId} {target : BuildTarget} (allowed : target.Allowed selfId) :
    0 < target.copies := by
  cases target with
  | broadcast nodes => exact length_pos_iff.mpr allowed.1
  | raptorcast _ | pointToPoint _ | fullNodeRaptorCast _ => exact Nat.one_pos

namespace BuildArgs

section Arguments

variable (args : BuildArgs Sig Addr)

def payloadSize : Nat := args.segmentSize.toNat - (headerLen + chunkHeaderLen + proofSize)

def sourceSymbols : Nat := numSourceSymbols args.appMessage.length args.payloadSize

def symbols : Nat := (args.redundancy.bits.toNat * args.sourceSymbols + (2 ^ 11 - 1)) / 2 ^ 11

def addressKnown : Prop :=
  match args.buildTarget with
  | .pointToPoint dest => args.knownAddresses dest ≠ none
  | _ => True

/-- The message and its packets are countable, and there are triples for its symbols unless it is dropped. -/
structure Sendable : Prop where
  sized : args.appMessage.length < 2 ^ 32
  counted : args.symbols * args.buildTarget.copies < 2 ^ 64
  encodable : maxNumPackets < args.symbols * args.buildTarget.copies ∨ ¬ args.addressKnown ∨
    sourceSymbolsMax < args.sourceSymbols ∨ args.symbols ≤ maxTriples

def chunkIdAt (span : Span) (j : Nat) : Nat := if args.buildTarget.restarts then j - span.start else j

/-- To a list of nodes each gets its own symbols; to a group each peer gets one part at most. -/
def Recipients (spans : List Span) : Prop :=
  match args.buildTarget with
  | .broadcast nodes => spans.map (·.nodeId) = nodes ∧ ∀ span ∈ spans, span.stop = span.start + args.symbols
  | .raptorcast _ => True
  | .pointToPoint dest => spans.map (·.nodeId) = [dest]
  | .fullNodeRaptorCast group => (spans.map (·.nodeId)).Sublist (group.sortedOtherPeers.rotate args.seed)

/-- Each packet is of one recipient, and is parsed to the next symbol. -/
structure Delivered (message : Message) : Prop where
  covers : message.spans.flatMap (fun span => List.range' span.start (span.stop - span.start)) =
    List.range message.packets.length
  recipients : args.Recipients message.spans
  parses : ∀ span ∈ message.spans, ∀ j, span.start ≤ j → j < span.stop → ∃ packet payload,
    message.packets[j]? = some packet ∧ args.encodeSymbol args.payloadSize (args.chunkIdAt span j) = some payload ∧
      args.Parses ⟨args.scheme.computeHash span.nodeId, args.chunkIdAt span j, payload⟩ packet

end Arguments

variable {args : BuildArgs Sig Addr} {j : Nat}

theorem countPackets_eq (sized : args.appMessage.length < 2 ^ 32) (room : 0 < args.payloadSize) :
    args.countPackets args.appMessage.length args.payloadSize =
      if 2 ^ 64 ≤ args.symbols * args.buildTarget.copies then none
      else some (args.symbols * args.buildTarget.copies) := by
  have base : args.sourceSymbols ≤ 2 ^ 32 := by
    refine max_le (Nat.div_le_of_le_mul ?_) (by decide)
    omega
  have product : args.redundancy.bits.toNat * args.sourceSymbols ≤ 2 ^ 16 * 2 ^ 32 :=
    Nat.mul_le_mul args.redundancy.bits.toNat_lt.le base
  have scaled : args.redundancy.scale args.sourceSymbols = some args.symbols := by
    rw [Redundancy.scale, if_neg (by omega), if_neg (by omega)]
    rfl
  have few : args.symbols < 2 ^ 64 := by
    rw [symbols]
    omega
  rw [countPackets, if_neg (by omega)]
  change (args.redundancy.scale args.sourceSymbols >>= _) = _
  rw [scaled]
  unfold BuildTarget.copies
  cases args.buildTarget with
  | broadcast nodes => rfl
  | _ =>
    rw [Nat.mul_one, if_neg (by omega)]
    rfl

theorem symbols_pos (nonzero : args.redundancy.bits ≠ 0) : 0 < args.symbols := by
  have bits : 0 < args.redundancy.bits.toNat := by
    refine Nat.pos_of_ne_zero fun zero => nonzero ?_
    exact UInt16.toNat_inj.mp zero
  have base : 1 ≤ args.sourceSymbols := le_max_right _ _
  have product := Nat.mul_le_mul bits base
  rw [symbols]
  omega

/-- A recipient that can be reached gets its part. -/
theorem assign_spec (allowed : args.buildTarget.Allowed args.selfId) (known : args.addressKnown)
    (positive : 0 < args.symbols) : ∃ spans, args.assign (args.symbols * args.buildTarget.copies) =
        some (.ok (spans.flatMap (spanSlots args.buildTarget.restarts), spans)) ∧
      Tiles spans 0 (args.symbols * args.buildTarget.copies) ∧ args.Recipients spans := by
  unfold addressKnown at known
  unfold assign Recipients BuildTarget.copies BuildTarget.restarts
  cases target : args.buildTarget with
  | broadcast nodes =>
    rw [target] at allowed
    have total := length_pos_iff.mpr allowed.1
    obtain ⟨assigned, tiles⟩ := assignBetween_parts (args.symbols * nodes.length) true rfl total
    exact ⟨_, congrArg (Option.map Except.ok) assigned, tiles, spansFrom_even positive total nodes 0⟩
  | raptorcast validators =>
    rw [target] at allowed
    exact allowed.elim
  | pointToPoint dest =>
    rw [target] at known
    obtain ⟨addr, isAddr⟩ := ne_none_iff_exists'.mp known
    refine ⟨[⟨dest, 0, args.symbols * 1⟩], ?_, ⟨rfl, by simpa using positive, rfl⟩, rfl⟩
    simp [isAddr, spanSlots]
  | fullNodeRaptorCast group =>
    rw [target] at allowed
    obtain ⟨assigned, tiles⟩ := assignBetween_parts (args.symbols * 1) false
      (length_rotate group.sortedOtherPeers args.seed) (length_pos_iff.mpr allowed.1)
    simp only [iterSkipSelfAndAuthor_eq allowed.2]
    exact ⟨_, congrArg (Option.map Except.ok) assigned, tiles, spansFrom_sublist _ _ _⟩

theorem getElem?_of_forall₂ {α β : Type} {R : α → β → Prop} {l : List α} {m : List β} (related : List.Forall₂ R l m)
    {a : α} (known : l[j]? = some a) : ∃ b, m[j]? = some b ∧ R a b := by
  obtain ⟨inside, rfl⟩ := List.getElem?_eq_some_iff.mp known
  have inside' := related.length_eq ▸ inside
  exact ⟨m[j], getElem?_eq_getElem inside', related.get inside inside'⟩

variable {spans : List Span}

variable (tiles : Tiles spans 0 (args.symbols * args.buildTarget.copies))

include tiles

section

variable (recipients : args.Recipients spans)

include recipients

/-- The ids of the packets are those of the symbols that are sent. -/
theorem chunkIdAt_lt {span : Span} (inside : span ∈ spans) (after : span.start ≤ j) (before : j < span.stop) :
    args.chunkIdAt span j < args.symbols := by
  have below := (tiles.exists_span_iff j).mp ⟨span, inside, after, before⟩
  unfold Recipients at recipients
  unfold chunkIdAt BuildTarget.restarts
  unfold BuildTarget.copies at below
  cases target : args.buildTarget with
  | broadcast nodes =>
    rw [target] at recipients
    have size := recipients.2 span inside
    exact (by simp only [if_true]; omega)
  | raptorcast _ | pointToPoint _ | fullNodeRaptorCast _ =>
    rw [target] at below
    simpa using below.2

/-- Also the last of them. -/
theorem exists_last (allowed : args.buildTarget.Allowed args.selfId) (positive : 0 < args.symbols) :
    ∃ span ∈ spans, ∃ j, span.start ≤ j ∧ j < span.stop ∧ args.chunkIdAt span j = args.symbols - 1 := by
  unfold Recipients at recipients
  unfold chunkIdAt BuildTarget.restarts
  unfold BuildTarget.copies at tiles
  cases target : args.buildTarget with
  | broadcast nodes =>
    rw [target] at recipients allowed
    obtain ⟨span, inside⟩ : ∃ span, span ∈ spans := by
      refine exists_mem_of_ne_nil _ fun none => allowed.1 ?_
      rw [← recipients.1, none, map_nil]
    have size := recipients.2 span inside
    exact ⟨span, inside, span.start + (args.symbols - 1), by omega, by omega, by simp⟩
  | raptorcast _ | pointToPoint _ | fullNodeRaptorCast _ =>
    rw [target] at tiles
    obtain ⟨span, inside, after, before⟩ := (tiles.exists_span_iff (args.symbols - 1)).mpr
      (by simpa using Nat.sub_lt positive Nat.one_pos)
    exact ⟨span, inside, args.symbols - 1, after, before, by simp⟩

/-- The chunk of a packet is for the recipient of its span, with its id. -/
theorem slot_eq (few : args.symbols ≤ 2 ^ 16) {span : Span} (inside : span ∈ spans) (after : span.start ≤ j)
    (before : j < span.stop) :
    (spans.flatMap (spanSlots args.buildTarget.restarts))[j]? = some (some (span.nodeId, args.chunkIdAt span j)) := by
  have small := chunkIdAt_lt tiles recipients inside after before
  have slot := (tiles.slot args.buildTarget.restarts inside after before).2
  rw [Nat.sub_zero, ← chunkIdAt, Nat.mod_eq_of_lt (by omega)] at slot
  exact slot

end

omit tiles

/-- With triples for all symbols the packets are made, and they deliver the message. -/
theorem encode_spec (ideal : args.scheme.Ideal) (sized : args.appMessage.length < 2 ^ 32) (room : 0 < args.payloadSize)
    (tiles : Tiles spans 0 (args.symbols * args.buildTarget.copies)) (recipients : args.Recipients spans)
    (few : args.symbols ≤ maxTriples) (encoder : args.sourceSymbols ≤ sourceSymbolsMax) :
    ∃ message, args.encode args.appMessage.length args.payloadSize
        (spans.flatMap (spanSlots args.buildTarget.restarts)) spans = some (.ok message) ∧ args.Delivered message := by
  have few' : args.symbols ≤ 2 ^ 16 := le_trans few (by decide)
  set slots := spans.flatMap (spanSlots args.buildTarget.restarts) with isSlots
  have total : slots.length = args.symbols * args.buildTarget.copies := tiles.length_slots
  have each : ∀ slot ∈ slots, ∃ chunk, args.chunk args.payloadSize slot = some chunk ∧
      (args.chunk args.payloadSize slot = some chunk ∧ chunk.chunkId < 2 ^ 16 ∧ chunk.payload ≠ []) := by
    intro slot inside
    obtain ⟨j, within, isSlot⟩ := getElem_of_mem inside
    obtain ⟨span, isSpan, after, before⟩ := (tiles.exists_span_iff j).mpr ⟨Nat.zero_le j, by omega⟩
    have small := chunkIdAt_lt tiles recipients isSpan after before
    obtain rfl : slot = some (span.nodeId, args.chunkIdAt span j) := by
      have known := slot_eq tiles recipients few' isSpan after before
      rw [← isSlots, getElem?_eq_getElem within, isSlot] at known
      exact some.inj known
    have made : args.chunk args.payloadSize (some (span.nodeId, args.chunkIdAt span j)) =
        some ⟨args.scheme.computeHash span.nodeId, args.chunkIdAt span j,
          (args.symbol args.payloadSize (args.chunkIdAt span j)).1⟩ := by
      simp [chunk, encodeSymbol, lt_of_lt_of_le small few]
    refine ⟨_, made, made, by simp only; omega, ?_⟩
    rw [← length_pos_iff, (args.symbol args.payloadSize _).2]
    exact room
  -- Packets, chunks and slots correspond one to one.
  obtain ⟨chunks, encoded, related⟩ := MapM.exists_mapM _ slots each
  obtain ⟨packets, signed, parsed⟩ := signAll_spec ideal sized (Nat.lt_succ_self chunks.length) fun c inside => by
    obtain ⟨j, known⟩ := mem_iff_getElem?.mp inside
    obtain ⟨slot, -, -, wellFormed⟩ := getElem?_of_forall₂ related.flip known
    exact wellFormed
  have count : packets.length = args.symbols * args.buildTarget.copies := by
    rw [← parsed.length_eq, ← related.length_eq, total]
  refine ⟨⟨packets, spans⟩, ?_, ?_, recipients, fun span inside j after before => ?_⟩
  · rw [encode, if_neg (by rw [← sourceSymbols]; omega)]
    simp [encoded, signed]
  · rw [tiles.covers, count, Nat.sub_zero, range_eq_range']
  · obtain ⟨chunk, isChunk, made, -⟩ := getElem?_of_forall₂ related (slot_eq tiles recipients few' inside after before)
    obtain ⟨packet, isPacket, parses⟩ := getElem?_of_forall₂ parsed isChunk
    simp only [BuildArgs.chunk, bind_eq_bind, bind_some, bind_eq_some_iff] at made
    obtain ⟨payload, isPayload, made⟩ := made
    obtain rfl := some.inj made
    exact ⟨packet, payload, isPacket, isPayload, parses⟩

/-- Without a triple for some symbol there is a panic. -/
theorem encode_eq_none (tiles : Tiles spans 0 (args.symbols * args.buildTarget.copies))
    (recipients : args.Recipients spans)
    (allowed : args.buildTarget.Allowed args.selfId) (many : maxTriples < args.symbols) (few : args.symbols ≤ 2 ^ 16)
    (encoder : args.sourceSymbols ≤ sourceSymbolsMax) : args.encode args.appMessage.length args.payloadSize
      (spans.flatMap (spanSlots args.buildTarget.restarts)) spans = none := by
  obtain ⟨span, inside, j, after, before, last⟩ := exists_last tiles recipients allowed (by omega)
  have slot := slot_eq tiles recipients few inside after before
  rw [last] at slot
  have fails : args.chunk args.payloadSize (some (span.nodeId, args.symbols - 1)) = none := by
    simp [chunk, encodeSymbol, show ¬ args.symbols - 1 < maxTriples by omega]
  rw [encode, if_neg (by rw [← sourceSymbols]; omega), MapM.mapM_eq_none (mem_of_getElem? slot) fails]
  rfl

/-- What is left of `build_messages` for a message whose length is in range. -/
theorem buildMessages_eq (nonempty : args.appMessage ≠ []) (nonzero : args.redundancy.bits ≠ 0)
    (room : headerLen + chunkHeaderLen + proofSize < args.segmentSize.toNat) (sized : args.appMessage.length < 2 ^ 32) :
    let n := args.symbols * args.buildTarget.copies
    (2 ^ 64 ≤ n → args.buildMessages = none) ∧
    (maxNumPackets < n → n < 2 ^ 64 → args.buildMessages = some (.error .tooManyPackets)) ∧
    (n ≤ maxNumPackets → ∀ dropped, args.assign n = some (.error dropped) → args.buildMessages = some
      (.error dropped)) ∧
    (n ≤ maxNumPackets → ∀ slots spans, args.assign n = some (.ok (slots, spans)) →
      args.buildMessages = args.encode args.appMessage.length args.payloadSize slots spans) := by
  intro n
  have size : args.dataSize = some args.payloadSize := by
    rw [dataSize, if_neg (by omega), if_neg (by omega), payloadSize, Nat.sub_sub]
  have count := countPackets_eq sized (show 0 < args.payloadSize by rw [payloadSize]; omega)
  rw [buildMessages, if_neg (by omega), buildMessagesWithLength, if_neg (by simpa using nonempty), if_neg nonzero, size]
  simp only [bind_eq_bind, bind_some, count]
  refine ⟨fun overflow => ?_, fun many small => ?_, fun few dropped assigned => ?_, fun few slots spans assigned => ?_⟩
  · rw [if_pos overflow, bind_none]
  · rw [if_neg (by omega), bind_some, if_pos many]
  all_goals
    have small : ¬ 2 ^ 64 ≤ n := by
      rw [maxNumPackets] at few
      omega
    rw [if_neg small, bind_some, if_neg (by omega), assigned, bind_some]

theorem assign_of_unknown (unknown : ¬ args.addressKnown) (n : Nat) :
    args.assign n = some (.error .addressUnknown) := by
  unfold addressKnown at unknown
  unfold assign
  cases target : args.buildTarget with
  | pointToPoint dest =>
    rw [target] at unknown
    simp [not_not.mp unknown]
  | broadcast _ | raptorcast _ | fullNodeRaptorCast _ =>
    rw [target] at unknown
    exact absurd trivial unknown

/-- A message that is not dropped, with more symbols than triples, panics. -/
theorem buildMessages_of_many (nonempty : args.appMessage ≠ []) (nonzero : args.redundancy.bits ≠ 0)
    (room : headerLen + chunkHeaderLen + proofSize < args.segmentSize.toNat) (sized : args.appMessage.length < 2 ^ 32)
    (allowed : args.buildTarget.Allowed args.selfId) (known : args.addressKnown)
    (fits : args.symbols * args.buildTarget.copies ≤ maxNumPackets) (encoder : args.sourceSymbols ≤ sourceSymbolsMax)
    (many : maxTriples < args.symbols) : args.buildMessages = none := by
  obtain ⟨spans, assigned, tiles, recipients⟩ := assign_spec allowed known (symbols_pos nonzero)
  have below : args.symbols ≤ 2 ^ 16 := by
    refine le_trans ?_ (le_trans fits (by decide))
    exact Nat.le_mul_of_pos_right _ (BuildTarget.copies_pos allowed)
  rw [(buildMessages_eq nonempty nonzero room sized).2.2.2 fits _ _ assigned]
  exact encode_eq_none tiles recipients allowed many below encoder

end BuildArgs

section Examples

def signedName : Scheme NodeId where
  hash _ := ⟨List.replicate 32 0, by simp⟩
  pubkeyBytes id := [id]
  sign id _ := id
  serialize id := id :: List.replicate 64 0
  deserialize bytes := bytes.head?
  recoverPubkey id _ := some id

theorem signedName_ideal : signedName.Ideal := ⟨fun _ => by simp [signedName, signatureSize], fun _ => rfl,
    fun _ _ => rfl⟩

def sending (appMessage : Bytes) (redundancy : UInt16) (buildTarget : BuildTarget) : BuildArgs NodeId NodeId where
  scheme := signedName
  selfId := 1
  segmentSize := 1452
  appMessage := appMessage
  redundancy := ⟨redundancy⟩
  epochNo := 5
  unixTsMs := 5
  buildTarget := buildTarget
  knownAddresses := some
  seed := 0
  shuffle := id
  portion n running total := n * running / total
  symbol size _ := ⟨List.replicate size 0, by simp⟩

end Examples

end MonadBft.Packets
