import Mathlib.Algebra.BigOperators.Group.List.Basic
import Mathlib.Algebra.Order.Ring.Nat
import MonadBft.Lib.HeapTree
import MonadBft.Lib.MapM
import MonadBft.Lib.SortedMap
import MonadBft.Types

/-! # Aggregation of BLS signatures

`monad-bls`: a collection of signatures is created from a tree of partial aggregates. Where the aggregate of all
signatures does not verify, the tree is searched for the leaves that are to blame. Signatures and keys are elements of
additive monoids and `fastVerify` is the check of an aggregate against an aggregated key, for one message. A panic is
`none`.
-/

namespace MonadBft.Bls

open HeapTree SortedMap List

def maxSignersLen : Nat := 1024 * 16

structure BlsSignatureCollection (S : Type) where
  /-- One bit for each validator, in the order of the mapping. -/
  signers : List Bool
  sig : S

inductive SignatureCollectionError (S : Type) where
  | nodeIdNotInMapping (nonValidator : List (NodeId × S))
  | conflictingSignatures (nodeId : NodeId) (first second : S)
  | invalidSignaturesCreate (invalid : List (NodeId × S))
  | invalidSignaturesVerify

section Model

variable {S P : Type} [AddCommMonoid S] [DecidableEq S] [AddCommMonoid P] (fastVerify : S → P → Bool)
  (validatorMapping : SortedMap NodeId P)

namespace BlsSignatureCollection

/-- No signer, and the point at infinity. -/
def withCapacity (n : Nat) : BlsSignatureCollection S := ⟨List.replicate n false, 0⟩

def numSignatures (c : BlsSignatureCollection S) : Nat := c.signers.count true

def verify (c : BlsSignatureCollection S) : Except (SignatureCollectionError S) (List NodeId) :=
  if c.signers.length ≠ validatorMapping.entries.length then .error .invalidSignaturesVerify
  else if maxSignersLen < c.signers.length then .error .invalidSignaturesVerify
  else
    let marked := ((c.signers.zip validatorMapping.entries).filter (·.1)).map (·.2)
    let aggpk := (marked.map (·.2)).sum
    let signers := marked.map (·.1)
    if signers = [] ∧ c.sig = 0 then .ok signers
    else if fastVerify c.sig aggpk then .ok signers
    else .error .invalidSignaturesVerify

end BlsSignatureCollection

/-- The signers of the two nodes have to be disjoint. -/
def mergeNodes (n1 n2 : BlsSignatureCollection S) : Option (BlsSignatureCollection S) :=
  if n1.signers.length ≠ n2.signers.length then none
  else
    let cert : BlsSignatureCollection S := ⟨List.zipWith (· || ·) n1.signers n2.signers, n1.sig + n2.sig⟩
    if n1.numSignatures + n2.numSignatures ≠ cert.numSignatures then none else some cert

/-! ## The tree -/

structure AggregationTree (S : Type) where
  nodes : List (BlsSignatureCollection S)

namespace AggregationTree

def validatorIndex (nodeId : NodeId) : Option Nat := validatorMapping.entries.findIdx? fun e => e.1 = nodeId

def leaf (entry : NodeId × S) : Option (BlsSignatureCollection S) := do
  let idx ← validatorIndex validatorMapping entry.1
  some ⟨(List.replicate validatorMapping.entries.length false).set idx true, 0 + entry.2⟩

def new (sigs : List (NodeId × S)) : Option (AggregationTree S) := do
  let empty := BlsSignatureCollection.withCapacity validatorMapping.entries.length
  if sigs = [] then some ⟨[empty]⟩
  else
    let leaves ← sigs.mapM (leaf validatorMapping)
    let nodes ← fill mergeNodes (sigs.length - 1) (List.replicate (sigs.length - 1) empty ++ leaves)
    some ⟨nodes⟩

/-- The search for invalid signatures: a node that does not verify is to blame if it is a leaf, and is replaced by its
children otherwise. -/
def search (tree : AggregationTree S) : Nat → List Nat → List (NodeId × S) → Option (List (NodeId × S))
  | 0, _, _ => none
  | _ + 1, [], invalidSig => some invalidSig
  | fuel + 1, certIdx :: unverified, invalidSig => do
    let cert ← tree.nodes[certIdx]?
    match cert.verify fastVerify validatorMapping with
    | .ok _ => search tree fuel unverified invalidSig
    | .error _ =>
      if tree.nodes.length ≤ 2 * certIdx + 1 then
        let signerIdx ← cert.signers.findIdx? id
        let signer ← validatorMapping.entries[signerIdx]?
        search tree fuel unverified (invalidSig ++ [(signer.1, cert.sig)])
      else search tree fuel (unverified ++ [certIdx * 2 + 1, certIdx * 2 + 2]) invalidSig

/-- Every node is looked at once at most. -/
def verify (tree : AggregationTree S) : Option (Except (List (NodeId × S)) (BlsSignatureCollection S)) := do
  let invalidSig ← tree.search fastVerify validatorMapping (tree.nodes.length + 1) [0] []
  if invalidSig = [] then
    let root ← tree.nodes[0]?
    some (.ok root)
  else some (.error invalidSig)

end AggregationTree

/-! ## Collections -/

namespace BlsSignatureCollection

/-- The loop over the signatures: the map and the signatures of other nodes. -/
def collect : List (NodeId × S) → SortedMap NodeId S → List (NodeId × S) →
    Except (SignatureCollectionError S) (SortedMap NodeId S × List (NodeId × S))
  | [], sigsMap, nonValidator => .ok (sigsMap, nonValidator)
  | (nodeId, sig) :: rest, sigsMap, nonValidator =>
    let nonValidator := if validatorMapping.contains nodeId then nonValidator else nonValidator ++ [(nodeId, sig)]
    match sigsMap.get? nodeId with
    | none => collect rest (sigsMap.insert nodeId sig) nonValidator
    | some entry =>
      if entry ≠ sig then .error (.conflictingSignatures nodeId entry sig) else collect rest sigsMap nonValidator

/-- `order` is the order in which the hash map is iterated. -/
def new (order : List (NodeId × S) → List (NodeId × S)) (sigs : List (NodeId × S)) :
    Option (Except (SignatureCollectionError S) (BlsSignatureCollection S)) :=
  match collect validatorMapping sigs .empty [] with
  | .error error => some (.error error)
  | .ok (sigsMap, nonValidator) =>
    if nonValidator ≠ [] then some (.error (.nodeIdNotInMapping nonValidator))
    else do
      let tree ← AggregationTree.new validatorMapping (order sigsMap.entries)
      match ← tree.verify fastVerify validatorMapping with
      | .ok c => some (.ok c)
      | .error invalidSig => some (.error (.invalidSignaturesCreate invalidSig))

end BlsSignatureCollection

end Model

/-! ## Bits -/

section Bits

variable {S P : Type} {validatorMapping : SortedMap NodeId P}

def signerBits (validatorMapping : SortedMap NodeId P) (nodes : List NodeId) : List Bool :=
  validatorMapping.entries.map fun e => e.1 ∈ nodes

variable {entries : List (NodeId × P)}

theorem set_eq_map (distinct : (entries.map Prod.fst).Nodup) {node : NodeId} {idx : Nat}
    (found : entries.findIdx? (fun e => e.1 = node) = some idx) :
    (List.replicate entries.length false).set idx true = entries.map fun e => decide (e.1 ∈ [node]) := by
  induction entries generalizing idx with
  | nil => simp at found
  | cons e rest ih =>
    obtain ⟨first, distinct⟩ := nodup_cons.mp distinct
    rw [findIdx?_cons] at found
    by_cases same : e.1 = node
    · have others : ∀ e' ∈ rest, e'.1 ≠ node := by
        rintro e' mem rfl
        exact first (same ▸ mem_map_of_mem mem)
      obtain rfl : 0 = idx := by simpa [same] using found
      simp only [length_cons, replicate_succ, set_cons_zero, map_cons, mem_singleton, same,
        decide_true, List.cons.injEq, true_and]
      exact (eq_replicate_iff.mpr ⟨by simp, by simpa using others⟩).symm
    · obtain ⟨idx', later, rfl⟩ : ∃ idx', rest.findIdx? (fun e => e.1 = node) = some idx' ∧ idx' + 1 = idx := by
        simpa [same] using found
      have tail := ih distinct later
      simp only [mem_singleton] at tail ⊢
      simp [replicate_succ, same, tail]

theorem zip_filter_map (p : NodeId × P → Bool) :
    (((entries.map p).zip entries).filter (·.1)).map (·.2) = entries.filter p := by
  induction entries with
  | nil => rfl
  | cons e rest ih =>
    by_cases keep : p e = true
    · simp [keep, ih]
    · simp [keep, ih]

theorem count_or {p q : NodeId × P → Bool} (disjoint : ∀ e ∈ entries, ¬(p e ∧ q e)) :
    (entries.map p).count true + (entries.map q).count true = (entries.map fun e => p e || q e).count true := by
  induction entries with
  | nil => rfl
  | cons e rest ih =>
    have tail := ih fun e' mem => disjoint e' (.tail _ mem)
    have head := disjoint e (.head _)
    cases first : p e <;> cases second : q e <;> simp_all <;> omega

end Bits

/-! ## Aggregates -/

section Aggregates

variable {S P : Type} [AddCommMonoid S] [DecidableEq S] [AddCommMonoid P] {fastVerify : S → P → Bool}
  {validatorMapping : SortedMap NodeId P} {leaves leaves' : List (NodeId × S)} {c : BlsSignatureCollection S}

def keyOf (validatorMapping : SortedMap NodeId P) (node : NodeId) : P := (validatorMapping.get? node).getD 0

/-- One signature each of validators. -/
structure Voters (validatorMapping : SortedMap NodeId P) (leaves : List (NodeId × S)) : Prop where
  distinct : (leaves.map Prod.fst).Nodup
  known : ∀ e ∈ leaves, validatorMapping.contains e.1 = true

/-- The sum of the signatures is valid for the sum of the keys. -/
def Verifies (fastVerify : S → P → Bool) (validatorMapping : SortedMap NodeId P) (leaves : List (NodeId × S)) : Prop :=
  fastVerify (leaves.map Prod.snd).sum (leaves.map fun e => keyOf validatorMapping e.1).sum = true

/-- The collection has the signers of the leaves and the sum of their signatures. -/
structure Aggregates (validatorMapping : SortedMap NodeId P) (c : BlsSignatureCollection S)
    (leaves : List (NodeId × S)) : Prop where
  signers : c.signers = signerBits validatorMapping (leaves.map Prod.fst)
  sig : c.sig = (leaves.map Prod.snd).sum

omit [AddCommMonoid S] [DecidableEq S] [AddCommMonoid P] in
theorem Voters.of_subperm (voters : Voters validatorMapping leaves) (sub : leaves'.Subperm leaves) :
    Voters validatorMapping leaves' := by
  obtain ⟨middle, perm, sublist⟩ := sub
  refine ⟨?_, fun e mem => voters.known e (sublist.subset (perm.mem_iff.mpr mem))⟩
  exact ((perm.map Prod.fst).nodup_iff).mp (voters.distinct.sublist (sublist.map Prod.fst))

omit [AddCommMonoid S] [DecidableEq S] [AddCommMonoid P] in
theorem Voters.perm (voters : Voters validatorMapping leaves) (perm : leaves'.Perm leaves) :
    Voters validatorMapping leaves' := voters.of_subperm perm.subperm

omit [DecidableEq S] in
theorem Verifies.perm (verifies : Verifies fastVerify validatorMapping leaves) (perm : leaves'.Perm leaves) :
    Verifies fastVerify validatorMapping leaves' := by
  rw [Verifies, (perm.map _).sum_eq, (perm.map _).sum_eq]
  exact verifies

omit [DecidableEq S] [AddCommMonoid P] in
theorem Aggregates.perm (aggregates : Aggregates validatorMapping c leaves) (perm : leaves'.Perm leaves) :
    Aggregates validatorMapping c leaves' := by
  refine ⟨?_, aggregates.sig.trans (perm.map _).sum_eq.symm⟩
  rw [aggregates.signers, signerBits, signerBits]
  refine map_congr_left fun e _ => ?_
  rw [decide_eq_decide, (perm.map Prod.fst).mem_iff]

omit [AddCommMonoid S] [DecidableEq S] [AddCommMonoid P] in
/-- The marked entries of the mapping are the signers, each once. -/
theorem Voters.marked_perm (voters : Voters validatorMapping leaves) :
    ((validatorMapping.entries.filter fun e => e.1 ∈ leaves.map Prod.fst).map Prod.fst).Perm (leaves.map Prod.fst) := by
  have distinct : ((validatorMapping.entries.filter fun e => e.1 ∈ leaves.map Prod.fst).map Prod.fst).Nodup :=
    validatorMapping.nodup_keys.sublist (filter_sublist.map Prod.fst)
  refine (perm_ext_iff_of_nodup distinct voters.distinct).mpr fun node => ⟨fun mem => ?_, fun mem => ?_⟩
  · obtain ⟨e, kept, rfl⟩ := mem_map.mp mem
    simpa using (List.mem_filter.mp kept).2
  · obtain ⟨e, inside, rfl⟩ := mem_map.mp mem
    obtain ⟨key, entry⟩ := contains_iff.mp (voters.known e inside)
    exact mem_map.mpr ⟨(e.1, key), List.mem_filter.mpr ⟨entry, by simpa using mem⟩, rfl⟩

omit [AddCommMonoid S] [DecidableEq S] in
theorem Voters.sum_marked (voters : Voters validatorMapping leaves) :
    ((validatorMapping.entries.filter fun e => e.1 ∈ leaves.map Prod.fst).map Prod.snd).sum =
      (leaves.map fun e => keyOf validatorMapping e.1).sum := by
  have keys : (validatorMapping.entries.filter fun e => e.1 ∈ leaves.map Prod.fst).map Prod.snd =
      ((validatorMapping.entries.filter fun e => e.1 ∈ leaves.map Prod.fst).map Prod.fst).map
        (keyOf validatorMapping) := by
    rw [map_map]
    refine map_congr_left fun e kept => ?_
    have found := get?_eq_some_iff.mpr (mem_def.mpr (List.mem_filter.mp kept).1)
    rw [Function.comp_apply, keyOf, found, Option.getD_some]
  rw [keys, (voters.marked_perm.map _).sum_eq, map_map]
  rfl

variable (fastVerify) in
/-- Whether an aggregate verifies. -/
theorem Aggregates.verify_iff (aggregates : Aggregates validatorMapping c leaves)
    (voters : Voters validatorMapping leaves) (small : validatorMapping.entries.length ≤ maxSignersLen) :
    (∃ signers, c.verify fastVerify validatorMapping = .ok signers) ↔
      leaves = [] ∨ Verifies fastVerify validatorMapping leaves := by
  have length : c.signers.length = validatorMapping.entries.length := by
    rw [aggregates.signers, signerBits, length_map]
  have marked : ((c.signers.zip validatorMapping.entries).filter (·.1)).map (·.2) =
      validatorMapping.entries.filter fun e => e.1 ∈ leaves.map Prod.fst := by
    rw [aggregates.signers, signerBits, zip_filter_map]
  have none : (validatorMapping.entries.filter fun e => e.1 ∈ leaves.map Prod.fst).map (·.1) = [] ↔ leaves = [] := by
    rw [← length_eq_zero_iff, voters.marked_perm.length_eq, length_map, length_eq_zero_iff]
  have total : ((validatorMapping.entries.filter fun e => e.1 ∈ leaves.map Prod.fst).map (·.2)).sum =
      (leaves.map fun e => keyOf validatorMapping e.1).sum := voters.sum_marked
  rw [BlsSignatureCollection.verify, if_neg (not_not.mpr length), if_neg (by omega), marked]
  dsimp only
  rw [total, aggregates.sig]
  by_cases empty : leaves = []
  · subst empty
    simp
  · rw [if_neg fun both => empty (none.mp both.1), Verifies]
    split
    next verifies => simp [verifies]
    next fails => simp [fails, empty]

/-! ## Building the tree -/

variable {entry : NodeId × S}

omit [DecidableEq S] [AddCommMonoid P] in
theorem exists_leaf (known : validatorMapping.contains entry.1 = true) :
    ∃ cert, AggregationTree.leaf validatorMapping entry = some cert ∧ Aggregates validatorMapping cert [entry] := by
  obtain ⟨key, mem⟩ := contains_iff.mp known
  cases found : AggregationTree.validatorIndex validatorMapping entry.1 with
  | none =>
    rw [AggregationTree.validatorIndex, findIdx?_eq_none_iff] at found
    simpa using found _ mem
  | some idx =>
    refine ⟨_, by rw [AggregationTree.leaf, found]; rfl, ?_, by simp⟩
    exact set_eq_map validatorMapping.nodup_keys found

omit [DecidableEq S] [AddCommMonoid P] in
theorem exists_mergeNodes {a b : BlsSignatureCollection S} (first : Aggregates validatorMapping a leaves)
    (second : Aggregates validatorMapping b leaves') (voters : Voters validatorMapping (leaves ++ leaves')) :
    ∃ c, mergeNodes a b = some c ∧ Aggregates validatorMapping c (leaves ++ leaves') := by
  have disjoint : ∀ e ∈ validatorMapping.entries,
      ¬(decide (e.1 ∈ leaves.map Prod.fst) = true ∧ decide (e.1 ∈ leaves'.map Prod.fst) = true) := by
    rintro e - ⟨left, right⟩
    have distinct := voters.distinct
    rw [map_append, nodup_append] at distinct
    exact distinct.2.2 e.1 (by simpa using left) e.1 (by simpa using right) rfl
  have joined : List.zipWith (· || ·) a.signers b.signers = signerBits validatorMapping
    ((leaves ++ leaves').map Prod.fst) := by
    rw [first.signers, second.signers, signerBits, signerBits, signerBits, zipWith_map, zipWith_self]
    refine map_congr_left fun e _ => ?_
    rw [map_append, ← Bool.decide_or, decide_eq_decide, mem_append]
  have count : a.numSignatures + b.numSignatures = (List.zipWith (· || ·) a.signers b.signers).count true := by
    rw [BlsSignatureCollection.numSignatures, BlsSignatureCollection.numSignatures, first.signers, second.signers,
      signerBits, signerBits, zipWith_map, zipWith_self, count_or disjoint]
  refine ⟨⟨List.zipWith (· || ·) a.signers b.signers, a.sig + b.sig⟩, ?_, joined, ?_⟩
  · have length : a.signers.length = b.signers.length := by
      rw [first.signers, second.signers, signerBits, signerBits, length_map, length_map]
    rw [mergeNodes, if_neg (not_not.mpr length)]
    exact if_neg (not_not.mpr count)
  · rw [first.sig, second.sig, map_append, sum_append]

omit [DecidableEq S] [AddCommMonoid P] in
/-- Every node aggregates the leaves below it. -/
theorem exists_tree {sigs : List (NodeId × S)} (voters : Voters validatorMapping sigs) :
    ∃ tree, AggregationTree.new validatorMapping sigs = some tree ∧ tree.nodes.length = 2 * sigs.length - 1 +
      (1 - sigs.length) ∧ ∀ i node, tree.nodes[i]? = some node → Aggregates validatorMapping node (below sigs i) := by
  by_cases empty : sigs = []
  · -- Without signatures the tree is one empty collection, which is not a leaf.
    subst empty
    refine ⟨⟨[.withCapacity validatorMapping.entries.length]⟩, rfl, rfl, fun i node found => ?_⟩
    obtain rfl : i = 0 := by
      have bound := (List.getElem?_eq_some_iff.mp found).1
      simpa using bound
    obtain rfl := Option.some.inj found
    refine ⟨?_, by simp [below, BlsSignatureCollection.withCapacity]⟩
    simp [below, BlsSignatureCollection.withCapacity, signerBits, map_const']
  · have positive := length_pos_iff.mpr empty
    obtain ⟨certs, found, all⟩ := MapM.exists_mapM (fun e cert => Aggregates validatorMapping cert [e]) sigs
      fun e mem => exists_leaf (voters.known e mem)
    have count := all.length_eq
    have start : (List.replicate (sigs.length - 1)
        (BlsSignatureCollection.withCapacity validatorMapping.entries.length) ++ certs).length + 1 =
          2 * sigs.length := by
      rw [length_append, length_replicate]
      omega
    obtain ⟨nodes, run, length, holds⟩ := exists_fill
      (fun a b l r first second sub => exists_mergeNodes first second (voters.of_subperm sub)) start
      (show sigs.length - 1 < sigs.length by omega) fun i node after isNode => by
        rw [List.getElem?_append_right (by simpa using after), List.length_replicate] at isNode
        have bound := (List.getElem?_eq_some_iff.mp isNode).1
        rw [below_leaf (by omega), show i + 1 - sigs.length = i - (sigs.length - 1) by omega,
          getElem?_eq_getElem (by omega)]
        rw [← (List.getElem?_eq_some_iff.mp isNode).2]
        exact all.get _ bound
    have total : nodes.length = 2 * sigs.length - 1 + (1 - sigs.length) := by omega
    refine ⟨⟨nodes⟩, ?_, total, holds⟩
    simp [AggregationTree.new, empty, found, run]

/-! ## Searching the tree -/

/-- What the search leaves: the signatures that it blames are invalid each, and the others are valid together. -/
structure Isolated (fastVerify : S → P → Bool) (validatorMapping : SortedMap NodeId P)
    (sigs passed invalid : List (NodeId × S)) : Prop where
  perm : (passed ++ invalid).Perm sigs
  passed : passed = [] ∨ Verifies fastVerify validatorMapping passed
  invalid : ∀ e ∈ invalid, fastVerify e.2 (keyOf validatorMapping e.1) = false

variable {tree : AggregationTree S} {sigs : List (NodeId × S)}

omit [DecidableEq S] in
/-- The signer that is read off a leaf. -/
theorem Aggregates.signer (aggregates : Aggregates validatorMapping c [entry])
    (known : validatorMapping.contains entry.1 = true) :
    ∃ idx signer, c.signers.findIdx? id = some idx ∧ validatorMapping.entries[idx]? = some signer ∧
      (signer.1, c.sig) = entry := by
  obtain ⟨key, mem⟩ := contains_iff.mp known
  rw [aggregates.signers, aggregates.sig, signerBits, findIdx?_map]
  cases found : validatorMapping.entries.findIdx? (id ∘ fun e => decide (e.1 ∈ [entry].map Prod.fst)) with
  | none =>
    rw [findIdx?_eq_none_iff] at found
    simpa using found _ mem
  | some idx =>
    obtain ⟨inside, isSigner, -⟩ := findIdx?_eq_some_iff_getElem.mp found
    refine ⟨idx, _, rfl, getElem?_eq_getElem inside, ?_⟩
    exact Prod.ext (by simpa using isSigner) (by simp)

section

variable (adds : ∀ s s' p p', fastVerify s p = true → fastVerify s' p' = true → fastVerify (s + s') (p + p') = true)

include adds

/-- One step of the search replaces a node by its children, or moves the leaves below it to those that passed or to
those that are invalid. -/
theorem exists_search
    (small : validatorMapping.entries.length ≤ maxSignersLen) (voters : Voters validatorMapping sigs)
    (length : tree.nodes.length + 1 = 2 * sigs.length)
    (nodes : ∀ i node, tree.nodes[i]? = some node → Aggregates validatorMapping node (below sigs i))
    {fuel : Nat} {queue : List Nat} {passed invalid : List (NodeId × S)} (inside : ∀ i ∈ queue, i < tree.nodes.length)
    (enough : (queue.map fun i => 2 * (below sigs i).length - 1).sum < fuel)
    (perm : (passed ++ queue.flatMap (below sigs) ++ invalid).Perm sigs)
    (passes : passed = [] ∨ Verifies fastVerify validatorMapping passed)
    (blamed : ∀ e ∈ invalid, fastVerify e.2 (keyOf validatorMapping e.1) = false) :
    ∃ passed' invalid', tree.search fastVerify validatorMapping fuel queue invalid = some invalid' ∧
      Isolated fastVerify validatorMapping sigs passed' invalid' := by
  -- Along the search, what passed, what is below the queue and what is blamed make up the signatures. Fuel is counted
  -- in nodes: a node with `k` leaves below it stands for the `2 * k - 1` nodes of its subtree.
  induction fuel generalizing queue passed invalid with
  | zero => omega
  | succ fuel ih =>
    cases queue with
    | nil => exact ⟨passed, invalid, rfl, by simpa using perm, passes, blamed⟩
    | cons i queue =>
      have bound := inside i (.head _)
      have found := getElem?_eq_getElem bound
      have aggregates := nodes i _ found
      have within : i + 1 < 2 * sigs.length := by omega
      have sub := below_subperm within
      have verify_iff := aggregates.verify_iff fastVerify (voters.of_subperm sub) small
      have nonempty := below_ne_nil within
      have positive := length_pos_iff.mpr nonempty
      have later : ∀ j ∈ queue, j < tree.nodes.length := fun j mem => inside j (.tail _ mem)
      rw [map_cons, sum_cons] at enough
      rw [flatMap_cons] at perm
      rw [AggregationTree.search, found]
      dsimp only [Option.bind_eq_bind, Option.bind_some]
      split
      next signers verified =>
        have here := (verify_iff.mp ⟨signers, verified⟩).resolve_left nonempty
        refine ih later (by omega) (show (passed ++ below sigs i ++ _ ++ _).Perm sigs by simpa using perm)
          (.inr ?_) blamed
        obtain rfl | before := passes
        · exact here
        · rw [Verifies, map_append, map_append, sum_append, sum_append]
          exact adds _ _ _ _ before here
      next error failed =>
        have fails : ¬Verifies fastVerify validatorMapping (below sigs i) := fun verifies => by
          obtain ⟨signers, verified⟩ := verify_iff.mpr (.inr verifies)
          cases failed.symm.trans verified
        split
        next outer =>
          obtain ⟨entry, single⟩ := exists_below_leaf (show sigs.length ≤ i + 1 by omega) within
          rw [single] at aggregates fails perm sub
          have known := (voters.of_subperm sub).known entry (by simp)
          obtain ⟨idx, signer, isIdx, isSigner, same⟩ := aggregates.signer known
          simp only [isIdx, isSigner, Option.bind_some, same]
          refine ih later (by omega) ?_ passes fun e mem => ?_
          · refine List.Perm.trans ?_ perm
            simp only [append_assoc, singleton_append]
            rw [← append_assoc _ invalid]
            exact (perm_append_singleton _ _).append_left _
          · obtain old | new := mem_append.mp mem
            · exact blamed e old
            · obtain rfl := mem_singleton.mp new
              simpa [Verifies] using fails
        next inner =>
          have children := below_inner (show i + 1 < sigs.length by omega)
          have left := length_pos_iff.mpr (below_ne_nil (show 2 * i + 1 + 1 < 2 * sigs.length by omega))
          have right := length_pos_iff.mpr (below_ne_nil (show 2 * i + 2 + 1 < 2 * sigs.length by omega))
          rw [Nat.mul_comm i 2]
          refine ih (fun j mem => ?_) ?_ ?_ passes blamed
          · obtain old | new := mem_append.mp mem
            · exact later j old
            · simp only [mem_cons, not_mem_nil, or_false] at new
              omega
          · rw [children, length_append] at enough
            simp only [map_append, map_cons, map_nil, sum_append, sum_cons, sum_nil]
            omega
          · refine List.Perm.trans ?_ perm
            rw [children]
            simp only [flatMap_append, flatMap_cons, flatMap_nil, append_nil]
            refine List.Perm.append_right _ (List.Perm.append_left _ ?_)
            exact perm_append_comm

/-! ## Creating a collection -/

omit [AddCommMonoid S] [AddCommMonoid P] in
omit adds in
/-- The map of distinct validators' signatures holds the signatures. -/
theorem exists_collect {sigsMap : SortedMap NodeId S} (voters : Voters validatorMapping sigs)
    (fresh : ∀ e ∈ sigs, sigsMap.get? e.1 = none) :
    ∃ sigsMap', BlsSignatureCollection.collect validatorMapping sigs sigsMap [] = .ok (sigsMap', []) ∧
      ∀ e, e ∈ sigsMap' ↔ e ∈ sigsMap ∨ e ∈ sigs := by
  induction sigs generalizing sigsMap with
  | nil => exact ⟨sigsMap, rfl, by simp⟩
  | cons e rest ih =>
    obtain ⟨first, distinct⟩ := nodup_cons.mp voters.distinct
    have later : ∀ e' ∈ rest, (sigsMap.insert e.1 e.2).get? e'.1 = none := fun e' mem => by
      have other : e'.1 ≠ e.1 := fun same => first (same ▸ mem_map_of_mem mem)
      rw [get?_insert_ne other]
      exact fresh e' (.tail _ mem)
    obtain ⟨sigsMap', collected, members⟩ := ih ⟨distinct, fun e' mem => voters.known e' (.tail _ mem)⟩ later
    have absent := fresh e (.head _)
    refine ⟨sigsMap', ?_, fun e' => ?_⟩
    · simp [BlsSignatureCollection.collect, voters.known e (.head _), absent, collected]
    · have missing : e' ∈ sigsMap → e'.1 ≠ e.1 := fun mem same => by
        have present := get?_eq_some_iff.mpr mem
        rw [same, absent] at present
        cases present
      rw [members, mem_insert, mem_cons]
      constructor
      · rintro ((rfl | ⟨old, -⟩) | new)
        · exact .inr (.inl rfl)
        · exact .inl old
        · exact .inr (.inr new)
      · rintro (old | rfl | new)
        · exact .inl (.inr ⟨old, missing old⟩)
        · exact .inl (.inl rfl)
        · exact .inr new

/-- Creating a collection from one signature each of validators: the search isolates invalid signatures, and there are
none if the signatures are valid together. -/
theorem exists_new
    (small : validatorMapping.entries.length ≤ maxSignersLen) {order : List (NodeId × S) → List (NodeId × S)}
    (reorders : ∀ l, (order l).Perm l) (voters : Voters validatorMapping sigs) :
    ∃ root passed invalid, Aggregates validatorMapping root sigs ∧
      Isolated fastVerify validatorMapping sigs passed invalid ∧
      (sigs = [] ∨ Verifies fastVerify validatorMapping sigs → invalid = []) ∧
      BlsSignatureCollection.new fastVerify validatorMapping order sigs =
        some (if invalid = [] then .ok root else .error (.invalidSignaturesCreate invalid)) := by
  obtain ⟨sigsMap, collected, members⟩ := exists_collect voters (show ∀ e ∈ sigs, empty.get? e.1 = none by simp)
  have perm : (order sigsMap.entries).Perm sigs := by
    refine (reorders _).trans ((perm_ext_iff_of_nodup (.of_map _ sigsMap.nodup_keys)
      (.of_map _ voters.distinct)).mpr ?_)
    intro e
    rw [← mem_def]
    simpa using members e
  obtain ⟨tree, built, length, nodes⟩ := exists_tree (voters.perm perm)
  have rootPerm := (below_root_perm (order sigsMap.entries)).trans perm
  have found := getElem?_eq_getElem (show 0 < tree.nodes.length by omega)
  have root := (nodes 0 _ found).perm rootPerm.symm
  have verify_iff := root.verify_iff fastVerify voters small
  have search : ∃ passed invalid, tree.search fastVerify validatorMapping (tree.nodes.length + 1) [0]
      [] = some invalid ∧ Isolated fastVerify validatorMapping sigs passed invalid ∧
      (sigs = [] ∨ Verifies fastVerify validatorMapping sigs → invalid = []) := by
    by_cases verifies : sigs = [] ∨ Verifies fastVerify validatorMapping sigs
    · obtain ⟨signers, verified⟩ := verify_iff.mpr verifies
      refine ⟨sigs, [], ?_, ⟨by simp, verifies, by simp⟩, fun _ => rfl⟩
      obtain ⟨n, isN⟩ := Nat.exists_eq_add_of_lt (show 0 < tree.nodes.length by omega)
      rw [isN]
      simp [AggregationTree.search, found, verified]
    · have size := perm.length_eq
      have positive := length_pos_iff.mpr fun empty => verifies (.inl empty)
      have inside : ∀ i ∈ [0], i < tree.nodes.length := by
        simp only [mem_singleton, forall_eq]
        omega
      have enough : ([0].map fun i => 2 * (below (order sigsMap.entries) i).length - 1).sum <
        tree.nodes.length + 1 := by
        simp only [map_cons, map_nil, sum_singleton, rootPerm.length_eq]
        omega
      have all : ([] ++ [0].flatMap (below (order sigsMap.entries)) ++ []).Perm (order sigsMap.entries) := by
        simpa using below_root_perm (order sigsMap.entries)
      obtain ⟨passed, invalid, searched, isolated⟩ := exists_search adds small (voters.perm perm)
        (by omega) nodes inside enough all (.inl rfl) (by simp)
      exact ⟨passed, invalid, searched, ⟨isolated.perm.trans perm, isolated.passed, isolated.invalid⟩,
        fun h => absurd h verifies⟩
  obtain ⟨passed, invalid, searched, isolated, none⟩ := search
  refine ⟨_, passed, invalid, root, isolated, none, ?_⟩
  rw [BlsSignatureCollection.new, collected]
  dsimp only
  rw [if_neg (not_not.mpr rfl), built]
  by_cases empty : invalid = []
  · simp [AggregationTree.verify, searched, empty, found]
  · simp [AggregationTree.verify, searched, empty]

end

/-- Creating a collection isolates bad signatures: it returns a collection of exactly the signers, which verifies, or it
returns some of the signatures, each of them invalid, without which it succeeds. -/
theorem creation_isolates (adds : ∀ s s' p p', fastVerify s p = true → fastVerify s' p' = true →
      fastVerify (s + s') (p + p') = true) (small : validatorMapping.entries.length ≤ maxSignersLen)
    {order : List (NodeId × S) → List (NodeId × S)} (reorders : ∀ l, (order l).Perm l)
    (voters : Voters validatorMapping sigs) :
    (∃ c signers, BlsSignatureCollection.new fastVerify validatorMapping order sigs = some (.ok c) ∧
      c.signers = signerBits validatorMapping (sigs.map Prod.fst) ∧
        c.verify fastVerify validatorMapping = .ok signers) ∨
    ∃ invalid, BlsSignatureCollection.new fastVerify validatorMapping order sigs =
        some (.error (.invalidSignaturesCreate invalid)) ∧ invalid ≠ [] ∧
      (∀ e ∈ invalid, e ∈ sigs ∧ fastVerify e.2 (keyOf validatorMapping e.1) = false) ∧
      ∀ order' : List (NodeId × S) → List (NodeId × S), (∀ l, (order' l).Perm l) →
        ∃ c, BlsSignatureCollection.new fastVerify validatorMapping order' (sigs.filter fun e => e ∉ invalid) =
          some (.ok c) := by
  obtain ⟨root, passed, invalid, aggregates, isolated, -, created⟩ := exists_new adds small reorders voters
  by_cases empty : invalid = []
  · rw [if_pos empty] at created
    have perm := isolated.perm
    rw [empty, append_nil] at perm
    have verifies : sigs = [] ∨ Verifies fastVerify validatorMapping sigs :=
      isolated.passed.imp (fun none => by simpa [none] using perm) fun verifies => verifies.perm perm.symm
    obtain ⟨signers, verified⟩ := (aggregates.verify_iff fastVerify voters small).mpr verifies
    exact .inl ⟨root, signers, created, aggregates.signers, verified⟩
  · rw [if_neg empty] at created
    refine .inr ⟨invalid, created, empty, fun e mem => ?_, fun order' reorders' => ?_⟩
    · exact ⟨isolated.perm.mem_iff.mp (mem_append_right _ mem), isolated.invalid e mem⟩
    · have distinct := isolated.perm.nodup_iff.mpr (.of_map _ voters.distinct)
      have kept : (sigs.filter fun e => e ∉ invalid).Perm passed := by
        refine (isolated.perm.filter _).symm.trans (.of_eq ?_)
        have good : ∀ e ∈ passed, e ∉ invalid := fun e mem bad => (nodup_append.mp distinct).2.2 e mem e bad rfl
        rw [filter_append, filter_eq_self.mpr (by simpa using good), filter_eq_nil_iff.mpr (by simp),
          append_nil]
      have verifies := isolated.passed.imp (fun none => (show (sigs.filter fun e => e ∉ invalid) = [] by simpa [none]
        using kept)) fun verifies => verifies.perm kept
      obtain ⟨c, _, _, -, -, none, again⟩ := exists_new adds small reorders'
        (voters.of_subperm filter_sublist.subperm)
      rw [if_pos (none verifies)] at again
      exact ⟨c, again⟩

/-- No collection verifies where there are more validators than signers are allowed, and the empty one then counts as a
leaf without a signer. -/
theorem new_nil_of_many (many : maxSignersLen < validatorMapping.entries.length) :
    BlsSignatureCollection.new fastVerify validatorMapping id [] = none := by
  have noSigner : (List.replicate validatorMapping.entries.length false).findIdx? id = none := by
    simp
  simp [BlsSignatureCollection.new, BlsSignatureCollection.collect, empty, AggregationTree.new,
    AggregationTree.verify, AggregationTree.search, BlsSignatureCollection.withCapacity, BlsSignatureCollection.verify,
    many, noSigner]

end Aggregates

section Examples

def sameAsKey (s p : Int) : Bool := s = p

def threeKeys : SortedMap NodeId Int := ((empty.insert 1 10).insert 2 20).insert 3 30

/-- The second signature is invalid and is isolated. -/
theorem creation_isolates_second : BlsSignatureCollection.new sameAsKey threeKeys id [(1, 10), (2, 21), (3, 30)] =
      some (.error (.invalidSignaturesCreate [(2, 21)])) ∧
    ∃ c, BlsSignatureCollection.new sameAsKey threeKeys id [(1, 10), (3, 30)] = some (.ok c) := by
  have created : BlsSignatureCollection.new sameAsKey threeKeys id [(1, 10), (2, 21), (3, 30)] =
      some (.error (.invalidSignaturesCreate [(2, 21)])) := rfl
  refine ⟨created, ?_⟩
  have adds : ∀ s s' p p' : Int, sameAsKey s p = true → sameAsKey s' p' = true →
    sameAsKey (s + s') (p + p') = true := by
    simp only [sameAsKey, decide_eq_true_eq]
    rintro s s' p p' rfl rfl
    rfl
  have voters : Voters threeKeys [(1, 10), (2, (21 : Int)), (3, 30)] := ⟨by decide, by decide⟩
  rcases creation_isolates adds (by decide) (fun l => .refl (id l)) voters with ⟨_, _, same, -⟩ |
    ⟨invalid, same, -, -, again⟩
  · cases created.symm.trans same
  · cases created.symm.trans same
    exact again id fun l => .refl l

/-- More validators than `MAX_SIGNERS_LEN`: without any signature, creating a collection panics. -/
theorem creation_panics_for_many : ∃ validatorMapping : SortedMap NodeId Int,
    Voters validatorMapping ([] : List (NodeId × Int)) ∧
    BlsSignatureCollection.new sameAsKey validatorMapping id [] = none := by
  have sorted : ((List.range 16385).map fun i => (i, (0 : Int))).Pairwise (fun a b => a.1 < b.1) :=
    pairwise_map.mpr pairwise_lt_range
  refine ⟨⟨_, sorted⟩, ⟨nodup_nil, by simp⟩, new_nil_of_many ?_⟩
  rw [length_map, length_range, maxSignersLen]
  decide

end Examples

end MonadBft.Bls
