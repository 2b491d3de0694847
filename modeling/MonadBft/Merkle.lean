import Mathlib.Algebra.Ring.Nat
import Mathlib.Data.Nat.Pairing
import Mathlib.Tactic.Set

/-! # Merkle trees

`monad-merkle`: a complete binary tree in one vector, the root at `0` and the children of `i` at `2 * i + 1` and
`2 * i + 2`; its leaves are filled up with zero hashes. Positions in the tree are 16 bits wide and leaf indices 8 bits.
The hash is a parameter. A panic is `none`.
-/

namespace MonadBft.Merkle

open List Option

variable {H M : Type}

/-- `H` are the hashes and `M` the truncated ones. -/
structure MerkleHasher (H M : Type) where
  hashToMerkle : H → M
  /-- The truncated hash of two children. -/
  node : M → M → M
  /-- `MerkleHash::default()`. -/
  zero : M

def parentIdx (idx : Nat) : Option Nat := if 1 ≤ idx then some ((idx - 1) / 2) else none

def siblingIdx (idx : Nat) : Option Nat := do
  let parent ← parentIdx idx
  some (2 * parent + (1 + idx % 2))

structure MerkleProof (M : Type) where
  treeLeafIdx : Nat
  /-- From top to bottom. -/
  siblings : List M

namespace MerkleProof

/-- `none` also where the checked arithmetic of `u16` fails. -/
def newFromLeafIdx (siblings : List M) (leafIdx : Fin 256) : Option (MerkleProof M) :=
  let numLeaves := 2 ^ siblings.length
  if numLeaves < 2 ^ 16 ∧ 2 * numLeaves < 2 ^ 16 then
    let treeLen := 2 * numLeaves - 1
    some ⟨treeLen - numLeaves + leafIdx, siblings⟩
  else none

/-- The loop of `compute_root`, over the siblings from bottom to top. -/
def computeFrom (hash : MerkleHasher H M) : List M → Option Nat → M → Option M
  | [], _, merkleHash => some merkleHash
  | sibling :: rest, currentIdx, merkleHash => do
    let idx ← currentIdx
    computeFrom hash rest (parentIdx idx)
      (if idx % 2 = 1 then hash.node merkleHash sibling else hash.node sibling merkleHash)

def computeRoot (hash : MerkleHasher H M) (proof : MerkleProof M) (leaf : H) : Option M :=
  computeFrom hash proof.siblings.reverse (some proof.treeLeafIdx) (hash.hashToMerkle leaf)

end MerkleProof

structure MerkleTree (M : Type) where
  treeLeafStartIdx : Nat
  tree : List M

namespace MerkleTree

variable (hash : MerkleHasher H M)

/-- The last loop of `new_with_depth`: the inner nodes below `idx`, from right to left. -/
def fillNodes : Nat → List M → Option (List M)
  | 0, tree => some tree
  | idx + 1, tree => do
    let left ← tree[2 * idx + 1]?
    let right ← tree[2 * idx + 2]?
    fillNodes idx (tree.set idx (hash.node left right))

/-- The leaves of the tree: as many of the given ones as fit, then zeros. -/
def leafAt (leaves : List H) (i : Nat) : M := (leaves[i]?.map hash.hashToMerkle).getD hash.zero

def newWithDepth (leaves : List H) (depth : Nat) : Option (MerkleTree M) :=
  if depth = 0 then none
  else
    let numLeaves := 2 ^ (depth - 1)
    let treeLen := 2 * numLeaves - 1
    if treeLen ≤ 2 ^ 16 - 1 then do
      let treeLeafStartIdx := treeLen - numLeaves
      let tree := List.replicate treeLeafStartIdx hash.zero ++ (List.range numLeaves).map (leafAt hash leaves)
      let tree ← fillNodes hash treeLeafStartIdx tree
      some ⟨treeLeafStartIdx, tree⟩
    else none

def root (t : MerkleTree M) : Option M := t.tree[0]?

/-- The loop of `proof`, the siblings from bottom to top; an index is more than its number of turns. -/
def siblingsFrom (tree : List M) : Nat → Nat → Option (List M)
  | 0, _ => none
  | fuel + 1, currentIdx =>
    match siblingIdx currentIdx with
    | none => some []
    | some sibling => do
      let parent ← parentIdx currentIdx
      let hash ← tree[sibling]?
      let rest ← siblingsFrom tree fuel parent
      some (hash :: rest)

def proof (t : MerkleTree M) (leafIdx : Fin 256) : Option (MerkleProof M) := do
  let treeLeafIdx := t.treeLeafStartIdx + leafIdx
  let siblings ← siblingsFrom t.tree (treeLeafIdx + 1) treeLeafIdx
  some ⟨treeLeafIdx, siblings.reverse⟩

/-! ## The tree -/

def HashedAt (tree : List M) (i : Nat) : Prop :=
  ∃ left right, tree[2 * i + 1]? = some left ∧ tree[2 * i + 2]? = some right ∧ tree[i]? = some (hash.node left right)

/-- A tree whose inner nodes are hashed; its length is odd. -/
structure Hashed (tree : List M) : Prop where
  odd : tree.length % 2 = 1
  inner : ∀ i, 2 * i + 2 < tree.length → HashedAt hash tree i

variable {hash} {leaves : List H} {depth : Nat} {tree : List M} {idx : Nat} {siblings : List M}

/-- The loop hashes the inner nodes and keeps the nodes after them. -/
theorem fillNodes_spec {n : Nat} (inside : 2 * n < tree.length)
    (done : ∀ i, n ≤ i → 2 * i + 2 < tree.length → HashedAt hash tree i) :
    ∃ filled, fillNodes hash n tree = some filled ∧ filled.length = tree.length ∧
      (∀ i, n ≤ i → filled[i]? = tree[i]?) ∧ ∀ i, 2 * i + 2 < filled.length → HashedAt hash filled i := by
  induction n generalizing tree with
  | zero => exact ⟨tree, rfl, rfl, fun _ _ => rfl, fun i small => done i (Nat.zero_le i) small⟩
  | succ n ih =>
    have left := getElem?_eq_getElem (show 2 * n + 1 < tree.length by omega)
    have right := getElem?_eq_getElem (show 2 * n + 2 < tree.length by omega)
    set value := hash.node tree[2 * n + 1] tree[2 * n + 2]
    have kept : ∀ i ≠ n, (tree.set n value)[i]? = tree[i]? := fun i other => getElem?_set_ne other.symm
    have done' : ∀ i, n ≤ i → 2 * i + 2 < (tree.set n value).length → HashedAt hash (tree.set n value) i := by
      intro i above small
      rw [length_set] at small
      unfold HashedAt
      rw [kept (2 * i + 1) (by omega), kept (2 * i + 2) (by omega)]
      rcases eq_or_ne i n with rfl | other
      · exact ⟨_, _, left, right, getElem?_set_self (by omega)⟩
      · rw [kept i other]
        exact done i (by omega) small
    obtain ⟨filled, run, length, same, hashed⟩ := ih (by rw [length_set]; omega) done'
    refine ⟨filled, by simpa only [fillNodes, left, right, bind_eq_bind, bind_some] using run, by simpa using length,
      fun i above => ?_, hashed⟩
    rw [same i (by omega), kept i (by omega)]

/-- Up to depth 16 the tree is built: its inner nodes are hashed and its last row is the leaves. -/
theorem newWithDepth_spec (hash : MerkleHasher H M) (leaves : List H) (positive : 1 ≤ depth) (small : depth ≤ 16) :
    ∃ t, newWithDepth hash leaves depth = some t ∧ t.treeLeafStartIdx + 1 = 2 ^ (depth - 1) ∧
      t.tree.length + 1 = 2 * 2 ^ (depth - 1) ∧ Hashed hash t.tree ∧
      ∀ i < 2 ^ (depth - 1), t.tree[t.treeLeafStartIdx + i]? = some (leafAt hash leaves i) := by
  have one := Nat.one_le_two_pow (n := depth - 1)
  have most : 2 ^ (depth - 1) ≤ 2 ^ 15 := Nat.pow_le_pow_right (by omega) (by omega)
  set n := 2 ^ (depth - 1) with isN
  set start := List.replicate (n - 1) hash.zero ++ (List.range n).map (leafAt hash leaves)
  have length : start.length = 2 * n - 1 := by
    simp only [start, length_append, length_replicate, length_map, length_range]
    omega
  obtain ⟨filled, run, same, kept, hashed⟩ := fillNodes_spec (show 2 * (n - 1) < start.length by omega)
    (show ∀ i, n - 1 ≤ i → _ → HashedAt hash start i by omega)
  have total : filled.length + 1 = 2 * n := by omega
  refine ⟨⟨n - 1, filled⟩, ?_, Nat.sub_add_cancel one, total, ⟨?_, hashed⟩, fun i inside => ?_⟩
  · have sizes : 2 * n - 1 - n = n - 1 := by omega
    simp only [newWithDepth, ← isN, sizes, show depth ≠ 0 by omega, show 2 * n - 1 ≤ 2 ^ 16 - 1 by omega, if_false,
      if_true]
    rw [run]
    rfl
  · show filled.length % 2 = 1
    omega
  · simp only
    rw [kept _ (by omega), getElem?_append_right (by simp)]
    simp [inside]

/-! ## Proofs -/

theorem parentIdx_succ (i : Nat) : parentIdx (i + 1) = some (i / 2) := by simp [parentIdx]

/-- The siblings of a node lead from it to the root. -/
theorem computeFrom_siblingsFrom (hashed : Hashed hash tree) {fuel : Nat} (enough : idx < fuel) {value : M}
    (found : tree[idx]? = some value) : ∃ siblings, siblingsFrom tree fuel idx = some siblings ∧
      MerkleProof.computeFrom hash siblings (some idx) value = tree[0]? := by
  induction fuel generalizing idx value with
  | zero => omega
  | succ fuel ih =>
    cases idx with
    | zero => exact ⟨[], by simp [siblingsFrom, siblingIdx, parentIdx], by rw [found]; rfl⟩
    | succ i =>
      have inside := (List.getElem?_eq_some_iff.mp found).1
      have odd := hashed.odd
      obtain ⟨left, right, isLeft, isRight, isParent⟩ := hashed.inner (i / 2) (by omega)
      obtain ⟨rest, run, computes⟩ := ih (show i / 2 < fuel by omega) isParent
      -- an odd position is a left child
      rcases Nat.mod_two_eq_zero_or_one i with even | even
      · obtain rfl : left = value := by
          rw [show 2 * (i / 2) + 1 = i + 1 by omega, found] at isLeft
          exact (some_inj.mp isLeft).symm
        refine ⟨right :: rest, ?_, ?_⟩
        · simp [siblingsFrom, siblingIdx, parentIdx_succ, show (i + 1) % 2 = 1 by omega, isRight, run]
        · simpa [MerkleProof.computeFrom, parentIdx_succ, show (i + 1) % 2 = 1 by omega] using computes
      · obtain rfl : right = value := by
          rw [show 2 * (i / 2) + 2 = i + 1 by omega, found] at isRight
          exact (some_inj.mp isRight).symm
        refine ⟨left :: rest, ?_, ?_⟩
        · simp [siblingsFrom, siblingIdx, parentIdx_succ, show (i + 1) % 2 = 0 by omega, isLeft, run]
        · simpa [MerkleProof.computeFrom, parentIdx_succ, show (i + 1) % 2 = 0 by omega] using computes

/-- A node of row `k` has `k` siblings on its way up. -/
theorem length_siblingsFrom {fuel k : Nat} (run : siblingsFrom tree fuel idx = some siblings)
    (low : 2 ^ k ≤ idx + 1) (high : idx + 1 < 2 * 2 ^ k) : siblings.length = k := by
  induction fuel generalizing idx k siblings with
  | zero => simp [siblingsFrom] at run
  | succ fuel ih =>
    cases idx with
    | zero =>
      obtain rfl : [] = siblings := by simpa [siblingsFrom, siblingIdx, parentIdx] using run
      have : 2 ^ k ≤ 2 ^ 0 := by simpa using low
      exact (Nat.le_zero.mp ((Nat.pow_le_pow_iff_right (by omega)).mp this)).symm
    | succ i =>
      obtain ⟨k, rfl⟩ : ∃ k', k = k' + 1 := by
        refine ⟨k - 1, ?_⟩
        have : k ≠ 0 := by
          rintro rfl
          omega
        omega
      simp only [siblingsFrom, siblingIdx, parentIdx_succ, bind_eq_bind, bind_some] at run
      obtain ⟨sibling, -, run⟩ := bind_eq_some_iff.mp run
      obtain ⟨rest, above, isSiblings⟩ := bind_eq_some_iff.mp run
      obtain rfl := some.inj isSiblings
      rw [Nat.pow_succ] at low high
      rw [length_cons, ih (k := k) above (by omega) (by omega)]

/-- With a collision-free hash, a path of `k` siblings that ends at the root started from the node of row `k` that has
the same last `k` bits. -/
theorem computeFrom_binds (collisionFree : ∀ a b c d, hash.node a b = hash.node c d → a = c ∧ b = d)
    (hashed : Hashed hash tree) {node : Nat} {value : M}
    (low : 2 ^ siblings.length ≤ idx + 1) (high : 2 ^ siblings.length ≤ node + 1)
    (row : node + 1 < 2 * 2 ^ siblings.length)
    (bits : (idx + 1) % 2 ^ siblings.length = (node + 1) % 2 ^ siblings.length) (inside : node < tree.length)
    (computes : MerkleProof.computeFrom hash siblings (some idx) value = tree[0]?) : tree[node]? = some value := by
  induction siblings generalizing idx node value with
  | nil =>
    obtain rfl : node = 0 := by
      simp only [length_nil, Nat.pow_zero] at row
      omega
    rw [← computes, MerkleProof.computeFrom]
  | cons sibling rest ih =>
    simp only [length_cons, Nat.pow_succ] at low high row bits
    have one := Nat.one_le_two_pow (n := rest.length)
    obtain ⟨i, rfl⟩ : ∃ i, idx = i + 1 := ⟨idx - 1, by omega⟩
    obtain ⟨j, rfl⟩ : ∃ j, node = j + 1 := ⟨node - 1, by omega⟩
    have odd := hashed.odd
    obtain ⟨left, right, isLeft, isRight, isParent⟩ := hashed.inner (j / 2) (by omega)
    have halves : ∀ n, n / 2 % 2 ^ rest.length = n % (2 ^ rest.length * 2) / 2 := fun n => by
      rw [Nat.mul_comm, Nat.mod_mul_right_div_self]
    have parity : ∀ n, n % (2 ^ rest.length * 2) % 2 = n % 2 := fun n => Nat.mod_mul_left_mod _ _ _
    have same : (i + 1) % 2 = (j + 1) % 2 := by
      have first := parity (i + 1 + 1)
      have second := parity (j + 1 + 1)
      rw [bits] at first
      omega
    -- the parents agree on one bit less
    have up := ih (show _ ≤ i / 2 + 1 by omega) (show _ ≤ j / 2 + 1 by omega) (by omega)
      (by
        have first := halves (i + 1 + 1)
        have second := halves (j + 1 + 1)
        rw [bits] at first
        rw [show i / 2 + 1 = (i + 1 + 1) / 2 by omega, show j / 2 + 1 = (j + 1 + 1) / 2 by omega, first, second])
      (by omega) (by simpa only [MerkleProof.computeFrom, parentIdx_succ, bind_eq_bind, bind_some] using computes)
    rw [isParent, some_inj] at up
    rcases Nat.mod_two_eq_zero_or_one j with even | even
    · rw [if_pos (by omega)] at up
      rw [show j + 1 = 2 * (j / 2) + 1 by omega, isLeft, (collisionFree _ _ _ _ up).1]
    · rw [if_neg (by omega)] at up
      rw [show j + 1 = 2 * (j / 2) + 2 by omega, isRight, (collisionFree _ _ _ _ up).2]

/-- The proof of a leaf leads to the root, and up to depth 15 also the one that is rebuilt from its siblings. -/
theorem exists_proof {t : MerkleTree M} (positive : 1 ≤ depth) (start : t.treeLeafStartIdx + 1 = 2 ^ (depth - 1))
    (hashed : Hashed hash t.tree) {root : M} (isRoot : t.root = some root) {i : Fin 256} {leaf : H}
    (inside : (i : Nat) < 2 ^ (depth - 1)) (value : t.tree[t.treeLeafStartIdx + i]? = some (hash.hashToMerkle leaf)) :
    ∃ proof, t.proof i = some proof ∧ proof.siblings.length = depth - 1 ∧ proof.computeRoot hash leaf = some root ∧
      (depth ≤ 15 → ∃ rebuilt, MerkleProof.newFromLeafIdx proof.siblings i = some rebuilt ∧
        rebuilt.computeRoot hash leaf = some root) := by
  obtain ⟨siblings, run, computes⟩ := computeFrom_siblingsFrom hashed (Nat.lt_succ_self _) value
  have count := length_siblingsFrom run (k := depth - 1) (by omega) (by omega)
  rw [show t.tree[0]? = some root from isRoot] at computes
  refine ⟨⟨t.treeLeafStartIdx + i, siblings.reverse⟩, by simp [proof, run], by simpa using count, ?_, fun shallow => ?_⟩
  · simpa [MerkleProof.computeRoot] using computes
  · have less : 2 ^ (depth - 1) ≤ 2 ^ 14 := Nat.pow_le_pow_right (by omega) (by omega)
    refine ⟨⟨2 * 2 ^ (depth - 1) - 1 - 2 ^ (depth - 1) + i, siblings.reverse⟩, ?_, ?_⟩
    · simp only [MerkleProof.newFromLeafIdx, length_reverse, count]
      rw [if_pos (by omega)]
    · rw [show 2 * 2 ^ (depth - 1) - 1 - 2 ^ (depth - 1) = t.treeLeafStartIdx by omega]
      simpa [MerkleProof.computeRoot] using computes

/-- Proofs of a tree lead to its root, also when they are rebuilt from their siblings, and only the leaf of its position
has a proof. -/
theorem proofs_complete_and_binding (hash : MerkleHasher H M) (leaves : List H) (positive : 1 ≤ depth)
    (small : depth ≤ 16) (fits : leaves.length ≤ 2 ^ (depth - 1)) :
    ∃ t root, newWithDepth hash leaves depth = some t ∧ t.root = some root ∧
      (∀ (i : Fin 256) (leaf : H), leaves[(i : Nat)]? = some leaf →
        ∃ proof, t.proof i = some proof ∧ proof.computeRoot hash leaf = some root ∧
          (depth ≤ 15 → ∃ rebuilt, MerkleProof.newFromLeafIdx proof.siblings i = some rebuilt ∧
            rebuilt.computeRoot hash leaf = some root)) ∧
      ((∀ a b c d, hash.node a b = hash.node c d → a = c ∧ b = d) →
        ∀ (j : Fin 256) (proof : MerkleProof M), proof.siblings.length = depth - 1 →
          proof.treeLeafIdx = 2 ^ (depth - 1) - 1 + j ∨ MerkleProof.newFromLeafIdx proof.siblings j = some proof →
          ∀ h : H, proof.computeRoot hash h = some root →
            hash.hashToMerkle h = leafAt hash leaves (j % 2 ^ (depth - 1))) := by
  have one := Nat.one_le_two_pow (n := depth - 1)
  obtain ⟨t, built, start, length, hashed, isLeaf⟩ := newWithDepth_spec hash leaves positive small
  have isRoot := getElem?_eq_getElem (show 0 < t.tree.length by omega)
  refine ⟨t, _, built, isRoot, fun i leaf known => ?_, fun collisionFree j proof count index h computes => ?_⟩
  · have inside := lt_of_lt_of_le (List.getElem?_eq_some_iff.mp known).1 fits
    have value := isLeaf i inside
    rw [leafAt, known, map_some, getD_some] at value
    obtain ⟨proof, isProof, -, computes, rebuilds⟩ := exists_proof positive start hashed isRoot inside value
    exact ⟨proof, isProof, computes, rebuilds⟩
  · have index : proof.treeLeafIdx = 2 ^ (depth - 1) - 1 + j := by
      obtain index | isProof := index
      · exact index
      · simp only [MerkleProof.newFromLeafIdx, count] at isProof
        split at isProof
        case isTrue =>
          rw [← some.inj isProof]
          simp only
          omega
        case isFalse => cases isProof
    have position := Nat.mod_lt (j : Nat) one
    have bound := computeFrom_binds collisionFree hashed (by rw [length_reverse, count]; omega)
      (show _ ≤ t.treeLeafStartIdx + j % 2 ^ (depth - 1) + 1 by rw [length_reverse, count]; omega)
      (by rw [length_reverse, count]; omega)
      (by
        rw [length_reverse, count, show proof.treeLeafIdx + 1 = 2 ^ (depth - 1) + j by omega,
          show t.treeLeafStartIdx + (j : Nat) % 2 ^ (depth - 1) + 1 = 2 ^ (depth - 1) + j % 2 ^ (depth - 1) by omega]
        simp)
      (by omega) (computes.trans isRoot.symm)
    rw [isLeaf _ position] at bound
    exact (some.inj bound).symm

def pairing : MerkleHasher Nat Nat := ⟨(· + 1), fun a b => Nat.pair a b + 1, 0⟩

theorem proofs_complete_and_binding_three :
    ∃ t root, newWithDepth pairing [5, 6, 7] 3 = some t ∧ t.root = some root ∧
      ∀ proof : MerkleProof Nat, proof.siblings.length = 2 → proof.treeLeafIdx = 9 →
        ∀ h, proof.computeRoot pairing h = some root → h + 1 = 8 := by
  obtain ⟨t, root, built, isRoot, -, binding⟩ :=
    proofs_complete_and_binding pairing [5, 6, 7] (show 1 ≤ 3 by decide) (by decide) (by decide)
  refine ⟨t, root, built, isRoot, fun proof count index h computes => ?_⟩
  exact binding (fun a b c d same => Nat.pair_eq_pair.mp (Nat.succ.inj same)) 6 proof count (.inl index) h computes

/-- At depth 16 the siblings of a proof do not rebuild it, and a deeper tree is not built. -/
theorem proofs_of_depth_sixteen : (∃ t proof, newWithDepth pairing [5] 16 = some t ∧ t.proof 0 = some proof ∧
      MerkleProof.newFromLeafIdx proof.siblings 0 = none) ∧ newWithDepth pairing [5] 17 = none := by
  obtain ⟨t, built, start, length, hashed, isLeaf⟩ := newWithDepth_spec pairing [5] (show 1 ≤ 16 by decide) (by decide)
  obtain ⟨siblings, run, -⟩ := computeFrom_siblingsFrom hashed (Nat.lt_succ_self _) (isLeaf 0 (by decide))
  have count := length_siblingsFrom run (k := 15) (by omega) (by omega)
  rw [Nat.add_zero] at run
  refine ⟨⟨t, ⟨t.treeLeafStartIdx, siblings.reverse⟩, built, by simp [proof, run], ?_⟩, by simp [newWithDepth]⟩
  simp [MerkleProof.newFromLeafIdx, count]

end MerkleTree

end MonadBft.Merkle
