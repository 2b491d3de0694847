import Mathlib.Data.List.Perm.Subperm
import Mathlib.Data.List.Range

/-! # Complete binary trees in a vector

A tree with `n` leaves takes `2 * n - 1` places: the root is at `0`, the children of `i` are at `2 * i + 1` and
`2 * i + 2`, and the leaves are at `n - 1` and after. `fill` sets the inner nodes from their children; `below` are the
leaves below a node. Whatever a combination of two nodes carries over holds of the whole tree (`exists_fill`).
-/

namespace HeapTree

open List

variable {α β : Type}

/-- Set the first inner nodes, from the last to the first, each to its two children combined. -/
def fill (combine : α → α → Option α) : Nat → List α → Option (List α)
  | 0, nodes => some nodes
  | i + 1, nodes => do
    let left ← nodes[2 * i + 1]?
    let right ← nodes[2 * i + 2]?
    let node ← combine left right
    fill combine i (nodes.set i node)

/-- The leaves below a node. -/
def below (leaves : List β) (i : Nat) : List β :=
  if i + 1 < leaves.length then below leaves (2 * i + 1) ++ below leaves (2 * i + 2)
  else leaves[i + 1 - leaves.length]?.toList
termination_by leaves.length - i

variable {leaves : List β} {i : Nat}

theorem below_inner (inner : i + 1 < leaves.length) :
    below leaves i = below leaves (2 * i + 1) ++ below leaves (2 * i + 2) := by
  conv_lhs => rw [below, if_pos inner]

theorem below_leaf (outer : leaves.length ≤ i + 1) : below leaves i = leaves[i + 1 - leaves.length]?.toList := by
  rw [below, if_neg (by omega)]

theorem exists_below_leaf (outer : leaves.length ≤ i + 1) (inside : i + 1 < 2 * leaves.length) :
    ∃ leaf, below leaves i = [leaf] := by
  rw [below_leaf outer, getElem?_eq_getElem (by omega)]
  exact ⟨_, rfl⟩

theorem below_ne_nil (inside : i + 1 < 2 * leaves.length) : below leaves i ≠ [] := by
  induction i using below.induct leaves with
  | case1 i inner left _ =>
    rw [below_inner inner]
    exact append_ne_nil_of_left_ne_nil (left (by omega)) _
  | case2 i outer =>
    obtain ⟨leaf, single⟩ := exists_below_leaf (by omega) inside
    rw [single]
    exact cons_ne_nil _ _

/-- The nodes from `k` to `2 * k` have all leaves below them. -/
theorem flatMap_below_perm {k m : Nat} (count : k + m + 1 = leaves.length) :
    ((List.range' k (k + 1)).flatMap (below leaves)).Perm leaves := by
  induction m generalizing k with
  | zero =>
    have each : (List.range' k (k + 1)).map (below leaves) = (List.range (k + 1)).map fun i => leaves[i]?.toList := by
      rw [range'_eq_map_range, map_map]
      refine map_congr_left fun i _ => ?_
      rw [Function.comp_apply, below_leaf (by omega), show k + i + 1 - leaves.length = i by omega]
    have all : (List.range (k + 1)).map (fun i => leaves[i]?) = leaves.map some := by
      refine ext_getElem (by simp; omega) fun i small _ => ?_
      simp only [length_map, length_range] at small
      simp [getElem?_eq_getElem (show i < leaves.length by omega)]
    have kept : (List.range (k + 1)).filterMap (fun i => leaves[i]?) = leaves := by
      have same := congrArg (List.filterMap id) all
      simpa [filterMap_map, Function.comp_def] using same
    rw [flatMap_def, each, ← flatMap_def, ← filterMap_eq_flatMap_toList]
    exact List.Perm.of_eq kept
  | succ m ih =>
    have later := ih (k := k + 1) (by omega)
    have first : List.range' k (k + 1) = k :: List.range' (k + 1) k := range'_succ
    have last : List.range' (k + 1) (k + 1 + 1) = List.range' (k + 1) k ++ [2 * k + 1, 2 * k + 2] := by
      rw [show k + 1 + 1 = k + 2 by omega, ← range'_append_1]
      simp [range'_succ]
      omega
    rw [last, flatMap_append] at later
    rw [first, flatMap_cons, below_inner (by omega)]
    refine perm_append_comm.trans ?_
    simpa using later

theorem below_root_perm (leaves : List β) : (below leaves 0).Perm leaves := by
  cases leaves with
  | nil => simp [below]
  | cons leaf rest => simpa using flatMap_below_perm (show 0 + rest.length + 1 = (leaf :: rest).length by simp)

theorem below_sublist (inside : i + 1 < 2 * leaves.length) : (below leaves i).Sublist (below leaves 0) := by
  induction i using Nat.strong_induction_on with
  | h i ih =>
    cases i with
    | zero => exact List.Sublist.refl _
    | succ i =>
      have parent := ih (i / 2) (by omega) (by omega)
      rw [below_inner (by omega)] at parent
      refine List.Sublist.trans ?_ parent
      obtain even | odd := Nat.mod_two_eq_zero_or_one i
      · rw [show i + 1 = 2 * (i / 2) + 1 by omega]
        exact sublist_append_left _ _
      · rw [show i + 1 = 2 * (i / 2) + 2 by omega]
        exact sublist_append_right _ _

theorem below_subperm (inside : i + 1 < 2 * leaves.length) : (below leaves i).Subperm leaves :=
  (below_sublist inside).subperm.trans (below_root_perm leaves).subperm

/-- What holds of the leaves and is carried over by combining two nodes holds of every node. -/
theorem exists_fill {combine : α → α → Option α} {R : α → List β → Prop}
    (joins : ∀ a b l r, R a l → R b r → (l ++ r).Subperm leaves → ∃ c, combine a b = some c ∧ R c (l ++ r))
    {k : Nat} {nodes : List α} (length : nodes.length + 1 = 2 * leaves.length) (inner : k < leaves.length)
    (done : ∀ i node, k ≤ i → nodes[i]? = some node → R node (below leaves i)) :
    ∃ filled, fill combine k nodes = some filled ∧ filled.length = nodes.length ∧
      ∀ i node, filled[i]? = some node → R node (below leaves i) := by
  induction k generalizing nodes with
  | zero => exact ⟨nodes, rfl, rfl, fun i node => done i node (Nat.zero_le i)⟩
  | succ k ih =>
    have left := getElem?_eq_getElem (show 2 * k + 1 < nodes.length by omega)
    have right := getElem?_eq_getElem (show 2 * k + 2 < nodes.length by omega)
    have whole := below_inner inner
    obtain ⟨node, combined, holds⟩ := joins _ _ _ _ (done _ _ (by omega) left) (done _ _ (by omega) right)
      (whole ▸ below_subperm (by omega))
    obtain ⟨filled, run, same, all⟩ := ih (show (nodes.set k node).length + 1 = _ by simpa using length) (by omega)
      fun i other after found => by
        obtain rfl | later := Nat.eq_or_lt_of_le after
        · rw [getElem?_set_self (by omega)] at found
          rw [whole, ← Option.some.inj found]
          exact holds
        · rw [getElem?_set_ne (by omega)] at found
          exact done i other later found
    refine ⟨filled, ?_, by simpa using same, all⟩
    simp [fill, left, right, combined, run]

end HeapTree
