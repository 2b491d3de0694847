import Mathlib.Algebra.Order.BigOperators.Group.List
import Mathlib.Algebra.Order.Ring.Nat
import MonadBft.Lib.SortedMap

/-! # Sums over a sorted map

A weight summed over the values of a map, and how inserting, erasing and filtering change it.
-/

namespace SortedMap

open List

variable {K V : Type} [LinearOrder K]

def sum (m : SortedMap K V) (weight : V → Nat) : Nat := (m.entries.map fun e => weight e.2).sum

variable {k : K} {m : SortedMap K V} {v : V} {l : List (K × V)}

theorem sum_insertEntry_of_mem {v' : V} (weight : V → Nat) (sorted : l.Pairwise (fun a b => a.1 < b.1))
    (mem : (k, v) ∈ l) :
    ((insertEntry k v' l).map fun e => weight e.2).sum + weight v = (l.map fun e => weight e.2).sum + weight v' := by
  induction l with
  | nil => cases mem
  | cons head rest ih =>
    obtain ⟨above, sortedRest⟩ := pairwise_cons.mp sorted
    obtain rfl | inRest := mem_cons.mp mem
    · simp only [insertEntry, lt_irrefl, if_false, if_true, map_cons, sum_cons]
      omega
    · have later := above _ inRest
      simp only [insertEntry, later.not_gt, later.ne', if_false, map_cons, sum_cons]
      have := ih sortedRest inRest
      omega

theorem sum_insertEntry_of_not_mem (weight : V → Nat) (new : ∀ e ∈ l, e.1 ≠ k) :
    ((insertEntry k v l).map fun e => weight e.2).sum = (l.map fun e => weight e.2).sum + weight v := by
  induction l with
  | nil => simp [insertEntry]
  | cons head rest ih =>
    have other := (new head (.head _)).symm
    have := ih fun e mem => new e (.tail _ mem)
    rw [insertEntry]
    split
    · simp only [map_cons, sum_cons]
      omega
    · simp only [map_cons, sum_cons]
      omega

theorem sum_insert_of_get? (found : m.get? k = some v) (v' : V) (weight : V → Nat) :
    (m.insert k v').sum weight + weight v = m.sum weight + weight v' :=
  sum_insertEntry_of_mem weight m.sorted (get?_eq_some_iff.mp found)

theorem sum_insert_of_get?_none (missing : m.get? k = none) (v : V) (weight : V → Nat) :
    (m.insert k v).sum weight = m.sum weight + weight v := by
  apply sum_insertEntry_of_not_mem weight
  rintro ⟨k', v'⟩ mem rfl
  rw [get?_eq_some_iff.mpr mem] at missing
  cases missing

theorem sum_insert_le (m : SortedMap K V) (k : K) (v : V) (weight : V → Nat) :
    (m.insert k v).sum weight ≤ m.sum weight + weight v := by
  cases found : m.get? k with
  | none => exact le_of_eq (sum_insert_of_get?_none found v weight)
  | some old =>
    have := sum_insert_of_get? found v weight
    omega

theorem sum_filter_le (m : SortedMap K V) (p : K → V → Bool) (weight : V → Nat) :
    (m.filter p).sum weight ≤ m.sum weight :=
  (filter_sublist.map _).sum_le_sum fun _ _ => Nat.zero_le _

theorem sum_erase_of_get? (found : m.get? k = some v) (weight : V → Nat) :
    (m.erase k).sum weight + weight v = m.sum weight := by
  have sorted := m.sorted
  obtain ⟨before, after, shape⟩ := append_of_mem (get?_eq_some_iff.mp found)
  change ((m.entries.filter _).map _).sum + _ = (m.entries.map _).sum
  rw [shape] at sorted ⊢
  obtain ⟨-, sortedAfter, cross⟩ := pairwise_append.mp sorted
  have keepBefore : before.filter (fun e => decide (e.1 ≠ k)) = before :=
    filter_eq_self.mpr fun e mem => by simpa using (cross e mem _ (.head _)).ne
  have keepAfter : after.filter (fun e => decide (e.1 ≠ k)) = after :=
    filter_eq_self.mpr fun e mem => by simpa using ((pairwise_cons.mp sortedAfter).1 e mem).ne'
  rw [filter_append, filter_cons, if_neg (by simp), keepBefore, keepAfter]
  simp only [map_append, map_cons, sum_append, sum_cons]
  omega

end SortedMap
