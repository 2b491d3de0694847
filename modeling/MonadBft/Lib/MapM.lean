import Mathlib.Data.List.Forall2

/-! # Fallible maps over a list

`List.mapM` in `Option` returns when every element does, and fails when one does.
-/

namespace MapM

variable {α β : Type} {f : α → Option β}

/-- What holds of each result holds along the list. -/
theorem exists_mapM (R : α → β → Prop) (l : List α) (each : ∀ a ∈ l, ∃ b, f a = some b ∧ R a b) :
    ∃ bs, l.mapM f = some bs ∧ List.Forall₂ R l bs := by
  induction l with
  | nil => exact ⟨[], rfl, .nil⟩
  | cons a l ih =>
    obtain ⟨b, first, related⟩ := each a List.mem_cons_self
    obtain ⟨bs, others, all⟩ := ih fun a inside => each a (List.mem_cons_of_mem _ inside)
    exact ⟨b :: bs, by simp [first, others], .cons related all⟩

theorem mapM_eq_none {l : List α} {a : α} (inside : a ∈ l) (fails : f a = none) : l.mapM f = none := by
  induction l with
  | nil => cases inside
  | cons b l ih =>
    rw [List.mapM_cons]
    rcases List.mem_cons.mp inside with rfl | later
    · rw [fails]
      rfl
    · cases f b <;> simp [ih later]

end MapM
