import Mathlib.Data.List.AList

/-! # Filtering, filling and mapping association lists

`retain` keeps the entries that pass a test, `insertAll` inserts the entries of a list, the later
over the earlier, `mapValues` changes every value.
-/

namespace AList

open List

variable {α : Type} {β : Type} [DecidableEq α]

def retain (m : AList fun _ : α => β) (p : β → Bool) : AList fun _ : α => β where
  entries := m.entries.filter fun e => p e.2
  nodupKeys := m.nodupKeys.sublist filter_sublist

section

variable (m : AList fun _ : α => β)

include m

theorem lookup_retain (p : β → Bool) (a : α) : (m.retain p).lookup a = (m.lookup a).filter p := by
  refine Option.ext fun b => ?_
  rw [← Option.mem_def, ← Option.mem_def, mem_lookup_iff, retain, List.mem_filter, Option.mem_def,
    Option.filter_eq_some_iff, ← Option.mem_def, mem_lookup_iff]

def insertAll (m : AList fun _ : α => β) : List (α × β) → AList fun _ : α => β
  | [] => m
  | e :: rest => insertAll (m.insert e.1 e.2) rest

/-- Where equal keys come with equal values, every listed entry is there. -/
theorem lookup_insertAll {l : List (α × β)}
    (agree : ∀ a b b', (a, b) ∈ l → ((a, b') ∈ l ∨ m.lookup a = some b') → b = b') (a : α) (b : β) :
    (m.insertAll l).lookup a = some b ↔ (a, b) ∈ l ∨ m.lookup a = some b := by
  induction l generalizing m with
  | nil => simp [insertAll]
  | cons e rest ih =>
    obtain ⟨k, v⟩ := e
    have inserted : ∀ a b, (m.insert k v).lookup a = some b ↔ (a, b) = (k, v) ∨ m.lookup a = some b := by
      intro a b
      by_cases same : a = k
      · subst same
        rw [lookup_insert]
        constructor
        · rintro ⟨⟩
          exact .inl rfl
        · rintro (here | old)
          · rw [(Prod.mk.inj here).2]
          · rw [agree a v b (by simp) (.inr old)]
      · simp [lookup_insert_ne same, same]
    rw [insertAll, ih, mem_cons, inserted]
    · tauto
    · intro a b b' mem other
      refine agree a b b' (mem_cons_of_mem _ mem) ?_
      rw [inserted] at other
      obtain mem' | here | old := other
      · exact .inl (mem_cons_of_mem _ mem')
      · exact .inl (here ▸ mem_cons_self)
      · exact .inr old

def mapValues (m : AList fun _ : α => β) (f : β → β) : AList fun _ : α => β where
  entries := m.entries.map fun e => ⟨e.1, f e.2⟩
  nodupKeys := by
    rw [List.NodupKeys, List.keys, map_map]
    exact m.nodupKeys

theorem lookup_mapValues (f : β → β) (a : α) : (m.mapValues f).lookup a = (m.lookup a).map f := by
  refine Option.ext fun b => ?_
  rw [← Option.mem_def, mem_lookup_iff, mapValues, mem_map, Option.map_eq_some_iff]
  constructor
  · rintro ⟨⟨a', b'⟩, mem, same⟩
    obtain ⟨rfl, changed⟩ := Sigma.mk.inj same
    exact ⟨b', mem_lookup_iff.mpr mem, eq_of_heq changed⟩
  · rintro ⟨b', found, rfl⟩
    exact ⟨⟨a, b'⟩, mem_lookup_iff.mp found, rfl⟩

end

variable {m : AList fun _ : α => β} {a a' : α} {b b' : β}

theorem lookup_erase_eq_some : (m.erase a).lookup a' = some b ↔ a' ≠ a ∧ m.lookup a' = some b := by
  by_cases same : a' = a
  · subst same
    simp
  · simp [lookup_erase_ne same, same]

theorem lookup_insert_eq_some :
    (m.insert a b).lookup a' = some b' ↔ (a' = a ∧ b = b') ∨ (a' ≠ a ∧ m.lookup a' = some b') := by
  by_cases same : a' = a
  · subst same
    simp
  · simp [lookup_insert_ne same, same]

/-- An entry and the others. -/
theorem perm_cons_erase (found : m.lookup a = some b) : m.entries.Perm (⟨a, b⟩ :: (m.erase a).entries) := by
  have nodup : ∀ l : AList fun _ : α => β, l.entries.Nodup := fun l => l.nodupKeys.nodup
  refine (perm_ext_iff_of_nodup (nodup m) (nodup_cons.mpr ⟨fun mem => ?_, nodup _⟩)).mpr fun e => ?_
  · have := mem_lookup_iff.mpr mem
    rw [lookup_erase] at this
    cases this
  · obtain ⟨a', b'⟩ := e
    rw [mem_cons, ← mem_lookup_iff, ← mem_lookup_iff]
    by_cases same : a' = a
    · subst same
      simp [found, eq_comm]
    · simp [lookup_erase_ne same, same]

theorem countP_erase (found : m.lookup a = some b) (p : β → Bool) :
    m.entries.countP (fun e => p e.2) = (m.erase a).entries.countP (fun e => p e.2) + if p b then 1 else 0 := by
  rw [(perm_cons_erase found).countP_eq, countP_cons]

theorem countP_insert (found : m.lookup a = some b) (p : β → Bool) :
    (m.insert a b').entries.countP (fun e => p e.2) + (if p b then 1 else 0) =
      m.entries.countP (fun e => p e.2) + if p b' then 1 else 0 := by
  have erased : m.entries.countP (fun e => p e.2) = (m.entries.kerase a).countP (fun e => p e.2) + _ :=
    countP_erase found p
  rw [entries_insert, countP_cons, erased]
  exact Nat.add_right_comm _ _ _

theorem countP_insert_new (b : β) (absent : m.lookup a = none) (p : β → Bool) :
    (m.insert a b).entries.countP (fun e => p e.2) = m.entries.countP (fun e => p e.2) + if p b then 1 else 0 := by
  rw [entries_insert_of_notMem (lookup_eq_none.mp absent), countP_cons]

end AList
