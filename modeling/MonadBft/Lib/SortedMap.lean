import Mathlib.Data.List.Sort

/-! # Finite maps as key-sorted lists

A finite map that iterates in key order, as an ordered map of a systems language
does. The order of the keys is a field of the structure, so distinctness of keys
never has to be proved again by a user. Everything is structurally recursive and
can be evaluated.
-/

/-- A finite map: entries in strictly increasing key order. -/
structure SortedMap (K V : Type) [LinearOrder K] where
  entries : List (K × V)
  sorted : entries.Pairwise (fun a b => a.1 < b.1)

namespace SortedMap

open List Option

variable {K V : Type} [LinearOrder K]

/-- Put an entry at its place, replacing an entry with the same key. -/
def insertEntry (k : K) (v : V) : List (K × V) → List (K × V)
  | [] => [(k, v)]
  | (k', v') :: rest =>
    if k < k' then (k, v) :: (k', v') :: rest
    else if k = k' then (k, v) :: rest
    else (k', v') :: insertEntry k v rest

variable {k k' : K} {v : V} {l : List (K × V)} {e : K × V} {m : SortedMap K V} {p : K → V → Bool}

theorem mem_insertEntry (sorted : l.Pairwise (fun a b => a.1 < b.1)) :
    e ∈ insertEntry k v l ↔ e = (k, v) ∨ (e ∈ l ∧ e.1 ≠ k) := by
  induction l with
  | nil => simp [insertEntry]
  | cons head rest ih =>
    obtain ⟨k', v'⟩ := head
    obtain ⟨above, sortedRest⟩ := pairwise_cons.mp sorted
    simp only [insertEntry]
    split_ifs with smaller same
    · -- every key of the list is above `k`
      have ne : ∀ e' ∈ (k', v') :: rest, e'.1 ≠ k := by
        intro e' he'
        rcases mem_cons.mp he' with rfl | inRest
        · exact smaller.ne'
        · exact (smaller.trans (above e' inRest)).ne'
      simp only [mem_cons (a := e) (b := (k, v))]
      exact or_congr_right ⟨fun he => ⟨he, ne e he⟩, fun he => he.1⟩
    · subst same
      have ne : ∀ e' ∈ rest, e'.1 ≠ k := fun e' he' => (above e' he').ne'
      simp only [mem_cons]
      constructor
      · rintro (rfl | inRest)
        · exact .inl rfl
        · exact .inr ⟨.inr inRest, ne e inRest⟩
      · rintro (rfl | ⟨rfl | inRest, neKey⟩)
        · exact .inl rfl
        · exact absurd rfl neKey
        · exact .inr inRest
    · simp only [mem_cons, ih sortedRest]
      constructor
      · rintro (rfl | rfl | ⟨inRest, neKey⟩)
        · exact .inr ⟨.inl rfl, fun eq => same eq.symm⟩
        · exact .inl rfl
        · exact .inr ⟨.inr inRest, neKey⟩
      · rintro (rfl | ⟨rfl | inRest, neKey⟩)
        · exact .inr (.inl rfl)
        · exact .inl rfl
        · exact .inr (.inr ⟨inRest, neKey⟩)

theorem pairwise_insertEntry (k : K) (v : V) (sorted : l.Pairwise (fun a b => a.1 < b.1)) :
    (insertEntry k v l).Pairwise (fun a b => a.1 < b.1) := by
  induction l with
  | nil => simp [insertEntry]
  | cons head rest ih =>
    obtain ⟨k', v'⟩ := head
    obtain ⟨above, sortedRest⟩ := pairwise_cons.mp sorted
    simp only [insertEntry]
    split_ifs with smaller same
    · refine pairwise_cons.mpr ⟨fun e he => ?_, sorted⟩
      rcases mem_cons.mp he with rfl | inRest
      · exact smaller
      · exact smaller.trans (above e inRest)
    · subst same
      exact pairwise_cons.mpr ⟨above, sortedRest⟩
    · refine pairwise_cons.mpr ⟨fun e he => ?_, ih sortedRest⟩
      rcases (mem_insertEntry sortedRest).mp he with rfl | ⟨inRest, -⟩
      · exact lt_of_le_of_ne (not_lt.mp smaller) fun eq => same eq.symm
      · exact above e inRest

def empty : SortedMap K V := ⟨[], .nil⟩

variable (m)

def insert (k : K) (v : V) : SortedMap K V :=
  ⟨insertEntry k v m.entries, pairwise_insertEntry k v m.sorted⟩

def get? (k : K) : Option V :=
  (m.entries.find? (fun e => e.1 = k)).map Prod.snd

def contains (k : K) : Bool := (m.get? k).isSome

def filter (p : K → V → Bool) : SortedMap K V :=
  ⟨m.entries.filter (fun e => p e.1 e.2), m.sorted.filter _⟩

def mapValues (f : V → V) : SortedMap K V :=
  ⟨m.entries.map fun e => (e.1, f e.2), pairwise_map.mpr m.sorted⟩

def erase (k : K) : SortedMap K V := m.filter (fun k' _ => k' ≠ k)

/-- Drop the smallest keys until at most `n` entries are left. -/
def keepLast (n : Nat) : SortedMap K V :=
  ⟨m.entries.drop (m.entries.length - n), m.sorted.sublist (drop_sublist _ _)⟩

def keys : List K := m.entries.map Prod.fst

variable {m}

/-! ## Membership -/

instance : Membership (K × V) (SortedMap K V) := ⟨fun m e => e ∈ m.entries⟩

theorem mem_def : e ∈ m ↔ e ∈ m.entries := Iff.rfl

@[simp] theorem not_mem_empty (e : K × V) : e ∉ (empty : SortedMap K V) := not_mem_nil

theorem mem_insert : e ∈ m.insert k v ↔ e = (k, v) ∨ (e ∈ m ∧ e.1 ≠ k) :=
  mem_insertEntry m.sorted

theorem pair_mem_insert {v' : V} : (k', v') ∈ m.insert k v ↔ (k' = k ∧ v' = v) ∨ ((k', v') ∈ m ∧ k' ≠ k) := by
  rw [mem_insert, Prod.mk.injEq]

theorem mem_filter : e ∈ m.filter p ↔ e ∈ m ∧ p e.1 e.2 = true :=
  List.mem_filter

theorem nodup_keys (m : SortedMap K V) : m.keys.Nodup := by
  have strict := pairwise_map.mpr m.sorted
  exact strict.imp fun lt => lt.ne

theorem mem_keys : k ∈ m.keys ↔ ∃ v, (k, v) ∈ m := by
  simp [keys, mem_def]

theorem mem_erase : e ∈ m.erase k ↔ e ∈ m ∧ e.1 ≠ k := by
  simp [erase, mem_filter]

theorem mem_keys_insert : k' ∈ (m.insert k v).keys ↔ k' = k ∨ k' ∈ m.keys := by
  simp only [mem_keys, mem_insert, Prod.mk.injEq]
  constructor
  · rintro ⟨v', ⟨rfl, -⟩ | ⟨old, -⟩⟩
    · exact .inl rfl
    · exact .inr ⟨v', old⟩
  · rintro (rfl | ⟨v', old⟩)
    · exact ⟨v, .inl ⟨rfl, rfl⟩⟩
    · by_cases same : k' = k
      · exact ⟨v, .inl ⟨same, rfl⟩⟩
      · exact ⟨v', .inr ⟨old, same⟩⟩

theorem mem_keys_erase : k' ∈ (m.erase k).keys ↔ k' ∈ m.keys ∧ k' ≠ k := by
  simp only [mem_keys, mem_erase]
  exact ⟨fun ⟨v, old, ne⟩ => ⟨⟨v, old⟩, ne⟩, fun ⟨⟨v, old⟩, ne⟩ => ⟨v, old, ne⟩⟩

/-- Two entries of one key are the same entry. -/
theorem mem_unique {v v' : V} (h : (k, v) ∈ m) (h' : (k, v') ∈ m) : v = v' := by
  have inj := inj_on_of_nodup_map (f := Prod.fst) m.nodup_keys h h' rfl
  exact congrArg Prod.snd inj

theorem get?_eq_some_iff : m.get? k = some v ↔ (k, v) ∈ m := by
  constructor
  · intro found
    obtain ⟨⟨k', v'⟩, first, rfl⟩ := map_eq_some_iff.mp found
    obtain rfl : k' = k := by simpa using find?_some first
    exact mem_of_find?_eq_some first
  · intro present
    cases found : m.entries.find? (fun e => e.1 = k) with
    | none => exact absurd (find?_eq_none.mp found _ present) (by simp)
    | some e =>
      have key : e.1 = k := by simpa using find?_some found
      have value : e.2 = v := mem_unique (m := m) (k := k) (key ▸ mem_of_find?_eq_some found) present
      simp [get?, found, value]

@[simp] theorem get?_insert_self (m : SortedMap K V) (k : K) (v : V) : (m.insert k v).get? k = some v :=
  get?_eq_some_iff.mpr (mem_insert.mpr (.inl rfl))

theorem get?_insert_ne (ne : k' ≠ k) : (m.insert k v).get? k' = m.get? k' := by
  ext v'
  rw [get?_eq_some_iff, get?_eq_some_iff, mem_insert]
  constructor
  · rintro (same | ⟨old, -⟩)
    · exact absurd (congrArg Prod.fst same) ne
    · exact old
  · exact fun old => .inr ⟨old, ne⟩

theorem get?_insert (m : SortedMap K V) (k k' : K) (v : V) :
    (m.insert k v).get? k' = if k' = k then some v else m.get? k' := by
  split
  next same => rw [same, get?_insert_self]
  next other => exact get?_insert_ne other

@[simp] theorem get?_empty (k : K) : (empty : SortedMap K V).get? k = none := rfl

theorem get?_filter : (m.filter p).get? k = (m.get? k).filter (p k) := by
  ext v
  simp only [get?_eq_some_iff, mem_filter, filter_eq_some_iff]

theorem get?_erase (m : SortedMap K V) (k k' : K) : (m.erase k).get? k' = if k' = k then none else m.get? k' := by
  rw [erase, get?_filter]
  cases m.get? k' with
  | none => simp
  | some v => by_cases same : k' = k <;> simp [same]

theorem insertEntry_of_mem (sorted : l.Pairwise (fun a b => a.1 < b.1)) (mem : (k, v) ∈ l) : insertEntry k v l = l := by
  induction l with
  | nil => cases mem
  | cons head rest ih =>
    obtain ⟨above, sortedRest⟩ := pairwise_cons.mp sorted
    obtain rfl | inRest := mem_cons.mp mem
    · simp [insertEntry]
    · have later := above _ inRest
      simp [insertEntry, later.not_gt, later.ne', ih sortedRest inRest]

/-- Inserting an entry again changes nothing. -/
theorem insert_of_mem (mem : (k, v) ∈ m) : m.insert k v = m := by
  obtain ⟨entries, sorted⟩ := m
  simp only [insert, insertEntry_of_mem sorted mem]

theorem insertEntry_of_lt (above : ∀ e ∈ l, e.1 < k) : insertEntry k v l = l ++ [(k, v)] := by
  induction l with
  | nil => rfl
  | cons head rest ih =>
    have later := above head (.head _)
    simp [insertEntry, later.not_gt, later.ne', ih fun e mem => above e (.tail _ mem)]

/-- A key above all others goes to the end. -/
theorem entries_insert_of_lt (above : ∀ e ∈ m.entries, e.1 < k) :
    (m.insert k v).entries = m.entries ++ [(k, v)] := insertEntry_of_lt above

theorem entries_erase_of_head {rest : List (K × V)} (shape : m.entries = (k, v) :: rest) :
    (m.erase k).entries = rest := by
  have sorted := m.sorted
  rw [shape, pairwise_cons] at sorted
  change m.entries.filter _ = rest
  rw [shape, filter_cons, if_neg (by simp), filter_eq_self]
  intro e inRest
  simpa using (sorted.1 e inRest).ne'

theorem length_insertEntry_le (k : K) (v : V) (l : List (K × V)) : (insertEntry k v l).length ≤ l.length + 1 := by
  induction l with
  | nil => exact le_rfl
  | cons e rest ih =>
    unfold insertEntry
    split
    · exact le_rfl
    · split
      · exact Nat.le_succ _
      · exact Nat.succ_le_succ ih

/-- An insertion that lets a map grow beyond `n` and puts its entry first: all other keys are higher. -/
theorem lt_of_head?_insert {n : Nat} {v' : V} (size : m.entries.length ≤ n) (more : n < (m.insert k v).entries.length)
    (first : (m.insert k v).entries.head? = some (k, v')) : n ≤ m.entries.length ∧ ∀ e ∈ m.entries, k < e.1 := by
  obtain ⟨entries, sorted⟩ := m
  cases entries with
  | nil => exact ⟨Nat.le_of_lt_succ more, nofun⟩
  | cons head rest =>
    simp only [insert, insertEntry] at more first
    split_ifs at more first with smaller same
    · refine ⟨Nat.le_of_lt_succ more, forall_mem_cons.mpr ⟨smaller, fun e mem => ?_⟩⟩
      exact smaller.trans ((pairwise_cons.mp sorted).1 e mem)
    · exact absurd (size.trans_lt more) (lt_irrefl _)
    · exact absurd (congrArg Prod.fst (some.inj first)).symm same

theorem entries_insert_of_forall_lt (above : ∀ e ∈ m.entries, k < e.1) :
    (m.insert k v).entries = (k, v) :: m.entries := by
  obtain ⟨entries, sorted⟩ := m
  cases entries with
  | nil => rfl
  | cons head rest => exact if_pos (above head (.head _))

section Fold

variable {α : Type} {key : α → K} {value : α → V}

variable {l : List α}

theorem get?_foldl_insert_of_not_mem {k : K} (other : k ∉ l.map key) (m : SortedMap K V) :
    (l.foldl (fun m e => m.insert (key e) (value e)) m).get? k = m.get? k := by
  induction l generalizing m with
  | nil => rfl
  | cons head rest ih =>
    rw [map_cons, mem_cons, not_or] at other
    rw [foldl_cons, ih other.2, get?_insert_ne other.1]

theorem get?_foldl_insert_of_mem (distinct : (l.map key).Nodup) {e : α} (mem : e ∈ l) (m : SortedMap K V) :
    (l.foldl (fun m e => m.insert (key e) (value e)) m).get? (key e) = some (value e) := by
  induction l generalizing m with
  | nil => cases mem
  | cons head rest ih =>
    obtain ⟨first, distinct⟩ := nodup_cons.mp distinct
    rw [foldl_cons]
    cases mem with
    | head => rw [get?_foldl_insert_of_not_mem first, get?_insert_self]
    | tail _ mem => exact ih distinct mem _

/-- Where the key decides about the value, it does not matter which entry comes last. -/
theorem get?_foldl_insert {f : K → V} (values : ∀ e ∈ l, value e = f (key e)) (m : SortedMap K V) (k : K) :
    (l.foldl (fun m e => m.insert (key e) (value e)) m).get? k = if k ∈ l.map key then some (f k) else m.get? k := by
  induction l generalizing m with
  | nil => simp
  | cons head rest ih =>
    rw [foldl_cons, ih fun e mem => values e (.tail _ mem), get?_insert, values head (.head _)]
    by_cases same : k = key head
    · simp [same]
    · simp [same]

end Fold

/-- Copying the entries of a map into another one. -/
theorem get?_foldl_entries {W : Type} (m : SortedMap K W) (f : W → V) (m' : SortedMap K V) (k : K) :
    (m.entries.foldl (fun m' e => m'.insert e.1 (f e.2)) m').get? k = ((m.get? k).map f).or (m'.get? k) := by
  cases found : m.get? k with
  | none =>
    have absent : k ∉ m.entries.map Prod.fst := by
      intro mem
      obtain ⟨e, inside, rfl⟩ := mem_map.mp mem
      have present := get?_eq_some_iff.mpr (mem_def.mpr inside)
      cases found.symm.trans present
    exact get?_foldl_insert_of_not_mem absent m'
  | some v => exact get?_foldl_insert_of_mem m.nodup_keys (mem_def.mp (get?_eq_some_iff.mp found)) m'

theorem contains_iff : m.contains k = true ↔ ∃ v, (k, v) ∈ m := by
  simp only [contains, isSome_iff_exists, get?_eq_some_iff]

end SortedMap
