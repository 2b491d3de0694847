import Mathlib.Data.List.Nodup

/-! # Lists in which every element follows the one before

`Chained key R start l`: the first element follows `start`, every other element follows the
key of its predecessor.
-/

/-- Each element is related by `R` to the key of the element before it, the first one to `start`. -/
def Chained {α β : Type} (key : β → α) (R : α → β → Prop) : α → List β → Prop
  | _, [] => True
  | start, x :: rest => R start x ∧ Chained key R (key x) rest

/-- The key that the next element of the list has to follow. -/
def chainEnd {α β : Type} (key : β → α) : α → List β → α
  | start, [] => start
  | _, x :: rest => chainEnd key (key x) rest

section Chained

variable {α β : Type} {key : β → α} {R : α → β → Prop} {start : α} {l l₁ l₂ : List β}

theorem chained_append : Chained key R start (l₁ ++ l₂) ↔
    Chained key R start l₁ ∧ Chained key R (chainEnd key start l₁) l₂ := by
  induction l₁ generalizing start with
  | nil => simp [Chained, chainEnd]
  | cons x rest ih => simp [Chained, chainEnd, ih, and_assoc]

theorem chainEnd_append : chainEnd key start (l₁ ++ l₂) = chainEnd key (chainEnd key start l₁) l₂ := by
  induction l₁ generalizing start with
  | nil => rfl
  | cons x rest ih => exact ih

theorem chainEnd_eq (key : β → α) (start : α) (l : List β) : chainEnd key start l =
    (l.getLast?.map key).getD start := by
  rcases List.eq_nil_or_concat l with rfl | ⟨init, last, rfl⟩
  · rfl
  · simp [chainEnd_append, chainEnd]

/-- A second chain over the same list, from what one link of the first and membership give. -/
theorem Chained.transfer {γ : Type} {key' : β → γ} {R' : γ → β → Prop} {start' : γ} (h : Chained key R start l)
    (first : ∀ x ∈ l.head?, R start x → R' start' x)
    (link : ∀ x ∈ l, ∀ y ∈ l, R (key x) y → R' (key' x) y) : Chained key' R' start' l := by
  induction l generalizing start start' with
  | nil => trivial
  | cons x rest ih =>
    refine ⟨first x (by simp) h.1, ih h.2 (fun y isFirst follows => ?_) ?_⟩
    · exact link x (by simp) y (List.mem_cons_of_mem _ (List.mem_of_mem_head? isFirst)) follows
    · exact fun y hy z hz => link y (List.mem_cons_of_mem _ hy) z (List.mem_cons_of_mem _ hz)

variable {R : Nat → β → Prop}

section

variable {key : β → Nat} {start : Nat} (h : Chained key R start l) (grows : ∀ n x, R n x → n < key x)

include h grows

/-- Keys that grow along the chain are all above its start. -/
theorem Chained.lt_of_mem {x : β} (mem : x ∈ l) : start < key x:= by
  induction l generalizing start with
  | nil => cases mem
  | cons y rest ih =>
    have first := grows _ _ h.1
    obtain rfl | mem := List.mem_cons.mp mem
    · exact first
    · exact Nat.lt_trans first (ih h.2 mem)

theorem Chained.nodup : (l.map key).Nodup := by
  induction l generalizing start with
  | nil => exact List.nodup_nil
  | cons x rest ih =>
    refine List.nodup_cons.mpr ⟨fun mem => ?_, ih h.2⟩
    obtain ⟨y, hy, same⟩ := List.mem_map.mp mem
    exact absurd (h.2.lt_of_mem grows hy) (by omega)

end

end Chained
