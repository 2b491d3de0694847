import Mathlib.Data.List.Induction

/-! # Calls that emit commands and may panic

A handler of an event-driven program takes a state, changes it, and returns the
commands an executor is to run; an assertion inside it aborts the process. This
module gives the sequencing of such calls and the rules to reason about them:
`Sat` says which panics a call may raise and what its result satisfies, and
`Trace` is a run of labelled steps with its induction rule.
-/

/-- The result of one call: a panic, or the state after it and the commands it emitted. -/
inductive Outcome (ε σ κ : Type) where
  | panic (reason : ε)
  | ok (state : σ) (commands : List κ)

namespace Outcome

variable {ε σ κ : Type}

/-- Continue from the state a call left, keeping the commands of both in order. -/
def andThen (x : Outcome ε σ κ) (next : σ → Outcome ε σ κ) : Outcome ε σ κ :=
  match x with
  | panic reason => panic reason
  | ok s commands =>
    match next s with
    | panic reason => panic reason
    | ok s' commands' => ok s' (commands ++ commands')

/-- A call whose state is a part of a larger one. -/
def lift {τ : Type} (x : Outcome ε τ κ) (wrap : τ → σ) : Outcome ε σ κ :=
  match x with
  | panic reason => panic reason
  | ok t commands => ok (wrap t) commands

def reason? : Outcome ε σ κ → Option ε
  | panic reason => some reason
  | ok _ _ => none

variable {x : Outcome ε σ κ} {s : σ} {next : σ → Outcome ε σ κ} {commands : List κ} {E : ε → Prop}
  {Q P : σ → List κ → Prop}

theorem reason?_eq_some {reason : ε} : x.reason? = some reason ↔ x = panic reason := by
  cases x <;> simp [reason?]

def state? : Outcome ε σ κ → Option σ
  | panic _ => none
  | ok s _ => some s

theorem state?_eq_some : x.state? = some s ↔ ∃ commands, x = ok s commands := by
  cases x <;> simp [state?]

theorem andThen_eq_ok : x.andThen next = ok s commands ↔
      ∃ s₁ c₁ c₂, x = ok s₁ c₁ ∧ next s₁ = ok s c₂ ∧ commands = c₁ ++ c₂ := by
  cases x with
  | panic reason => simp [andThen]
  | ok s₁ c₁ =>
    cases second : next s₁ with
    | panic reason => simp [andThen, second]
    | ok s₂ c₂ =>
      simp only [andThen, second, ok.injEq]
      constructor
      · rintro ⟨rfl, rfl⟩
        exact ⟨s₁, c₁, c₂, ⟨rfl, rfl⟩, second, rfl⟩
      · rintro ⟨s', c', c'', ⟨rfl, rfl⟩, second', rfl⟩
        obtain ⟨rfl, rfl⟩ : s₂ = s ∧ c₂ = c'' := by simpa [second] using second'
        exact ⟨rfl, rfl⟩

theorem lift_eq_ok {τ : Type} {x : Outcome ε τ κ} {wrap : τ → σ} :
    x.lift wrap = ok s commands ↔ ∃ t, x = ok t commands ∧ s = wrap t := by
  cases x with
  | panic reason => simp [lift]
  | ok t c =>
    simp only [lift, ok.injEq]
    constructor
    · rintro ⟨rfl, rfl⟩
      exact ⟨t, ⟨rfl, rfl⟩, rfl⟩
    · rintro ⟨t', ⟨rfl, rfl⟩, rfl⟩
      exact ⟨rfl, rfl⟩

/-! ## Specifications -/

/-- Every panic of the call is allowed by `E`, and a normal return satisfies `Q`. -/
def Sat (x : Outcome ε σ κ) (E : ε → Prop) (Q : σ → List κ → Prop) : Prop :=
  match x with
  | panic reason => E reason
  | ok s commands => Q s commands

@[simp] theorem sat_panic {reason : ε} : (panic reason : Outcome ε σ κ).Sat E Q ↔ E reason := Iff.rfl

@[simp] theorem sat_ok : (ok s commands : Outcome ε σ κ).Sat E Q ↔ Q s commands := Iff.rfl

theorem Sat.andThen (first : x.Sat E P) (second : ∀ s c, P s c → (next s).Sat E (fun s' c' => Q s' (c ++ c'))) :
    (x.andThen next).Sat E Q := by
  cases x with
  | panic reason => exact first
  | ok s c =>
    have rest := second s c first
    simp only [Outcome.andThen]
    split
    · simpa [*] using rest
    · simpa [*] using rest

theorem Sat.mono {E E' : ε → Prop} (h : x.Sat E P) (panics : ∀ e, E e → E' e) (post : ∀ s c, P s c → Q s c) :
    x.Sat E' Q := by
  cases x with
  | panic reason => exact panics reason h
  | ok s c => exact post s c h

theorem Sat.lift {τ : Type} {x : Outcome ε τ κ} {wrap : τ → σ} (h : x.Sat E (fun t c => Q (wrap t) c)) :
    (x.lift wrap).Sat E Q := by
  cases x with
  | panic reason => exact h
  | ok t c => exact h

theorem Sat.of_ok {c : List κ} (h : x.Sat E Q) (returns : x = ok s c) : Q s c := by
  subst returns
  exact h

theorem Sat.exists_ok (h : x.Sat (fun _ => False) Q) : ∃ s c, x = ok s c := by
  cases x with
  | panic reason => exact h.elim
  | ok s c => exact ⟨s, c, rfl⟩

end Outcome

/-! ## Runs of labelled steps -/

/-- A run: the labels of its steps, oldest first. -/
inductive Trace {σ ℓ : Type} (step : σ → ℓ → σ → Prop) (init : σ) : List ℓ → σ → Prop where
  | nil : Trace step init [] init
  | snoc {labels : List ℓ} {s s' : σ} {label : ℓ} :
      Trace step init labels s → step s label s' → Trace step init (labels ++ [label]) s'

namespace Trace

variable {σ ℓ : Type} {step : σ → ℓ → σ → Prop}

variable {s t u s' : σ} {first second labels : List ℓ} {label : ℓ}

theorem append (left : Trace step s first t) (right : Trace step t second u) : Trace step s (first ++ second) u := by
  induction right with
  | nil => simpa using left
  | snoc _ taken ih =>
    rw [← List.append_assoc]
    exact ih.snoc taken

theorem mono {step' : σ → ℓ → σ → Prop} (sub : ∀ {s label s'}, step s label s' → step' s label s')
    (run : Trace step s labels s') : Trace step' s labels s' := by
  induction run with
  | nil => exact .nil
  | snoc _ taken ih => exact ih.snoc (sub taken)

theorem single (taken : step s label s') : Trace step s [label] s' :=
  Trace.nil.snoc taken

theorem cons (taken : step s label t) (run : Trace step t labels u) : Trace step s (label :: labels) u :=
  (single taken).append run

/-- The step behind a label of a run. -/
theorem exists_of_mem (run : Trace step s labels s') (mem : label ∈ labels) :
    ∃ before t t', Trace step s before t ∧ step t label t' := by
  induction run with
  | nil => cases mem
  | snoc run taken ih =>
    obtain old | new := List.mem_append.mp mem
    · exact ih old
    · exact ⟨_, _, _, run, List.mem_singleton.mp new ▸ taken⟩

theorem snoc_inv (run : Trace step s (labels ++ [label]) u) : ∃ t, Trace step s labels t ∧ step t label u := by
  generalize shape : labels ++ [label] = all at run
  cases run with
  | nil => simp at shape
  | snoc before taken =>
    obtain ⟨rfl, same⟩ := List.append_inj' shape rfl
    obtain rfl : label = _ := List.singleton_inj.mp same
    exact ⟨_, before, taken⟩

theorem split (run : Trace step s (first ++ second) u) : ∃ t, Trace step s first t ∧ Trace step t second u := by
  induction second using List.reverseRecOn generalizing u with
  | nil => exact ⟨u, by simpa using run, .nil⟩
  | append_singleton rest label ih =>
    rw [← List.append_assoc] at run
    obtain ⟨t', before, taken⟩ := run.snoc_inv
    obtain ⟨t, left, right⟩ := ih before
    exact ⟨t, left, right.snoc taken⟩

theorem nil_inv (run : Trace step s [] u) : u = s := by
  generalize shape : [] = labels at run
  cases run with
  | nil => rfl
  | snoc => simp at shape

/-- A run, cut at one of its steps. -/
theorem split_cons {before after : List ℓ} (run : Trace step s (before ++ label :: after) u) :
    ∃ t t', Trace step s before t ∧ step t label t' ∧ Trace step t' after u := by
  rw [List.append_cons] at run
  obtain ⟨t', first, later⟩ := run.split
  obtain ⟨t, reaches, taken⟩ := first.snoc_inv
  exact ⟨t, t', reaches, taken, later⟩

theorem cons_inv {rest : List ℓ} (run : Trace step s (label :: rest) u) :
    ∃ t, step s label t ∧ Trace step t rest u := by
  obtain ⟨s', t, start, taken, later⟩ := split_cons (List.nil_append (label :: rest) ▸ run)
  cases start.nil_inv
  exact ⟨t, taken, later⟩

/-- A step with the state that it was taken in as part of its label. -/
def Recorded (step : σ → ℓ → σ → Prop) (s : σ) (entry : σ × ℓ) (s' : σ) : Prop :=
  entry.1 = s ∧ step s entry.2 s'

theorem recorded (run : Trace step s labels s') :
    ∃ entries, Trace (Recorded step) s entries s' ∧ entries.map Prod.snd = labels := by
  induction run with
  | nil => exact ⟨[], .nil, rfl⟩
  | @snoc labels t t' label _ taken ih =>
    obtain ⟨entries, run, same⟩ := ih
    exact ⟨entries ++ [(t, label)], run.snoc ⟨rfl, taken⟩, by simp [same]⟩

theorem of_recorded {entries : List (σ × ℓ)} (run : Trace (Recorded step) s entries s') :
    Trace step s (entries.map Prod.snd) s' := by
  induction run with
  | nil => exact .nil
  | snoc _ taken ih => simpa using ih.snoc taken.2

/-- The state that an entry of a recorded run names is the one that the run had reached. -/
theorem recorded_at {before after : List (σ × ℓ)} (run : Trace (Recorded step) s (before ++ (t, label) :: after) s') :
    Trace (Recorded step) s before t ∧ ∃ t', step t label t' := by
  rw [List.append_cons] at run
  obtain ⟨t', first, -⟩ := run.split
  obtain ⟨t'', reaches, rfl, taken⟩ := first.snoc_inv
  exact ⟨reaches, t', taken⟩

end Trace
