import Mathlib.Data.List.Basic

/-! # Checks that remember what they accepted

A verifier that keeps a cache of objects it has accepted may answer from the cache.
`Checks I x C S` says that from every cache that satisfies `I`, whatever it holds,
`x` accepts with result `a` whenever `C a`, ensures `S a` when it does, and leaves a
cache that satisfies `I` again. The cache keeps what a failed check stored before it
failed.
-/

/-- A check with a cache `σ`; the cache outlives a failure. -/
abbrev CachedCheck (ε σ : Type) := ExceptT ε (StateM σ)

namespace CachedCheck

variable {ε σ α β : Type}

def runCheck (x : CachedCheck ε σ α) (cache : σ) : Except ε α × σ := StateT.run (ExceptT.run x) cache

/-- Answer from the cache if the object is in it, otherwise check it. -/
def lookup (cached : σ → Bool) (body : CachedCheck ε σ Unit) : CachedCheck ε σ Unit := do
  if cached (← get) then pure () else body

/-- From every cache in `I` the check accepts what satisfies `C`, ensures `S`, and keeps `I`. -/
def Checks (I : σ → Prop) (x : CachedCheck ε σ α) (C S : α → Prop) : Prop :=
  ∀ cache, I cache → I (x.runCheck cache).2 ∧ (∀ a, C a → (x.runCheck cache).1 = .ok a) ∧
    ∀ a, (x.runCheck cache).1 = .ok a → S a

variable {I : σ → Prop}

theorem runCheck_bind (x : CachedCheck ε σ α) (f : α → CachedCheck ε σ β) (cache : σ) : (x >>= f).runCheck cache =
      match x.runCheck cache with
      | (.ok a, cache') => (f a).runCheck cache'
      | (.error e, cache') => (.error e, cache') := by
  show StateT.run (ExceptT.run (x >>= f)) cache = _
  rw [ExceptT.run_bind]
  simp only [StateT.run_bind, runCheck]
  rcases StateT.run (ExceptT.run x) cache with ⟨a | e, cache'⟩ <;> rfl

namespace Checks

theorem accept : Checks I (Pure.pure () : CachedCheck ε σ Unit) (fun _ => True) (fun _ => True) :=
  fun _ inv => ⟨inv, fun _ _ => rfl, fun _ _ => trivial⟩

theorem throw (e : ε) : Checks I (MonadExcept.throw e : CachedCheck ε σ α) (fun _ => False) (fun _ => False) := by
  refine fun cache inv => ⟨inv, fun _ impossible => impossible.elim, fun a accepted => ?_⟩
  have : (Except.error e : Except ε α) = .ok a := accepted
  cases this

/-- A check that does not touch the cache. -/
theorem ofExcept (x : Except ε α) :
    Checks I (MonadExcept.ofExcept x : CachedCheck ε σ α) (fun a => x = .ok a) (fun a => x = .ok a) := by
  cases x with
  | ok a => exact fun cache inv => ⟨inv, fun _ h => h, fun _ h => h⟩
  | error e => exact fun cache inv => ⟨inv, fun _ h => h, fun _ h => h⟩

theorem ofExcept_unit (x : Except ε Unit) :
    Checks I (MonadExcept.ofExcept x : CachedCheck ε σ Unit) (fun _ => x = .ok ()) (fun _ => x = .ok ()) :=
  ofExcept x

theorem mono {x : CachedCheck ε σ α} {C C' S S' : α → Prop} (h : Checks I x C S) (complete : ∀ a, C' a → C a)
    (sound : ∀ a, S a → S' a) : Checks I x C' S' := fun cache inv =>
  have ⟨inv', accepts, ensures⟩ := h cache inv
  ⟨inv', fun a c => accepts a (complete a c), fun a accepted => sound a (ensures a accepted)⟩

theorem bind {x : CachedCheck ε σ α} {f : α → CachedCheck ε σ β} {C S : α → Prop} {C' S' : α → β → Prop}
    (first : Checks I x C S) (second : ∀ a, S a → Checks I (f a) (C' a) (S' a)) :
    Checks I (x >>= f) (fun b => ∃ a, C a ∧ C' a b) (fun b => ∃ a, S a ∧ S' a b) := by
  intro cache inv
  obtain ⟨inv₁, accepts, ensures⟩ := first cache inv
  rw [runCheck_bind]
  rcases run : x.runCheck cache with ⟨e | a, cache'⟩
  · -- a failed first part: nothing satisfies `C`
    rw [run] at inv₁ accepts
    refine ⟨inv₁, ?_, fun b accepted => by cases accepted⟩
    rintro b ⟨a, c, -⟩
    cases accepts a c
  · rw [run] at inv₁ accepts ensures
    have s := ensures a rfl
    obtain ⟨inv₂, accepts₂, ensures₂⟩ := second a s cache' inv₁
    refine ⟨inv₂, ?_, fun b accepted => ⟨a, s, ensures₂ b accepted⟩⟩
    rintro b ⟨a', c, c'⟩
    obtain rfl : a = a' := by simpa using accepts a' c
    exact accepts₂ b c'

/-- Sequencing of checks without a result. -/
theorem seq {x y : CachedCheck ε σ Unit} {P P' Q Q' : Prop} (first : Checks I x (fun _ => P) (fun _ => P'))
    (second : P' → Checks I y (fun _ => Q) (fun _ => Q')) :
    Checks I (do x; y) (fun _ => P ∧ Q) (fun _ => P' ∧ Q') :=
  (first.bind fun _ p => second p).mono (fun _ ⟨p, q⟩ => ⟨(), p, q⟩) fun _ ⟨_, p, q⟩ => ⟨p, q⟩

/-- A check that must hold, as `if c { return Err(e) }`. -/
theorem require {c : Prop} [Decidable c] {e : ε} :
    Checks I (if c then MonadExcept.throw e else Pure.pure () : CachedCheck ε σ Unit) (fun _ => ¬c) (fun _ => ¬c) := by
  split_ifs with h
  · exact (Checks.throw e).mono (fun _ no => no h) fun _ no => no.elim
  · exact Checks.accept.mono (fun _ _ => trivial) fun _ _ => h

/-- Store an object that the check has established to be good. -/
theorem store {put : σ → σ} (keeps : ∀ cache, I cache → I (put cache)) :
    Checks I (modify put : CachedCheck ε σ Unit) (fun _ => True) (fun _ => True) :=
  fun cache inv => ⟨keeps cache inv, fun _ _ => rfl, fun _ _ => trivial⟩

theorem lookup {cached : σ → Bool} {body : CachedCheck ε σ Unit} {P Q : Prop}
    (sound : ∀ cache, I cache → cached cache = true → Q) (check : Checks I body (fun _ => P) (fun _ => Q)) :
    Checks I (lookup cached body) (fun _ => P) (fun _ => Q) := by
  intro cache inv
  have run : (CachedCheck.lookup cached body).runCheck cache =
      if cached cache then (.ok (), cache) else body.runCheck cache := by
    unfold CachedCheck.lookup
    rw [runCheck_bind]
    show (if cached cache = true then Pure.pure () else body : CachedCheck ε σ Unit).runCheck cache = _
    split_ifs <;> rfl
  rw [run]
  split_ifs with hit
  · exact ⟨inv, fun _ _ => rfl, fun _ _ => sound cache inv hit⟩
  · exact check cache inv

/-- A check with one condition accepts exactly what satisfies it. -/
theorem accepts_iff {x : CachedCheck ε σ Unit} {P : Prop} (h : Checks I x (fun _ => P) (fun _ => P)) {cache : σ}
    (inv : I cache) : (x.runCheck cache).1 = .ok () ↔ P :=
  ⟨(h cache inv).2.2 (), (h cache inv).2.1 ()⟩

end Checks

/-! ## Runs of checks that share a cache -/

/-- The verdicts of checks made one after the other on one cache. -/
def verdicts : List (CachedCheck ε σ Unit) → σ → List Bool
  | [], _ => []
  | x :: rest, cache => (x.runCheck cache).1.isOk :: verdicts rest (x.runCheck cache).2

theorem Checks.isOk_eq {x : CachedCheck ε σ Unit} {P : Prop} (h : Checks I x (fun _ => P) (fun _ => P))
    {cache cache' : σ} (inv : I cache) (inv' : I cache') :
    (x.runCheck cache).1.isOk = (x.runCheck cache').1.isOk := by
  have isOk_iff : ∀ {r : Except ε Unit}, r.isOk = true ↔ r = .ok () := by
    rintro (e | ⟨⟩) <;> simp [Except.isOk, Except.toBool]
  rw [Bool.eq_iff_iff, isOk_iff, isOk_iff, h.accepts_iff inv, h.accepts_iff inv']

/-- A cache of good objects does not change a verdict. -/
theorem verdicts_eq {checks : List (CachedCheck ε σ Unit)}
    (exact_checks : ∀ x ∈ checks, ∃ P : Prop, Checks I x (fun _ => P) (fun _ => P))
    {cache empty : σ} (inv : I cache) (invEmpty : I empty) :
    verdicts checks cache = checks.map fun x => (x.runCheck empty).1.isOk := by
  induction checks generalizing cache with
  | nil => rfl
  | cons x rest ih =>
    obtain ⟨P, check⟩ := exact_checks x List.mem_cons_self
    have later : verdicts rest (x.runCheck cache).2 = rest.map fun x => (x.runCheck empty).1.isOk :=
      ih (fun y mem => exact_checks y (List.mem_cons_of_mem x mem)) (check cache inv).1
    simp only [verdicts, List.map_cons, later, check.isOk_eq inv invEmpty]

end CachedCheck
