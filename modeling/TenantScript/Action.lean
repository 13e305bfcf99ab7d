import TenantScript.Error

/-!
Actions: computations that read and write a state and may fail. What an action wrote before it
failed stays written, so that nothing about a failure is assumed of the state: that a failed store
changes nothing is a fact about the store.
-/

namespace TenantScript

/-- A computation on a state of type `σ` with a result of type `α`. -/
structure Action (σ α : Type) where
  run : σ → Except EvalError α × σ

namespace Action

variable {σ τ α β : Type}

theorem ext {x y : Action σ α} (h : ∀ s, x.run s = y.run s) : x = y := by
  cases x; cases y
  congr
  exact funext h

/-- Goes on with `f` if `x` has a result. -/
@[inline] def andThen (x : Action σ α) (f : α → Action σ β) : Action σ β :=
  ⟨fun s =>
    match x.run s with
    | (.ok a, s') => (f a).run s'
    | (.error e, s') => (.error e, s')⟩

instance : Monad (Action σ) where
  pure a := ⟨fun s => (.ok a, s)⟩
  bind := andThen

@[simp] theorem run_pure (a : α) (s : σ) : (pure a : Action σ α).run s = (.ok a, s) := rfl

theorem run_bind (x : Action σ α) (f : α → Action σ β) (s : σ) :
    (x >>= f).run s =
      match x.run s with
      | (.ok a, s') => (f a).run s'
      | (.error e, s') => (.error e, s') := rfl

theorem run_bind_ok {x : Action σ α} {s s' : σ} {a : α} (f : α → Action σ β)
    (h : x.run s = (.ok a, s')) : (x >>= f).run s = (f a).run s' := by
  rw [run_bind, h]

theorem run_bind_error {x : Action σ α} {s s' : σ} {e : EvalError} (f : α → Action σ β)
    (h : x.run s = (.error e, s')) : (x >>= f).run s = (.error e, s') := by
  rw [run_bind, h]

/-- What has a result in two steps has one in each. -/
theorem exists_of_run_bind {x : Action σ α} {f : α → Action σ β} {s s'' : σ} {b : β}
    (h : (x >>= f).run s = (.ok b, s'')) :
    ∃ a s', x.run s = (.ok a, s') ∧ (f a).run s' = (.ok b, s'') := by
  rw [run_bind] at h
  rcases hx : x.run s with ⟨_ | a, s'⟩
  · rw [hx] at h
    cases h
  · rw [hx] at h
    exact ⟨a, s', rfl, h⟩

/-- What fails in two steps fails in the first one or, after that, in the second one. -/
theorem fst_run_bind_eq_error_iff {x : Action σ α} {f : α → Action σ β} {s : σ} {e : EvalError} :
    ((x >>= f).run s).1 = .error e ↔ (x.run s).1 = .error e ∨
      ∃ a s', x.run s = (.ok a, s') ∧ ((f a).run s').1 = .error e := by
  rw [run_bind]
  rcases x.run s with ⟨_ | a, s'⟩
  · simp
  · refine ⟨fun h => .inr ⟨a, s', rfl, h⟩, ?_⟩
    rintro (h | ⟨a', s'', h, hf⟩)
    · cases h
    · cases h
      exact hf

instance : LawfulMonad (Action σ) :=
  LawfulMonad.mk' (Action σ)
    (fun x => ext fun s => by
      simp only [Functor.map, andThen]
      rcases x.run s with ⟨_ | _, _⟩ <;> rfl)
    (fun _ _ => rfl)
    (fun x f g => ext fun s => by
      simp only [run_bind]
      rcases x.run s with ⟨_ | _, _⟩ <;> rfl)

/-- Fails. -/
def throw (e : EvalError) : Action σ α := ⟨fun s => (.error e, s)⟩

/-- Fails for a cause, with no place yet. -/
def fail (cause : Cause) : Action σ α := throw (.ofCause cause)

/-- A result of the state. -/
def get (f : σ → α) : Action σ α := ⟨fun s => (.ok (f s), s)⟩

/-- Changes the state. -/
def modify (f : σ → σ) : Action σ Unit := ⟨fun s => (.ok (), f s)⟩

/-- A computation that does not touch the state. -/
def ofExcept : Except Cause α → Action σ α
  | .ok a => pure a
  | .error cause => fail cause

/-- The result that is there, or a failure. -/
def require (cause : Cause) : Option α → Action σ α
  | some a => pure a
  | none => fail cause

/-- Goes on with `f` if `x` fails, in the state that `x` left. -/
@[inline] def recover (x : Action σ α) (f : EvalError → Action σ α) : Action σ α :=
  ⟨fun s =>
    match x.run s with
    | (.ok a, s') => (.ok a, s')
    | (.error e, s') => (f e).run s'⟩

/-- Places a failure of `x` at `span`, unless it has a place. -/
@[inline] def within (span : Span) (x : Action σ α) : Action σ α :=
  ⟨fun s =>
    match x.run s with
    | (.ok a, s') => (.ok a, s')
    | (.error e, s') => (.error (e.orAt span), s')⟩

/-- An action on a part of the state, which `view` reads and `update` writes. -/
@[inline] def zoom (view : τ → σ) (update : τ → σ → τ) (x : Action σ α) : Action τ α :=
  ⟨fun t =>
    let (result, s) := x.run (view t)
    (result, update t s)⟩

@[simp] theorem run_get (f : σ → α) (s : σ) : (get f).run s = (.ok (f s), s) := rfl

theorem run_recover (x : Action σ α) (f : EvalError → Action σ α) (s : σ) :
    (recover x f).run s =
      match x.run s with
      | (.ok a, s') => (.ok a, s')
      | (.error e, s') => (f e).run s' := rfl

theorem run_within (span : Span) (x : Action σ α) (s : σ) :
    (within span x).run s =
      ((x.run s).1.mapError (·.orAt span), (x.run s).2) := by
  simp only [within]
  rcases x.run s with ⟨_ | _, _⟩ <;> rfl

theorem run_of_run_within {span : Span} {x : Action σ α} {s s' : σ} {a : α}
    (h : (within span x).run s = (.ok a, s')) : x.run s = (.ok a, s') := by
  rw [run_within] at h
  rcases hx : x.run s with ⟨_ | b, s₁⟩
  · rw [hx] at h
    cases h
  · rw [hx] at h
    cases h
    rfl

theorem eq_of_run_ofExcept {r : Except Cause α} {s s' : σ} {a : α}
    (h : (ofExcept r).run s = (.ok a, s')) : r = .ok a ∧ s' = s := by
  cases r with
  | ok b =>
    cases h
    exact ⟨rfl, rfl⟩
  | error cause => cases h

theorem eq_of_run_require {cause : Cause} {a? : Option α} {s s' : σ} {a : α}
    (h : (require cause a?).run s = (.ok a, s')) : a? = some a ∧ s' = s := by
  cases a? with
  | some b =>
    cases h
    exact ⟨rfl, rfl⟩
  | none => cases h

end Action

end TenantScript
