import Mathlib.Data.List.Forall2
import TenantScript.Eval.State

/-!
Two actions side by side, from states that are related. An action follows another one if it has a
result wherever the other one has; two actions match if, beside that, each fails where the other
one does. Both are closed under the ways in which actions are put together, so that a statement on
two runs of a script needs a proof for the primitive actions alone.
-/

namespace TenantScript

namespace Action

variable {σ α β γ δ ε : Type} {I : σ → σ → Prop} {R : α → β → Prop} {S : γ → δ → Prop}
  {x : Action σ α} {y : Action σ β}

/-- Where `x` has a result, `y` has one related to it by `R`, from states related by `I` to states
related by `I`. -/
def Follows (I : σ → σ → Prop) (R : α → β → Prop) (x : Action σ α) (y : Action σ β) : Prop :=
  ∀ s s', I s s' → ∀ a s₁, x.run s = (.ok a, s₁) →
    ∃ b s₁', y.run s' = (.ok b, s₁') ∧ I s₁ s₁' ∧ R a b

namespace Follows

theorem pure {a : α} {b : β} (h : R a b) :
    Follows I R (pure a : Action σ α) (pure b : Action σ β) := by
  intro s s' hs a' s₁ hx
  cases hx
  exact ⟨b, s', rfl, hs, h⟩

theorem fail (cause : Cause) (y : Action σ β) : Follows I R (fail cause) y :=
  fun _ _ _ _ _ hx => nomatch hx

theorem bind {f : α → Action σ γ} {f' : β → Action σ δ} (hx : Follows I R x y)
    (hf : ∀ a b, R a b → Follows I S (f a) (f' b)) : Follows I S (x >>= f) (y >>= f') := by
  intro s s' hs c s₂ hrun
  obtain ⟨a, s₁, hfirst, hsecond⟩ := exists_of_run_bind hrun
  obtain ⟨b, s₁', hy, hs₁, hab⟩ := hx s s' hs a s₁ hfirst
  obtain ⟨d, s₂', hd, hs₂, hcd⟩ := hf a b hab s₁ s₁' hs₁ c s₂ hsecond
  exact ⟨d, s₂', by rw [run_bind_ok f' hy, hd], hs₂, hcd⟩

end Follows

/-! ### Actions that match -/

/-- Whether two actions ended alike: with results related by `R`, or with failures related by
`E`. -/
inductive EndsAlike (E : EvalError → EvalError → Prop) (R : α → β → Prop) :
    Except EvalError α → Except EvalError β → Prop
  | result {a : α} {b : β} (h : R a b) : EndsAlike E R (.ok a) (.ok b)
  | failure {e e' : EvalError} (h : E e e') : EndsAlike E R (.error e) (.error e')

theorem EndsAlike.mapError {E : EvalError → EvalError → Prop} {f f' : EvalError → EvalError}
    (hf : ∀ e e', E e e' → E (f e) (f' e')) {r : Except EvalError α} {r' : Except EvalError β}
    (h : EndsAlike E R r r') : EndsAlike E R (r.mapError f) (r'.mapError f') := by
  cases h with
  | result h => exact .result h
  | failure h => exact .failure (hf _ _ h)

theorem EndsAlike.imp {E : EvalError → EvalError → Prop} {R' : α → β → Prop}
    (hR : ∀ a b, R a b → R' a b) {r : Except EvalError α} {r' : Except EvalError β}
    (h : EndsAlike E R r r') : EndsAlike E R' r r' := by
  cases h with
  | result h => exact .result (hR _ _ h)
  | failure h => exact .failure h

theorem EndsAlike.refl {E : EvalError → EvalError → Prop} [Std.Refl E] (r : Except EvalError α) :
    EndsAlike E Eq r r := by
  cases r with
  | ok a => exact .result rfl
  | error e => exact .failure (Std.Refl.refl e)

/-- From states related by `I` both actions end alike, in states related by `I`. -/
def Matches (I : σ → σ → Prop) (E : EvalError → EvalError → Prop) (R : α → β → Prop)
    (x : Action σ α) (y : Action σ β) : Prop :=
  ∀ s s', I s s' → EndsAlike E R (x.run s).1 (y.run s').1 ∧ I (x.run s).2 (y.run s').2

namespace Matches

variable {E : EvalError → EvalError → Prop}

theorem pure {a : α} {b : β} (h : R a b) :
    Matches I E R (pure a : Action σ α) (pure b : Action σ β) := fun _ _ hs => ⟨.result h, hs⟩

theorem fail {cause cause' : Cause} (h : E (.ofCause cause) (.ofCause cause')) :
    Matches I E R (fail cause : Action σ α) (fail cause' : Action σ β) :=
  fun _ _ hs => ⟨.failure h, hs⟩

theorem get {f : σ → α} {f' : σ → β} (h : ∀ s s', I s s' → R (f s) (f' s')) :
    Matches I E R (get f) (get f') := fun s s' hs => ⟨.result (h s s' hs), hs⟩

theorem bind {f : α → Action σ γ} {f' : β → Action σ δ} (hx : Matches I E R x y)
    (hf : ∀ a b, R a b → Matches I E S (f a) (f' b)) : Matches I E S (x >>= f) (y >>= f') := by
  intro s s' hs
  obtain ⟨hends, hs₁⟩ := hx s s' hs
  rw [run_bind, run_bind]
  rcases hr : x.run s with ⟨r, s₁⟩
  rcases hr' : y.run s' with ⟨r', s₁'⟩
  rw [hr, hr'] at hends hs₁
  cases hends with
  | result h => exact hf _ _ h s₁ s₁' hs₁
  | failure h => exact ⟨.failure h, hs₁⟩

/-- An action with the same result on both sides. -/
theorem bind_eq {x y : Action σ α} {f : α → Action σ γ} {f' : α → Action σ δ}
    (hx : Matches I E Eq x y) (hf : ∀ a, Matches I E S (f a) (f' a)) :
    Matches I E S (x >>= f) (y >>= f') :=
  bind hx fun a _ h => h ▸ hf a

theorem within {span span' : Span}
    (hE : ∀ e e', E e e' → E (e.orAt span) (e'.orAt span')) (h : Matches I E R x y) :
    Matches I E R (within span x) (within span' y) := by
  intro s s' hs
  obtain ⟨hends, hs₁⟩ := h s s' hs
  rw [run_within, run_within]
  exact ⟨hends.mapError hE, hs₁⟩

theorem mapM {f : ε → Action σ α} {f' : ε → Action σ β} : {es : List ε} →
    (∀ e ∈ es, Matches I E R (f e) (f' e)) →
      Matches I E (List.Forall₂ R) (es.mapM f) (es.mapM f')
  | [], _ => by
    rw [List.mapM_nil, List.mapM_nil]
    exact pure .nil
  | e :: es, h => by
    rw [List.mapM_cons, List.mapM_cons]
    refine bind (h e List.mem_cons_self) fun a b hab => ?_
    refine bind (mapM fun e he => h e (List.mem_cons_of_mem _ he)) fun as bs habs => ?_
    exact pure (.cons hab habs)

theorem imp {R' : α → β → Prop} (h : Matches I E R x y) (hR : ∀ a b, R a b → R' a b) :
    Matches I E R' x y := by
  intro s s' hs
  obtain ⟨hends, hs₁⟩ := h s s' hs
  exact ⟨hends.imp hR, hs₁⟩

/-- What matches follows. -/
theorem follows (h : Matches I E R x y) : Follows I R x y := by
  intro s s' hs a s₁ hx
  obtain ⟨hends, hs₁⟩ := h s s' hs
  rcases hy : y.run s' with ⟨r', s₁'⟩
  rw [hx, hy] at hends hs₁
  cases hends with
  | result h => exact ⟨_, s₁', rfl, hs₁, h⟩

section Refl

/-! Failures of the same cause are related. -/

variable [Std.Refl E]

theorem self (x : Action σ α) : Matches Eq E Eq x x := by
  rintro s _ rfl
  exact ⟨.refl _, rfl⟩

theorem fail_self {cause : Cause} :
    Matches I E R (Action.fail cause : Action σ α) (Action.fail cause : Action σ β) :=
  fail (Std.Refl.refl _)

theorem ofExcept_map (f : α → β) (r : Except Cause α) :
    Matches I E (fun a b => b = f a) (ofExcept r) (ofExcept (r.map f)) := by
  cases r with
  | ok a => exact pure rfl
  | error cause => exact fail_self

theorem ofExcept_self (r : Except Cause α) : Matches I E Eq (ofExcept r) (ofExcept r) := by
  cases r with
  | ok a => exact pure rfl
  | error cause => exact fail_self

theorem require_map (f : α → β) (cause : Cause) (a? : Option α) :
    Matches I E (fun a b => b = f a) (require cause a?) (require cause (a?.map f)) := by
  cases a? with
  | some a => exact pure rfl
  | none => exact fail_self

end Refl

section State

variable {I : State → State → Prop}

/-- Actions on the heap, in states of which `I` says `J` of the heaps. -/
theorem onHeap {J : Heap → Heap → Prop} {x : Action Heap α} {y : Action Heap β}
    (hJ : ∀ {st st'}, I st st' → J st.heap st'.heap)
    (hI : ∀ {st st' h h'}, I st st' → J h h' → I { st with heap := h } { st' with heap := h' })
    (h : Matches J E R x y) : Matches I E R (Run.onHeap x) (Run.onHeap y) := by
  intro st st' hst
  obtain ⟨hends, hheap⟩ := h st.heap st'.heap (hJ hst)
  exact ⟨hends, hI hst hheap⟩

theorem nested {x : Run α} {y : Run β}
    (hI : ∀ {st st'} (f : Nat → Nat), I st st' →
      I { st with depth := f st.depth } { st' with depth := f st'.depth })
    (h : Matches I E R x y) : Matches I E R (Run.nested x) (Run.nested y) := by
  intro st st' hst
  obtain ⟨hends, hst₁⟩ := h _ _ (hI (· + 1) hst)
  exact ⟨hends, hI (· - 1) hst₁⟩

theorem inScope {x : Run α} {y : Run β}
    (hpush : ∀ {st st'}, I st st' →
      I { st with env := st.env.push } { st' with env := st'.env.push })
    (hpop : ∀ {st st'}, I st st' → I { st with env := st.env.pop } { st' with env := st'.env.pop })
    (h : Matches I E R x y) : Matches I E R (Run.inScope x) (Run.inScope y) := by
  intro st st' hst
  obtain ⟨hends, hst₁⟩ := h _ _ (hpush hst)
  exact ⟨hends, hpop hst₁⟩

end State

end Matches

end Action

end TenantScript
