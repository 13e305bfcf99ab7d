import Mathlib.Data.List.Forall2
import Mathlib.Order.Basic
import TenantScript.Eval.State

/-!
Invariants of actions. An invariant is relative to a world, which stands for what is known of the
storages made so far and only ever grows. `Maintains` is closed under every way in which actions
are put together, so that a fact about a script needs a proof for the primitive actions alone.
-/

namespace TenantScript

namespace Action

variable {W σ α β : Type} [Preorder W] {I : W → σ → Prop} {w : W}

/-- From a state that meets `I` in the world `w`, an action ends, also by failing, in a state that
meets `I` in a world from `w` on, and a result is one of `Q` in that world. -/
def Maintains (I : W → σ → Prop) (w : W) (x : Action σ α) (Q : W → α → Prop) : Prop :=
  ∀ s, I w s → ∃ w', w ≤ w' ∧ I w' (x.run s).2 ∧ ∀ a, (x.run s).1 = .ok a → Q w' a

namespace Maintains

variable {x : Action σ α} {Q P : W → α → Prop} {R : W → β → Prop}

theorem imp (h : Maintains I w x P) (hPQ : ∀ w', w ≤ w' → ∀ a, P w' a → Q w' a) :
    Maintains I w x Q := by
  intro s hs
  obtain ⟨w', hw, hs', ha⟩ := h s hs
  exact ⟨w', hw, hs', fun a e => hPQ w' hw a (ha a e)⟩

theorem pure {a : α} (h : Q w a) : Maintains I w (pure a) Q := by
  intro s hs
  refine ⟨w, le_rfl, hs, fun b e => ?_⟩
  cases e
  exact h

theorem throw (e : EvalError) : Maintains I w (throw e : Action σ α) Q :=
  fun _ hs => ⟨w, le_rfl, hs, fun _ e => nomatch e⟩

theorem fail (cause : Cause) : Maintains I w (fail cause : Action σ α) Q :=
  throw _

theorem get {f : σ → α} (h : ∀ s, I w s → Q w (f s)) : Maintains I w (get f) Q := by
  intro s hs
  refine ⟨w, le_rfl, hs, fun b e => ?_⟩
  cases e
  exact h s hs

theorem modify {f : σ → σ} {Q : W → Unit → Prop}
    (h : ∀ s, I w s → ∃ w', w ≤ w' ∧ I w' (f s) ∧ Q w' ()) : Maintains I w (modify f) Q := by
  intro s hs
  obtain ⟨w', hw, hs', hq⟩ := h s hs
  exact ⟨w', hw, hs', fun _ _ => hq⟩

theorem ofExcept {r : Except Cause α} (h : ∀ a, r = .ok a → Q w a) :
    Maintains I w (ofExcept r) Q := by
  cases r with
  | ok a => exact pure (h a rfl)
  | error cause => exact fail cause

theorem require {cause : Cause} {a? : Option α} (h : ∀ a, a? = some a → Q w a) :
    Maintains I w (require cause a?) Q := by
  cases a? with
  | some a => exact pure (h a rfl)
  | none => exact fail cause

theorem bind {f : α → Action σ β} (hx : Maintains I w x P)
    (hf : ∀ w', w ≤ w' → ∀ a, P w' a → Maintains I w' (f a) R) : Maintains I w (x >>= f) R := by
  intro s hs
  obtain ⟨w', hw, hs', ha⟩ := hx s hs
  rw [run_bind]
  rcases hr : x.run s with ⟨_ | a, s'⟩
  · rw [hr] at hs'
    exact ⟨w', hw, hs', fun _ e => nomatch e⟩
  · rw [hr] at hs' ha
    obtain ⟨w'', hw', hs'', hb⟩ := hf w' hw a (ha a rfl) s' hs'
    exact ⟨w'', hw.trans hw', hs'', hb⟩

theorem recover {f : EvalError → Action σ α} (hx : Maintains I w x Q)
    (hf : ∀ w', w ≤ w' → ∀ e, Maintains I w' (f e) Q) : Maintains I w (recover x f) Q := by
  intro s hs
  obtain ⟨w', hw, hs', ha⟩ := hx s hs
  rw [run_recover]
  rcases hr : x.run s with ⟨e | a, s'⟩
  · rw [hr] at hs'
    obtain ⟨w'', hw', hs'', ha'⟩ := hf w' hw e s' hs'
    exact ⟨w'', hw.trans hw', hs'', ha'⟩
  · rw [hr] at hs' ha
    exact ⟨w', hw, hs', ha⟩

theorem within {span : Span} (h : Maintains I w x Q) : Maintains I w (within span x) Q := by
  intro s hs
  obtain ⟨w', hw, hs', ha⟩ := h s hs
  rw [run_within]
  refine ⟨w', hw, hs', fun a e => ha a ?_⟩
  cases hr : (x.run s).1 with
  | ok b => simpa [hr, Except.mapError] using e
  | error _ => simp [hr, Except.mapError] at e

/-- Over a list: each item is treated in a world from `w` on, and what is known of its result
stays true as the world grows. -/
theorem mapM {f : α → Action σ β} (Q : α → W → β → Prop)
    (hQ : ∀ a b w₁ w₂, w₁ ≤ w₂ → Q a w₁ b → Q a w₂ b) : (as : List α) → {w : W} →
      (∀ a ∈ as, ∀ w', w ≤ w' → Maintains I w' (f a) (Q a)) →
      Maintains I w (as.mapM f) fun w' bs => List.Forall₂ (fun a b => Q a w' b) as bs
  | [], _, _ => by
    rw [List.mapM_nil]
    exact pure .nil
  | a :: as, w, h => by
    rw [List.mapM_cons]
    refine bind (h a List.mem_cons_self w le_rfl) fun w₁ hw₁ b hb => ?_
    refine bind (mapM Q hQ as fun a' ha' w' hw' =>
      h a' (List.mem_cons_of_mem _ ha') w' (hw₁.trans hw')) fun w₂ hw₂ bs hbs => ?_
    exact pure (.cons (hQ a b w₁ w₂ hw₂ hb) hbs)

/-- Over a list where the same is known of the result for each item. -/
theorem mapM_all {f : α → Action σ β} {Q : W → β → Prop}
    (hQ : ∀ b w₁ w₂, w₁ ≤ w₂ → Q w₁ b → Q w₂ b) {as : List α}
    (h : ∀ a ∈ as, ∀ w', w ≤ w' → Maintains I w' (f a) Q) :
    Maintains I w (as.mapM f) fun w' bs => bs.length = as.length ∧ ∀ b ∈ bs, Q w' b := by
  refine (mapM (fun _ => Q) (fun _ => hQ) as h).imp fun w' _ bs hbs => ?_
  refine ⟨hbs.length_eq.symm, fun b hb => ?_⟩
  obtain ⟨i, hi, rfl⟩ := List.getElem_of_mem hb
  exact (List.forall₂_iff_get.1 hbs).2 i (hbs.length_eq ▸ hi) hi

section State

variable {I : W → State → Prop} {x : Run α}

/-- An action on the heap, in a state of which an invariant says `J` of the heap. -/
theorem onHeap {J : W → Heap → Prop} {x : Action Heap α}
    (hJ : ∀ {st}, I w st → J w st.heap)
    (hI : ∀ {w' st h}, w ≤ w' → I w st → J w' h → I w' { st with heap := h })
    (hx : Maintains J w x Q) : Maintains I w (Run.onHeap x) Q := by
  intro st hst
  obtain ⟨w', hw, hh, ha⟩ := hx st.heap (hJ hst)
  exact ⟨w', hw, hI hw hst hh, ha⟩

theorem nested (hI : ∀ {w st d}, I w st → I w { st with depth := d }) (hx : Maintains I w x Q) :
    Maintains I w (Run.nested x) Q := by
  intro st hst
  obtain ⟨w', hw, hst', ha⟩ := hx { st with depth := st.depth + 1 } (hI hst)
  exact ⟨w', hw, hI hst', ha⟩

theorem inScope (hpush : ∀ {w st}, I w st → I w { st with env := st.env.push })
    (hpop : ∀ {w st}, I w st → I w { st with env := st.env.pop }) (hx : Maintains I w x Q) :
    Maintains I w (Run.inScope x) Q := by
  intro st hst
  obtain ⟨w', hw, hst', ha⟩ := hx { st with env := st.env.push } (hpush hst)
  exact ⟨w', hw, hpop hst', ha⟩

end State

end Maintains

section Yields

variable {σ α β : Type} {Q : α → Prop} {R : β → Prop}

/-- Every result of an action is one of `Q`. -/
def Yields (x : Action σ α) (Q : α → Prop) : Prop := ∀ s a, (x.run s).1 = .ok a → Q a

namespace Yields

theorem pure {a : α} (h : Q a) : (pure a : Action σ α).Yields Q := by
  intro s b e
  cases e
  exact h

theorem fail (cause : Cause) : (fail cause : Action σ α).Yields Q := fun _ _ e => nomatch e

theorem bind_of {x : Action σ α} {f : α → Action σ β} (hx : x.Yields Q)
    (hf : ∀ a, Q a → (f a).Yields R) : (x >>= f).Yields R := by
  intro s b e
  rw [run_bind] at e
  rcases hr : x.run s with ⟨_ | a, s'⟩
  · simp [hr] at e
  · rw [hr] at e
    exact hf a (hx s a (congrArg Prod.fst hr)) s' b e

theorem bind {x : Action σ α} {f : α → Action σ β} (hf : ∀ a, (f a).Yields R) :
    (x >>= f).Yields R :=
  bind_of (Q := fun _ => True) (fun _ _ _ => trivial) fun a _ => hf a

/-- What is known of the results of an action, beside what an invariant says of them. -/
theorem and {W : Type} [Preorder W] {I : W → σ → Prop} {w : W} {P : W → α → Prop}
    {x : Action σ α} (hy : x.Yields Q) (hx : Maintains I w x P) :
    Maintains I w x fun w' a => P w' a ∧ Q a := by
  intro s hs
  obtain ⟨w', hw, hs', ha⟩ := hx s hs
  exact ⟨w', hw, hs', fun a e => ⟨ha a e, hy s a e⟩⟩

end Yields

end Yields

end Action

end TenantScript
