import TenantScript.Action
import TenantScript.Eval.Environment
import TenantScript.Value.Heap

/-!
What a script runs in: its environment, the heap, and how deeply the expressions being evaluated
are nested.
-/

namespace TenantScript

/-- The state of a running script. -/
structure State where
  env : Environment
  heap : Heap
  depth : Nat
  deriving DecidableEq, Inhabited

/-- A computation of a running script. -/
abbrev Run (α : Type) := Action State α

namespace Run

/-- A computation on the heap alone. -/
def onHeap {α : Type} (x : Action Heap α) : Run α :=
  x.zoom (·.heap) fun st heap => { st with heap }

/-- Runs `x` in a local scope of its own, which is closed again however `x` ends. -/
def inScope {α : Type} (x : Run α) : Run α :=
  ⟨fun st =>
    let (result, st') := x.run { st with env := st.env.push }
    (result, { st' with env := st'.env.pop })⟩

/-- Runs `x` one level deeper; however it ends, the level is left again. -/
def nested {α : Type} (x : Run α) : Run α :=
  ⟨fun st =>
    let (result, st') := x.run { st with depth := st.depth + 1 }
    (result, { st' with depth := st'.depth - 1 })⟩

variable {α : Type}

@[simp] theorem run_onHeap (x : Action Heap α) (st : State) :
    (onHeap x).run st = ((x.run st.heap).1, { st with heap := (x.run st.heap).2 }) := rfl

theorem exists_of_run_onHeap {x : Action Heap α} {st st' : State} {a : α}
    (h : (onHeap x).run st = (.ok a, st')) :
    ∃ heap, x.run st.heap = (.ok a, heap) ∧ st' = { st with heap } := by
  rw [run_onHeap] at h
  rcases hx : x.run st.heap with ⟨_ | b, heap⟩
  · rw [hx] at h
    cases h
  · rw [hx] at h
    cases h
    exact ⟨heap, rfl, rfl⟩

theorem exists_of_run_onHeap_bind {β : Type} {x : Action Heap α} {f : α → Run β}
    {st st' : State} {b : β} (h : (onHeap x >>= f).run st = (.ok b, st')) :
    ∃ a heap, x.run st.heap = (.ok a, heap) ∧ (f a).run { st with heap } = (.ok b, st') := by
  obtain ⟨a, st₁, hx, hf⟩ := Action.exists_of_run_bind h
  obtain ⟨heap, hrun, rfl⟩ := exists_of_run_onHeap hx
  exact ⟨a, heap, hrun, hf⟩

theorem run_inScope (x : Run α) (st : State) :
    (inScope x).run st =
      let after := x.run { st with env := st.env.push }
      (after.1, { after.2 with env := after.2.env.pop }) := rfl

theorem run_nested (x : Run α) (st : State) :
    (nested x).run st =
      let after := x.run { st with depth := st.depth + 1 }
      (after.1, { after.2 with depth := after.2.depth - 1 }) := rfl

theorem exists_of_run_nested {x : Run α} {st st' : State} {a : α}
    (h : (nested x).run st = (.ok a, st')) :
    ∃ st₁, x.run { st with depth := st.depth + 1 } = (.ok a, st₁) ∧
      st' = { st₁ with depth := st₁.depth - 1 } := by
  rw [run_nested] at h
  rcases hx : x.run { st with depth := st.depth + 1 } with ⟨_ | b, st₁⟩
  · rw [hx] at h
    cases h
  · rw [hx] at h
    cases h
    exact ⟨st₁, rfl, rfl⟩

end Run

/-- States that hold the state of a running script, perhaps beside something else. -/
class HasState (σ : Type) where
  state : σ → State
  withState : σ → State → σ

/-- The script's state alone. -/
instance : HasState State := ⟨fun st => st, fun _ st => st⟩

/-- The script's state with something beside it that the script does not touch. -/
instance {ω : Type} : HasState (State × ω) := ⟨(·.1), fun s st => (st, s.2)⟩

/-- A computation of the script in a state that holds the script's. -/
def Run.lift {σ α : Type} [HasState σ] (x : Run α) : Action σ α :=
  x.zoom HasState.state HasState.withState

@[simp] theorem Run.lift_eq {α : Type} (x : Run α) : (x.lift : Action State α) = x := rfl

end TenantScript
