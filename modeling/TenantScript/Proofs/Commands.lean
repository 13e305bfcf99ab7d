import TenantScript.Proofs.RunSoundness

/-!
Commands: what the value layer and the evaluator are asked to do from outside. A command is given
values and, like all that scripts do, goes in steps of a holding that has them.
-/

open TenantScript.Action

namespace TenantScript

/-- What the value layer and the evaluator are asked to do. -/
inductive Command where
  | setIndex (a : ArrayRef) (index : Int) (v : Value)
  | setRange (a : ArrayRef) (start stop : Int) (v : Value)
  | insert (m : MapRef) (key v : Value)
  | setField (s : StructRef) (field : Name) (v : Value)
  | store (p : PointerRef) (v : Value)
  | makeStruct (d : StructDef) (values : List Value)
  | makeZero (d : StructDef)
  | convert (ty : Ty) (v : Value)
  | zero (ty : Ty)
  | evaluate (limit : Nat) (e : Expr)
  | assign (limit : Nat) (target : Expr) (v : Value)
  | execBlock (limit : Nat) (body : List Stmt)

namespace Command

/-- The values that a command is given. -/
def values : Command → List Value
  | setIndex a _ v | setRange a _ _ v => [.array a, v]
  | insert m key v => [.map m, key, v]
  | setField s _ v => [.struct s, v]
  | store p v => [.pointer p, v]
  | makeStruct _ vs => vs
  | convert _ v | assign _ _ v => [v]
  | makeZero _ | zero _ | evaluate .. | execBlock .. => []

/-- Runs a command. -/
def run : Command → Run Value
  | setIndex a index v => do return (← Run.onHeap (a.setIndex index v)).value
  | setRange a start stop v => do return (← Run.onHeap (a.setRange start stop v)).value
  | insert m key v => do return (← Run.onHeap (m.insert key v)).value
  | setField s field v => do return (← Run.onHeap (s.setField field v)).value
  | store p v => do return (← Run.onHeap (p.store v)).value
  | makeStruct d vs => do return .struct (← Run.onHeap (StructRef.make d vs))
  | makeZero d => do return .struct (← Run.onHeap (StructRef.makeZero d))
  | convert ty v => Run.onHeap (TenantScript.convert ty v)
  | zero ty => Run.onHeap (Value.zero ty)
  | evaluate limit e => TenantScript.evaluate limit e
  | assign limit target v => TenantScript.assign (TenantScript.evaluate limit) target v
  | execBlock limit body => TenantScript.execBlock limit body

variable {D : Discipline} {Γ : Layout}

theorem run_steps {w : Holding D} (c : Command) (h : ∀ v ∈ c.values, w.Has v) :
    Maintains Holding.Meets w c.run fun w' v => w'.Has v := by
  have stored {x : Action Heap Mutation}
      (hx : Maintains Holding.Of w x fun w' m => w'.Has m.value) :
      Maintains Holding.Meets w (do return (← Run.onHeap x).value) fun w' v => w'.Has v :=
    .bind (Run.onHeap_steps hx) fun _ _ _ hm => .pure hm
  cases c with
  | setIndex a index v =>
    simp only [values, List.forall_mem_cons] at h
    refine stored ?_
    rw [a.setIndex_eq]
    exact .bind (ArrayRef.planIndex_steps h.1 index h.2.1) fun _ _ _ => Plan.commit_steps
  | setRange a start stop v =>
    simp only [values, List.forall_mem_cons] at h
    refine stored ?_
    rw [a.setRange_eq]
    exact .bind (ArrayRef.planRange_steps h.1 start stop h.2.1) fun _ _ _ =>
      ArrayRef.commitRange_steps
  | insert m key v =>
    simp only [values, List.forall_mem_cons] at h
    refine stored ?_
    rw [m.insert_eq]
    exact .bind (MapRef.planEntry_steps h.1 h.2.1 h.2.2.1) fun _ _ _ => Plan.commit_steps
  | setField s field v =>
    simp only [values, List.forall_mem_cons] at h
    refine stored ?_
    rw [s.setField_eq]
    exact .bind (StructRef.planField_steps h.1 field h.2.1) fun _ _ _ => Plan.commit_steps
  | store p v =>
    simp only [values, List.forall_mem_cons] at h
    refine stored ?_
    rw [p.store_eq]
    exact .bind (PointerRef.slot_steps h.1) fun _ hle _ hslot =>
      Plan.commit_steps (hslot v (h.2.1.mono hle))
  | makeStruct d vs =>
    exact .bind (Run.onHeap_steps (StructRef.make_steps d h)) fun _ _ _ hs => .pure hs
  | makeZero d =>
    exact .bind (Run.onHeap_steps (StructRef.makeZero_steps d)) fun _ _ _ hs => .pure hs
  | convert ty v =>
    exact (Run.onHeap_steps (convert_steps ty (h v List.mem_cons_self))).imp fun _ _ _ hu => hu.1
  | zero ty => exact (Run.onHeap_steps (Value.zero_steps ty)).imp fun _ _ _ hu => hu.1
  | evaluate limit e => exact evaluate_steps limit e w
  | assign limit target v =>
    exact assign_steps (evaluate_steps limit) target (h v List.mem_cons_self)
  | execBlock limit body => exact execBlock_steps limit body w

theorem run_sound (c : Command) (h : ∀ v ∈ c.values, v.Fits Γ) :
    Maintains (State.Sound D) Γ c.run fun Γ' v => v.Fits Γ' :=
  run_sound_of_steps (fun _ hall => c.run_steps fun v hv => hall v (h v hv)) fun _ _ hv => hv.fits

end Command

end TenantScript
