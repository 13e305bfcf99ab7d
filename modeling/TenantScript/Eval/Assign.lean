import TenantScript.Eval.State
import TenantScript.Syntax.Expr
import TenantScript.Value.Read
import TenantScript.Value.Store

/-!
Assignment of a value to the place that an expression denotes. Parts of the target are evaluated
by an evaluator that is given, so that the rules do not depend on how expressions are evaluated.
When a store replaces a container instead of writing it, the replacement is assigned to the
expression that the container came from, and so on outward.
-/

namespace TenantScript

/-- Assigns to a name: to its innermost binding, or to a new one in the innermost scope. A
qualified name has to be bound. -/
def assignName (name : Name) (v : Value) : Run Value := do
  match (← .get (·.env)).set? name v with
  | some env =>
    .modify fun st => { st with env }
    return v
  | none =>
    if Name.isQualified name then .fail (.undefinedSymbol name)
    else
      .modify fun st => { st with env := st.env.define name v }
      return v

/-- The container whose member is assigned, with the pointer through which it was reached. -/
def memberContainer (object : Value) : Action Heap (Value × Option PointerRef) := do
  match object.unwrap with
  | .nil => .fail (.typeInvalid "member assignment on nil")
  | .pointer p =>
    match ← .get (·.load? p) with
    | none | some .nil => .fail (.typeInvalid "member assignment through nil pointer")
    | some pointee => return (pointee, some p)
  | v => return (v, none)

/-- Stores into a member of a struct or a map. -/
def setMember (container : Value) (field : Name) (v : Value) : Action Heap Mutation :=
  match container with
  | .struct s => s.setField field v
  | .map m => m.insert (.str field) v
  | w => .fail (.unsupported .memberAssignment w.kind)

/-- Stores at an index of an array or a string, or under a key of a map. -/
def setItem (collection index v : Value) : Action Heap Mutation := do
  match collection.unwrap with
  | .array a => a.setIndex (← .ofExcept (toIndex index)) v
  | .map m => m.insert index v
  | .str s => setCharacter s (← .ofExcept (toIndex index)) v
  | w => .fail (.unsupported .indexAssignment w.kind)

/-- The array whose range is assigned. -/
def sliceTarget (collection : Value) : Action Heap ArrayRef :=
  match collection.unwrap with
  | .array a => return a
  | w => .fail (.unsupported .sliceAssignment w.kind)

/-- Stores what a pointer points to. -/
def setPointee (pointer v : Value) : Action Heap Mutation :=
  match pointer.unwrap with
  | .pointer p => p.store v
  | w => .fail (.typeInvalid s!"cannot dereference {w.kind.text}")

section

variable {σ : Type} [HasState σ]

/-- A computation on the heap in a state that holds the script's. -/
def inHeap {α : Type} (x : Action Heap α) : Action σ α := (Run.onHeap x).lift

/-- Ends an assignment: what was written in place is the result, and a replacement goes to where
the container came from, through the pointer that led to it or to its place. -/
def rebind (toPlace : Value → Action σ Value) (via : Option PointerRef) :
    Mutation → Action σ Value
  | .inPlace stored => return stored
  | .replaced container =>
    match via with
    | some p => return (← inHeap (p.store container)).value
    | none => toPlace container

/-- The bound that an expression denotes, or `missing` if there is none. -/
def boundOr (ev : Expr → Action σ Value) (missing : Action σ Int) : Option Expr → Action σ Int
  | none => missing
  | some e => do .ofExcept (toIndex (← ev e))

/-- Assigns `v` to the place that an expression denotes. The result is the value that was
stored. -/
def assign (ev : Expr → Action σ Value) : Expr → Value → Action σ Value
  | .ident name span, v => .within span (assignName name v).lift
  | .member object field span, v => .within span do
    let found ← inHeap (memberContainer (← ev object))
    rebind (assign ev object) found.2 (← inHeap (setMember found.1 field v))
  | .item collection index span, v => .within span do
    let target ← ev collection
    let key ← ev index
    rebind (assign ev collection) none (← inHeap (setItem target key v))
  | .slice collection start stop span, v => .within span do
    let a ← inHeap (sliceTarget (← ev collection))
    let low ← boundOr ev (return 0) start
    let high ← boundOr ev (inHeap (.get fun h => ((h.items a).length : Int))) stop
    return (← inHeap (a.setRange low high v)).value
  | .deref pointer span, v => .within span do
    return (← inHeap (setPointee (← ev pointer) v)).value
  | e@(.literal _ span), _ | e@(.array _ span), _ | e@(.assign _ _ span), _ =>
    .within span (.fail (.invalidOperation s!"cannot assign to {e.describe}"))

end

end TenantScript
