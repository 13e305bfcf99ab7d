import TenantScript.Eval.Assign

/-!
Evaluation of expressions. Expressions may be nested up to a limit; `evaluateWithin` counts down
the levels that are left, and the state counts the levels that are entered. A failure is placed at
the innermost node that has a span.
-/

namespace TenantScript

/-- The value of a literal. -/
def Literal.value : Literal → Value
  | nil => .nil
  | bool b => .bool b
  | int n => .int n
  | float x => .float x
  | str s => .str s

/-- The bound that an expression denotes, if there is one. -/
def bound? (ev : Expr → Run Value) : Option Expr → Run (Option Int)
  | none => return none
  | some e => do return some (← .ofExcept (toIndex (← ev e)))

/-- The value of the outermost node, its parts evaluated by `ev`. -/
def evaluateNode (ev : Expr → Run Value) : Expr → Run Value
  | .literal v _ => return v.value
  | .array items _ => do
    let values ← items.mapM ev
    return .array (← Run.onHeap (ArrayRef.make .any values))
  | .ident name _ => do .require (.undefinedSymbol name) (← .get (·.env.lookup? name))
  | .member object field _ => do Run.onHeap (readMember (← ev object) field)
  | .item collection index _ => do
    let target ← ev collection
    let key ← ev index
    Run.onHeap (readItem target key)
  | .slice collection start stop _ => do
    let target ← ev collection
    let low ← bound? ev start
    let high ← bound? ev stop
    Run.onHeap (readSlice target low high)
  | .deref pointer _ => do Run.onHeap (readPointee (← ev pointer))
  | .assign target value _ => do assign ev target (← ev value)

/-- Evaluates an expression with `room` levels of nesting left of `limit`. -/
def evaluateWithin (limit : Nat) : Nat → Expr → Run Value
  | 0, e => .within e.span (.fail (.depthLimitExceeded limit))
  | room + 1, e => .within e.span (Run.nested (evaluateNode (evaluateWithin limit room) e))

/-- What has a value has one at its outermost node, one level deeper. -/
theorem node_of_evaluateWithin {limit room : Nat} {e : Expr} {v : Value} {st st' : State}
    (h : (evaluateWithin limit room e).run st = (.ok v, st')) :
    ∃ room' st₁, room = room' + 1 ∧ (evaluateNode (evaluateWithin limit room') e).run
      { st with depth := st.depth + 1 } = (.ok v, st₁) ∧
        st' = { st₁ with depth := st₁.depth - 1 } := by
  cases room with
  | zero => cases h
  | succ room =>
    obtain ⟨st₁, hrun, hst⟩ := Run.exists_of_run_nested (Action.run_of_run_within h)
    exact ⟨room, st₁, rfl, hrun, hst⟩

/-- Evaluates an expression with at most `limit` levels of nesting, those of the state included. -/
def evaluate (limit : Nat) (e : Expr) : Run Value :=
  ⟨fun st => (evaluateWithin limit (limit - st.depth) e).run st⟩

/-- The limit on nesting where none is given. -/
def defaultMaxDepth : Nat := 512

end TenantScript
