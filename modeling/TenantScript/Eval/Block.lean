import TenantScript.Eval.Evaluate
import TenantScript.Syntax.Stmt

/-!
Execution of statements. A block has the value of the first `return` that is reached, which ends
all loops around it, or else of its last expression statement, or else nil.
-/

namespace TenantScript

/-- How a statement ended. -/
inductive Flow where
  /-- The next statement is to run. -/
  | next (value : Value)
  /-- A `return` was reached. -/
  | ret (value : Value)
  deriving DecidableEq, Inhabited

/-- The value that the statement ended with. -/
def Flow.value : Flow → Value
  | next v | ret v => v

/-- Assigns values to targets in order; the result is the last value stored. A target beyond the
last value gets nil. -/
def assignEach (ev : Expr → Run Value) : List Expr → List Value → Value → Run Value
  | [], _, stored => return stored
  | target :: targets, values, _ => do
    let stored ← assign ev target (values.headD .nil)
    assignEach ev targets values.tail stored

/-- The elements of the array that is spread over several targets. -/
def spread (v : Value) (targets : Nat) : Action Heap (List Value) :=
  match v.unwrap with
  | .array a => .get (·.items a)
  | _ => .fail (.invalidOperation s!"cannot spread {v.kind.text} over {targets} targets")

/-- Assigns several values to as many targets, or the elements of one array to several targets.
All values are evaluated before anything is assigned. -/
def assignAll (ev : Expr → Run Value) (targets values : List Expr) : Run Value := do
  if targets.length = values.length then
    assignEach ev targets (← values.mapM ev) .nil
  else
    match values with
    | [value] =>
      if targets.length > 1 then
        assignEach ev targets (← Run.onHeap (spread (← ev value) targets.length)) .nil
      else .fail (mismatch targets values)
    | _ => .fail (mismatch targets values)
where
  mismatch (targets values : List Expr) : Cause :=
    .invalidOperation s!"assignment mismatch: {targets.length} targets, {values.length} values"

theorem assignAll_single (ev : Expr → Run Value) (target value : Expr) :
    assignAll ev [target] [value] = ev value >>= assign ev target := by
  simp [assignAll, assignEach]

/-- Runs `body` for each item, in a scope of its own in which `bind` has bound the item, until it
returns. -/
def forEach (bind : Value → Run Value) (body : Run Flow) : List Value → Run Flow
  | [] => return .next .nil
  | item :: items => do
    let flow ← Run.inScope do
      let _ ← bind item
      body
    match flow with
    | .ret v => return .ret v
    | .next _ => forEach bind body items

mutual
/-- Executes a statement, with expressions evaluated by `ev`. -/
def execStmt (ev : Expr → Run Value) : Stmt → Run Flow
  | .expr e span => .within span do return .next (← ev e)
  | .assign targets values span => .within span do return .next (← assignAll ev targets values)
  | .forIn var iterable body span => .within span do
    let items ← Run.onHeap (readEach (← ev iterable))
    forEach (assign ev var) (execStmts ev body .nil) items
  | .ret none span => .within span (return .ret .nil)
  | .ret (some e) span => .within span do return .ret (← ev e)
termination_by structural s => s

/-- Executes statements in order; `last` is the value of the last expression statement so far. -/
def execStmts (ev : Expr → Run Value) : List Stmt → Value → Run Flow
  | [], last => return .next last
  | s :: rest, last => do
    match ← execStmt ev s with
    | .ret v => return .ret v
    | .next v => execStmts ev rest (if s.isExpr then v else last)
termination_by structural ss => ss
end

/-- Executes a block with at most `limit` levels of nesting in its expressions. -/
def execBlock (limit : Nat) (body : List Stmt) : Run Value := do
  return (← execStmts (evaluate limit) body .nil).value

end TenantScript
