import TenantScript.Proofs.Erasure

/-!
Assignments as statements and as expressions. Main statement: where there is room for the
expression `t = e`, the statement `t = e` and the expression as a statement store the same value, or
fail for the same reason, and leave the same state. In a block only the expression gives its value
to the block.
-/

open TenantScript.Action

namespace TenantScript

/-- Where there is room for an expression, it does what its outermost node does, although the state
is not one level deeper. -/
theorem run_evaluate_of_room {limit : Nat} {e : Expr} {st : State}
    (hroom : e.treeHeight ≤ limit - st.depth) :
    (evaluate limit e).run st = (within e.span (evaluateNode (evaluate limit) e)).run st := by
  have hlt : st.depth < limit := by
    cases e <;> rw [Expr.treeHeight] at hroom <;> omega
  let x := evaluateNode (evaluate limit) e
  have hparts (c : Expr) (hc : c ∈ e.children) : c.treeHeight ≤ limit - (st.depth + 1) :=
    Expr.treeHeight_le_of_mem_children hc (by omega)
  obtain ⟨hback, hdeep⟩ : (x.run (st.atDepth (st.depth + 1))).2.depth = st.depth + 1 ∧
      isTooDeep (x.run (st.atDepth (st.depth + 1))).1 = false :=
    (shallow_relates limit (st.depth + 1)).evaluateNode e hparts (fun _ _ _ => trivial) _ rfl
  have hless : limit - (st.depth + 1) ≤ limit - st.depth := by omega
  have hsame : x.run st = ((x.run (st.atDepth (st.depth + 1))).1,
      (x.run (st.atDepth (st.depth + 1))).2.atDepth st.depth) := by
    have hnode := (deeper_relates hless).evaluateNode e (fun _ _ => trivial) fun _ _ _ => trivial
    exact (hnode _ rfl).2 hdeep
  rw [evaluate_eq, run_within, run_within, Run.run_below, if_pos hlt, Run.run_nested, hsame]
  simp only
  rw [show (x.run (st.atDepth (st.depth + 1))).2.atDepth st.depth =
    { (x.run (st.atDepth (st.depth + 1))).2 with
      depth := (x.run (st.atDepth (st.depth + 1))).2.depth - 1 } by rw [hback]; rfl]
  rfl

/-! ### Main statement -/

/-- What a statement that assigns comes to beside an expression that does, in a block too. -/
inductive AssignmentsAgree (ev : Expr → Run Value) (statement expression : Stmt) (st : State) : Prop
  /-- Both store `v`, which becomes the value of a block for the expression alone. -/
  | stored {v : Value} {st' : State}
    (hstatement : (execStmt ev statement).run st = (.ok (.next v), st'))
    (hexpression : (execStmt ev expression).run st = (.ok (.next v), st'))
    (hblock : ∀ rest last,
      (execStmts ev (statement :: rest) last).run st = (execStmts ev rest last).run st' ∧
        (execStmts ev (expression :: rest) last).run st = (execStmts ev rest v).run st')
  /-- Both fail for the same reason, and so do the blocks. -/
  | failed {e e' : EvalError} {st' : State} (hcause : e.cause = e'.cause)
    (hmessage : e.message = e'.message)
    (hstatement : (execStmt ev statement).run st = (.error e, st'))
    (hexpression : (execStmt ev expression).run st = (.error e', st'))
    (hblock : ∀ rest last,
      (execStmts ev (statement :: rest) last).run st = (.error e, st') ∧
        (execStmts ev (expression :: rest) last).run st = (.error e', st'))

/-- Where there is room for the expression, an assignment comes to the same as a statement and as an
expression, but for the value of the block that it stands in. -/
theorem assignment_forms_agree {limit : Nat} {target value : Expr} {span span' span'' : Span}
    {st : State} (hroom : (Expr.assign target value span').treeHeight ≤ limit - st.depth) :
    AssignmentsAgree (evaluate limit) (.assign [target] [value] span)
      (.expr (.assign target value span') span'') st := by
  let ev := evaluate limit
  let x : Run Value := ev value >>= assign ev target
  have hstatement : execStmt ev (.assign [target] [value] span) =
      within span (x >>= fun v => pure (.next v)) := by
    rw [execStmt, assignAll_single]
  have hexpression : (ev (.assign target value span')).run st = (within span' x).run st :=
    run_evaluate_of_room hroom
  rcases hx : x.run st with ⟨e | v, st'⟩
  · have h₁ : (execStmt ev (.assign [target] [value] span)).run st =
        (.error (e.orAt span), st') := by
      rw [hstatement, run_within, run_bind_error _ hx]
      rfl
    have h₂ : (execStmt ev (.expr (.assign target value span') span'')).run st =
        (.error ((e.orAt span').orAt span''), st') := by
      rw [run_within, hx] at hexpression
      rw [execStmt, run_within, run_bind_error _ hexpression]
      rfl
    refine .failed ?_ ?_ h₁ h₂ fun rest last => ⟨?_, ?_⟩
    · simp
    · simp [EvalError.message]
    · rw [execStmts, run_bind_error _ h₁]
    · rw [execStmts, run_bind_error _ h₂]
  · have h₁ : (execStmt ev (.assign [target] [value] span)).run st = (.ok (.next v), st') := by
      rw [hstatement, run_within, run_bind_ok _ hx]
      rfl
    have h₂ : (execStmt ev (.expr (.assign target value span') span'')).run st =
        (.ok (.next v), st') := by
      rw [run_within, hx] at hexpression
      rw [execStmt, run_within, run_bind_ok _ hexpression]
      rfl
    refine .stored h₁ h₂ fun rest last => ⟨?_, ?_⟩
    · rw [execStmts, run_bind_ok _ h₁]
      rfl
    · rw [execStmts, run_bind_ok _ h₂]
      rfl

/-- `xs[i]`. -/
def itemAtI : Expr := .item (.ident "xs" .dummy) (.ident "i" .dummy) .dummy

/-- `i = 1`. -/
def moveI : Expr := .assign (.ident "i" .dummy) (.literal (.int 1) .dummy) .dummy

/-- An array of one element, and an index that is 0. -/
def oneElement : State where
  env := (Environment.empty.define "xs" (.array ⟨.any, false, false, 0⟩)).define "i" (.int 0)
  heap := Heap.empty.push (.items [.int 0])
  depth := 0

/-- `xs[i] = i = 1`, for which three levels are just enough: it moves the index before it appends,
and is worth the longer array. -/
theorem assignment_forms_agree_itemAtI :
    (Expr.assign itemAtI moveI .dummy).treeHeight ≤ 3 - oneElement.depth ∧
      AssignmentsAgree (evaluate 3) (.assign [itemAtI] [moveI] .dummy)
        (.expr (.assign itemAtI moveI .dummy) .dummy) oneElement ∧
      ((execBlock 3 [.assign [itemAtI] [moveI] .dummy]).run oneElement).1 = .ok .nil ∧
        ((execBlock 3 [.expr (.assign itemAtI moveI .dummy) .dummy]).run oneElement).1 =
          .ok (.array ⟨.any, false, false, 1⟩) := by
  have hroom : (Expr.assign itemAtI moveI .dummy).treeHeight ≤ 3 - oneElement.depth := by decide
  exact ⟨hroom, assignment_forms_agree hroom, by decide +kernel, by decide +kernel⟩

end TenantScript
