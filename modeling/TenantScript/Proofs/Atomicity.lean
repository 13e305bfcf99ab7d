import TenantScript.Proofs.Link

/-!
Failed assignments. Main statement: an assignment to a target without inner assignments that fails,
at whatever link of its chain, has changed no binding and no storage.
-/

namespace TenantScript

/-- Every link but the last only adds storages, and the last one cannot fail once it stores. -/
theorem le_of_assign_error {ev : Expr → Run Value}
    (hev : ∀ e, e.isAssignFree = true → (ev e).Adds) {target : Expr} (v : Value) {st : State}
    {e : EvalError} (ht : target.isAssignFree = true)
    (he : ((assign ev target v).run st).1 = .error e) :
    st ≤ ((assign ev target v).run st).2 := by
  refine assign_induction (P := fun t _ st r st' =>
    t.isAssignFree = true → ∀ e, r = .error e → st ≤ st') ?_ ?_ ?_ target v st ht e he
  · intro t v st e st' hl ht _ _
    exact (link_adds hev t v ht).le_of_run hl
  · intro t v st store st' _ _ e he
    cases he
  · intro t v st t' c st₁ r st' hl hc ih ht e he
    have hle := (link_adds hev t v ht).le_of_run hl
    cases r with
    | ok w => cases he
    | error e' => exact hle.trans (ih (Expr.isAssignFree_container hc ht) e' rfl)

/-- A failed assignment leaves every binding of every scope and every storage as it was. -/
theorem assign_failed_unchanged (limit : Nat) (target : Expr) (v : Value) (st : State)
    (e : EvalError) (htarget : target.isAssignFree = true)
    (hfail : ((assign (evaluate limit) target v).run st).1 = .error e) :
    let st' := ((assign (evaluate limit) target v).run st).2
    st'.env = st.env ∧ st'.depth = st.depth ∧
      ∀ a < st.heap.size, st'.heap.get? a = st.heap.get? a := by
  obtain ⟨henv, hdepth, hheap⟩ :=
    le_of_assign_error (fun _ h => evaluate_adds limit h) v htarget hfail
  exact ⟨henv, hdepth, fun a ha => Heap.get?_eq_of_le hheap ha⟩

/-- A state in which `xs` is a read-only array of one array, which has one element. -/
def readOnlyNest : State :=
  { env := ⟨[], SortedMap.empty.insert "xs" (.array ⟨.any, false, true, 1⟩)⟩
    heap := ⟨#[.items [.int 1], .items [.array ⟨.int, false, false, 0⟩]]⟩
    depth := 0 }

/-- `xs[0][1]`. -/
def secondOfFirst : Expr :=
  .item (.item (.ident "xs" .dummy) (.literal (.int 0) .dummy) .dummy) (.literal (.int 1) .dummy)
    .dummy

/-- The first link appends to the inner array, and the second one must not store the longer array
into the read-only outer one. -/
theorem assign_failed_unchanged_readOnlyNest :
    let run := (assign (evaluate 8) secondOfFirst (.int 5)).run readOnlyNest
    run.1 = .error (.ofCause (.notSettable "array index 0")) ∧
      run.2.env = readOnlyNest.env ∧ run.2.depth = readOnlyNest.depth ∧
      ∀ a < readOnlyNest.heap.size, run.2.heap.get? a = readOnlyNest.heap.get? a := by
  have hfail : ((assign (evaluate 8) secondOfFirst (.int 5)).run readOnlyNest).1 =
      .error (.ofCause (.notSettable "array index 0")) := by decide +kernel
  exact ⟨hfail, assign_failed_unchanged 8 secondOfFirst (.int 5) readOnlyNest _ (by decide) hfail⟩

end TenantScript
