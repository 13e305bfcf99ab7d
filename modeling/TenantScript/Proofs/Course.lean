import TenantScript.Proofs.Nesting

/-!
The courses of calls. A script runs by calls: an expression is evaluated, a value is assigned to a
target, a statement is executed. The course of a call lists what it does on its own account and the
calls that it makes, each step depending on what the steps before it gave. Main statement: a call
does what its course says, placed at its node. Thus what is known of each step and of all calls
that a call makes gives what is known of the call.
-/

open TenantScript.Action

namespace TenantScript

/-! ### Calls and courses -/

/-- What is called while a script runs, by the type of what it gives back. -/
inductive Call : Type → Type where
  | evaluate (e : Expr) : Call Value
  | assign (target : Expr) (v : Value) : Call Value
  | execute (s : Stmt) : Call Flow

/-- What a call does. -/
inductive Course : Type → Type 1 where
  | done {α : Type} (a : α) : Course α
  /-- An operation of the call itself. -/
  | step {α β : Type} (x : Run β) (plain : x.FailsPlainly) (next : β → Course α) : Course α
  /-- A further call. -/
  | call {α β : Type} (c : Call β) (next : β → Course α) : Course α
  /-- A part that takes place in a scope of its own. -/
  | inScope {α β : Type} (inner : Course β) (next : β → Course α) : Course α

theorem Action.FailsPlainly.onHeap {α : Type} {x : Action Heap α} (hx : x.FailsPlainly) :
    (Run.onHeap x).FailsPlainly :=
  fun st e h => hx st.heap e h

theorem assignName_failsPlainly (name : Name) (v : Value) : (assignName name v).FailsPlainly := by
  unfold assignName
  refine .bind (.get _) fun env => ?_
  split
  · exact .bind (.modify _) fun _ => .pure v
  · split
    · exact .fail rfl
    · exact .bind (.modify _) fun _ => .pure v

namespace Course

variable {α β : Type}

/-- An operation on the heap. -/
def heap (x : Action Heap β) (plain : x.FailsPlainly) (next : β → Course α) : Course α :=
  step (Run.onHeap x) plain.onHeap next

/-- A failure. -/
def fail (cause : Cause) (plain : cause.isDepthLimit = false) : Course α :=
  step (.fail cause) (.fail plain) done

/-- The index that a value is. -/
def index (v : Value) (next : Int → Course α) : Course α :=
  step (.ofExcept (toIndex v)) (.ofExcept fun _ => isDepthLimit_of_toIndex) next

/-- The values of expressions, in order. -/
def evaluateAll : List Expr → (List Value → Course α) → Course α
  | [], next => next []
  | e :: es, next => call (.evaluate e) fun v => evaluateAll es fun vs => next (v :: vs)

/-- The bound that an expression denotes, if there is one. -/
def bound? : Option Expr → (Option Int → Course α) → Course α
  | none, next => next none
  | some e, next => call (.evaluate e) fun v => index v fun i => next (some i)

/-- The bound that an expression denotes, or else the one that `missing` gives. -/
def boundOr (missing : (Int → Course α) → Course α) : Option Expr → (Int → Course α) → Course α
  | none, next => missing next
  | some e, next => call (.evaluate e) fun v => index v next

/-- The end of an assignment to a part of the container that `place` denotes. -/
def rebind (place : Expr) (via : Option PointerRef) : Mutation → Course Value
  | .inPlace stored => done stored
  | .replaced container =>
    match via with
    | some p => heap (p.store container) (p.store_failsPlainly container) fun m => done m.value
    | none => call (.assign place container) done

/-- Values assigned to targets, in order. -/
def assignEach (next : Value → Course α) : List Expr → List Value → Value → Course α
  | [], _, stored => next stored
  | target :: targets, values, _ =>
    call (.assign target (values.headD .nil)) fun stored =>
      assignEach next targets values.tail stored

/-- Several values assigned to several targets. -/
def assignAll (targets values : List Expr) (next : Value → Course α) : Course α :=
  if targets.length = values.length then
    evaluateAll values fun vs => assignEach next targets vs .nil
  else
    match values with
    | [value] =>
      if targets.length > 1 then
        call (.evaluate value) fun v =>
          heap (spread v targets.length) (spread_failsPlainly v _) fun vs =>
            assignEach next targets vs .nil
      else fail (assignAll.mismatch targets values) rfl
    | _ => fail (assignAll.mismatch targets values) rfl

/-- Statements executed in order; `last` is the value of the last expression statement so far. -/
def executeAll : List Stmt → Value → Course Flow
  | [], last => done (.next last)
  | s :: rest, last =>
    call (.execute s) fun
      | .ret v => done (.ret v)
      | .next v => executeAll rest (if s.isExpr then v else last)

/-- A body executed for each item, which is assigned to `var`. -/
def forEach (var : Expr) (body : List Stmt) : List Value → Course Flow
  | [] => done (.next .nil)
  | item :: items =>
    inScope (call (.assign var item) fun _ => executeAll body .nil) fun
      | .ret v => done (.ret v)
      | .next _ => forEach var body items

end Course

namespace Call

open Course

variable {α : Type}

/-- The course of a call. -/
def course : {α : Type} → Call α → Course α
  | _, .evaluate (.literal v _) => .done v.value
  | _, .evaluate (.array items _) =>
    .evaluateAll items fun vs =>
      .heap (ArrayRef.make .any vs) (ArrayRef.make_failsPlainly _ _) fun a => .done (.array a)
  | _, .evaluate (.ident name _) =>
    .step (.get (·.env.lookup? name)) (.get _) fun v? =>
      .step (.require (.undefinedSymbol name) v?) (.require rfl _) .done
  | _, .evaluate (.member object field _) =>
    .call (.evaluate object) fun o =>
      .heap (readMember o field) (readMember_failsPlainly o field) .done
  | _, .evaluate (.item collection index _) =>
    .call (.evaluate collection) fun target =>
      .call (.evaluate index) fun key =>
        .heap (readItem target key) (readItem_failsPlainly target key) .done
  | _, .evaluate (.slice collection start stop _) =>
    .call (.evaluate collection) fun target =>
      .bound? start fun low =>
        .bound? stop fun high =>
          .heap (readSlice target low high) (readSlice_failsPlainly target low high) .done
  | _, .evaluate (.deref pointer _) =>
    .call (.evaluate pointer) fun p => .heap (readPointee p) (readPointee_failsPlainly p) .done
  | _, .evaluate (.assign target value _) =>
    .call (.evaluate value) fun v => .call (.assign target v) .done
  | _, .assign (.ident name _) v =>
    .step (assignName name v) (assignName_failsPlainly name v) .done
  | _, .assign (.member object field _) v =>
    .call (.evaluate object) fun o =>
      .heap (memberContainer o) (memberContainer_failsPlainly o) fun found =>
        .heap (setMember found.1 field v) (setMember_failsPlainly found.1 field v) fun m =>
          .rebind object found.2 m
  | _, .assign (.item collection index _) v =>
    .call (.evaluate collection) fun target =>
      .call (.evaluate index) fun key =>
        .heap (setItem target key v) (setItem_failsPlainly target key v) fun m =>
          .rebind collection none m
  | _, .assign (.slice collection start stop _) v =>
    .call (.evaluate collection) fun target =>
      .heap (sliceTarget target) (sliceTarget_failsPlainly target) fun a =>
        .boundOr (fun next => next 0) start fun low =>
          .boundOr (.heap (.get fun h => ((h.items a).length : Int)) (.get _)) stop fun high =>
            .heap (a.setRange low high v) (a.setRange_failsPlainly low high v) fun m =>
              .done m.value
  | _, .assign (.deref pointer _) v =>
    .call (.evaluate pointer) fun p =>
      .heap (setPointee p v) (setPointee_failsPlainly p v) fun m => .done m.value
  | _, .assign target@(.literal ..) _ | _, .assign target@(.array ..) _
  | _, .assign target@(.assign ..) _ =>
    .fail (.invalidOperation s!"cannot assign to {target.describe}") rfl
  | _, .execute (.expr e _) => .call (.evaluate e) fun v => .done (.next v)
  | _, .execute (.assign targets values _) => .assignAll targets values fun v => .done (.next v)
  | _, .execute (.forIn var iterable body _) =>
    .call (.evaluate iterable) fun v =>
      .heap (readEach v) (readEach_failsPlainly v) fun items => .forEach var body items
  | _, .execute (.ret none _) => .done (.ret .nil)
  | _, .execute (.ret (some e) _) => .call (.evaluate e) fun v => .done (.ret v)

/-- What a call does, with expressions evaluated by `ev`. -/
def run (ev : Expr → Run Value) : {α : Type} → Call α → Run α
  | _, .evaluate e => ev e
  | _, .assign target v => TenantScript.assign ev target v
  | _, .execute s => execStmt ev s

/-- The span of the node that a call is about. -/
def span : {α : Type} → Call α → Span
  | _, .evaluate e | _, .assign e _ => e.span
  | _, .execute s => s.span

end Call

/-! ### Runs of courses -/

namespace Course

variable {α β : Type} {ev : Expr → Run Value}

/-- What a course comes to, with expressions evaluated by `ev`. -/
def run (ev : Expr → Run Value) : {α : Type} → Course α → Run α
  | _, done a => pure a
  | _, step x _ next => x >>= fun b => (next b).run ev
  | _, call c next => c.run ev >>= fun b => (next b).run ev
  | _, inScope inner next => Run.inScope (inner.run ev) >>= fun b => (next b).run ev

@[simp] theorem run_done (a : α) : (done a).run ev = pure a := rfl

@[simp] theorem run_step (x : Run β) (plain : x.FailsPlainly) (next : β → Course α) :
    (step x plain next).run ev = x >>= fun b => (next b).run ev := rfl

@[simp] theorem run_heap (x : Action Heap β) (plain : x.FailsPlainly) (next : β → Course α) :
    (heap x plain next).run ev = Run.onHeap x >>= fun b => (next b).run ev := rfl

@[simp] theorem run_index (v : Value) (next : Int → Course α) :
    (index v next).run ev = .ofExcept (toIndex v) >>= fun i => (next i).run ev := rfl

@[simp] theorem run_evaluate (e : Expr) (next : Value → Course α) :
    (call (.evaluate e) next).run ev = ev e >>= fun v => (next v).run ev := rfl

@[simp] theorem run_assign (target : Expr) (v : Value) (next : Value → Course α) :
    (call (.assign target v) next).run ev =
      TenantScript.assign ev target v >>= fun w => (next w).run ev := rfl

@[simp] theorem run_execute (s : Stmt) (next : Flow → Course α) :
    (call (.execute s) next).run ev = execStmt ev s >>= fun flow => (next flow).run ev := rfl

@[simp] theorem run_inScope (inner : Course β) (next : β → Course α) :
    (inScope inner next).run ev = Run.inScope (inner.run ev) >>= fun b => (next b).run ev := rfl

theorem run_evaluateAll (es : List Expr) (next : List Value → Course α) :
    (evaluateAll es next).run ev = es.mapM ev >>= fun vs => (next vs).run ev := by
  induction es generalizing next with
  | nil => simp [evaluateAll]
  | cons e es ih => simp [evaluateAll, ih]

theorem run_bound? (bound : Option Expr) (next : Option Int → Course α) :
    (bound? bound next).run ev = TenantScript.bound? ev bound >>= fun i => (next i).run ev := by
  cases bound with
  | none => simp [bound?, TenantScript.bound?]
  | some e => simp [bound?, TenantScript.bound?]

theorem run_boundOr {missing : (Int → Course α) → Course α} {missing' : Run Int}
    (hmissing : ∀ next, (missing next).run ev = missing' >>= fun i => (next i).run ev)
    (bound : Option Expr) (next : Int → Course α) :
    (boundOr missing bound next).run ev =
      TenantScript.boundOr ev missing' bound >>= fun i => (next i).run ev := by
  cases bound with
  | none => exact hmissing next
  | some e => simp [boundOr, TenantScript.boundOr]

theorem run_rebind (place : Expr) (via : Option PointerRef) (m : Mutation) :
    (rebind place via m).run ev = TenantScript.rebind (assign ev place) via m := by
  cases m with
  | inPlace stored => rfl
  | replaced container =>
    cases via with
    | some p => rfl
    | none => simp [rebind, TenantScript.rebind]

theorem run_assignEach (next : Value → Course α) (targets : List Expr) (values : List Value)
    (stored : Value) : (assignEach next targets values stored).run ev =
      TenantScript.assignEach ev targets values stored >>= fun v => (next v).run ev := by
  induction targets generalizing values stored with
  | nil => simp [assignEach, TenantScript.assignEach]
  | cons target targets ih => simp [assignEach, TenantScript.assignEach, ih]

theorem run_assignAll (targets values : List Expr) (next : Value → Course α) :
    (assignAll targets values next).run ev =
      TenantScript.assignAll ev targets values >>= fun v => (next v).run ev := by
  unfold assignAll TenantScript.assignAll
  split
  · simp [run_evaluateAll, run_assignEach]
  · rcases values with _ | ⟨value, _ | ⟨_, _⟩⟩
    · rfl
    · dsimp only
      split
      · simp [run_assignEach]
      · rfl
    · rfl

theorem run_executeAll (body : List Stmt) (last : Value) :
    (executeAll body last).run ev = execStmts ev body last := by
  induction body generalizing last with
  | nil => rfl
  | cons s rest ih =>
    rw [execStmts, executeAll, run_execute]
    congr 1
    funext flow
    cases flow with
    | ret v => rfl
    | next v => exact ih _

theorem run_forEach (var : Expr) (body : List Stmt) (items : List Value) :
    (forEach var body items).run ev =
      TenantScript.forEach (assign ev var) (execStmts ev body .nil) items := by
  induction items with
  | nil => rfl
  | cons item items ih =>
    rw [forEach, TenantScript.forEach, run_inScope]
    congr 1
    · rw [run_assign, run_executeAll]
    · funext flow
      cases flow with
      | ret v => rfl
      | next v => exact ih

end Course

/-! ### Calls do what their courses say -/

section Eval

variable (ev : Expr → Run Value)

theorem evaluateNode_eq_course (e : Expr) :
    evaluateNode ev e = (Call.evaluate e).course.run ev := by
  cases e with
  | literal => rfl
  | array items =>
    rw [Call.course, Course.run_evaluateAll]
    rfl
  | slice => simp [evaluateNode, Call.course, Course.run_bound?]
  | ident | member | item | deref | assign => simp [evaluateNode, Call.course]

theorem assign_eq_course (target : Expr) (v : Value) :
    assign ev target v = .within target.span ((Call.assign target v).course.run ev) := by
  cases target with
  | literal | array | assign => rfl
  | ident => simp [assign, Call.course, Expr.span]
  | member | item => simp [assign, Call.course, Course.run_rebind, inHeap, Expr.span]
  | slice collection start stop =>
    have hstart (next : Int → Course Value) :
        (Course.boundOr (fun next => next 0) start next).run ev =
          boundOr ev (pure 0) start >>= fun i => (next i).run ev :=
      Course.run_boundOr (fun _ => rfl) start next
    have hstop (size : Action Heap Int) (plain : size.FailsPlainly) (next : Int → Course Value) :
        (Course.boundOr (.heap size plain) stop next).run ev =
          boundOr ev (inHeap size) stop >>= fun i => (next i).run ev :=
      Course.run_boundOr (fun _ => rfl) stop next
    simp [assign, Call.course, hstart, hstop, inHeap, Expr.span]
  | deref => simp [assign, Call.course, inHeap, Expr.span]

theorem execStmt_eq_course (s : Stmt) :
    execStmt ev s = .within s.span ((Call.execute s).course.run ev) := by
  cases s with
  | expr => rfl
  | assign => simp [execStmt, Call.course, Course.run_assignAll, Stmt.span]
  | forIn => simp [execStmt, Call.course, Course.run_forEach, Stmt.span]
  | ret value => cases value <;> rfl

end Eval

theorem execBlock_eq_course (limit : Nat) (body : List Stmt) : execBlock limit body =
    (Course.executeAll body .nil).run (evaluate limit) >>= fun flow => pure flow.value := by
  rw [Course.run_executeAll]
  rfl

/-! ### One level deeper -/

/-- Runs `x` one level deeper, if there are levels left of `limit`. -/
def Run.below {α : Type} (limit : Nat) (x : Run α) : Run α :=
  ⟨fun st =>
    if st.depth < limit then (Run.nested x).run st
    else (Action.fail (.depthLimitExceeded limit)).run st⟩

theorem Run.run_below {α : Type} (limit : Nat) (x : Run α) (st : State) : (below limit x).run st =
    if st.depth < limit then (Run.nested x).run st
    else (.error (.ofCause (.depthLimitExceeded limit)), st) := rfl

/-- From depth `d`, a run of the first action comes back to depth `d`, and the second action does
the same. -/
def steady (d : Nat) : Congruence fun _ => True where
  Rel x y := ∀ st, st.depth = d → (x.run st).2.depth = d ∧ y.run st = x.run st
  pure _ _ hd := ⟨hd, rfl⟩
  fail _ _ hd := ⟨hd, rfl⟩
  bind {_ _ x _ _ _} hx hf st hd := by
    obtain ⟨hback, hsame⟩ := hx st hd
    rw [run_bind, run_bind, hsame]
    rcases hr : x.run st with ⟨e | a, st₁⟩
    · rw [hr] at hback
      exact ⟨hback, rfl⟩
    · rw [hr] at hback
      exact hf a st₁ hback
  within hx st hd := by
    obtain ⟨hback, hsame⟩ := hx st hd
    rw [run_within, run_within, hsame]
    exact ⟨hback, rfl⟩
  inScope hx st hd := by
    obtain ⟨hback, hsame⟩ := hx { st with env := st.env.push } hd
    rw [Run.run_inScope, Run.run_inScope, hsame]
    exact ⟨hback, rfl⟩
  onHeap _ _ hd := ⟨hd, rfl⟩
  lookup _ _ hd := ⟨hd, rfl⟩
  assignName _ v st hd := by
    rw [run_assignName]
    split <;> exact ⟨hd, rfl⟩

/-- With the levels that are left at a depth, expressions are evaluated as from that depth. -/
theorem evaluateWithin_steady (limit d : Nat) :
    (steady d).Relates (evaluateWithin limit (limit - d)) (evaluate limit) fun _ => True where
  rel {e} _ st hd := by
    subst hd
    exact ⟨(evaluateWithin_deeper limit limit (Nat.le_refl _) e _ st.depth st rfl).1, rfl⟩
  child _ _ := trivial
  name _ := trivial

/-- An expression is evaluated as its outermost node, one level deeper. -/
theorem evaluate_eq (limit : Nat) (e : Expr) :
    evaluate limit e = .within e.span (Run.below limit (evaluateNode (evaluate limit) e)) := by
  refine Action.ext fun st => ?_
  rw [run_within, Run.run_below, show (evaluate limit e).run st =
    (evaluateWithin limit (limit - st.depth) e).run st from rfl]
  by_cases hlt : st.depth < limit
  · have hnode := (evaluateWithin_steady limit (st.depth + 1)).evaluateNode e
      (fun _ _ => trivial) (fun _ _ _ => trivial) { st with depth := st.depth + 1 } rfl
    rw [if_pos hlt, show limit - st.depth = limit - (st.depth + 1) + 1 by omega, evaluateWithin,
      run_within, Run.run_nested, Run.run_nested, hnode.2]
  · rw [if_neg hlt, Nat.sub_eq_zero_of_le (Nat.le_of_not_lt hlt), evaluateWithin, run_within]
    rfl

section Room

variable {limit d : Nat} {env env' : Environment} {heap heap' : Heap} {v : Value}

/-- What has a value at its outermost node, one level deeper, has it if there is room for it. -/
theorem run_evaluate_of_lt {e : Expr} (hd : d < limit)
    (h : (evaluateNode (evaluate limit) e).run ⟨env, heap, d + 1⟩ = (.ok v, ⟨env', heap', d + 1⟩)) :
    (evaluate limit e).run ⟨env, heap, d⟩ = (.ok v, ⟨env', heap', d⟩) := by
  rw [evaluate_eq, run_within, Run.run_below, if_pos hd, Run.run_nested]
  simp only
  rw [h]
  rfl

/-- What has a value had a level of nesting left for it. -/
theorem depth_lt_of_run_evaluate {e : Expr} {st st' : State}
    (h : (evaluate limit e).run st = (.ok v, st')) : st.depth < limit := by
  obtain ⟨room, -, hroom, -⟩ := node_of_evaluateWithin h
  omega

/-- A name has the value that it is bound to. -/
theorem run_evaluate_name (hd : d < limit) {name : Name} {span : Span}
    (h : env.lookup? name = some v) :
    (evaluate limit (.ident name span)).run ⟨env, heap, d⟩ = (.ok v, ⟨env, heap, d⟩) := by
  refine run_evaluate_of_lt hd ?_
  rw [evaluateNode, run_bind, run_get]
  simp only [h]
  rfl

end Room

/-- A call has its course, for an expression one level deeper. -/
def Call.enter (limit : Nat) : {α : Type} → Call α → Run α → Run α
  | _, .evaluate _, x => .below limit x
  | _, .assign .., x | _, .execute _, x => x

/-- A call does what its course says, placed at its node. -/
theorem Call.run_eq (limit : Nat) {α : Type} (c : Call α) :
    c.run (TenantScript.evaluate limit) =
      .within c.span (c.enter limit (c.course.run (TenantScript.evaluate limit))) := by
  cases c with
  | evaluate e => exact evaluateNode_eq_course (TenantScript.evaluate limit) e ▸ evaluate_eq limit e
  | assign target v => exact assign_eq_course _ target v
  | execute s => exact execStmt_eq_course _ s

/-! ### The spans below a node -/

mutual
/-- The spans of the nodes of an expression, its own first. -/
def Expr.spans : Expr → List Span
  | literal _ s | ident _ s => [s]
  | array xs s => s :: spansOfAll xs
  | member o _ s => s :: o.spans
  | item c i s => s :: (c.spans ++ i.spans)
  | slice c a b s => s :: (c.spans ++ (spansOfBound a ++ spansOfBound b))
  | deref p s => s :: p.spans
  | assign t v s => s :: (t.spans ++ v.spans)
termination_by structural e => e

/-- The spans of the nodes of a list of expressions. -/
def Expr.spansOfAll : List Expr → List Span
  | [] => []
  | x :: xs => x.spans ++ spansOfAll xs
termination_by structural es => es

/-- The spans of the nodes of a bound. -/
def Expr.spansOfBound : Option Expr → List Span
  | none => []
  | some e => e.spans
termination_by structural bound => bound
end

mutual
/-- The spans of the nodes of a statement, its own first. -/
def Stmt.spans : Stmt → List Span
  | expr e s => s :: e.spans
  | assign targets values s => s :: (Expr.spansOfAll targets ++ Expr.spansOfAll values)
  | forIn var iterable body s => s :: (var.spans ++ (iterable.spans ++ blockSpans body))
  | ret value s => s :: Expr.spansOfBound value
termination_by structural s => s

/-- The spans of the nodes of a block. -/
def Stmt.blockSpans : List Stmt → List Span
  | [] => []
  | s :: rest => s.spans ++ blockSpans rest
termination_by structural ss => ss
end

theorem Expr.spans_sublist_of_mem : {es : List Expr} → {e : Expr} → e ∈ es →
    e.spans.Sublist (spansOfAll es)
  | x :: xs, e, h => by
    rw [spansOfAll]
    rcases List.mem_cons.1 h with rfl | h
    · exact List.sublist_append_left _ _
    · exact (spans_sublist_of_mem h).trans (List.sublist_append_right _ _)

theorem Stmt.spans_sublist_of_mem : {body : List Stmt} → {s : Stmt} → s ∈ body →
    s.spans.Sublist (blockSpans body)
  | x :: xs, s, h => by
    rw [blockSpans]
    rcases List.mem_cons.1 h with rfl | h
    · exact List.sublist_append_left _ _
    · exact (spans_sublist_of_mem h).trans (List.sublist_append_right _ _)

/-- The spans of the nodes that a call is about. -/
def Call.spans : {α : Type} → Call α → List Span
  | _, .evaluate e | _, .assign e _ => e.spans
  | _, .execute s => s.spans

theorem Call.spans_eq {α : Type} (c : Call α) : c.spans = c.span :: c.spans.tail := by
  cases c with
  | evaluate e | assign e => cases e <;> rfl
  | execute s => cases s <;> rfl

/-! ### The calls in a course -/

/-- Every call that a course may make is one of `P`. -/
def Course.All (P : ∀ {β : Type}, Call β → Prop) : {α : Type} → Course α → Prop
  | _, done _ => True
  | _, step _ _ next => ∀ b, (next b).All P
  | _, call c next => P c ∧ ∀ b, (next b).All P
  | _, inScope inner next => inner.All P ∧ ∀ b, (next b).All P

namespace Course

variable {α β : Type} {P : ∀ {β : Type}, Call β → Prop}

theorem All.imp {Q : ∀ {β : Type}, Call β → Prop} (h : ∀ {β : Type} (c : Call β), P c → Q c) :
    {α : Type} → {p : Course α} → p.All P → p.All Q
  | _, .done _, _ => trivial
  | _, .step _ _ _, hp => fun b => All.imp h (hp b)
  | _, .call c _, hp => ⟨h c hp.1, fun b => All.imp h (hp.2 b)⟩
  | _, .inScope _ _, hp => ⟨All.imp h hp.1, fun b => All.imp h (hp.2 b)⟩

theorem All.evaluateAll {next : List Value → Course α} : {es : List Expr} →
    (∀ e ∈ es, P (.evaluate e)) → (∀ vs, (next vs).All P) → (evaluateAll es next).All P
  | [], _, hnext => hnext []
  | e :: _, hes, hnext => ⟨hes e List.mem_cons_self, fun v =>
      All.evaluateAll (fun e he => hes e (List.mem_cons_of_mem _ he)) fun vs => hnext (v :: vs)⟩

theorem All.bound? {bound : Option Expr} {next : Option Int → Course α}
    (hbound : ∀ e, bound = some e → P (.evaluate e)) (hnext : ∀ i, (next i).All P) :
    (bound? bound next).All P := by
  cases bound with
  | none => exact hnext none
  | some e => exact ⟨hbound e rfl, fun _ i => hnext (some i)⟩

theorem All.boundOr {missing : (Int → Course α) → Course α} {bound : Option Expr}
    {next : Int → Course α} (hmissing : (∀ i, (next i).All P) → (missing next).All P)
    (hbound : ∀ e, bound = some e → P (.evaluate e)) (hnext : ∀ i, (next i).All P) :
    (boundOr missing bound next).All P := by
  cases bound with
  | none => exact hmissing hnext
  | some e => exact ⟨hbound e rfl, fun _ => hnext⟩

theorem All.rebind {place : Expr} (hplace : ∀ v, P (.assign place v)) (via : Option PointerRef)
    (m : Mutation) : (rebind place via m).All P := by
  cases m with
  | inPlace stored => trivial
  | replaced container =>
    cases via with
    | some p => exact fun _ => trivial
    | none => exact ⟨hplace container, fun _ => trivial⟩

theorem All.assignEach {next : Value → Course α} : {targets : List Expr} → {values : List Value} →
    {stored : Value} → (∀ t ∈ targets, ∀ v, P (.assign t v)) → (∀ v, (next v).All P) →
      (assignEach next targets values stored).All P
  | [], _, stored, _, hnext => hnext stored
  | t :: _, _, _, ht, hnext => ⟨ht t List.mem_cons_self _, fun _ =>
      All.assignEach (fun t hmem => ht t (List.mem_cons_of_mem _ hmem)) hnext⟩

theorem All.assignAll {targets values : List Expr} {next : Value → Course α}
    (ht : ∀ t ∈ targets, ∀ v, P (.assign t v)) (hv : ∀ e ∈ values, P (.evaluate e))
    (hnext : ∀ v, (next v).All P) : (assignAll targets values next).All P := by
  unfold Course.assignAll
  split
  · exact .evaluateAll hv fun _ => .assignEach ht hnext
  · split
    · next value _ =>
      split
      · exact ⟨hv value List.mem_cons_self, fun _ _ => .assignEach ht hnext⟩
      · exact fun _ => trivial
    · exact fun _ => trivial

theorem All.executeAll {body : List Stmt} {last : Value} (h : ∀ s ∈ body, P (.execute s)) :
    (executeAll body last).All P := by
  induction body generalizing last with
  | nil => trivial
  | cons s rest ih =>
    refine ⟨h s List.mem_cons_self, fun flow => ?_⟩
    cases flow with
    | ret v => trivial
    | next v => exact ih fun s hs => h s (List.mem_cons_of_mem _ hs)

theorem All.forEach {var : Expr} {body : List Stmt} (hvar : ∀ v, P (.assign var v))
    (hbody : ∀ s ∈ body, P (.execute s)) (items : List Value) :
    (forEach var body items).All P := by
  induction items with
  | nil => trivial
  | cons item items ih =>
    refine ⟨⟨hvar item, fun _ => .executeAll hbody⟩, fun flow => ?_⟩
    cases flow with
    | ret v => trivial
    | next v => exact ih

end Course

/-- What is called is about a node below that of the call. -/
def Call.IsBelow {α β : Type} (c : Call α) (c' : Call β) : Prop :=
  c'.spans.Sublist c.spans.tail

/-- The bounds of a slice are below it. -/
theorem Expr.spans_sublist_of_bound {collection e : Expr} {start stop : Option Expr}
    (h : start = some e ∨ stop = some e) :
    e.spans.Sublist (collection.spans ++ (spansOfBound start ++ spansOfBound stop)) := by
  refine List.Sublist.trans ?_ (List.sublist_append_right _ _)
  rcases h with rfl | rfl
  · exact List.sublist_append_left _ _
  · exact List.sublist_append_right _ _

theorem Call.course_below {α : Type} (c : Call α) : c.course.All c.IsBelow := by
  have left {l l' : List Span} : l.Sublist (l ++ l') := List.sublist_append_left l l'
  have right {l l' : List Span} : l'.Sublist (l ++ l') := List.sublist_append_right l l'
  cases c with
  | evaluate e =>
    cases e with
    | literal => trivial
    | array items =>
      exact .evaluateAll (fun e he => Expr.spans_sublist_of_mem he) fun _ _ => trivial
    | ident => exact fun _ _ => trivial
    | member | deref => exact ⟨.refl _, fun _ _ => trivial⟩
    | item => exact ⟨left, fun _ => ⟨right, fun _ _ => trivial⟩⟩
    | slice =>
      exact ⟨left, fun _ => .bound? (fun e he => Expr.spans_sublist_of_bound (.inl he)) fun _ =>
        .bound? (fun e he => Expr.spans_sublist_of_bound (.inr he)) fun _ _ => trivial⟩
    | assign => exact ⟨right, fun _ => ⟨left, fun _ => trivial⟩⟩
  | assign target v =>
    cases target with
    | literal | array | ident | assign => exact fun _ => trivial
    | member => exact ⟨.refl _, fun _ found m => .rebind (fun _ => .refl _) found.2 m⟩
    | item => exact ⟨left, fun _ => ⟨right, fun _ m => .rebind (fun _ => left) none m⟩⟩
    | slice =>
      refine ⟨left, fun _ a => .boundOr (fun h => h 0)
        (fun e he => Expr.spans_sublist_of_bound (.inl he)) fun low => ?_⟩
      exact .boundOr (fun h => h) (fun e he => Expr.spans_sublist_of_bound (.inr he))
        fun high _ => trivial
    | deref => exact ⟨.refl _, fun _ _ => trivial⟩
  | execute s =>
    cases s with
    | expr => exact ⟨.refl _, fun _ => trivial⟩
    | assign =>
      exact .assignAll (fun t ht _ => (Expr.spans_sublist_of_mem ht).trans left)
        (fun e he => (Expr.spans_sublist_of_mem he).trans right) fun _ => trivial
    | forIn =>
      exact ⟨left.trans right, fun _ items => .forEach (fun _ => left)
        (fun s hs => (Stmt.spans_sublist_of_mem hs).trans (right.trans right)) items⟩
    | ret value =>
      cases value with
      | none => trivial
      | some e => exact ⟨.refl _, fun _ => trivial⟩

theorem Call.IsBelow.length_lt {α β : Type} {c : Call α} {c' : Call β} (h : c.IsBelow c') :
    c'.spans.length < c.spans.length := by
  rw [c.spans_eq, List.length_cons]
  exact Nat.lt_succ_of_le h.length_le

/-- What holds of a call as soon as it holds of all calls that it makes holds of every call. -/
theorem Call.induction {P : ∀ {β : Type}, Call β → Prop}
    (h : ∀ {α : Type} (c : Call α), c.course.All P → P c) {α : Type} (c : Call α) : P c :=
  -- the calls in a course are about fewer nodes
  h c (c.course_below.imp fun _ hbelow =>
    have := hbelow.length_lt
    Call.induction h _)
termination_by c.spans.length

end TenantScript
