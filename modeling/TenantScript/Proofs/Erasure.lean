import TenantScript.Proofs.Course

/-!
Spans and execution. Main statement: two blocks that differ in the spans of their nodes alone end in
the same state, with the same value or with failures of the same cause and message.
-/

open TenantScript.Action

namespace TenantScript

/-! ### Trees without spans -/

mutual
/-- The expression with the dummy span at every node. -/
def Expr.eraseSpans : Expr → Expr
  | literal v _ => literal v .dummy
  | array xs _ => array (eraseSpansOfAll xs) .dummy
  | ident n _ => ident n .dummy
  | member o f _ => member o.eraseSpans f .dummy
  | item c i _ => item c.eraseSpans i.eraseSpans .dummy
  | slice c a b _ => slice c.eraseSpans (eraseSpansOfBound a) (eraseSpansOfBound b) .dummy
  | deref p _ => deref p.eraseSpans .dummy
  | assign t v _ => assign t.eraseSpans v.eraseSpans .dummy
termination_by structural e => e

/-- The expressions of a list with the dummy span at every node. -/
def Expr.eraseSpansOfAll : List Expr → List Expr
  | [] => []
  | x :: xs => x.eraseSpans :: eraseSpansOfAll xs
termination_by structural es => es

/-- The bound with the dummy span at every node. -/
def Expr.eraseSpansOfBound : Option Expr → Option Expr
  | none => none
  | some e => some e.eraseSpans
termination_by structural bound => bound
end

mutual
/-- The statement with the dummy span at every node. -/
def Stmt.eraseSpans : Stmt → Stmt
  | expr e _ => expr e.eraseSpans .dummy
  | assign targets values _ =>
    assign (Expr.eraseSpansOfAll targets) (Expr.eraseSpansOfAll values) .dummy
  | forIn var iterable body _ =>
    forIn var.eraseSpans iterable.eraseSpans (eraseSpansOfBlock body) .dummy
  | ret value _ => ret (Expr.eraseSpansOfBound value) .dummy
termination_by structural s => s

/-- The block with the dummy span at every node. -/
def Stmt.eraseSpansOfBlock : List Stmt → List Stmt
  | [] => []
  | s :: rest => s.eraseSpans :: eraseSpansOfBlock rest
termination_by structural ss => ss
end

theorem Expr.length_eraseSpansOfAll : (es : List Expr) → (eraseSpansOfAll es).length = es.length
  | [] => rfl
  | _ :: es => congrArg (· + 1) (length_eraseSpansOfAll es)

theorem Stmt.isExpr_eraseSpans (s : Stmt) : s.eraseSpans.isExpr = s.isExpr := by
  cases s <;> rfl

/-- The call of the same node without spans. -/
def Call.eraseSpans : {α : Type} → Call α → Call α
  | _, evaluate e => evaluate e.eraseSpans
  | _, assign target v => assign target.eraseSpans v
  | _, execute s => execute s.eraseSpans

namespace Course

variable {α β : Type}

/-- The course with each call that of the same node without spans. -/
def eraseSpans : {α : Type} → Course α → Course α
  | _, done a => done a
  | _, step x plain next => step x plain fun b => (next b).eraseSpans
  | _, call c next => call c.eraseSpans fun b => (next b).eraseSpans
  | _, inScope inner next => inScope inner.eraseSpans fun b => (next b).eraseSpans

theorem evaluateAll_eraseSpans (next : List Value → Course α) : (es : List Expr) →
    (evaluateAll es next).eraseSpans =
      evaluateAll (Expr.eraseSpansOfAll es) fun vs => (next vs).eraseSpans
  | [] => rfl
  | e :: es => congrArg (call (.evaluate e.eraseSpans))
      (funext fun v => evaluateAll_eraseSpans (fun vs => next (v :: vs)) es)

theorem bound?_eraseSpans (bound : Option Expr) (next : Option Int → Course α) :
    (bound? bound next).eraseSpans =
      bound? (Expr.eraseSpansOfBound bound) fun i => (next i).eraseSpans := by
  cases bound <;> rfl

theorem rebind_eraseSpans (place : Expr) (via : Option PointerRef) (m : Mutation) :
    (rebind place via m).eraseSpans = rebind place.eraseSpans via m := by
  cases m with
  | inPlace stored => rfl
  | replaced container => cases via <;> rfl

theorem assignEach_eraseSpans (next : Value → Course α) : (targets : List Expr) →
    (values : List Value) → (stored : Value) →
      (assignEach next targets values stored).eraseSpans =
        assignEach (fun v => (next v).eraseSpans) (Expr.eraseSpansOfAll targets) values stored
  | [], _, _ => rfl
  | t :: targets, values, _ => congrArg (call (.assign t.eraseSpans (values.headD .nil)))
      (funext fun stored => assignEach_eraseSpans next targets values.tail stored)

theorem assignAll_eraseSpans (targets values : List Expr) (next : Value → Course α) :
    (assignAll targets values next).eraseSpans =
      assignAll (Expr.eraseSpansOfAll targets) (Expr.eraseSpansOfAll values)
        fun v => (next v).eraseSpans := by
  have hmismatch : assignAll.mismatch (Expr.eraseSpansOfAll targets) (Expr.eraseSpansOfAll values) =
      assignAll.mismatch targets values := by
    simp only [assignAll.mismatch, Expr.length_eraseSpansOfAll]
  have heach := assignEach_eraseSpans next targets
  unfold assignAll
  simp only [Expr.length_eraseSpansOfAll, hmismatch]
  split
  · rw [evaluateAll_eraseSpans]
    simp only [heach]
  · rcases values with _ | ⟨value, _ | ⟨_, _⟩⟩
    · rfl
    · simp only [Expr.eraseSpansOfAll]
      split
      · simp only [eraseSpans, heap, Call.eraseSpans, heach]
      · rfl
    · rfl

theorem executeAll_eraseSpans : (body : List Stmt) → (last : Value) →
    (executeAll body last).eraseSpans = executeAll (Stmt.eraseSpansOfBlock body) last
  | [], _ => rfl
  | s :: rest, last => congrArg (call (.execute s.eraseSpans)) (funext fun flow => by
      cases flow with
      | ret v => rfl
      | next v =>
        rw [s.isExpr_eraseSpans]
        exact executeAll_eraseSpans rest _)

theorem forEach_eraseSpans (var : Expr) (body : List Stmt) : (items : List Value) →
    (forEach var body items).eraseSpans =
      forEach var.eraseSpans (Stmt.eraseSpansOfBlock body) items
  | [] => rfl
  | item :: items => by
    rw [forEach, forEach, eraseSpans, eraseSpans]
    simp only [executeAll_eraseSpans]
    congr 1
    funext flow
    cases flow with
    | ret v => rfl
    | next v => exact forEach_eraseSpans var body items

end Course

/-- The course of a call does not depend on the spans of its nodes, but for those of the nodes that
it calls. -/
theorem Call.course_eraseSpans {α : Type} (c : Call α) :
    c.eraseSpans.course = c.course.eraseSpans := by
  cases c with
  | evaluate e =>
    cases e with
    | array =>
      simp only [eraseSpans, Expr.eraseSpans, course, Course.evaluateAll_eraseSpans, Course.heap,
        Course.eraseSpans]
    | slice collection start stop =>
      simp only [eraseSpans, Expr.eraseSpans, course, Course.eraseSpans, Course.bound?_eraseSpans,
        Course.heap]
    | _ => rfl
  | assign target v =>
    cases target with
    | member | item =>
      simp only [eraseSpans, Expr.eraseSpans, course, Course.eraseSpans, Course.heap,
        Course.rebind_eraseSpans]
    | slice collection start stop =>
      cases start <;> cases stop <;> rfl
    | literal value => cases value <;> rfl
    | _ => rfl
  | execute s =>
    cases s with
    | assign =>
      simp only [eraseSpans, Stmt.eraseSpans, course, Course.assignAll_eraseSpans,
        Course.eraseSpans]
    | forIn =>
      simp only [eraseSpans, Stmt.eraseSpans, course, Course.eraseSpans, Course.heap,
        Course.forEach_eraseSpans]
    | ret value => cases value <;> rfl
    | expr => rfl

/-! ### Runs without places -/

namespace Action

variable {σ α β : Type}

/-- The action with its failures taken out of their places. -/
def unplaced (x : Action σ α) : Action σ α :=
  ⟨fun s => ((x.run s).1.mapError fun e => .ofCause e.cause, (x.run s).2)⟩

theorem run_unplaced (x : Action σ α) (s : σ) :
    x.unplaced.run s = ((x.run s).1.mapError fun e => .ofCause e.cause, (x.run s).2) := rfl

theorem unplaced_bind (x : Action σ α) (f : α → Action σ β) :
    (x >>= f).unplaced = x.unplaced >>= fun a => (f a).unplaced := by
  refine ext fun s => ?_
  rw [run_unplaced, run_bind, run_bind, run_unplaced]
  rcases x.run s with ⟨_ | _, _⟩ <;> rfl

theorem unplaced_within (span : Span) (x : Action σ α) :
    (within span x).unplaced = x.unplaced := by
  refine ext fun s => ?_
  rw [run_unplaced, run_unplaced, run_within]
  rcases x.run s with ⟨e | _, _⟩
  · simp [Except.mapError]
  · rfl

theorem unplaced_inScope (x : Run α) : (Run.inScope x).unplaced = Run.inScope x.unplaced := rfl

theorem unplaced_below (limit : Nat) (x : Run α) :
    (Run.below limit x).unplaced = Run.below limit x.unplaced := by
  refine ext fun st => ?_
  rw [run_unplaced, Run.run_below, Run.run_below]
  split <;> rfl

end Action

theorem Course.unplaced_run {ev : Expr → Run Value} : {α : Type} → {p : Course α} →
    p.All (fun c => (c.run ev).unplaced = (c.eraseSpans.run ev).unplaced) →
      (p.run ev).unplaced = (p.eraseSpans.run ev).unplaced
  | _, done _, _ => rfl
  | _, step x _ next, h => by
    rw [run, eraseSpans, run, unplaced_bind, unplaced_bind]
    exact congrArg (_ >>= ·) (funext fun b => unplaced_run (h b))
  | _, call c next, h => by
    rw [run, eraseSpans, run, unplaced_bind, unplaced_bind, h.1]
    exact congrArg (_ >>= ·) (funext fun b => unplaced_run (h.2 b))
  | _, inScope inner next, h => by
    rw [run, eraseSpans, run, unplaced_bind, unplaced_bind, unplaced_inScope, unplaced_inScope,
      unplaced_run h.1]
    exact congrArg (_ >>= ·) (funext fun b => unplaced_run (h.2 b))

theorem Call.unplaced_run (limit : Nat) {α : Type} (c : Call α) :
    (c.run (TenantScript.evaluate limit)).unplaced =
      (c.eraseSpans.run (TenantScript.evaluate limit)).unplaced := by
  refine Call.induction (P := fun c => (c.run (TenantScript.evaluate limit)).unplaced =
    (c.eraseSpans.run (TenantScript.evaluate limit)).unplaced) (fun c h => ?_) c
  -- once the courses agree, all that is left is the node at which each side places its failure
  have hcourse := Course.unplaced_run h
  rw [c.run_eq, c.eraseSpans.run_eq, unplaced_within, unplaced_within, c.course_eraseSpans]
  cases c with
  | evaluate e =>
    simp only [enter, eraseSpans, unplaced_below, hcourse]
  | assign | execute => exact hcourse

theorem unplaced_execBlock (limit : Nat) (body : List Stmt) :
    (execBlock limit body).unplaced = (execBlock limit (Stmt.eraseSpansOfBlock body)).unplaced := by
  have hbody : ((Course.executeAll body .nil).run (evaluate limit)).unplaced =
      ((Course.executeAll body .nil).eraseSpans.run (evaluate limit)).unplaced :=
    Course.unplaced_run (.executeAll fun s _ => (Call.execute s).unplaced_run limit)
  rw [Course.executeAll_eraseSpans] at hbody
  rw [execBlock_eq_course, execBlock_eq_course, unplaced_bind, unplaced_bind, hbody]

/-! ### Main statement -/

/-- Two results that differ at most in the place of a failure. -/
inductive AlikeButPlace {α : Type} : Except EvalError α → Except EvalError α → Prop where
  | ok (a : α) : AlikeButPlace (.ok a) (.ok a)
  | error {e e' : EvalError} (cause : e.cause = e'.cause) (message : e.message = e'.message) :
    AlikeButPlace (.error e) (.error e')

theorem alikeButPlace_of_unplaced {σ α : Type} {x y : Action σ α} (h : x.unplaced = y.unplaced)
    (s : σ) : AlikeButPlace (x.run s).1 (y.run s).1 ∧ (x.run s).2 = (y.run s).2 := by
  have hrun := congrArg (fun z => z.run s) h
  simp only [run_unplaced, Prod.mk.injEq] at hrun
  obtain ⟨hresult, hstate⟩ := hrun
  refine ⟨?_, hstate⟩
  rcases hx : (x.run s).1 with e | a <;> rcases hy : (y.run s).1 with e' | b <;>
    rw [hx, hy] at hresult
  · have hcause : e.cause = e'.cause := by
      simpa [Except.mapError, EvalError.ofCause] using hresult
    exact .error hcause (congrArg Cause.message hcause)
  · cases hresult
  · cases hresult
  · cases hresult
    exact .ok a

/-- What a block without places comes to, the block comes to. -/
theorem run_execBlock_of_eraseSpans {limit : Nat} {body : List Stmt} {st st' : State} {v : Value}
    (h : (execBlock limit (Stmt.eraseSpansOfBlock body)).run st = (.ok v, st')) :
    (execBlock limit body).run st = (.ok v, st') := by
  obtain ⟨halike, hstate⟩ := alikeButPlace_of_unplaced (unplaced_execBlock limit body) st
  rcases hbody : (execBlock limit body).run st with ⟨r, s⟩
  rw [hbody, h] at halike hstate
  cases halike
  cases hstate
  rfl

/-- Blocks that differ in their spans alone run alike: they end in the same state, and with the same
value or with failures that differ at most in their place. -/
theorem spans_unobserved (limit : Nat) {body body' : List Stmt}
    (h : Stmt.eraseSpansOfBlock body = Stmt.eraseSpansOfBlock body') (st : State) :
    AlikeButPlace ((execBlock limit body).run st).1 ((execBlock limit body').run st).1 ∧
      ((execBlock limit body).run st).2 = ((execBlock limit body').run st).2 :=
  alikeButPlace_of_unplaced
    ((unplaced_execBlock limit body).trans (h ▸ (unplaced_execBlock limit body').symm)) st

/-- `n = 1; n[0] = n`, as it was written. -/
def writtenBlock : List Stmt :=
  [.expr (.assign (.ident "n" ⟨1, 2⟩) (.literal (.int 1) ⟨5, 6⟩) ⟨1, 6⟩) ⟨1, 6⟩,
    .assign [.item (.ident "n" ⟨8, 9⟩) (.literal (.int 0) ⟨10, 11⟩) ⟨8, 12⟩]
      [.ident "n" ⟨15, 16⟩] ⟨8, 16⟩]

/-- The same block, put together without places. -/
def builtBlock : List Stmt :=
  [.expr (.assign (.ident "n" .dummy) (.literal (.int 1) .dummy) .dummy) .dummy,
    .assign [.item (.ident "n" .dummy) (.literal (.int 0) .dummy) .dummy]
      [.ident "n" .dummy] .dummy]

/-- Both blocks bind `n` and then fail for the same reason, of which one says where. -/
theorem spans_unobserved_writtenBlock :
    Stmt.eraseSpansOfBlock writtenBlock = Stmt.eraseSpansOfBlock builtBlock ∧
      ((execBlock 512 writtenBlock).run default).1 =
        .error ⟨.unsupported .indexAssignment .int, some ⟨8, 12⟩⟩ ∧
        ((execBlock 512 builtBlock).run default).1 =
          .error ⟨.unsupported .indexAssignment .int, none⟩ ∧
          AlikeButPlace ((execBlock 512 writtenBlock).run default).1
            ((execBlock 512 builtBlock).run default).1 ∧
            ((execBlock 512 writtenBlock).run default).2 =
              ((execBlock 512 builtBlock).run default).2 := by
  have h : Stmt.eraseSpansOfBlock writtenBlock = Stmt.eraseSpansOfBlock builtBlock := by decide
  exact ⟨h, by decide +kernel, by decide +kernel, spans_unobserved 512 h default⟩

end TenantScript
