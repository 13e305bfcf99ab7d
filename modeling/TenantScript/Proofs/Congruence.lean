import TenantScript.Proofs.Failures

/-!
Relations between two runs of one script. A relation that is kept by everything that scripts are
put together from, and that relates the runs of the parts of an expression or a block, relates
those of the whole. What is known of the parts may depend on which parts they are, such as on the
names in them. Entering a level of nesting is left to the evaluators, so that a relation can be one
between runs at given depths.
-/

open TenantScript.Action

namespace TenantScript

/-! ### The parts of expressions and blocks -/

/-- The expressions right below the outermost node. -/
def Expr.children : Expr → List Expr
  | literal .. | ident .. => []
  | array xs _ => xs
  | member o _ _ => [o]
  | item c i _ => [c, i]
  | slice c a b _ => c :: (a.toList ++ b.toList)
  | deref p _ => [p]
  | assign t v _ => [t, v]

mutual
/-- The outermost expressions of a statement and of the statements in it. -/
def Stmt.exprs : Stmt → List Expr
  | expr e _ => [e]
  | assign targets values _ => targets ++ values
  | forIn var iterable body _ => var :: iterable :: blockExprs body
  | ret value _ => value.toList
termination_by structural s => s

/-- The outermost expressions of the statements of a block. -/
def Stmt.blockExprs : List Stmt → List Expr
  | [] => []
  | s :: rest => s.exprs ++ blockExprs rest
termination_by structural ss => ss
end

/-! ### Congruences -/

/-- A relation between runs that is kept by what scripts are put together from, as far as names are
in `N`. -/
structure Congruence (N : Name → Prop) where
  Rel : {α : Type} → Run α → Run α → Prop
  pure : ∀ {α : Type} (a : α), Rel (Pure.pure a) (Pure.pure a)
  fail : ∀ {α : Type} {cause : Cause}, cause.isDepthLimit = false →
    Rel (.fail cause : Run α) (.fail cause)
  bind : ∀ {α β : Type} {x y : Run α} {f g : α → Run β}, Rel x y → (∀ a, Rel (f a) (g a)) →
    Rel (x >>= f) (y >>= g)
  within : ∀ {α : Type} {span : Span} {x y : Run α}, Rel x y → Rel (.within span x) (.within span y)
  inScope : ∀ {α : Type} {x y : Run α}, Rel x y → Rel (Run.inScope x) (Run.inScope y)
  onHeap : ∀ {α : Type} {x : Action Heap α}, x.FailsPlainly → Rel (Run.onHeap x) (Run.onHeap x)
  lookup : ∀ {name : Name}, N name →
    Rel (.get (·.env.lookup? name)) (.get (·.env.lookup? name))
  assignName : ∀ {name : Name}, N name → ∀ v, Rel (assignName name v) (assignName name v)

namespace Congruence

variable {N : Name → Prop} (C : Congruence N) {α β : Type}

/-- The runs of two evaluators are related on a class of expressions, to which all parts of its
expressions belong and the names of which are in `N`. -/
structure Relates (ev ev' : Expr → Run Value) (A : Expr → Prop) : Prop where
  rel : ∀ {e}, A e → C.Rel (ev e) (ev' e)
  child : ∀ {e c}, A e → c ∈ e.children → A c
  name : ∀ {name span}, A (.ident name span) → N name

theorem require {cause : Cause} (hc : cause.isDepthLimit = false) (a? : Option α) :
    C.Rel (.require cause a?) (.require cause a?) := by
  cases a? with
  | some a => exact C.pure a
  | none => exact C.fail hc

theorem ofExcept {r : Except Cause α} (h : ∀ cause, r = .error cause → cause.isDepthLimit = false) :
    C.Rel (.ofExcept r) (.ofExcept r) := by
  cases r with
  | ok a => exact C.pure a
  | error cause => exact C.fail (h cause rfl)

theorem mapM {f g : α → Run β} : {as : List α} → (∀ a ∈ as, C.Rel (f a) (g a)) →
    C.Rel (as.mapM f) (as.mapM g)
  | [], _ => by
    rw [List.mapM_nil, List.mapM_nil]
    exact C.pure []
  | a :: as, h => by
    rw [List.mapM_cons, List.mapM_cons]
    refine C.bind (h a List.mem_cons_self) fun _ => C.bind (mapM fun b hb => ?_) fun _ => C.pure _
    exact h b (List.mem_cons_of_mem a hb)

section Eval

variable {C} {ev ev' : Expr → Run Value} {A : Expr → Prop}

theorem bound? {bound : Option Expr} (h : ∀ e, bound = some e → C.Rel (ev e) (ev' e)) :
    C.Rel (TenantScript.bound? ev bound) (TenantScript.bound? ev' bound) := by
  cases bound with
  | none => exact C.pure none
  | some e =>
    exact C.bind (h e rfl) fun _ =>
      C.bind (C.ofExcept fun _ => isDepthLimit_of_toIndex) fun _ => C.pure _

theorem boundOr {missing : Run Int} {bound : Option Expr} (hmissing : C.Rel missing missing)
    (h : ∀ e, bound = some e → C.Rel (ev e) (ev' e)) :
    C.Rel (TenantScript.boundOr ev missing bound) (TenantScript.boundOr ev' missing bound) := by
  cases bound with
  | none => exact hmissing
  | some e => exact C.bind (h e rfl) fun _ => C.ofExcept fun _ => isDepthLimit_of_toIndex

theorem rebind {toPlace toPlace' : Value → Run Value} (via : Option PointerRef) (m : Mutation)
    (h : ∀ v, C.Rel (toPlace v) (toPlace' v)) :
    C.Rel (TenantScript.rebind toPlace via m) (TenantScript.rebind toPlace' via m) := by
  cases m with
  | inPlace stored => exact C.pure stored
  | replaced container =>
    cases via with
    | some p => exact C.bind (C.onHeap (p.store_failsPlainly container)) fun _ => C.pure _
    | none => exact h container

namespace Relates

variable (h : C.Relates ev ev' A)

include h

theorem start {c : Expr} {start stop : Option Expr} {span : Span}
    (he : A (.slice c start stop span)) (e : Expr) (hs : start = some e) : C.Rel (ev e) (ev' e) :=
  h.rel (h.child he (by simp [Expr.children, hs]))

theorem stop {c : Expr} {start stop : Option Expr} {span : Span}
    (he : A (.slice c start stop span)) (e : Expr) (hs : stop = some e) : C.Rel (ev e) (ev' e) :=
  h.rel (h.child he (by simp [Expr.children, hs]))

theorem assign : (t : Expr) → (v : Value) → A t →
    C.Rel (TenantScript.assign ev t v) (TenantScript.assign ev' t v)
  | .ident name _, v, ht => C.within (C.assignName (h.name ht) v)
  | .member object field _, v, ht => by
    have ho : A object := h.child ht List.mem_cons_self
    exact C.within (C.bind (h.rel ho) fun o =>
      C.bind (C.onHeap (memberContainer_failsPlainly o)) fun found =>
        C.bind (C.onHeap (setMember_failsPlainly found.1 field v)) fun m =>
          rebind found.2 m fun w => assign object w ho)
  | .item collection index _, v, ht => by
    have hc : A collection := h.child ht List.mem_cons_self
    have hi : A index := h.child ht (List.mem_cons_of_mem _ List.mem_cons_self)
    exact C.within (C.bind (h.rel hc) fun target => C.bind (h.rel hi) fun key =>
      C.bind (C.onHeap (setItem_failsPlainly target key v)) fun m =>
        rebind none m fun w => assign collection w hc)
  | .slice collection start stop _, v, ht => by
    have hc : A collection := h.child ht List.mem_cons_self
    have hlength (a : ArrayRef) :=
      C.onHeap (FailsPlainly.get fun g : Heap => ((g.items a).length : Int))
    exact C.within (C.bind (h.rel hc) fun target =>
      C.bind (C.onHeap (sliceTarget_failsPlainly target)) fun a =>
        C.bind (boundOr (C.pure 0) (h.start ht)) fun low =>
          C.bind (boundOr (hlength a) (h.stop ht)) fun high =>
            C.bind (C.onHeap (a.setRange_failsPlainly low high v)) fun m => C.pure m.value)
  | .deref pointer _, v, ht => by
    have hp : A pointer := h.child ht List.mem_cons_self
    exact C.within (C.bind (h.rel hp) fun p =>
      C.bind (C.onHeap (setPointee_failsPlainly p v)) fun m => C.pure m.value)
  | .literal .., _, _ | .array .., _, _ | .assign .., _, _ => C.within (C.fail rfl)

/-- The outermost node, where all that is below it belongs to the class. -/
theorem evaluateNode : (e : Expr) → (∀ c ∈ e.children, A c) →
    (∀ name span, e = .ident name span → N name) →
      C.Rel (TenantScript.evaluateNode ev e) (TenantScript.evaluateNode ev' e)
  | .literal v _, _, _ => C.pure v.value
  | .array xs _, hc, _ => C.bind (C.mapM fun x hx => h.rel (hc x hx)) fun values =>
      C.bind (C.onHeap (ArrayRef.make_failsPlainly _ _)) fun _ => C.pure _
  | .ident name span, _, hn => C.bind (C.lookup (hn name span rfl)) fun v? => C.require rfl v?
  | .member object field _, hc, _ => C.bind (h.rel (hc object List.mem_cons_self)) fun o =>
      C.onHeap (readMember_failsPlainly o field)
  | .item collection index _, hc, _ => by
    have hi : A index := hc index (List.mem_cons_of_mem _ List.mem_cons_self)
    exact C.bind (h.rel (hc collection List.mem_cons_self)) fun target =>
      C.bind (h.rel hi) fun key => C.onHeap (readItem_failsPlainly target key)
  | .slice collection start stop _, hc, _ => by
    have hbound {bound : Option Expr}
        (hmem : ∀ e, bound = some e → e ∈ start.toList ++ stop.toList) :
        C.Rel (TenantScript.bound? ev bound) (TenantScript.bound? ev' bound) :=
      bound? fun e he => h.rel (hc e (List.mem_cons_of_mem _ (hmem e he)))
    exact C.bind (h.rel (hc collection List.mem_cons_self)) fun target =>
      C.bind (hbound fun e he => by simp [he]) fun low =>
        C.bind (hbound fun e he => by simp [he]) fun high =>
          C.onHeap (readSlice_failsPlainly target low high)
  | .deref pointer _, hc, _ => C.bind (h.rel (hc pointer List.mem_cons_self)) fun p =>
      C.onHeap (readPointee_failsPlainly p)
  | .assign target value _, hc, _ =>
    C.bind (h.rel (hc value (List.mem_cons_of_mem _ List.mem_cons_self))) fun v =>
      h.assign target v (hc target List.mem_cons_self)

theorem assignEach : (targets : List Expr) → (∀ t ∈ targets, A t) → (values : List Value) →
    (stored : Value) → C.Rel (TenantScript.assignEach ev targets values stored)
      (TenantScript.assignEach ev' targets values stored)
  | [], _, _, stored => C.pure stored
  | target :: targets, ht, values, _ =>
    C.bind (h.assign target (values.headD .nil) (ht target List.mem_cons_self)) fun stored =>
      assignEach targets (fun t hmem => ht t (List.mem_cons_of_mem _ hmem)) values.tail stored

theorem assignAll {targets values : List Expr} (ht : ∀ t ∈ targets, A t) (hv : ∀ e ∈ values, A e) :
    C.Rel (TenantScript.assignAll ev targets values)
      (TenantScript.assignAll ev' targets values) := by
  unfold TenantScript.assignAll
  split
  · exact C.bind (C.mapM fun e he => h.rel (hv e he)) fun vs => h.assignEach targets ht vs .nil
  · split
    · next value _ =>
      split
      · exact C.bind (h.rel (hv value List.mem_cons_self)) fun v =>
          C.bind (C.onHeap (spread_failsPlainly v _)) fun vs => h.assignEach targets ht vs .nil
      · exact C.fail rfl
    · exact C.fail rfl

omit h in
theorem forEach {bind bind' : Value → Run Value} {body body' : Run Flow}
    (hbind : ∀ v, C.Rel (bind v) (bind' v)) (hbody : C.Rel body body') : (items : List Value) →
      C.Rel (TenantScript.forEach bind body items) (TenantScript.forEach bind' body' items)
  | [] => C.pure _
  | item :: items => C.bind (C.inScope (C.bind (hbind item) fun _ => hbody)) fun flow =>
    match flow with
    | .ret _ => C.pure _
    | .next _ => forEach hbind hbody items

end Relates

mutual
theorem Relates.execStmt (h : C.Relates ev ev' A) : (s : Stmt) → (∀ e ∈ s.exprs, A e) →
    C.Rel (TenantScript.execStmt ev s) (TenantScript.execStmt ev' s)
  | .expr e _, hs => C.within (C.bind (h.rel (hs e List.mem_cons_self)) fun _ => C.pure _)
  | .assign targets values _, hs =>
    C.within (C.bind (h.assignAll (fun t ht => hs t (List.mem_append_left _ ht))
      fun e he => hs e (List.mem_append_right _ he)) fun _ => C.pure _)
  | .forIn var iterable body _, hs => by
    have hvar : A var := hs var List.mem_cons_self
    have hiter : A iterable := hs iterable (List.mem_cons_of_mem _ List.mem_cons_self)
    have hbody := h.execStmts body
      (fun e he => hs e (List.mem_cons_of_mem _ (List.mem_cons_of_mem _ he))) .nil
    exact C.within (C.bind (h.rel hiter) fun v => C.bind (C.onHeap (readEach_failsPlainly v))
      fun items => Relates.forEach (fun u => h.assign var u hvar) hbody items)
  | .ret none _, _ => by
    rw [TenantScript.execStmt, TenantScript.execStmt]
    exact C.within (C.pure _)
  | .ret (some e) _, hs =>
    C.within (C.bind (h.rel (hs e List.mem_cons_self)) fun _ => C.pure _)

theorem Relates.execStmts (h : C.Relates ev ev' A) : (body : List Stmt) →
    (∀ e ∈ Stmt.blockExprs body, A e) → (last : Value) →
      C.Rel (TenantScript.execStmts ev body last) (TenantScript.execStmts ev' body last)
  | [], _, _ => C.pure _
  | s :: rest, hs, _ =>
    C.bind (h.execStmt s fun e he => hs e (List.mem_append_left _ he)) fun flow =>
      match flow with
      | .ret _ => C.pure _
      | .next _ => h.execStmts rest (fun e he => hs e (List.mem_append_right _ he)) _
end

end Eval

end Congruence

end TenantScript
