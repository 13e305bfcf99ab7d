import TenantScript.Eval.Block
import TenantScript.Proofs.Matching
import TenantScript.Proofs.StrippedScopes

/-!
One interface around the value of a name. A script in which the name stands only where it is read
from, stored into, looped over or dealt out does the same whether the value of the name is behind an
interface or not. Main statement: both runs end in the same way, in the same heap, with all other
names bound alike; the name itself is assigned the same in both, or stays as it was in each.
-/

open TenantScript.Action

namespace TenantScript

/-! ### Names that stand at bases -/

namespace Expr

mutual
/-- Whether a name stands only at bases of accesses, or, if `base` says so, for the whole. -/
def onlyAccesses (x : Name) : Expr → Bool → Bool
  | literal .., _ => true
  | ident name _, base => base || name != x
  | array es _, _ => allOnlyAccess x es false
  | member o _ _, _ => o.onlyAccesses x true
  | item c i _, _ => c.onlyAccesses x true && i.onlyAccesses x false
  | slice c a b _, _ => c.onlyAccesses x true && boundOnlyAccesses x a && boundOnlyAccesses x b
  | deref p _, _ => p.onlyAccesses x true
  | assign t v _, _ => t.onlyAccesses x false && v.onlyAccesses x false
termination_by structural e => e

/-- Whether that is so in all expressions of a list. -/
def allOnlyAccess (x : Name) : List Expr → Bool → Bool
  | [], _ => true
  | e :: es, base => e.onlyAccesses x base && allOnlyAccess x es base
termination_by structural es => es

/-- Whether that is so in a bound. -/
def boundOnlyAccesses (x : Name) : Option Expr → Bool
  | none => true
  | some e => e.onlyAccesses x false
termination_by structural bound => bound
end

theorem allOnlyAccess_iff {x : Name} {base : Bool} : (es : List Expr) →
    (allOnlyAccess x es base = true ↔ ∀ e ∈ es, e.onlyAccesses x base = true)
  | [] => by simp [allOnlyAccess]
  | e :: es => by simp [allOnlyAccess, allOnlyAccess_iff es]

end Expr

namespace Stmt

mutual
/-- Whether a name stands only at bases of accesses, as what is looped over, or as the one value
that is dealt out to several targets. -/
def onlyAccesses (x : Name) : Stmt → Bool
  | expr e _ => e.onlyAccesses x false
  | assign targets values _ => Expr.allOnlyAccess x targets false &&
      Expr.allOnlyAccess x values (values.length == 1 && decide (1 < targets.length))
  | forIn var iterable body _ => var.onlyAccesses x false && iterable.onlyAccesses x true &&
      blockOnlyAccesses x body
  | ret value _ => Expr.boundOnlyAccesses x value
termination_by structural s => s

/-- Whether that is so in the statements of a block. -/
def blockOnlyAccesses (x : Name) : List Stmt → Bool
  | [] => true
  | s :: rest => s.onlyAccesses x && blockOnlyAccesses x rest
termination_by structural ss => ss
end

end Stmt

/-! ### Failures of one variant -/

/-- Whether two failures are the same, but perhaps for the words in which an operation is said to be
invalid. -/
structure EvalError.SameVariant (e e' : EvalError) : Prop where
  span : e'.span? = e.span?
  cause : e'.cause = e.cause ∨
    ∃ d d', e.cause = .invalidOperation d ∧ e'.cause = .invalidOperation d'

instance : Std.Refl EvalError.SameVariant := ⟨fun _ => ⟨rfl, .inl rfl⟩⟩

theorem EvalError.SameVariant.orAt {e e' : EvalError} (h : e.SameVariant e') (span : Span) :
    (e.orAt span).SameVariant (e'.orAt span) := by
  refine ⟨?_, by simpa using h.cause⟩
  simp only [EvalError.orAt, h.span]
  split
  · rfl
  · exact h.span

/-! ### Accesses to what is behind an interface

Every access takes an interface off the value that it is made to before it looks at that value. The
one place where an interface shows is the message about a value that cannot be dealt out.
-/

/-- Whether a function is the same for values that are the same without an interface. -/
def Unwraps {α : Type} (f : Value → α) : Prop := ∀ u u', u.unwrap = u'.unwrap → f u = f u'

theorem readMember_unwraps (field : Name) : Unwraps (readMember · field) := by
  intro u u' hu
  simp only [readMember, memberSource, hu]

theorem readItem_unwraps (index : Value) : Unwraps (readItem · index) := by
  intro u u' hu
  simp only [readItem, hu]

theorem readSlice_unwraps (start stop : Option Int) : Unwraps (readSlice · start stop) := by
  intro u u' hu
  simp only [readSlice, hu]

theorem readPointee_unwraps : Unwraps readPointee := by
  intro u u' hu
  simp only [readPointee, hu]

theorem readEach_unwraps : Unwraps readEach := by
  intro u u' hu
  simp only [readEach, hu]

theorem memberContainer_unwraps : Unwraps memberContainer := by
  intro u u' hu
  simp only [memberContainer, hu]

theorem setItem_unwraps (index v : Value) : Unwraps (setItem · index v) := by
  intro u u' hu
  simp only [setItem, hu]

theorem sliceTarget_unwraps : Unwraps sliceTarget := by
  intro u u' hu
  simp only [sliceTarget, hu]

theorem setPointee_unwraps (v : Value) : Unwraps (setPointee · v) := by
  intro u u' hu
  simp only [setPointee, hu]

theorem spread_matches {u u' : Value} (hu : u.unwrap = u'.unwrap) (targets : Nat) :
    Matches Eq EvalError.SameVariant Eq (spread u targets) (spread u' targets) := by
  unfold spread
  rw [hu]
  split
  · exact .self _
  · exact .fail ⟨rfl, .inr ⟨_, _, rfl, rfl⟩⟩

/-! ### Runs with and without the interface -/

/-- Whether two states are the same, but perhaps for an interface around the value of a name. -/
structure State.Strips (x : Name) (c : Value) (st st' : State) : Prop where
  scopes : TenantScript.Strips x c st.env.scopes st'.env.scopes
  heap : st.heap = st'.heap
  depth : st.depth = st'.depth

/-- Whether values are the same, at a base perhaps but for an interface. -/
def AlikeAt : Bool → Value → Value → Prop
  | true, u, u' => u.unwrap = u'.unwrap
  | false, u, u' => u = u'

theorem alikeAt_self (base : Bool) (u : Value) : AlikeAt base u u := by
  cases base <;> exact rfl

/-- Whether two runs end alike, from states that are the same but perhaps for an interface around
the value of `x`, and in such states. -/
abbrev Transparent {α β : Type} (x : Name) (c : Value) (R : α → β → Prop) (y : Run α)
    (z : Run β) : Prop :=
  Matches (State.Strips x c) EvalError.SameVariant R y z

namespace Transparent

variable {α β : Type} {x : Name} {c : Value} {R : α → β → Prop}

theorem within {span : Span} {y : Run α} {z : Run β} (h : Transparent x c R y z) :
    Transparent x c R (Action.within span y) (Action.within span z) :=
  Matches.within (fun _ _ he => he.orAt span) h

theorem nested {y : Run α} {z : Run β} (h : Transparent x c R y z) :
    Transparent x c R (Run.nested y) (Run.nested z) :=
  Matches.nested (fun f hst => ⟨hst.scopes, hst.heap, congrArg f hst.depth⟩) h

theorem inScope {y : Run α} {z : Run β} (h : Transparent x c R y z) :
    Transparent x c R (Run.inScope y) (Run.inScope z) :=
  Matches.inScope (fun hst => ⟨Environment.strips_push hst.scopes, hst.heap, hst.depth⟩)
    (fun hst => ⟨Environment.strips_pop hst.scopes, hst.heap, hst.depth⟩) h

theorem onHeap {y : Action Heap α} {z : Action Heap β}
    (h : Matches Eq EvalError.SameVariant R y z) :
    Transparent x c R (Run.onHeap y) (Run.onHeap z) :=
  Matches.onHeap (fun hst => hst.heap) (fun hst hheap => ⟨hst.scopes, hheap, hst.depth⟩) h

theorem onHeap_self (y : Action Heap α) : Transparent x c Eq (Run.onHeap y) (Run.onHeap y) :=
  onHeap (.self y)

theorem onHeap_base {f : Value → Action Heap α} (hf : Unwraps f) {u u' : Value}
    (hu : u.unwrap = u'.unwrap) : Transparent x c Eq (Run.onHeap (f u)) (Run.onHeap (f u')) :=
  hf u u' hu ▸ onHeap_self (f u)

theorem assignName (name : Name) (v : Value) :
    Transparent x c Eq (TenantScript.assignName name v) (TenantScript.assignName name v) := by
  intro st st' hst
  rw [run_assignName, run_assignName, show (st'.env.lookup? name).isNone =
    (st.env.lookup? name).isNone from hst.scopes.isNone_find?]
  split
  · exact ⟨.refl _, hst⟩
  · exact ⟨.result rfl, Environment.strips_assign hst.scopes name v, hst.heap, hst.depth⟩

/-- What a name means: at a base, the name itself too. -/
theorem name (hc : c.unwrap = c) {name : Name} {base : Bool} (hname : (base || name != x) = true) :
    Transparent x c (AlikeAt base)
      (.get (·.env.lookup? name) >>= .require (.undefinedSymbol name))
      (.get (·.env.lookup? name) >>= .require (.undefinedSymbol name)) := by
  intro st st' hst
  rw [run_bind, run_bind, run_get, run_get]
  simp only
  by_cases hx : name = x
  · subst hx
    obtain rfl : base = true := by simpa using hname
    rcases hst.scopes.eq_or_find? with hsame | ⟨hlook, hlook'⟩
    · rw [Environment.eq_of_scopes hsame]
      cases st.env.lookup? name with
      | some u => exact ⟨.result (alikeAt_self true u), hst⟩
      | none => exact ⟨.failure ⟨rfl, .inl rfl⟩, hst⟩
    · rw [show st.env.lookup? name = some (.interface c) from hlook,
        show st'.env.lookup? name = some c from hlook']
      exact ⟨.result hc.symm, hst⟩
  · rw [Environment.lookup?_eq_of_bindings (hst.scopes.map_get? hx)]
    cases st.env.lookup? name with
    | some u => exact ⟨.result (alikeAt_self base u), hst⟩
    | none => exact ⟨.failure ⟨rfl, .inl rfl⟩, hst⟩

end Transparent

/-- Whether an evaluator does the same with and without the interface, on expressions in which `x`
stands at bases alone. -/
def EvaluatesAlike (x : Name) (c : Value) (ev : Expr → Run Value) : Prop :=
  ∀ e base, e.onlyAccesses x base = true → Transparent x c (AlikeAt base) (ev e) (ev e)

namespace EvaluatesAlike

open Transparent (onHeap_self onHeap_base)

variable {x : Name} {c : Value} {ev : Expr → Run Value}

theorem bound? (hev : EvaluatesAlike x c ev) {bound : Option Expr}
    (hbound : Expr.boundOnlyAccesses x bound = true) :
    Transparent x c Eq (TenantScript.bound? ev bound) (TenantScript.bound? ev bound) := by
  cases bound with
  | none => exact .pure rfl
  | some e =>
    exact .bind_eq (hev e false hbound) fun v => .bind_eq (.ofExcept_self _) fun i => .pure rfl

theorem boundOr (hev : EvaluatesAlike x c ev) {missing : Run Int} {bound : Option Expr}
    (hmissing : Transparent x c Eq missing missing)
    (hbound : Expr.boundOnlyAccesses x bound = true) :
    Transparent x c Eq (TenantScript.boundOr ev missing bound)
      (TenantScript.boundOr ev missing bound) := by
  cases bound with
  | none => exact hmissing
  | some e => exact .bind_eq (hev e false hbound) fun v => .ofExcept_self _

theorem rebind {toPlace : Value → Run Value} (via : Option PointerRef) (m : Mutation)
    (h : ∀ v, Transparent x c Eq (toPlace v) (toPlace v)) :
    Transparent x c Eq (TenantScript.rebind toPlace via m) (TenantScript.rebind toPlace via m) := by
  cases m with
  | inPlace stored => exact .pure rfl
  | replaced container =>
    cases via with
    | some p => exact .bind_eq (onHeap_self (p.store container)) fun m => .pure rfl
    | none => exact h container

theorem assign (hev : EvaluatesAlike x c ev) : (t : Expr) → (base : Bool) →
    t.onlyAccesses x base = true → (v : Value) →
      Transparent x c Eq (TenantScript.assign ev t v) (TenantScript.assign ev t v)
  | .ident name _, _, _, v => .within (.assignName name v)
  | .member object field _, _, ht, v => by
    refine .within (.bind (hev object true ht) fun u u' hu => ?_)
    refine .bind_eq (onHeap_base memberContainer_unwraps hu) fun found => ?_
    refine .bind_eq (onHeap_self (setMember found.1 field v)) fun m => ?_
    exact rebind found.2 m fun w => assign hev object true ht w
  | .item collection index _, _, ht, v => by
    rw [Expr.onlyAccesses, Bool.and_eq_true] at ht
    refine .within (.bind (hev collection true ht.1) fun u u' hu => ?_)
    refine .bind_eq (hev index false ht.2) fun key => ?_
    refine .bind_eq (onHeap_base (setItem_unwraps key v) hu) fun m => ?_
    exact rebind none m fun w => assign hev collection true ht.1 w
  | .slice collection start stop _, _, ht, v => by
    have hlength (a : ArrayRef) :=
      onHeap_self (x := x) (c := c) (.get fun g : Heap => ((g.items a).length : Int))
    rw [Expr.onlyAccesses, Bool.and_eq_true, Bool.and_eq_true] at ht
    refine .within (.bind (hev collection true ht.1.1) fun u u' hu => ?_)
    refine .bind_eq (onHeap_base sliceTarget_unwraps hu) fun a => ?_
    refine .bind_eq (hev.boundOr (.pure rfl) ht.1.2) fun low => ?_
    refine .bind_eq (hev.boundOr (hlength a) ht.2) fun high => ?_
    exact .bind_eq (onHeap_self (a.setRange low high v)) fun m => .pure rfl
  | .deref pointer _, _, ht, v => by
    refine .within (.bind (hev pointer true ht) fun u u' hu => ?_)
    exact .bind_eq (onHeap_base (setPointee_unwraps v) hu) fun m => .pure rfl
  | .literal .., _, _, _ | .array .., _, _, _ | .assign .., _, _, _ => .within .fail_self

/-- Of an outermost node that is no name the value is the same. -/
theorem evaluateNode (hc : c.unwrap = c) (hev : EvaluatesAlike x c ev) : (e : Expr) →
    (base : Bool) → e.onlyAccesses x base = true →
      Transparent x c (AlikeAt base) (TenantScript.evaluateNode ev e)
        (TenantScript.evaluateNode ev e) := by
  intro e base he
  have hsame (h : Transparent x c Eq (TenantScript.evaluateNode ev e)
      (TenantScript.evaluateNode ev e)) : Transparent x c (AlikeAt base)
        (TenantScript.evaluateNode ev e) (TenantScript.evaluateNode ev e) :=
    h.imp fun u _ hu => hu ▸ alikeAt_self base u
  cases e with
  | ident name span => exact .name hc he
  | literal l span => exact hsame (.pure rfl)
  | array es span =>
    refine hsame (.bind_eq ?_ fun vs => .bind_eq (onHeap_self _) fun r => .pure rfl)
    have hes := (Expr.allOnlyAccess_iff es).1 he
    exact (Matches.mapM fun e hmem => hev e false (hes e hmem)).imp fun vs vs' hvs =>
      List.forall₂_eq_eq_eq ▸ hvs
  | member object field span =>
    exact hsame (.bind (hev object true he) fun u u' hu =>
      onHeap_base (readMember_unwraps field) hu)
  | item collection index span =>
    rw [Expr.onlyAccesses, Bool.and_eq_true] at he
    refine hsame (.bind (hev collection true he.1) fun u u' hu => ?_)
    exact .bind_eq (hev index false he.2) fun key => onHeap_base (readItem_unwraps key) hu
  | slice collection start stop span =>
    rw [Expr.onlyAccesses, Bool.and_eq_true, Bool.and_eq_true] at he
    refine hsame (.bind (hev collection true he.1.1) fun u u' hu => ?_)
    refine .bind_eq (hev.bound? he.1.2) fun low => .bind_eq (hev.bound? he.2) fun high => ?_
    exact onHeap_base (readSlice_unwraps low high) hu
  | deref pointer span =>
    exact hsame (.bind (hev pointer true he) fun u u' hu => onHeap_base readPointee_unwraps hu)
  | assign target value span =>
    rw [Expr.onlyAccesses, Bool.and_eq_true] at he
    exact hsame (.bind_eq (hev value false he.2) fun v => hev.assign target false he.1 v)

theorem assignEach (hev : EvaluatesAlike x c ev) : (targets : List Expr) →
    Expr.allOnlyAccess x targets false = true → (values : List Value) → (stored : Value) →
      Transparent x c Eq (TenantScript.assignEach ev targets values stored)
        (TenantScript.assignEach ev targets values stored)
  | [], _, _, _ => .pure rfl
  | target :: targets, ht, values, _ => by
    rw [Expr.allOnlyAccess, Bool.and_eq_true] at ht
    exact .bind_eq (hev.assign target false ht.1 (values.headD .nil)) fun stored =>
      assignEach hev targets ht.2 values.tail stored

theorem assignAll (hev : EvaluatesAlike x c ev) {targets values : List Expr}
    (ht : Expr.allOnlyAccess x targets false = true) (hvalues : Expr.allOnlyAccess x values
      (values.length == 1 && decide (1 < targets.length)) = true) :
    Transparent x c Eq (TenantScript.assignAll ev targets values)
      (TenantScript.assignAll ev targets values) := by
  unfold TenantScript.assignAll
  split
  · next hlength =>
    have hflag : (values.length == 1 && decide (1 < targets.length)) = false := by
      rw [hlength]
      simp
      omega
    rw [hflag, Expr.allOnlyAccess_iff] at hvalues
    refine .bind_eq ?_ fun vs => hev.assignEach targets ht vs .nil
    exact (Matches.mapM fun e hmem => hev e false (hvalues e hmem)).imp fun vs vs' hvs =>
      List.forall₂_eq_eq_eq ▸ hvs
  · split
    · next value _ =>
      split
      · next hmany =>
        have hbase : value.onlyAccesses x true = true := by
          simpa [Expr.allOnlyAccess, show 1 < targets.length from hmany] using hvalues
        refine .bind (hev value true hbase) fun u u' hu => ?_
        exact .bind_eq (Transparent.onHeap (spread_matches hu _)) fun vs =>
          hev.assignEach targets ht vs .nil
      · exact .fail_self
    · exact .fail_self

theorem forEach {bind : Value → Run Value} {body : Run Flow}
    (hbind : ∀ v, Transparent x c Eq (bind v) (bind v)) (hbody : Transparent x c Eq body body)
    (items : List Value) : Transparent x c Eq (TenantScript.forEach bind body items)
      (TenantScript.forEach bind body items) := by
  induction items with
  | nil => exact .pure rfl
  | cons item items ih =>
    refine .bind_eq (Transparent.inScope (.bind_eq (hbind item) fun _ => hbody)) fun flow => ?_
    cases flow with
    | ret v => exact .pure rfl
    | next v => exact ih

mutual
theorem execStmt (hev : EvaluatesAlike x c ev) : (s : Stmt) → s.onlyAccesses x = true →
    Transparent x c Eq (TenantScript.execStmt ev s) (TenantScript.execStmt ev s)
  | .expr e _, hs => .within (.bind_eq (hev e false hs) fun _ => .pure rfl)
  | .assign targets values _, hs => by
    rw [Stmt.onlyAccesses, Bool.and_eq_true] at hs
    exact .within (.bind_eq (hev.assignAll hs.1 hs.2) fun _ => .pure rfl)
  | .forIn var iterable body _, hs => by
    rw [Stmt.onlyAccesses, Bool.and_eq_true, Bool.and_eq_true] at hs
    refine .within (.bind (hev iterable true hs.1.2) fun u u' hu => ?_)
    refine .bind_eq (onHeap_base readEach_unwraps hu) fun items => ?_
    exact forEach (fun v => hev.assign var false hs.1.1 v) (execStmts hev body hs.2 .nil) items
  | .ret none _, _ => by
    rw [TenantScript.execStmt]
    exact .within (.pure rfl)
  | .ret (some e) _, hs => .within (.bind_eq (hev e false hs) fun _ => .pure rfl)

theorem execStmts (hev : EvaluatesAlike x c ev) : (body : List Stmt) →
    Stmt.blockOnlyAccesses x body = true → (last : Value) →
      Transparent x c Eq (TenantScript.execStmts ev body last) (TenantScript.execStmts ev body last)
  | [], _, _ => .pure rfl
  | s :: rest, hs, _ => by
    rw [Stmt.blockOnlyAccesses, Bool.and_eq_true] at hs
    refine .bind_eq (execStmt hev s hs.1) fun flow => ?_
    cases flow with
    | ret v => exact .pure rfl
    | next v => exact execStmts hev rest hs.2 _
end

end EvaluatesAlike

theorem evaluateWithin_alike {x : Name} {c : Value} (hc : c.unwrap = c) (limit : Nat) :
    (room : Nat) → EvaluatesAlike x c (evaluateWithin limit room)
  | 0, _, _, _ => .within .fail_self
  | room + 1, e, base, he =>
    .within (.nested ((evaluateWithin_alike hc limit room).evaluateNode hc e base he))

theorem evaluate_alike {x : Name} {c : Value} (hc : c.unwrap = c) (limit : Nat) :
    EvaluatesAlike x c (evaluate limit) := by
  intro e base he st st' hst
  have hroom : limit - st'.depth = limit - st.depth := by rw [hst.depth]
  have hrun := evaluateWithin_alike hc limit (limit - st.depth) e base he st st' hst
  rw [show (evaluate limit e).run st' = (evaluateWithin limit (limit - st.depth) e).run st' by
    rw [← hroom]; rfl]
  exact hrun

/-! ### Main statement -/

/-- What is the same for a run from a state in which `x` is bound to `c` behind an interface and
from the one in which it is bound to `c`. -/
structure LayerUnseen {α : Type} (x : Name) (c : Value) (y : Run α) (st : State) : Prop where
  ends : EndsAlike EvalError.SameVariant Eq (y.run st).1
    (y.run { st with env := st.env.assign x c }).1
  heap : (y.run { st with env := st.env.assign x c }).2.heap = (y.run st).2.heap
  others : ∀ name, name ≠ x →
    (y.run { st with env := st.env.assign x c }).2.env.bindings name =
      (y.run st).2.env.bindings name
  /-- The name has been assigned the same in both runs, or is bound as it was in each. -/
  itself : (y.run { st with env := st.env.assign x c }).2.env = (y.run st).2.env ∨
    (y.run st).2.env.lookup? x = some (.interface c) ∧
      (y.run { st with env := st.env.assign x c }).2.env.lookup? x = some c

theorem Transparent.layerUnseen {α : Type} {x : Name} {c : Value} {y : Run α} {st : State}
    (h : Transparent x c Eq y y) (hx : st.env.lookup? x = some (.interface c)) :
    LayerUnseen x c y st := by
  obtain ⟨scopes, hset, hstrips⟩ := Strips.of_find? hx
  have hstart : st.Strips x c { st with env := st.env.assign x c } := by
    refine ⟨?_, rfl, rfl⟩
    show Strips x c st.env.scopes (st.env.assign x c).scopes
    rw [Environment.scopes_assign, show Environment.setLocal? x c st.env.scopes = _ from hset]
    exact hstrips
  obtain ⟨hends, hend⟩ := h st _ hstart
  refine ⟨hends, hend.heap.symm, fun name hname => hend.scopes.map_get? hname, ?_⟩
  rcases hend.scopes.eq_or_find? with hsame | hown
  · exact .inl (Environment.eq_of_scopes hsame)
  · exact .inr hown

/-- One interface around the value of a name is not seen by what uses the name at bases alone. -/
theorem interface_layer_unseen {x : Name} {c : Value} {st : State} (hc : c.unwrap = c)
    (hx : st.env.lookup? x = some (.interface c)) (limit : Nat) :
    (∀ e, e.onlyAccesses x false = true → LayerUnseen x c (evaluate limit e) st) ∧
      (∀ t v, t.onlyAccesses x false = true →
        LayerUnseen x c (assign (evaluate limit) t v) st) ∧
      (∀ s, Stmt.onlyAccesses x s = true → LayerUnseen x c (execStmt (evaluate limit) s) st) ∧
      ∀ body, Stmt.blockOnlyAccesses x body = true → LayerUnseen x c (execBlock limit body) st := by
  have halike : EvaluatesAlike x c (evaluate limit) := evaluate_alike hc limit
  refine ⟨fun e he => ?_, fun t v ht => ?_, fun s hs => ?_, fun body hbody => ?_⟩
  · exact Transparent.layerUnseen (halike e false he) hx
  · exact Transparent.layerUnseen (halike.assign t false ht v) hx
  · exact Transparent.layerUnseen (halike.execStmt s hs) hx
  · have hblock : Transparent x c Eq (execBlock limit body) (execBlock limit body) :=
      .bind_eq (halike.execStmts body hbody .nil) fun flow => .pure rfl
    exact hblock.layerUnseen hx

/-- An array of two integers behind an interface. -/
def wrappedPair : State where
  env := Environment.empty.define "x" (.interface (.array ⟨.int, false, false, 0⟩))
  heap := Heap.empty.push (.items [.int 1, .int 2])
  depth := 0

/-- `x[0]`, which only reads. -/
def firstOfPair : Expr := .item (.ident "x" .dummy) (.literal (.int 0) .dummy) .dummy

/-- `a, b = x`, after which `x[2] = 3` replaces the array. -/
def dealtAndGrown : List Stmt :=
  [.assign [.ident "a" .dummy, .ident "b" .dummy] [.ident "x" .dummy] .dummy,
    .assign [.item (.ident "x" .dummy) (.literal (.int 2) .dummy) .dummy]
      [.literal (.int 3) .dummy] .dummy]

/-- What is read leaves the interface, and what grows is bound without it in both runs. -/
theorem interface_layer_unseen_wrappedPair :
    LayerUnseen "x" (.array ⟨.int, false, false, 0⟩) (evaluate 4 firstOfPair) wrappedPair ∧
      LayerUnseen "x" (.array ⟨.int, false, false, 0⟩) (execBlock 4 dealtAndGrown) wrappedPair ∧
      ((evaluate 4 firstOfPair).run wrappedPair).2.env.lookup? "x" =
        some (.interface (.array ⟨.int, false, false, 0⟩)) ∧
      ((execBlock 4 dealtAndGrown).run wrappedPair).2.env.lookup? "x" =
        some (.array ⟨.int, false, false, 1⟩) := by
  obtain ⟨hexpr, -, -, hblock⟩ :=
    @interface_layer_unseen "x" (.array ⟨.int, false, false, 0⟩) wrappedPair rfl (by decide) 4
  exact ⟨hexpr firstOfPair (by decide), hblock dealtAndGrown (by decide), by decide +kernel,
    by decide +kernel⟩

end TenantScript
