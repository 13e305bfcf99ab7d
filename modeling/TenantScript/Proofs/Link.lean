import TenantScript.Eval.Evaluate
import TenantScript.Proofs.Plan
import TenantScript.Proofs.Scopes

/-!
Assignment as a chain of links. A link evaluates the parts of its target, checks and converts, and
then either ends the chain in one store or passes a replacement on to the place that the container
came from. All that a link does before its store can fail; the store itself cannot.
-/

open TenantScript.Action

namespace TenantScript

/-- The store in which an assignment ends. -/
inductive Store where
  | bind (name : Name) (v : Value)
  | write (slot : Slot) (v : Value)
  /-- Values for the elements of an array from `start` on. -/
  | overwrite (array : ArrayRef) (start : Nat) (values : List Value)
  deriving DecidableEq

/-- Carries out a store; the result is the value stored, and for a range a new array of the
elements stored. -/
def Store.run : Store → Run Value
  | bind name v => do
    .modify fun st => { st with env := st.env.assign name v }
    return v
  | write slot v => do
    Run.onHeap (.modify (·.store slot v))
    return v
  | overwrite a start values => do return (← Run.onHeap (a.commitRange start values)).value

/-- The state after a store. -/
def Store.apply : Store → State → State
  | bind name v, st => { st with env := st.env.assign name v }
  | write slot v, st => { st with heap := st.heap.store slot v }
  | overwrite a start values, st =>
    { st with
      heap := (st.heap.write a.address (.items (TenantScript.overwrite (st.heap.items a) start
        values))).push (.items values) }

/-- The result of a store. -/
def Store.result : Store → State → Value
  | bind _ v, _ | write _ v, _ => v
  | overwrite a _ _, st => .array ⟨a.elem, false, false, st.heap.size⟩

theorem Store.run_run (store : Store) (st : State) :
    store.run.run st = (.ok (store.result st), store.apply st) := by
  cases store with
  | bind name v => rfl
  | write slot v => rfl
  | overwrite a start values =>
    have hrun : (Run.onHeap (a.commitRange start values)).run st = _ := Run.run_onHeap _ _
    rw [ArrayRef.run_commitRange] at hrun
    exact run_bind_ok _ hrun

/-- The storage that a store writes. -/
def Store.address? : Store → Option Address
  | bind _ _ => none
  | write slot _ => some slot.address
  | overwrite a _ _ => some a.address

theorem Store.get?_apply_of_ne {store : Store} {s : State} {a : Address} (ha : a < s.heap.size)
    (hne : store.address? ≠ some a) : (store.apply s).heap.get? a = s.heap.get? a := by
  cases store with
  | bind name v => rfl
  | write slot v => exact Heap.get?_store_ne _ _ _ fun e => hne (congrArg some e.symm)
  | overwrite r start values =>
    exact Heap.get?_push_write_ne _ _ ha fun e => hne (congrArg some e.symm)

/-- What one link comes to. -/
inductive Link where
  | last (store : Store)
  /-- The replacement `container` is to be assigned to `target`. -/
  | pass (target : Expr) (container : Value)

/-- A name that can be assigned. -/
def linkName (name : Name) (v : Value) : Run Link := do
  if ((← .get (·.env)).lookup? name).isNone && Name.isQualified name then
    .fail (.undefinedSymbol name)
  else return .last (.bind name v)

/-- A plan for the container that `target` denotes. A replacement goes to the cell of the pointer
through which the container was reached, or else to `target`. -/
def linkPlan (target : Expr) (via : Option PointerRef) : Plan → Run Link
  | .write slot v => return .last (.write slot v)
  | .replace container =>
    match via with
    | some p => do return .last (.write (← Run.onHeap p.slot) container)
    | none => return .pass target container

/-- One link: all that is done to assign `v` to a target before anything is stored. -/
def link (ev : Expr → Run Value) : Expr → Value → Run Link
  | .ident name _, v => linkName name v
  | .member object field _, v => do
    let found ← Run.onHeap (memberContainer (← ev object))
    linkPlan object found.2 (← Run.onHeap (planMember found.1 field v))
  | .item collection index _, v => do
    let target ← ev collection
    let key ← ev index
    linkPlan collection none (← Run.onHeap (planItem target key v))
  | .slice collection start stop _, v => do
    let a ← Run.onHeap (sliceTarget (← ev collection))
    let low ← boundOr ev (return 0) start
    let high ← boundOr ev (Run.onHeap (.get fun h => ((h.items a).length : Int))) stop
    let r ← Run.onHeap (a.planRange low high v)
    return .last (.overwrite a r.1 r.2)
  | .deref pointer _, v => do
    return .last (.write (← Run.onHeap (pointeeSlot (← ev pointer))) v)
  | e@(.literal _ _), _ | e@(.array _ _), _ | e@(.assign _ _ _), _ =>
    .fail (.invalidOperation s!"cannot assign to {e.describe}")

theorem run_link_ident {ev : Expr → Run Value} {x : Name} {u v : Value} {span : Span} {st : State}
    (hx : st.env.lookup? x = some u) :
    (link ev (.ident x span) v).run st = (.ok (.last (.bind x v)), st) := by
  unfold link linkName
  rw [run_bind, run_get]
  simp only [hx]
  rfl

/-- Goes on from a link. -/
def Link.finish (assign : Expr → Value → Run Value) : Link → Run Value
  | last store => store.run
  | pass target container => assign target container

/-! ### An assignment is its first link and what follows from it -/

theorem onHeap_bind {α β : Type} (x : Action Heap α) (f : α → Action Heap β) :
    Run.onHeap (x >>= f) = Run.onHeap x >>= fun a => Run.onHeap (f a) := by
  refine Action.ext fun st => ?_
  rw [Run.run_onHeap, run_bind, run_bind, Run.run_onHeap]
  rcases x.run st.heap with ⟨_ | _, _⟩ <;> rfl

theorem assignName_eq (name : Name) (v : Value) (next : Expr → Value → Run Value) :
    assignName name v = linkName name v >>= Link.finish next := by
  refine Action.ext fun st => ?_
  unfold linkName
  rw [run_assignName, bind_assoc, run_bind, run_get]
  simp only
  cases (st.env.lookup? name).isNone && Name.isQualified name <;> rfl

theorem inHeap_eq {α : Type} (x : Action Heap α) : (inHeap x : Run α) = Run.onHeap x := rfl

theorem rebind_eq (target : Expr) (via : Option PointerRef) (plan : Plan)
    (assign : Expr → Value → Run Value) :
    Run.onHeap plan.commit >>= rebind (assign target) via =
      linkPlan target via plan >>= Link.finish assign := by
  cases plan with
  | write slot v => rfl
  | replace container =>
    cases via with
    | none => rfl
    | some p =>
      show (Run.onHeap (p.store container) >>= fun m => pure m.value) = _
      rw [p.store_eq, onHeap_bind]
      simp only [linkPlan, bind_assoc, pure_bind]
      rfl

theorem assign_eq (ev : Expr → Run Value) (target : Expr) (v : Value) :
    assign ev target v = .within target.span (link ev target v >>= Link.finish (assign ev)) := by
  cases target with
  | ident name span =>
    rw [assign, link, ← assignName_eq]
    rfl
  | member object field span =>
    rw [assign, link]
    simp only [bind_assoc, ← rebind_eq]
    refine congrArg _ (bind_congr fun o => bind_congr fun found => ?_)
    rw [setMember_eq]
    rw [inHeap_eq, onHeap_bind, bind_assoc]
  | item collection index span =>
    rw [assign, link]
    simp only [bind_assoc, ← rebind_eq]
    refine congrArg _ (bind_congr fun target => bind_congr fun key => ?_)
    rw [setItem_eq]
    rw [inHeap_eq, onHeap_bind, bind_assoc]
  | slice collection start stop span =>
    rw [assign, link]
    simp only [bind_assoc, pure_bind]
    refine congrArg _ (bind_congr fun c => bind_congr fun a => bind_congr fun low =>
      bind_congr fun high => ?_)
    rw [ArrayRef.setRange_eq]
    rw [inHeap_eq, onHeap_bind, bind_assoc]
    rfl
  | deref pointer span =>
    rw [assign, link]
    simp only [bind_assoc, pure_bind]
    refine congrArg _ (bind_congr fun p => ?_)
    rw [setPointee_eq]
    rw [inHeap_eq, onHeap_bind, bind_assoc]
    rfl
  | _ => rfl

/-! ### The container of a member -/

/-- What has the members of an object: the object, or what it points to. -/
inductive ContainerOf (h : Heap) (object : Value) : Value × Option PointerRef → Prop
  | direct (hnil : object.unwrap ≠ .nil) (hpointer : ∀ p, object.unwrap ≠ .pointer p) :
      ContainerOf h object (object.unwrap, none)
  | through {p : PointerRef} {pointee : Value} (hp : object.unwrap = .pointer p)
      (hload : h.load? p = some pointee) (hnil : pointee ≠ .nil) :
      ContainerOf h object (pointee, some p)

theorem run_memberContainer_iff {object : Value} {found : Value × Option PointerRef}
    {h h' : Heap} :
    (memberContainer object).run h = (.ok found, h') ↔ h' = h ∧ ContainerOf h object found := by
  constructor
  · intro hrun
    unfold memberContainer at hrun
    split at hrun
    · cases hrun
    · next p hp =>
      obtain ⟨v?, h₁, hv, hrun⟩ := exists_of_run_bind hrun
      cases hv
      split at hrun
      · cases hrun
      · cases hrun
      · next pointee hnil hload =>
        cases hrun
        exact ⟨rfl, .through hp hload hnil⟩
    · next hnil hpointer =>
      cases hrun
      exact ⟨rfl, .direct hnil hpointer⟩
  · rintro ⟨rfl, hcontainer⟩
    unfold memberContainer
    cases hcontainer with
    | direct hnil hpointer =>
      split
      · next hn => exact (hnil hn).elim
      · next p hp => exact (hpointer p hp).elim
      · rfl
    | @through p pointee hp hload hnil =>
      simp only [hp]
      rw [run_bind, run_get]
      simp only [hload]
      cases pointee with
      | nil => exact (hnil rfl).elim
      | _ => rfl

/-! ### Links only add storages and lead outward -/

theorem linkPlan_adds (target : Expr) (via : Option PointerRef) (plan : Plan) :
    (linkPlan target via plan).Adds := by
  cases plan with
  | write slot v => exact .pure _
  | replace container =>
    cases via with
    | none => exact .pure _
    | some p => exact .bind (Run.onHeap_adds p.slot_adds) fun _ => .pure _

theorem memberContainer_adds (object : Value) : (memberContainer object).Adds := by
  unfold memberContainer
  split
  · exact .fail _
  · refine .bind (.get _) fun pointee => ?_
    split
    · exact .fail _
    · exact .fail _
    · exact .pure _
  · exact .pure _

theorem sliceTarget_adds (collection : Value) : (sliceTarget collection).Adds := by
  unfold sliceTarget
  split
  · exact .pure _
  · exact .fail _

theorem boundOr_adds {ev : Expr → Run Value} {missing : Run Int} {bound : Option Expr}
    (hmissing : missing.Adds) (h : ∀ e, bound = some e → (ev e).Adds) :
    (boundOr ev missing bound).Adds := by
  cases bound with
  | none => exact hmissing
  | some e => exact .bind (h e rfl) fun _ => .ofExcept _

theorem link_adds {ev : Expr → Run Value} (hev : ∀ e, e.isAssignFree = true → (ev e).Adds) :
    (target : Expr) → (v : Value) → target.isAssignFree = true → (link ev target v).Adds
  | .ident name _, v, _ => by
    refine .bind (.get _) fun env => ?_
    split
    · exact .fail _
    · exact .pure _
  | .member o _ _, v, ht => .bind (hev o ht) fun _ =>
    .bind (Run.onHeap_adds (memberContainer_adds _)) fun _ =>
      .bind (Run.onHeap_adds (planMember_adds _ _ _)) fun _ => linkPlan_adds _ _ _
  | .item c i _, v, ht => by
    simp only [Expr.isAssignFree, Bool.and_eq_true] at ht
    exact .bind (hev c ht.1) fun _ => .bind (hev i ht.2) fun _ =>
      .bind (Run.onHeap_adds (planItem_adds _ _ _)) fun _ => linkPlan_adds _ _ _
  | .slice c a b _, v, ht => by
    simp only [Expr.isAssignFree, Bool.and_eq_true, Expr.isAssignFreeBound_iff] at ht
    exact .bind (hev c ht.1.1) fun _ => .bind (Run.onHeap_adds (sliceTarget_adds _)) fun _ =>
      .bind (boundOr_adds (.pure _) fun e h => hev e (ht.1.2 e h)) fun _ =>
        .bind (boundOr_adds (Run.onHeap_adds (.get _)) fun e h => hev e (ht.2 e h)) fun _ =>
          .bind (Run.onHeap_adds (ArrayRef.planRange_adds _ _ _ _)) fun _ => .pure _
  | .deref p _, v, ht => .bind (hev p ht) fun _ =>
    .bind (Run.onHeap_adds (pointeeSlot_adds _)) fun _ => .pure _
  | .literal _ _, _, _ | .array _ _, _, _ => .fail _

/-- The expression for the container in which a target is a place. -/
def Expr.container? : Expr → Option Expr
  | member object _ _ => some object
  | item collection _ _ => some collection
  | _ => none

theorem Expr.isAssignFree_container {t c : Expr} (hc : t.container? = some c)
    (ht : t.isAssignFree = true) : c.isAssignFree = true := by
  cases t <;> simp_all [container?, isAssignFree]

theorem Expr.sizeOf_container {t c : Expr} (hc : t.container? = some c) : sizeOf c < sizeOf t := by
  cases t <;> simp [container?] at hc <;> subst hc <;> simp <;> omega

theorem linkPlan_yields (target : Expr) (via : Option PointerRef) (plan : Plan) :
    (linkPlan target via plan).Yields fun l => ∀ t c, l = .pass t c → t = target := by
  cases plan with
  | write slot v => exact .pure fun _ _ e => nomatch e
  | replace container =>
    cases via with
    | none => exact .pure fun _ _ e => by cases e; rfl
    | some p => exact .bind fun _ => .pure fun _ _ e => nomatch e

/-- A replacement is passed on to the expression for the container that it replaces. -/
theorem link_yields (ev : Expr → Run Value) (v : Value) : (target : Expr) →
    (link ev target v).Yields fun l => ∀ t c, l = .pass t c → target.container? = some t
  | .ident name _ => by
    refine .bind fun env => ?_
    split
    · exact .fail _
    · exact .pure fun _ _ e => nomatch e
  | .member o _ _ => .bind fun _ => .bind fun found => .bind fun plan st l hl t c e =>
    congrArg some (linkPlan_yields o found.2 plan st l hl t c e).symm
  | .item d _ _ => .bind fun _ => .bind fun _ => .bind fun plan st l hl t c e =>
    congrArg some (linkPlan_yields d none plan st l hl t c e).symm
  | .slice .. => .bind fun _ => .bind fun _ => .bind fun _ => .bind fun _ => .bind fun _ =>
    .pure fun _ _ e => nomatch e
  | .deref .. => .bind fun _ => .bind fun _ => .pure fun _ _ e => nomatch e
  | .literal .. | .array .. | .assign .. => .fail _

/-- What holds of an assignment whose first link fails, of one whose first link is the last, and of
one that passes a replacement on if it holds of what follows, holds of every assignment. -/
theorem assign_induction {ev : Expr → Run Value}
    {P : Expr → Value → State → Except EvalError Value → State → Prop}
    (fails : ∀ {t v st e st'}, (link ev t v).run st = (.error e, st') →
      P t v st (.error (e.orAt t.span)) st')
    (last : ∀ {t v st store st'}, (link ev t v).run st = (.ok (.last store), st') →
      P t v st (.ok (store.result st')) (store.apply st'))
    (pass : ∀ {t v st t' c st₁ r st'}, (link ev t v).run st = (.ok (.pass t' c), st₁) →
      t.container? = some t' → P t' c st₁ r st' → P t v st (r.mapError (·.orAt t.span)) st') :
    (t : Expr) → (v : Value) → (st : State) →
      P t v st ((assign ev t v).run st).1 ((assign ev t v).run st).2
  | t, v, st => by
    rw [assign_eq, run_within, run_bind]
    rcases hl : (link ev t v).run st with ⟨e | l, st₁⟩
    · exact fails hl
    · cases l with
      | last store =>
        simp only [Link.finish, Store.run_run]
        exact last hl
      | pass t' c =>
        have hc := link_yields ev v t st _ (congrArg Prod.fst hl) t' c rfl
        have := Expr.sizeOf_container hc
        exact pass hl hc (assign_induction fails last pass t' c st₁)
termination_by t => sizeOf t

/-- The links of an assignment of `v` to `t`, from the state `st` on, up to the one that comes to a
last store in the state `st'`. -/
inductive Chain (ev : Expr → Run Value) : Expr → Value → State → Store → State → Prop
  | last {t v st store st'} : (link ev t v).run st = (.ok (.last store), st') →
    Chain ev t v st store st'
  | pass {t v st t' c st₁ store st'} : (link ev t v).run st = (.ok (.pass t' c), st₁) →
    t.container? = some t' → Chain ev t' c st₁ store st' → Chain ev t v st store st'

/-- An assignment that has a result is a chain of links and its last store. -/
theorem exists_chain_of_assign {ev : Expr → Run Value} {t : Expr} {v r : Value} {st st' : State}
    (h : (assign ev t v).run st = (.ok r, st')) :
    ∃ store st₁, Chain ev t v st store st₁ ∧ r = store.result st₁ ∧ st' = store.apply st₁ := by
  have key : ∀ r, ((assign ev t v).run st).1 = .ok r → ∃ store st₁,
      Chain ev t v st store st₁ ∧ r = store.result st₁ ∧
        ((assign ev t v).run st).2 = store.apply st₁ := by
    refine assign_induction (P := fun t v st res st' => ∀ r, res = .ok r →
      ∃ store st₁, Chain ev t v st store st₁ ∧ r = store.result st₁ ∧ st' = store.apply st₁)
      ?_ ?_ ?_ t v st
    · intro t v st e st' _ r hr
      cases hr
    · intro t v st store st' hl r hr
      cases hr
      exact ⟨store, st', .last hl, rfl, rfl⟩
    · intro t v st t' c st₁ res st' hl hc ih r hr
      cases res with
      | error e => cases hr
      | ok w =>
        cases hr
        obtain ⟨store, st₂, hchain, hw, hst⟩ := ih _ rfl
        exact ⟨store, st₂, .pass hl hc hchain, hw, hst⟩
  obtain ⟨store, st₁, hchain, hr, hst⟩ := key r (by rw [h])
  rw [h] at hst
  exact ⟨store, st₁, hchain, hr, hst⟩

/-- A chain of links and its last store are an assignment that has a result. -/
theorem Chain.run_assign {ev : Expr → Run Value} {t : Expr} {v : Value} {st st' : State}
    {store : Store} (h : Chain ev t v st store st') :
    (assign ev t v).run st = (.ok (store.result st'), store.apply st') := by
  induction h with
  | last hl =>
    rw [assign_eq, run_within, run_bind_ok _ hl, Link.finish, Store.run_run]
    rfl
  | pass hl hc _ ih =>
    rw [assign_eq, run_within, run_bind_ok _ hl, Link.finish, ih]
    rfl

theorem Chain.le {ev : Expr → Run Value} (hev : ∀ e, e.isAssignFree = true → (ev e).Adds)
    {t : Expr} {v : Value} {st st' : State} {store : Store} (h : Chain ev t v st store st') :
    t.isAssignFree = true → st ≤ st' := by
  induction h with
  | last hl => exact fun ht => (link_adds hev _ _ ht).le_of_run hl
  | pass hl hc _ ih =>
    intro ht
    exact ((link_adds hev _ _ ht).le_of_run hl).trans (ih (Expr.isAssignFree_container hc ht))

end TenantScript
