import TenantScript.Proofs.Link

/-!
Places. Evaluating a target and assigning to it both begin by finding the place that it denotes, in
one and the same way; then the one reads the place and the other one stores into it.
-/

open TenantScript.Action

namespace TenantScript

/-- What a target comes to when its parts are evaluated. -/
inductive Place where
  | name (name : Name)
  /-- A member of a container, with the pointer through which it was reached. -/
  | member (container : Value) (via : Option PointerRef) (field : Name)
  | item (collection index : Value)
  | pointee (pointer : Value)
  deriving DecidableEq

/-- The place that a target denotes. -/
def place (ev : Expr → Run Value) : Expr → Run Place
  | .ident name _ => return .name name
  | .member object field _ => do
    let found ← Run.onHeap (memberContainer (← ev object))
    return .member found.1 found.2 field
  | .item collection index _ => do
    let target ← ev collection
    let key ← ev index
    return .item target key
  | .deref pointer _ => do return .pointee (← ev pointer)
  | e => .fail (.invalidOperation s!"cannot assign to {e.describe}")

namespace Place

/-- The declared type of what is stored in a place; there is none for the characters of a string. -/
def type? : Place → Option Ty
  | name _ | pointee _ => some .any
  | member (.struct s) _ field => (s.defn.field? field).map (·.2.ty)
  | member (.map m) _ _ => some m.value
  | member _ _ _ => none
  | item collection _ =>
    match collection.unwrap with
    | .array a => some a.elem
    | .map m => some m.value
    | _ => none

/-- The value through which a place is read. -/
def base : Place → Value
  | name _ => .nil
  | member container _ _ => container
  | item collection _ => collection
  | pointee pointer => pointer

/-- The value in a place. -/
def read : Place → Run Value
  | name n => do .require (.undefinedSymbol n) (← .get (·.env.lookup? n))
  | member container _ field => Run.onHeap (memberOf container field)
  | item collection index => Run.onHeap (readItem collection index)
  | pointee pointer => Run.onHeap (readPointee pointer)

/-- The link of an assignment to a place; `target` is the expression for the container in which the
place is. -/
def link (target : Expr) : Place → Value → Run Link
  | name n, v => linkName n v
  | member container via field, v => do
    linkPlan target via (← Run.onHeap (planMember container field v))
  | item collection index, v => do
    linkPlan target none (← Run.onHeap (planItem collection index v))
  | pointee pointer, v => do return .last (.write (← Run.onHeap (pointeeSlot pointer)) v)

end Place

/-- The container of a member is what the member is read from. -/
theorem memberSource_of_container {object : Value} {found : Value × Option PointerRef}
    {h : Heap} (hcontainer : ContainerOf h object found) :
    (memberSource object).run h = (.ok found.1, h) := by
  unfold memberSource
  cases hcontainer with
  | direct hnil hpointer =>
    split
    · next p hp => exact (hpointer p hp).elim
    · rfl
  | @through p pointee hp hload hnil =>
    simp only [hp, PointerRef.load]
    rw [run_bind, run_get]
    simp only [hload]
    rfl

theorem container_of_source {object container : Value} {h h' : Heap}
    (hrun : (memberSource object).run h = (.ok container, h')) (hnil : container ≠ .nil) :
    ∃ via, ContainerOf h object (container, via) := by
  unfold memberSource at hrun
  split at hrun
  · next p hp =>
    obtain ⟨v?, h₁, hv, hrun⟩ := exists_of_run_bind hrun
    cases hv
    obtain ⟨hload, -⟩ := eq_of_run_require hrun
    exact ⟨some p, .through hp hload hnil⟩
  · next hpointer =>
    cases hrun
    exact ⟨none, .direct hnil hpointer⟩

variable {ev : Expr → Run Value} {t c : Expr} {pl : Place} {st st' : State}

/-- Evaluating a target is finding its place and reading it. -/
theorem evaluateNode_of_place (h : (place ev t).run st = (.ok pl, st')) :
    (evaluateNode ev t).run st = pl.read.run st' := by
  cases t with
  | ident name span =>
    cases h
    rfl
  | member object field span =>
    obtain ⟨w, st₁, hw, h⟩ := exists_of_run_bind h
    obtain ⟨found, heap, hfound, h⟩ := Run.exists_of_run_onHeap_bind h
    obtain ⟨rfl, hcontainer⟩ := run_memberContainer_iff.1 hfound
    cases h
    show (ev object >>= fun o => Run.onHeap (readMember o field)).run st = _
    rw [run_bind_ok _ hw, Run.run_onHeap, readMember,
      run_bind_ok _ (memberSource_of_container hcontainer)]
    rfl
  | item collection index span =>
    obtain ⟨w, st₁, hw, h⟩ := exists_of_run_bind h
    obtain ⟨key, st₂, hkey, h⟩ := exists_of_run_bind h
    cases h
    show (ev collection >>= fun c => ev index >>= fun i => Run.onHeap (readItem c i)).run st = _
    rw [run_bind_ok _ hw, run_bind_ok _ hkey]
    rfl
  | deref pointer span =>
    obtain ⟨w, st₁, hw, h⟩ := exists_of_run_bind h
    cases h
    show (ev pointer >>= fun p => Run.onHeap (readPointee p)).run st = _
    rw [run_bind_ok _ hw]
    rfl
  | _ => cases h

/-- The first link of an assignment to a target is finding its place and linking to it. -/
theorem link_eq_of_place (h : (place ev t).run st = (.ok pl, st')) (v : Value) :
    (link ev t v).run st = (pl.link (t.container?.getD t) v).run st' := by
  cases t with
  | ident name span =>
    cases h
    rfl
  | member object field span =>
    obtain ⟨w, st₁, hw, h⟩ := exists_of_run_bind h
    obtain ⟨found, st₂, hfound, h⟩ := exists_of_run_bind h
    cases h
    rw [link, run_bind_ok _ hw, run_bind_ok _ hfound]
    rfl
  | item collection index span =>
    obtain ⟨w, st₁, hw, h⟩ := exists_of_run_bind h
    obtain ⟨key, st₂, hkey, h⟩ := exists_of_run_bind h
    cases h
    rw [link, run_bind_ok _ hw, run_bind_ok _ hkey]
    rfl
  | deref pointer span =>
    obtain ⟨w, st₁, hw, h⟩ := exists_of_run_bind h
    cases h
    rw [link, run_bind_ok _ hw]
    rfl
  | _ => cases h

theorem link_of_place (hc : t.container? = some c) (h : (place ev t).run st = (.ok pl, st'))
    (v : Value) : (link ev t v).run st = (pl.link c v).run st' := by
  rw [link_eq_of_place h, hc]
  rfl

theorem item_of_place {w key : Value} (h : (place ev t).run st = (.ok (.item w key), st')) :
    ∃ collection index span st₁, t = .item collection index span ∧
      (ev collection).run st = (.ok w, st₁) := by
  cases t with
  | item collection index span =>
    obtain ⟨w, st₁, hw, h⟩ := exists_of_run_bind h
    obtain ⟨key, st₂, -, h⟩ := exists_of_run_bind h
    cases h
    exact ⟨collection, index, span, st₁, rfl, hw⟩
  | member object field span =>
    obtain ⟨w, st₁, -, h⟩ := exists_of_run_bind h
    obtain ⟨found, st₂, -, h⟩ := exists_of_run_bind h
    cases h
  | deref pointer span =>
    obtain ⟨w, st₁, -, h⟩ := exists_of_run_bind h
    cases h
  | _ => cases h

/-- Whether an expression is a name followed by accesses of members, accesses of items with literal
indices, and dereferences. -/
def Expr.isPath : Expr → Bool
  | ident _ _ => true
  | member object _ _ => object.isPath
  | item collection (.literal _ _) _ => collection.isPath
  | deref pointer _ => pointer.isPath
  | _ => false

/-- Whether an expression is one that denotes a place: a name, or an access of a member, of an item
or of what a pointer points to. -/
def Expr.isPlace : Expr → Bool
  | ident _ _ | member _ _ _ | item _ _ _ | deref _ _ => true
  | _ => false

theorem Expr.isPlace_of_isPath (ht : t.isPath = true) : t.isPlace = true := by
  cases t with
  | ident | member | item | deref => rfl
  | _ => cases ht

theorem Expr.isPlace_of_container (hc : t.container? = some c) : t.isPlace = true := by
  cases t with
  | member | item => rfl
  | _ => cases hc

/-- A target that has a value has a place. -/
theorem exists_place_of_evaluateNode {w : Value} (ht : t.isPlace = true)
    (h : (evaluateNode ev t).run st = (.ok w, st')) :
    ∃ pl st₁, (place ev t).run st = (.ok pl, st₁) ∧ pl.read.run st₁ = (.ok w, st') := by
  cases t with
  | ident name span => exact ⟨_, _, rfl, h⟩
  | member object field span =>
    obtain ⟨o, st₁, ho, h⟩ := exists_of_run_bind h
    obtain ⟨heap, hread, rfl⟩ := Run.exists_of_run_onHeap h
    obtain ⟨container, heap₁, hsource, hmember⟩ := exists_of_run_bind hread
    have hnil : container ≠ .nil := by
      rintro rfl
      cases hmember
    obtain ⟨via, hcontainer⟩ := container_of_source hsource hnil
    cases hsource.symm.trans (memberSource_of_container hcontainer)
    refine ⟨.member container via field, st₁, ?_, ?_⟩
    · rw [place, run_bind_ok _ ho, run_bind, Run.run_onHeap,
        run_memberContainer_iff.2 ⟨rfl, hcontainer⟩]
      rfl
    · rw [Place.read, Run.run_onHeap, hmember]
  | item collection index span =>
    obtain ⟨c, st₁, hc, h⟩ := exists_of_run_bind h
    obtain ⟨key, st₂, hkey, h⟩ := exists_of_run_bind h
    refine ⟨.item c key, st₂, ?_, h⟩
    rw [place, run_bind_ok _ hc, run_bind_ok _ hkey]
    rfl
  | deref pointer span =>
    obtain ⟨p, st₁, hp, h⟩ := exists_of_run_bind h
    refine ⟨.pointee p, st₁, ?_, h⟩
    rw [place, run_bind_ok _ hp]
    rfl
  | _ => cases ht

end TenantScript
