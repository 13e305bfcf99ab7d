import TenantScript.Proofs.Reads
import TenantScript.Proofs.WellTyped

/-!
Paths. The evaluation of a path reads one storage after the other, each of which leads to the next
one, and makes nothing, unless its last access is of a missing entry with array values. Where it
makes nothing it has the same value in every heap that agrees on the storages that were read, all
of which lead on to the value.
-/

open Relation TenantScript.Action

namespace TenantScript

/-- The levels of nesting that the evaluation of a path takes. -/
def Expr.height : Expr → Nat
  | member object _ _ => object.height + 1
  | item collection _ _ => collection.height + 1
  | deref pointer _ => pointer.height + 1
  | _ => 1

theorem Expr.height_pos (e : Expr) : 0 < e.height := by
  cases e <;> simp [height]

theorem Expr.isAssignFree_of_isPath : (e : Expr) → e.isPath = true → e.isAssignFree = true
  | ident _ _, _ => rfl
  | member object _ _, h => isAssignFree_of_isPath object h
  | item collection (.literal _ _) _, h => by
    rw [isAssignFree, isAssignFree_of_isPath collection h]
    rfl
  | deref pointer _, h => isAssignFree_of_isPath pointer h

/-! ### Traces -/

/-- Whether an action leaves every state with the bindings of `st` as it is and has one result in
all those whose heap agrees with that of `st` on some storages. -/
def Traced {α : Type} (st : State) (A : List Address) (x : Run α) (a : α) : Prop :=
  ∀ (h : Heap) (d : Nat), (∀ b ∈ A, h.get? b = st.heap.get? b) →
    x.run { st with heap := h, depth := d } = (.ok a, { st with heap := h, depth := d })

/-- Whether storages lie on the way to a value: what it refers to can be reached, and they all lead
there. -/
structure Trail (st : State) (A : List Address) (w : Value) : Prop where
  lt : ∀ b ∈ A, b < st.heap.size
  reaches : ∀ a, w.ref? = some a → st.Reaches a
  leads : ∀ a, w.ref? = some a → ∀ b ∈ A, TransGen st.heap.Leads b a

section Traces

variable {st : State} {A B : List Address} {u w : Value}

namespace Traced

variable {α β : Type} {x : Run α} {a : α}

theorem pure (a : α) : Traced st [] (pure a) a := fun _ _ _ => rfl

theorem bind {f : α → Run β} {b : β} (hx : Traced st A x a) (hf : Traced st B (f a) b) :
    Traced st (B ++ A) (x >>= f) b := by
  intro h d hagree
  rw [run_bind_ok _ (hx h d fun c hc => hagree c (List.mem_append_right _ hc))]
  exact hf h d fun c hc => hagree c (List.mem_append_left _ hc)

theorem map {β : Type} (f : α → β) (hx : Traced st A x a) :
    Traced st A (x >>= fun a => Pure.pure (f a)) (f a) := by
  intro h d hagree
  rw [run_bind_ok _ (hx h d hagree)]
  rfl

theorem within {span : Span} (hx : Traced st A x a) : Traced st A (within span x) a := by
  intro h d hagree
  rw [run_within, hx h d hagree]
  rfl

theorem nested (hx : Traced st A x a) : Traced st A (Run.nested x) a := by
  intro h d hagree
  rw [Run.run_nested]
  simp only [hx h (d + 1) hagree, Nat.add_sub_cancel]

theorem onHeap {x : Action Heap Value} (hx : Finds x st.heap u w) :
    Traced st u.ref?.toList (Run.onHeap x) w := by
  intro h d hagree
  rw [Run.run_onHeap, hx h fun a ha => hagree a (by rw [ha]; exact List.mem_singleton_self a)]

theorem congr {st' : State} (hx : Traced st A x a) (henv : st'.env = st.env)
    (hagree : ∀ b ∈ A, st'.heap.get? b = st.heap.get? b) : Traced st' A x a := by
  intro h d hh
  rw [henv]
  exact hx h d fun b hb => (hh b hb).trans (hagree b hb)

end Traced

theorem Trail.of_ref (h : Trail st A u) (hw : w.ref? = u.ref?) : Trail st A w :=
  ⟨h.lt, fun a ha => h.reaches a (hw.symm.trans ha), fun a ha => h.leads a (hw.symm.trans ha)⟩

/-- The storage that is read next lies on the way too. -/
theorem Trail.step {D : Discipline} {Γ : Layout} (hst : st.Sound D Γ) (h : Trail st A u)
    (hleads : ∀ b, w.ref? = some b → ∃ a, u.ref? = some a ∧ st.heap.Leads a b) :
    Trail st (u.ref?.toList ++ A) w := by
  refine ⟨fun b hb => ?_, fun c hc => ?_, fun c hc b hb => ?_⟩
  · rcases List.mem_append.1 hb with hb | hb
    · exact hst.reaches_lt (h.reaches b (Option.mem_toList.1 hb))
    · exact h.lt b hb
  · obtain ⟨a, ha, hac⟩ := hleads c hc
    exact (h.reaches a ha).tail hac
  · obtain ⟨a, ha, hac⟩ := hleads c hc
    rcases List.mem_append.1 hb with hb | hb
    · cases ha.symm.trans (Option.mem_toList.1 hb)
      exact .single hac
    · exact (h.leads a ha b hb).tail hac

theorem traced_through {p : PointerRef} (hu : u.unwrap = .pointer p)
    (hload : st.heap.load? p = some w) (hnil : w ≠ .nil) :
    Traced st u.ref?.toList (Run.onHeap (memberContainer u)) (w, some p) := by
  have href : u.ref? = p.address? := by rw [← u.ref?_unwrap, hu]; rfl
  intro h d hagree
  have hload' : h.load? p = some w :=
    (Heap.load?_congr fun a ha => hagree a (Option.mem_toList.2 (href.trans ha))).trans hload
  rw [Run.run_onHeap, run_memberContainer_iff.2 ⟨rfl, .through hu hload' hnil⟩]

theorem traced_direct (hnil : u.unwrap ≠ .nil) (hpointer : ∀ p, u.unwrap ≠ .pointer p) :
    Traced st [] (Run.onHeap (memberContainer u)) (u.unwrap, none) := by
  intro h d _
  rw [Run.run_onHeap, run_memberContainer_iff.2 ⟨rfl, .direct hnil hpointer⟩]

/-- The container of a member is the object, or it lies behind the cell that the object points
to. -/
theorem ContainerOf.trail {D : Discipline} {Γ : Layout} (hst : st.Sound D Γ)
    (htrail : Trail st A u) {found : Value × Option PointerRef}
    (hcontainer : ContainerOf st.heap u found) :
    ∃ B, Trail st (B ++ A) found.1 ∧ Traced st B (Run.onHeap (memberContainer u)) found := by
  have href := u.ref?_unwrap
  cases hcontainer with
  | direct hnil hpointer => exact ⟨[], htrail.of_ref href, traced_direct hnil hpointer⟩
  | through hp hload hnil =>
    rw [hp] at href
    refine ⟨u.ref?.toList, htrail.step hst fun b hb => ?_, traced_through hp hload hnil⟩
    rw [← href]
    exact Heap.leads_of_load hload hb

end Traces

/-! ### Places and values of paths -/

/-- Whether a path has a value wherever some storages are as they are in a state, at any depth that
leaves the levels it takes. -/
def Expr.HasValue (limit : Nat) (st : State) (A : List Address) (t : Expr) (w : Value) : Prop :=
  ∀ room, t.height ≤ room → Traced st A (evaluateWithin limit room t) w

/-- Whether a path denotes a place wherever some storages are as they are in a state. -/
def Expr.HasPlace (limit : Nat) (st : State) (A : List Address) (t : Expr) (pl : Place) : Prop :=
  ∀ room, t.height ≤ room + 1 → Traced st A (place (evaluateWithin limit room) t) pl

theorem evaluateWithin_literal (limit room : Nat) (l : Literal) (span : Span) :
    evaluateWithin limit (room + 1) (.literal l span) = pure l.value :=
  Action.ext fun _ => rfl

namespace Expr

variable {limit : Nat} {st : State} {A B : List Address} {w : Value} {span : Span}

theorem HasPlace.value {t : Expr} {pl : Place} (hplace : t.HasPlace limit st A pl)
    (hread : Traced st B pl.read w) : t.HasValue limit st (B ++ A) w := by
  intro room hroom
  have hpos := t.height_pos
  obtain ⟨r, rfl⟩ : ∃ r, room = r + 1 := ⟨room - 1, by omega⟩
  refine .within (.nested fun h d hagree => ?_)
  rw [evaluateNode_of_place (hplace r hroom h d fun b hb => hagree b (List.mem_append_right _ hb))]
  exact hread h d fun b hb => hagree b (List.mem_append_left _ hb)

theorem HasValue.congr {t : Expr} {st' : State} (h : t.HasValue limit st A w)
    (henv : st'.env = st.env) (hagree : ∀ b ∈ A, st'.heap.get? b = st.heap.get? b) :
    t.HasValue limit st' A w :=
  fun room hroom => (h room hroom).congr henv hagree

theorem HasPlace.congr {t : Expr} {pl : Place} {st' : State} (h : t.HasPlace limit st A pl)
    (henv : st'.env = st.env) (hagree : ∀ b ∈ A, st'.heap.get? b = st.heap.get? b) :
    t.HasPlace limit st' A pl :=
  fun room hroom => (h room hroom).congr henv hagree

theorem hasValue_ident {name : Name} (hlookup : st.env.lookup? name = some w) :
    (ident name span).HasValue limit st [] w := by
  have hplace : (ident name span).HasPlace limit st [] (.name name) :=
    fun _ _ => Traced.pure (Place.name name)
  refine hplace.value (B := []) fun h d _ => ?_
  rw [Place.read, run_bind, run_get]
  simp only [hlookup]
  rfl

theorem HasValue.member {object : Expr} {field : Name} {found : Value × Option PointerRef}
    (hobject : object.HasValue limit st A w)
    (hcontainer : Traced st B (Run.onHeap (memberContainer w)) found) :
    (Expr.member object field span).HasPlace limit st (B ++ A)
      (.member found.1 found.2 field) := by
  intro room hroom
  rw [height] at hroom
  exact (hobject room (by omega)).bind (hcontainer.map fun c => Place.member c.1 c.2 field)

theorem HasValue.item {collection : Expr} {l : Literal} {lspan : Span}
    (hcollection : collection.HasValue limit st A w) :
    (Expr.item collection (.literal l lspan) span).HasPlace limit st A (.item w l.value) := by
  intro room hroom
  rw [height] at hroom
  have hpos := collection.height_pos
  obtain ⟨r, rfl⟩ : ∃ r, room = r + 1 := ⟨room - 1, by omega⟩
  have hx := (hcollection (r + 1) (by omega)).map fun c => Place.item c l.value
  have heq : place (evaluateWithin limit (r + 1)) (.item collection (.literal l lspan) span) =
      evaluateWithin limit (r + 1) collection >>= fun c => pure (Place.item c l.value) := by
    rw [place, evaluateWithin_literal]
    rfl
  rw [heq]
  exact hx

theorem HasValue.deref {pointer : Expr} (hpointer : pointer.HasValue limit st A w) :
    (Expr.deref pointer span).HasPlace limit st A (.pointee w) := by
  intro room hroom
  rw [height] at hroom
  exact (hpointer room (by omega)).map Place.pointee

/-- The subexpression that a path continues. -/
def inner? : Expr → Option Expr
  | member object _ _ => some object
  | item collection _ _ => some collection
  | deref pointer _ => some pointer
  | _ => none

theorem isPath_inner {t q : Expr} (hq : t.inner? = some q) (ht : t.isPath = true) :
    q.isPath = true ∧ sizeOf q < sizeOf t := by
  cases t with
  | member object field span =>
    cases hq
    exact ⟨ht, by simp; omega⟩
  | item collection index span =>
    cases hq
    cases index with
    | literal l lspan => exact ⟨ht, by simp; omega⟩
    | _ => cases ht
  | deref pointer span =>
    cases hq
    exact ⟨ht, by simp; omega⟩
  | _ => cases hq

end Expr

/-- What the place of a path is, found in a state or in an array that was made. -/
inductive PathPlace (limit : Nat) (st : State) (t : Expr) (d : Nat) : Place → State → Prop
  | found {A pl} (trail : Trail st A pl.base) (hplace : t.HasPlace limit st A pl) :
      PathPlace limit st t d pl { st with depth := d }
  | made {pl} (elem : Ty) (hbase : pl.base = .array ⟨elem, false, false, st.heap.size⟩) :
      PathPlace limit st t d pl { st with heap := st.heap.push (.items []), depth := d }

/-- What the value of a path is, found in a state or an empty array that was made. -/
inductive PathValue (limit : Nat) (st : State) (t : Expr) (d : Nat) : Value → State → Prop
  | found {A w} (trail : Trail st A w) (hvalue : t.HasValue limit st A w) :
      PathValue limit st t d w { st with depth := d }
  | made (elem : Ty) : PathValue limit st t d (.array ⟨elem, false, false, st.heap.size⟩)
      { st with heap := st.heap.push (.items []), depth := d }

section Paths

variable {D : Discipline} {Γ : Layout} {limit : Nat} {st : State}

theorem pathPlace_of_inner {t : Expr} (hst : st.Sound D Γ) (ht : t.isPath = true)
    (hinner : ∀ q, t.inner? = some q → ∀ {room d w s},
      (evaluateWithin limit room q).run { st with depth := d } = (.ok w, s) →
        PathValue limit st q d w s)
    {room d : Nat} {pl : Place} {s : State}
    (hrun : (place (evaluateWithin limit room) t).run { st with depth := d } = (.ok pl, s)) :
    PathPlace limit st t d pl s := by
  cases t with
  | ident name span =>
    cases hrun
    refine .found (A := []) ⟨(fun b hb => nomatch hb), fun a ha => ?_, (fun a _ b hb => nomatch hb)⟩
      fun room _ => Traced.pure (Place.name name)
    cases ha
  | member object field span =>
    obtain ⟨w, s₁, hw, hrun⟩ := exists_of_run_bind hrun
    obtain ⟨found, heap, hfound, hrun⟩ := Run.exists_of_run_onHeap_bind hrun
    cases hrun
    rcases hinner object rfl hw with ⟨htrail, hvalue⟩ | elem
    · obtain ⟨rfl, hcontainer⟩ := run_memberContainer_iff.1 hfound
      obtain ⟨B, htrail', htraced⟩ := hcontainer.trail hst htrail
      exact .found htrail' (hvalue.member htraced)
    · cases hfound
      exact .made elem rfl
  | item collection index span =>
    cases index with
    | literal l lspan =>
      obtain ⟨w, s₁, hw, hrun⟩ := exists_of_run_bind hrun
      obtain ⟨key, s₂, hkey, hrun⟩ := exists_of_run_bind hrun
      obtain ⟨room', -, rfl, -, -⟩ := node_of_evaluateWithin hkey
      rw [evaluateWithin_literal] at hkey
      cases hkey
      cases hrun
      rcases hinner collection rfl hw with ⟨htrail, hvalue⟩ | elem
      · exact .found htrail hvalue.item
      · exact .made elem rfl
    | _ => cases ht
  | deref pointer span =>
    obtain ⟨w, s₁, hw, hrun⟩ := exists_of_run_bind hrun
    cases hrun
    rcases hinner pointer rfl hw with ⟨htrail, hvalue⟩ | elem
    · exact .found htrail hvalue.deref
    · exact .made elem rfl
  | _ => cases ht

theorem Place.read_peek {pl : Place} {s s' : State} {w : Value} (hname : ∀ n, pl ≠ .name n)
    (hrun : pl.read.run s = (.ok w, s')) :
    ∃ x h', pl.read = Run.onHeap x ∧ Peek x s.heap pl.base w h' ∧ s' = { s with heap := h' } := by
  cases pl with
  | name n => exact (hname n rfl).elim
  | member container via field =>
    obtain ⟨h', hmember, rfl⟩ := Run.exists_of_run_onHeap hrun
    exact ⟨_, h', rfl, memberOf_peek hmember, rfl⟩
  | item collection index =>
    obtain ⟨h', hitem, rfl⟩ := Run.exists_of_run_onHeap hrun
    exact ⟨_, h', rfl, readItem_peek hitem, rfl⟩
  | pointee pointer =>
    obtain ⟨h', hpointee, rfl⟩ := Run.exists_of_run_onHeap hrun
    exact ⟨_, h', rfl, readPointee_peek hpointee, rfl⟩

/-- Nothing can be read from an empty array. -/
theorem Place.read_empty {pl : Place} {a : ArrayRef} {s s' : State} {w : Value}
    (hbase : pl.base = .array a) (hitems : s.heap.items a = []) :
    pl.read.run s ≠ (.ok w, s') := by
  intro hrun
  cases pl with
  | name n => cases hbase
  | member container via field =>
    cases hbase
    cases hrun
  | item collection index =>
    cases hbase
    obtain ⟨h', hitem, -⟩ := Run.exists_of_run_onHeap hrun
    obtain ⟨i, -, helem, -⟩ := element_of_readItem rfl hitem
    have hmem : w ∈ s.heap.items a := mem_of_elementAt helem
    rw [hitems] at hmem
    cases hmem
  | pointee pointer =>
    cases hbase
    cases hrun

/-- Only a name denotes the place of a name. -/
theorem place_yields (ev : Expr → Run Value) (t : Expr) :
    (place ev t).Yields fun pl => ∀ n, pl = .name n → ∃ span, t = .ident n span := by
  cases t with
  | ident name span => exact .pure fun n hn => by cases hn; exact ⟨span, rfl⟩
  | member object field span => exact .bind fun _ => .bind fun _ => .pure fun n hn => nomatch hn
  | item collection index span => exact .bind fun _ => .bind fun _ => .pure fun n hn => nomatch hn
  | deref pointer span => exact .bind fun _ => .pure fun n hn => nomatch hn
  | _ => exact .fail _

/-- A path that has a value finds it in the state, or makes an empty array. -/
theorem pathValue_of_run (hst : st.Sound D Γ) : (t : Expr) → t.isPath = true → {room d : Nat} →
    {w : Value} → {s : State} →
      (evaluateWithin limit room t).run { st with depth := d } = (.ok w, s) →
        PathValue limit st t d w s
  | t, ht, room, d, w, s, hrun => by
    obtain ⟨room', s₁, rfl, hnode, rfl⟩ := node_of_evaluateWithin hrun
    obtain ⟨pl, s₂, hplace, hread⟩ := exists_place_of_evaluateNode (Expr.isPlace_of_isPath ht) hnode
    have hinner (q : Expr) (hq : t.inner? = some q) {room d : Nat} {w : Value} {s : State}
        (h : (evaluateWithin limit room q).run { st with depth := d } = (.ok w, s)) :
        PathValue limit st q d w s := by
      have hsize := Expr.isPath_inner hq ht
      exact pathValue_of_run hst q hsize.1 h
    -- a name is looked up in the bindings; every other place is read from the storage of its base
    by_cases hname : ∃ n, pl = .name n
    · obtain ⟨n, rfl⟩ := hname
      obtain ⟨span, rfl⟩ := place_yields _ t _ _ (congrArg Prod.fst hplace) n rfl
      cases hplace
      obtain ⟨v?, s₃, hv, hread⟩ := exists_of_run_bind hread
      cases hv
      obtain ⟨hlookup, rfl⟩ := eq_of_run_require hread
      exact .found (A := []) ⟨(fun b hb => nomatch hb),
        (fun a ha => State.reaches_of_lookup? hlookup ha), (fun a _ b hb => nomatch hb)⟩
        (Expr.hasValue_ident hlookup)
    · cases pathPlace_of_inner hst ht hinner hplace with
      | found htrail htraced =>
        obtain ⟨x, h', hx, hpeek, rfl⟩ := Place.read_peek (fun n hn => hname ⟨n, hn⟩) hread
        cases hpeek with
        | found hfinds hleads =>
          refine .found (htrail.step hst hleads) (htraced.value ?_)
          rw [hx]
          exact .onHeap hfinds
        | made elem => exact .made elem
      | made elem hbase =>
        refine (Place.read_empty hbase ?_ hread).elim
        exact Heap.items_of_get? (Heap.get?_push_self _ _)
termination_by t => sizeOf t

theorem pathPlace_of_run {t : Expr} (hst : st.Sound D Γ) (ht : t.isPath = true) {room d : Nat}
    {pl : Place} {s : State}
    (hrun : (place (evaluateWithin limit room) t).run { st with depth := d } = (.ok pl, s)) :
    PathPlace limit st t d pl s :=
  pathPlace_of_inner hst ht
    (fun q hq => pathValue_of_run hst q (Expr.isPath_inner hq ht).1) hrun

end Paths

end TenantScript
