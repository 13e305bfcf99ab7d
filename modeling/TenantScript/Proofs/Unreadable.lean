import TenantScript.Proofs.Course
import TenantScript.Proofs.PutGet
import TenantScript.Proofs.ReadOnlyItems
import TenantScript.Proofs.StringEdits

/-!
What cannot be read cannot be written. Main statement: where the evaluation of an access to a
member, to an item, to a range or to what a pointer points to fails, and not because it was nested
too deeply, there every assignment to it fails, unless it appends: the target is the item after the
last one of an array that can grow, or after the last character of a text.
-/

open TenantScript.Action

namespace TenantScript

variable {D : Discipline} {Γ : Layout}

/-! ### Stores that can be planned are into what can be read -/

section Plans

variable {h h' : Heap} {v : Value} {plan : Plan}

/-- A map can be read under every key under which it can be stored into. -/
theorem MapRef.read_succeeds {m : MapRef} {key : Value} {k : MapKey}
    (hkey : ∀ g, (convertKey m.key key).run g = (.ok k, g)) : (m.read key).Succeeds h := by
  refine succeeds_bind_iff.2 ⟨k, h, hkey h, succeeds_get_bind_iff.2 ?_⟩
  cases (h.entries m).get? k with
  | some w => exact ⟨w, h, rfl⟩
  | none => cases m.value <;> exact ⟨_, _, rfl⟩

theorem MapRef.read_succeeds_of_planEntry {m : MapRef} {key : Value}
    (hplan : (m.planEntry key v).run h = (.ok plan, h')) : (m.read key).Succeeds h := by
  obtain ⟨k, w, h₁, hkey, -⟩ := MapRef.cases_of_planEntry hplan
  exact read_succeeds hkey

/-- The fields of a struct are all there. -/
theorem Heap.Sound.exists_field (hs : h.Sound D Γ) {s : StructRef} (hfits : (Value.struct s).Fits Γ)
    {name : Name} {i : Nat} {f : FieldDef} (hfield : s.defn.field? name = some (i, f)) :
    ∃ w, h.field? s name = some w := by
  have hlength := (hs.fields hfits).length_eq
  have hi := (List.getElem?_eq_some_iff.1 (FieldDef.getElem?_of_find? hfield)).1
  refine ⟨(h.fields s)[i], ?_⟩
  rw [Heap.field?, hfield]
  exact List.getElem?_eq_getElem (hlength ▸ hi)

theorem memberOf_succeeds_of_planMember {container : Value} {field : Name} (hs : h.Sound D Γ)
    (hfits : container.Fits Γ) (hplan : (planMember container field v).run h = (.ok plan, h')) :
    (memberOf container field).Succeeds h := by
  cases container with
  | struct s =>
    obtain ⟨i, f, w, hfield, -, -⟩ := StructRef.cases_of_planField hplan
    obtain ⟨u, hu⟩ := hs.exists_field hfits hfield
    exact ⟨u, h, memberOf_finds hu h fun _ _ => rfl⟩
  | map m => exact MapRef.read_succeeds_of_planEntry hplan
  | _ => cases hplan

/-- Whether an index is the one after the last element of an array that can grow, or after the last
character of a text. -/
inductive Heap.IsEnd (h : Heap) (collection index : Value) : Prop
  | array {a : ArrayRef} (hcollection : collection.unwrap = .array a) (hgrow : a.fixed = false)
    (hindex : toIndex index = .ok (h.items a).length)
  | text {s : String} (hcollection : collection.unwrap = .str s)
    (hindex : toIndex index = .ok s.length)

/-- An array in which a value can be stored after the last element can grow. -/
theorem ArrayRef.growable_of_planIndex {a : ArrayRef}
    (hplan : (a.planIndex (h.items a).length v).run h = (.ok plan, h')) : a.fixed = false := by
  refine Bool.eq_false_iff.2 fun hfixed => ?_
  unfold planIndex at hplan
  rw [run_bind, run_get] at hplan
  simp only [position?_eq_some_iff.2 rfl, if_true] at hplan
  cases (run_planAppend_fixed hfixed).symm.trans hplan

theorem readItem_succeeds_of_planItem {collection index : Value}
    (hplan : (planItem collection index v).run h = (.ok plan, h')) :
    (readItem collection index).Succeeds h ∨ h.IsEnd collection index := by
  unfold planItem at hplan
  cases hu : collection.unwrap with
  | array a =>
    rw [hu] at hplan
    obtain ⟨i, h₁, hi, hstore⟩ := exists_of_run_bind hplan
    obtain ⟨hindex, rfl⟩ := eq_of_run_ofExcept hi
    obtain ⟨n, hn, ⟨hlt, -⟩ | ⟨hend, -⟩⟩ := ArrayRef.cases_of_planIndex hstore
    · have helem : elementAt (h₁.items a) i = .ok (h₁.items a)[n] := by
        rw [elementAt, hn, Option.bind_some, List.getElem?_eq_getElem hlt]
      exact .inl ⟨_, h₁, readItem_finds hu hindex helem h₁ fun _ _ => rfl⟩
    · obtain rfl := position?_eq_some_iff.1 hn
      exact .inr (.array hu (ArrayRef.growable_of_planIndex (hend ▸ hstore)) (hend ▸ hindex))
  | map m =>
    rw [hu] at hplan
    refine .inl ?_
    unfold readItem
    rw [hu]
    exact MapRef.read_succeeds_of_planEntry hplan
  | str s =>
    rw [hu] at hplan
    obtain ⟨i, h₁, hi, hstore⟩ := exists_of_run_bind hplan
    obtain ⟨hindex, rfl⟩ := eq_of_run_ofExcept hi
    rcases run_planCharacter s i v h₁ with ⟨p, n, -, rfl, hn, -⟩ | ⟨-, e, hfail⟩
    · rcases Nat.lt_or_eq_of_le hn with hlt | rfl
      · have hlt : n < s.toList.length := by rwa [String.length_toList]
        have hchar : (characters s)[n]? = some (.str (String.singleton s.toList[n])) := by
          rw [getElem?_characters, List.getElem?_eq_getElem hlt]
          rfl
        exact .inl ⟨_, h₁, (Heap.Sequence.text hu).run_readItem hindex hchar⟩
      · exact .inr (.text hu hindex)
    · cases hfail.symm.trans hstore
  | _ =>
    rw [hu] at hplan
    cases hplan

theorem readPointee_succeeds_of_pointeeSlot {pointer : Value} {slot : Slot} (hs : h.Sound D Γ)
    (hfits : pointer.Fits Γ) (hplan : (pointeeSlot pointer).run h = (.ok slot, h')) :
    (readPointee pointer).Succeeds h := by
  have hunwrap := hfits.unwrap
  unfold pointeeSlot at hplan
  unfold readPointee
  cases hu : pointer.unwrap with
  | pointer p =>
    rw [hu] at hplan hunwrap
    obtain ⟨a, ha, -, -⟩ := PointerRef.eq_of_run_slot hplan
    obtain ⟨s, hget, hcell⟩ := hunwrap.storedIn hs a ha
    cases s with
    | cell w =>
      have hload : h.load? p = some w := by
        rw [Heap.load?, ha, Option.bind_some, Heap.cellAt?, hget]
      exact ⟨w, h, PointerRef.load_finds (u := .pointer p) rfl hload h fun _ _ => rfl⟩
    | _ => exact hcell.elim
  | _ =>
    rw [hu] at hplan
    cases hplan

/-- A range of an array that can be stored into can be read. -/
theorem readSlice_succeeds_of_planRange {collection : Value} {a : ArrayRef} {i? j? : Option Int}
    {r : Nat × List Value} (hu : collection.unwrap = .array a)
    (hplan : (a.planRange (i?.getD 0) (j?.getD (h.items a).length) v).run h = (.ok r, h')) :
    (readSlice collection i? j?).Succeeds h := by
  obtain ⟨start, values⟩ := r
  obtain ⟨stop, source, hrange, -⟩ := source_of_planRange hplan
  obtain ⟨hlow, hhigh, hle, hlength⟩ := checkedRange_eq_ok_iff.1 hrange
  have hpart := elementsIn_eq_ok_iff.2 ⟨start, stop, hlow, hhigh, hle, hlength, rfl⟩
  exact ⟨_, _, Heap.run_readSlice_array hu hpart⟩

end Plans

/-! ### Accesses -/

namespace Expr

/-- Whether an expression is an access to a member, to an item, to a range, or to what a pointer
points to. -/
def isAccess : Expr → Bool
  | member _ _ _ | item _ _ _ | slice _ _ _ _ | deref _ _ => true
  | _ => false

/-- Whether an expression is an access to the item after the last one of an array that can grow, or
after the last character of a text. -/
inductive Appends (ev : Expr → Run Value) (st : State) : Expr → Prop
  | item {collection index : Expr} {span : Span} {w k : Value} {s s' : State}
    (hcollection : (ev collection).run st = (.ok w, s)) (hindex : (ev index).run s = (.ok k, s'))
    (hend : s'.heap.IsEnd w k) : Appends ev st (.item collection index span)

end Expr

/-! ### Links that can be made are to what can be read -/

section Links

variable {ev : Expr → Run Value} {t : Expr} {v : Value} {l : Link} {st st' : State}

/-- An access that can be assigned, other than one to a range, denotes a place that is not a name,
and appends if the place is the item at the end of its collection. -/
theorem exists_place_of_link (ht : t.isAccess = true) (hslice : ¬ t.IsSlice)
    (h : (link ev t v).run st = (.ok l, st')) :
    ∃ pl s, (place ev t).run st = (.ok pl, s) ∧ (∀ n, pl ≠ .name n) ∧
      ∀ w k, pl = .item w k → s.heap.IsEnd w k → t.Appends ev st := by
  cases t with
  | member object field span =>
    obtain ⟨o, st₁, ho, h⟩ := exists_of_run_bind h
    obtain ⟨found, st₂, hfound, h⟩ := exists_of_run_bind h
    refine ⟨.member found.1 found.2 field, st₂, ?_, by simp, by simp⟩
    rw [place, run_bind_ok _ ho, run_bind_ok _ hfound]
    rfl
  | item collection index span =>
    obtain ⟨c, st₁, hc, h⟩ := exists_of_run_bind h
    obtain ⟨key, st₂, hkey, h⟩ := exists_of_run_bind h
    refine ⟨.item c key, st₂, ?_, by simp, fun w k hk hend => ?_⟩
    · rw [place, run_bind_ok _ hc, run_bind_ok _ hkey]
      rfl
    · cases hk
      exact .item hc hkey hend
  | deref pointer span =>
    obtain ⟨p, st₁, hp, h⟩ := exists_of_run_bind h
    refine ⟨.pointee p, st₁, ?_, by simp, by simp⟩
    rw [place, run_bind_ok _ hp]
    rfl
  | slice collection start stop span => exact (hslice ⟨_, _, _, _, rfl⟩).elim
  | _ => cases ht

/-- What can be linked to a place other than a name can be read there, unless it is appended. -/
theorem Place.read_succeeds_of_link {pl : Place} {target : Expr} (hst : st.Sound D Γ)
    (hfits : pl.base.Fits Γ) (hname : ∀ n, pl ≠ .name n)
    (h : (pl.link target v).run st = (.ok l, st')) :
    pl.read.Succeeds st ∨ ∃ w k, pl = .item w k ∧ st.heap.IsEnd w k := by
  have onHeap {x : Action Heap Value} (hx : x.Succeeds st.heap) : (Run.onHeap x).Succeeds st := by
    obtain ⟨w, heap, hrun⟩ := hx
    exact ⟨w, { st with heap }, by rw [Run.run_onHeap, hrun]⟩
  cases pl with
  | name n => exact (hname n rfl).elim
  | member container via field =>
    obtain ⟨plan, heap, hplan, -⟩ := Run.exists_of_run_onHeap_bind h
    exact .inl (onHeap (memberOf_succeeds_of_planMember hst.heap hfits hplan))
  | item w k =>
    obtain ⟨plan, heap, hplan, -⟩ := Run.exists_of_run_onHeap_bind h
    exact (readItem_succeeds_of_planItem hplan).imp onHeap fun hend => ⟨w, k, rfl, hend⟩
  | pointee pointer =>
    obtain ⟨slot, heap, hplan, -⟩ := Run.exists_of_run_onHeap_bind h
    exact .inl (onHeap (readPointee_succeeds_of_pointeeSlot hst.heap hfits hplan))

/-- A bound that can be evaluated for a store can be evaluated for a read. -/
theorem run_bound?_of_boundOr {missing : Run Int} {d : State → Int}
    (hmissing : ∀ s, missing.run s = (.ok (d s), s)) {bound : Option Expr} {i : Int}
    (h : (boundOr ev missing bound).run st = (.ok i, st')) :
    ∃ i?, (bound? ev bound).run st = (.ok i?, st') ∧ i = i?.getD (d st') := by
  cases bound with
  | none =>
    cases (hmissing st).symm.trans h
    exact ⟨none, rfl, rfl⟩
  | some e =>
    obtain ⟨w, s, hw, hindex⟩ := exists_of_run_bind h
    obtain ⟨hi, rfl⟩ := eq_of_run_ofExcept hindex
    refine ⟨some i, ?_, rfl⟩
    rw [bound?, run_bind_ok _ hw, hi]
    rfl

theorem slice_succeeds_of_link {collection : Expr} {start stop : Option Expr} {span : Span}
    (h : (link ev (.slice collection start stop span) v).run st = (.ok l, st')) :
    (evaluateNode ev (.slice collection start stop span)).Succeeds st := by
  obtain ⟨c, st₁, hc, h⟩ := exists_of_run_bind h
  obtain ⟨a, heap, ha, h⟩ := Run.exists_of_run_onHeap_bind h
  obtain ⟨low, st₂, hlow, h⟩ := exists_of_run_bind h
  obtain ⟨high, st₃, hhigh, h⟩ := exists_of_run_bind h
  obtain ⟨r, heap₃, hplan, -⟩ := Run.exists_of_run_onHeap_bind h
  have harray : c.unwrap = .array a ∧ heap = st₁.heap := by
    unfold sliceTarget at ha
    cases hu : c.unwrap with
    | array b =>
      rw [hu] at ha
      cases ha
      exact ⟨rfl, rfl⟩
    | _ =>
      rw [hu] at ha
      cases ha
  obtain ⟨hu, rfl⟩ := harray
  -- where the end is left out, store and read both take the length after the start is evaluated
  obtain ⟨i?, hi, rfl⟩ := run_bound?_of_boundOr (d := fun _ => 0) (fun _ => rfl) hlow
  obtain ⟨j?, hj, rfl⟩ := run_bound?_of_boundOr (d := fun s => ((s.heap.items a).length : Int))
    (fun _ => rfl) hhigh
  obtain ⟨w, heap', hread⟩ := readSlice_succeeds_of_planRange hu hplan
  refine ⟨w, { st₃ with heap := heap' }, ?_⟩
  rw [evaluateNode, run_bind_ok _ hc, run_bind_ok _ hi, run_bind_ok _ hj, Run.run_onHeap, hread]

end Links

variable {limit : Nat} {t : Expr} {st : State} {e : EvalError}

/-- What can be linked to an access has a value at its outermost node, unless it is appended. -/
theorem evaluateNode_succeeds_of_link {v : Value} {l : Link} {st' : State} (hst : st.Sound D Γ)
    (ht : t.isAccess = true) (h : (link (evaluate limit) t v).run st = (.ok l, st')) :
    (evaluateNode (evaluate limit) t).Succeeds st ∨ t.Appends (evaluate limit) st := by
  by_cases hslice : t.IsSlice
  · obtain ⟨collection, start, stop, span, rfl⟩ := hslice
    exact .inl (slice_succeeds_of_link h)
  · obtain ⟨pl, s, hplace, hname, happends⟩ := exists_place_of_link ht hslice h
    obtain ⟨Γ', -, hs, hbase⟩ := place_sound (evaluate_sound limit) t st hst
    rw [hplace] at hs hbase
    rw [link_eq_of_place hplace] at h
    rcases Place.read_succeeds_of_link hs (hbase pl rfl) hname h with
      ⟨w, s', hread⟩ | ⟨w, k, hitem, hend⟩
    · exact .inl ⟨w, s', (evaluateNode_of_place hplace).trans hread⟩
    · exact .inr (happends w k hitem hend)

/-- What fails, and not because it was nested too deeply, fails at its outermost node. -/
theorem not_succeeds_of_evaluate (hrun : ((evaluate limit t).run st).1 = .error e)
    (he : e.cause.isDepthLimit = false) : ¬ (evaluateNode (evaluate limit) t).Succeeds st := by
  have hplain : isTooDeep ((evaluate limit t).run st).1 = false := by rwa [hrun]
  rw [evaluate_eq, run_within, Run.run_below] at hrun hplain
  rw [isTooDeep_mapError] at hplain
  by_cases hlt : st.depth < limit
  · rw [if_pos hlt, Run.run_nested] at hrun hplain
    -- at the depth of the state itself the node does what it does one level deeper
    have hparts : (deeper (st.depth + 1) st.depth).Relates (evaluate limit) (evaluate limit)
        fun _ => True := deeper_relates (by omega)
    obtain ⟨-, hsame⟩ := hparts.evaluateNode t (fun _ _ => trivial) (fun _ _ _ => trivial)
      { st with depth := st.depth + 1 } rfl
    rintro ⟨w, s, hok⟩
    have hnode := congrArg Prod.fst (hok.symm.trans (hsame hplain))
    simp only at hnode
    rw [← hnode] at hrun
    cases hrun
  · rw [if_neg hlt] at hplain
    cases hplain

/-- Where an access cannot be read, every assignment to it fails, unless it appends. Nothing is
asked of the values that are assigned, nor that there be no assignments in the access. -/
theorem unreadable_unassignable {st' : State} (hst : st.Sound D Γ) (ht : t.isAccess = true)
    (hrun : (evaluate limit t).run st = (.error e, st')) (he : e.cause.isDepthLimit = false) :
    (∀ v, ∃ e', ((assign (evaluate limit) t v).run st).1 = .error e') ∨
      t.Appends (evaluate limit) st := by
  by_cases happends : t.Appends (evaluate limit) st
  · exact .inr happends
  · refine .inl fun v => ?_
    rw [assign_eq, run_within]
    rcases hlink : (link (evaluate limit) t v).run st with ⟨e' | l, s⟩
    · rw [run_bind_error _ hlink]
      exact ⟨_, rfl⟩
    · have hreadable := (evaluateNode_succeeds_of_link hst ht hlink).resolve_right happends
      exact (not_succeeds_of_evaluate (congrArg Prod.fst hrun) he hreadable).elim

/-- An array of two integers that cannot grow. -/
def fixedPair : State :=
  { env := ⟨[], SortedMap.empty.insert "xs" (.array ⟨.int, true, false, 0⟩)⟩
    heap := Heap.empty.push (.items [.int 1, .int 2])
    depth := 0 }

/-- `xs[2]`. -/
def thirdItem : Expr := .item (.ident "xs" .dummy) (.literal (.int 2) .dummy) .dummy

theorem fixedPair_sound : fixedPair.Sound .untyped ((Layout.mk []).push (.array .int true 2)) := by
  have hitems : (Storage.items [.int 1, .int 2]).Fits .untyped ⟨[]⟩ (.array .int true 2) := by
    refine ⟨rfl, fun v hv => ⟨?_, trivial⟩⟩
    simp only [List.mem_cons, List.not_mem_nil, or_false] at hv
    rcases hv with rfl | rfl <;> trivial
  refine ⟨(Heap.Sound.empty .untyped).push hitems, fun scope hscope e he => ?_⟩
  obtain rfl := List.mem_singleton.1 hscope
  obtain rfl := List.mem_singleton.1 he
  exact ⟨2, rfl⟩

/-- Nothing can be assigned after the last element of the array. -/
theorem unreadable_unassignable_fixedPair :
    (∃ e st', (evaluate 8 thirdItem).run fixedPair = (.error e, st') ∧
      e.cause = .indexOutOfRange 2 2) ∧
    ∀ v, ∃ e, ((assign (evaluate 8) thirdItem v).run fixedPair).1 = .error e := by
  have hcause : ∃ e st', (evaluate 8 thirdItem).run fixedPair = (.error e, st') ∧
      e.cause = .indexOutOfRange 2 2 := ⟨_, _, rfl, rfl⟩
  obtain ⟨e, st', hrun, he⟩ := hcause
  refine ⟨⟨e, st', hrun, he⟩, ?_⟩
  have hdepth : e.cause.isDepthLimit = false := by rw [he]; rfl
  refine (unreadable_unassignable fixedPair_sound rfl hrun hdepth).resolve_right ?_
  rintro ⟨hcollection, hindex, hend⟩
  cases hcollection
  cases hindex
  cases hend with
  | array ha hgrow => cases ha; cases hgrow
  | text ht => cases ht

end TenantScript
