import TenantScript.Proofs.ArrayVariable
import TenantScript.Proofs.Atomicity
import TenantScript.Proofs.BulkAppend

/-!
Stores into items of arrays through read-only references. Main statement: they fail, and change
nothing, at every index but the one after the last element. There an array that can grow is replaced
by a longer one just as through any other reference, and the longer one can be written, so that a
name for which this is assigned is bound to it.
-/

open TenantScript.Action

namespace TenantScript

namespace ArrayRef

variable {a : ArrayRef} {h h' : Heap} {i : Int} {v : Value}

/-- A read-only array is appended to, or a store fails. -/
theorem run_planIndex_readOnly (hread : a.readOnly = true) :
    (a.planIndex i v).run h =
      if i < 0 ∨ (h.items a).length < i then
        (.error (.ofCause (.indexOutOfRange i (h.items a).length)), h)
      else if i = (h.items a).length then (a.planAppend v).run h
      else (.error (.ofCause (.notSettable s!"array index {i}")), h) := by
  unfold planIndex
  rw [run_bind, run_get]
  simp only
  cases hpos : position? i with
  | none =>
    rw [if_pos (.inl (position?_eq_none_iff.1 hpos))]
    rfl
  | some n =>
    obtain rfl := position?_eq_some_iff.1 hpos
    simp only
    by_cases hend : n = (h.items a).length
    · rw [if_pos hend, if_neg (by omega), if_pos (by omega)]
    · rw [if_neg hend]
      by_cases hgt : n > (h.items a).length
      · rw [if_pos hgt, if_pos (.inr (by omega))]
        rfl
      · rw [if_neg hgt, if_pos hread, if_neg (by omega), if_neg (by omega)]
        rfl

theorem run_planAppend_fixed (hfixed : a.fixed = true) :
    (a.planAppend v).run h =
      (.error (.ofCause (.indexOutOfRange (h.items a).length (h.items a).length)), h) := by
  unfold planAppend
  rw [run_bind, run_get]
  simp only [hfixed, if_true]
  rfl

/-- What is planned through a read-only reference is a longer array. -/
theorem append_of_planIndex_readOnly {plan : Plan} (hread : a.readOnly = true)
    (hrun : (a.planIndex i v).run h = (.ok plan, h')) :
    i = (h.items a).length ∧ a.fixed = false ∧ h ≤ h' ∧ ∃ address, h.size ≤ address ∧
      plan = .replace (.array ⟨a.elem, false, false, address⟩) := by
  have hle := (a.planIndex_adds i v).le_of_run hrun
  rw [run_planIndex_readOnly hread] at hrun
  split at hrun
  · cases hrun
  · split at hrun
    · next hend =>
      cases hfixed : a.fixed with
      | true =>
        rw [run_planAppend_fixed hfixed] at hrun
        cases hrun
      | false =>
        obtain ⟨extra, h₁, hextra, rfl, rfl⟩ := cases_of_planAppend hrun
        have hle₁ := (additions_adds _ _).le_of_run hextra
        exact ⟨hend, rfl, hle, _, Heap.size_le_of_le hle₁, rfl⟩
    · cases hrun

/-- Through a read-only reference a store fails, unless it appends. -/
theorem run_setIndex_readOnly (hread : a.readOnly = true) :
    (a.setIndex i v).run h =
      if i < 0 ∨ (h.items a).length < i ∨ i = (h.items a).length ∧ a.fixed = true then
        (.error (.ofCause (.indexOutOfRange i (h.items a).length)), h)
      else if i = (h.items a).length then (a.append v).run h
      else (.error (.ofCause (.notSettable s!"array index {i}")), h) := by
  rw [setIndex_eq, append_eq, run_bind, run_bind, run_planIndex_readOnly hread]
  by_cases hout : i < 0 ∨ (h.items a).length < i
  · rw [if_pos hout, if_pos (by omega)]
  · rw [if_neg hout]
    by_cases hend : i = (h.items a).length
    · rw [if_pos hend]
      cases hfixed : a.fixed with
      | true =>
        rw [if_pos (.inr (.inr ⟨hend, rfl⟩)), run_planAppend_fixed hfixed, hend]
      | false =>
        rw [if_neg (by simp; omega), if_pos hend]
    · rw [if_neg hend, if_neg (by omega), if_neg hend]

end ArrayRef

/-! ### Assignments to items of a variable -/

variable {limit : Nat} {x : Name} {index : Expr} {xspan span : Span} {u v : Value} {a : ArrayRef}
  {st st' : State}

/-- Where the variable is a read-only array, what is assigned to it next is a longer array. -/
theorem link_item_readOnly {l : Link} (hx : st.env.lookup? x = some u)
    (hu : u.unwrap = .array a) (hread : a.readOnly = true)
    (hrun : (link (evaluate limit) (.item (.ident x xspan) index span) v).run st = (.ok l, st')) :
    ∃ k s address, (evaluate limit index).run st = (.ok k, s) ∧
      toIndex k = .ok (s.heap.items a).length ∧ a.fixed = false ∧ s.heap.size ≤ address ∧
      l = .pass (.ident x xspan) (.array ⟨a.elem, false, false, address⟩) := by
  obtain ⟨w, s₁, hw, hitem⟩ := exists_of_run_bind hrun
  obtain ⟨k, s₂, hk, hplan⟩ := exists_of_run_bind hitem
  obtain ⟨plan, heap, hplan, hlink⟩ := Run.exists_of_run_onHeap_bind hplan
  cases (run_evaluate_ident hw hx).symm.trans hw
  unfold planItem at hplan
  rw [hu] at hplan
  obtain ⟨i, heap₁, hof, hindex⟩ := exists_of_run_bind hplan
  obtain ⟨hi, rfl⟩ := eq_of_run_ofExcept hof
  obtain ⟨rfl, hfixed, -, address, haddress, rfl⟩ :=
    ArrayRef.append_of_planIndex_readOnly hread hindex
  cases hlink
  exact ⟨k, s₂, address, hk, hi, hfixed, haddress, rfl⟩

/-- Whether an assignment to an item of a variable, which was an array, has bound the variable to a
new array, which can grow and be written, since the index was the one after the last element. -/
structure BindsLonger (limit : Nat) (x : Name) (index : Expr) (a : ArrayRef) (st st' : State)
    (w : Value) : Prop where
  index : ∃ k s, (evaluate limit index).run st = (.ok k, s) ∧
    toIndex k = .ok (s.heap.items a).length
  growable : a.fixed = false
  fresh : ∃ address, st.heap.size ≤ address ∧ w = .array ⟨a.elem, false, false, address⟩
  heap : st.heap ≤ st'.heap
  env : st'.env = st.env.assign x w

theorem assign_item_readOnly {w : Value} (hx : st.env.lookup? x = some u)
    (hu : u.unwrap = .array a) (hread : a.readOnly = true) (hindex : index.isAssignFree = true)
    (hrun : (assign (evaluate limit) (.item (.ident x xspan) index span) v).run st =
      (.ok w, st')) : BindsLonger limit x index a st st' w := by
  have hev : ∀ e : Expr, e.isAssignFree = true → (evaluate limit e).Adds :=
    fun _ h => evaluate_adds limit h
  have htarget : (Expr.item (.ident x xspan) index span).isAssignFree = true := by
    simpa [Expr.isAssignFree] using hindex
  obtain ⟨store, s, hchain, rfl, rfl⟩ := exists_chain_of_assign hrun
  have hle : st ≤ s := hchain.le hev htarget
  cases hchain with
  | last hl =>
    obtain ⟨_, _, _, -, -, -, -, hlink⟩ := link_item_readOnly hx hu hread hl
    cases hlink
  | @pass _ _ _ t' c s₁ _ _ hl _ htail =>
    obtain ⟨k, s₂, address, hk, hi, hfixed, haddress, hlink⟩ := link_item_readOnly hx hu hread hl
    cases hlink
    have hle₁ : st ≤ s₁ := (link_adds hev _ _ htarget).le_of_run hl
    have hx₁ : s₁.env.lookup? x = some u := hle₁.1 ▸ hx
    have hsize : st.heap.size ≤ s₂.heap.size :=
      Heap.size_le_of_le ((hev index hindex).le_of_run hk).2.2
    cases htail with
    | pass _ hc' _ => cases hc'
    | last hlast =>
      cases (run_link_ident hx₁).symm.trans hlast
      exact
        { index := ⟨k, s₂, hk, hi⟩
          growable := hfixed
          fresh := ⟨address, Nat.le_trans hsize haddress, rfl⟩
          heap := hle.2.2
          env := by rw [← hle.1]; rfl }

/-- Through a read-only reference a store at an index fails and changes nothing, with the index
where it is out of range, and as not settable where there is an element. After the last element of
an array that can grow, the store is the one through any other reference to the array, and gives a
new array, which can be written. So an assignment to an item of a variable that is a read-only array
binds the variable to an array that can be written just if it appends, and else fails and changes no
binding and no storage. -/
theorem readOnly_items (hread : a.readOnly = true) :
    (∀ (h : Heap) (i : Int) (v : Value),
      (i < 0 ∨ (h.items a).length < i ∨ i = (h.items a).length ∧ a.fixed = true →
        (a.setIndex i v).run h =
          (.error (.ofCause (.indexOutOfRange i (h.items a).length)), h)) ∧
      (0 ≤ i → i < (h.items a).length →
        (a.setIndex i v).run h = (.error (.ofCause (.notSettable s!"array index {i}")), h)) ∧
      (i = (h.items a).length → a.fixed = false →
        (a.setIndex i v).run h = (ArrayRef.setIndex { a with readOnly := false } i v).run h ∧
        ∀ m h', (a.setIndex i v).run h = (.ok m, h') → h ≤ h' ∧ ∃ address, h.size ≤ address ∧
          m = .replaced (.array ⟨a.elem, false, false, address⟩))) ∧
    ∀ {limit : Nat} {x : Name} {index : Expr} {xspan span : Span} {u v : Value} {st st' : State}
      {r : Except EvalError Value}, st.env.lookup? x = some u → u.unwrap = .array a →
      index.isAssignFree = true →
      (assign (evaluate limit) (.item (.ident x xspan) index span) v).run st = (r, st') →
        (∀ e, r = .error e → st ≤ st') ∧
        ∀ w, r = .ok w → BindsLonger limit x index a st st' w := by
  refine ⟨fun h i v => ⟨fun hout => ?_, fun hlow hhigh => ?_, fun hend hgrow => ⟨?_, ?_⟩⟩, ?_⟩
  · rw [ArrayRef.run_setIndex_readOnly hread, if_pos hout]
  · rw [ArrayRef.run_setIndex_readOnly hread, if_neg (by omega), if_neg (by omega)]
  · subst hend
    have hsettable := ArrayRef.run_setIndex_length (a := { a with readOnly := false }) hgrow v h
    exact (ArrayRef.run_setIndex_length hgrow v h).trans hsettable.symm
  · intro m h' hrun
    rw [ArrayRef.setIndex_eq] at hrun
    obtain ⟨plan, h₁, hplan, hcommit⟩ := exists_of_run_bind hrun
    obtain ⟨-, -, hle, address, haddress, rfl⟩ :=
      ArrayRef.append_of_planIndex_readOnly hread hplan
    cases hcommit
    exact ⟨hle, address, haddress, rfl⟩
  · intro limit x index xspan span u v st st' r hx hu hindex hrun
    refine ⟨fun e hr => ?_, fun w hr => assign_item_readOnly hx hu hread hindex (hr ▸ hrun)⟩
    have htarget : (Expr.item (.ident x xspan) index span).isAssignFree = true := by
      simpa [Expr.isAssignFree] using hindex
    have hle := le_of_assign_error (fun _ h => evaluate_adds limit h) v htarget
      ((congrArg Prod.fst hrun).trans hr)
    rwa [hrun] at hle

/-- A state in which `xs` is a read-only array of one integer, which could grow. -/
def sealedOne : State :=
  { env := ⟨[], SortedMap.empty.insert "xs" (.array ⟨.int, false, true, 0⟩)⟩
    heap := ⟨#[.items [.int 1]]⟩
    depth := 0 }

/-- `xs[1] = 2` binds `xs` to a new array. -/
theorem readOnly_items_sealedOne :
    ∃ st', (setNth 1 2).run sealedOne = (.ok (.array ⟨.int, false, false, 1⟩), st') ∧
      BindsLonger 8 "xs" (.literal (.int 1) .dummy) ⟨.int, false, true, 0⟩ sealedOne st'
        (.array ⟨.int, false, false, 1⟩) ∧
      (ArrayRef.setIndex ⟨.int, false, true, 0⟩ 0 (.int 2)).run sealedOne.heap =
        (.error (.ofCause (.notSettable "array index 0")), sealedOne.heap) := by
  obtain ⟨hstores, hassigns⟩ := readOnly_items (a := ⟨.int, false, true, 0⟩) rfl
  have hrun : ((setNth 1 2).run sealedOne).1 = .ok (.array ⟨.int, false, false, 1⟩) := by
    decide +kernel
  have hxs : sealedOne.env.lookup? "xs" = some (.array ⟨.int, false, true, 0⟩) := rfl
  obtain ⟨-, hbinds⟩ := hassigns hxs rfl rfl (Prod.ext hrun rfl)
  obtain ⟨-, hrefused, -⟩ := hstores sealedOne.heap 0 (.int 2)
  exact ⟨_, Prod.ext hrun rfl, hbinds _ rfl, hrefused (by decide) (by decide)⟩

/-- Not every store into an item through a read-only reference fails, and a variable that is a
read-only array can become one that can be written. -/
theorem sealedOne_grows :
    (¬ ∀ (a : ArrayRef) (h : Heap) (i : Int) (v : Value), a.readOnly = true →
      ∃ e, ((a.setIndex i v).run h).1 = .error e) ∧
    ((setNth 1 2).run sealedOne).2.env.lookup? "xs" = some (.array ⟨.int, false, false, 1⟩) := by
  refine ⟨fun hfails => ?_, by decide +kernel⟩
  obtain ⟨e, he⟩ := hfails ⟨.int, false, true, 0⟩ sealedOne.heap 1 (.int 2) rfl
  have hrun : ((ArrayRef.setIndex ⟨.int, false, true, 0⟩ 1 (.int 2)).run sealedOne.heap).1 =
      .ok (.replaced (.array ⟨.int, false, false, 1⟩)) := by decide +kernel
  cases he.symm.trans hrun

end TenantScript
