import Mathlib.Order.CompleteBooleanAlgebra
import Mathlib.Order.CompletePartialOrder
import TenantScript.Proofs.Reads

/-!
States without interfaces. Main statement: where neither a binding nor a storage holds a value
behind the dynamic type, no expression without assignments has such a value, and what its evaluation
makes holds none either.
-/

open TenantScript.Action

namespace TenantScript

/-- Whether a value is not behind the dynamic type. -/
def Value.isPlain : Value → Bool
  | interface _ => false
  | _ => true

theorem Value.unwrap_of_isPlain {v : Value} (h : v.isPlain = true) : v.unwrap = v := by
  cases v with
  | interface inner => cases h
  | _ => rfl

/-- No storage holds an interface. -/
def Heap.Plain (h : Heap) : Prop := ∀ a s, h.get? a = some s → ∀ v ∈ s.values, v.isPlain = true

/-- Neither a binding nor a storage holds an interface. -/
structure State.Plain (st : State) : Prop where
  heap : st.heap.Plain
  env : ∀ scope ∈ st.env.scopes, ∀ e ∈ scope.entries, e.2.isPlain = true

theorem Heap.Plain.push {h : Heap} (hh : h.Plain) {s : Storage}
    (hs : ∀ v ∈ s.values, v.isPlain = true) : (h.push s).Plain := by
  intro a t hget
  rw [get?_push] at hget
  split at hget
  · cases hget
    exact hs
  · exact hh a t hget

theorem Heap.Plain.isPlain {h : Heap} (hh : h.Plain) {slot : Slot} {v : Value}
    (hv : h.value? slot = some v) : v.isPlain = true := by
  obtain ⟨s, hget, hmem⟩ := exists_storage_of_value? hv
  exact hh _ s hget v hmem

/-! ### Reads -/

/-- Whether an action keeps interfaces out of a heap and its results are in `Q`. -/
abbrev Heap.KeepsPlain {α : Type} (x : Action Heap α) (Q : α → Prop) : Prop :=
  Maintains (fun (_ : Unit) => Plain) () x fun _ => Q

section Reads

open Heap (KeepsPlain)

theorem Heap.allocate_plain {s : Storage} (hs : ∀ v ∈ s.values, v.isPlain = true) :
    KeepsPlain (allocate s) fun _ => True :=
  fun _ hh => ⟨(), le_rfl, hh.push hs, fun _ _ => trivial⟩

theorem ArrayRef.make_plain (elem : Ty) {vs : List Value} (hvs : ∀ v ∈ vs, v.isPlain = true) :
    KeepsPlain (make elem vs) fun _ => True :=
  .bind (Heap.allocate_plain hvs) fun _ _ _ _ => .pure trivial

theorem Value.zero_plain (ty : Ty) : KeepsPlain (zero ty) (·.isPlain = true) := by
  cases ty with
  | array elem =>
    exact .bind (ArrayRef.make_plain elem fun _ hv => nomatch hv) fun _ _ _ _ => .pure rfl
  | _ => exact .pure rfl

theorem convertKey_plain (key : Ty) (v : Value) : KeepsPlain (convertKey key v) fun _ => True := by
  obtain ⟨r, hr⟩ := exists_run_convertKey key v
  intro h hh
  rw [hr]
  exact ⟨(), le_rfl, hh, fun _ _ => trivial⟩

theorem MapRef.read_plain (m : MapRef) (key : Value) :
    KeepsPlain (m.read key) (·.isPlain = true) := by
  refine .bind (convertKey_plain m.key key) fun _ _ k _ => ?_
  refine .bind (P := fun _ entries => ∀ v, entries.get? k = some v → v.isPlain = true)
    (.get fun h hh v hv => ?_) fun _ _ entries hentries => ?_
  · obtain ⟨a, -, hslot⟩ := Heap.value?_of_entry hv
    exact hh.isPlain hslot
  · cases hget : entries.get? k with
    | some v => exact .pure (hentries v hget)
    | none => exact Value.zero_plain m.value

theorem PointerRef.load_plain (p : PointerRef) (onNil : Cause) :
    KeepsPlain (p.load onNil) (·.isPlain = true) := by
  refine .bind (P := fun _ v? => ∀ v, v? = some v → v.isPlain = true)
    (.get fun h hh v hv => ?_) fun _ _ _ hv => .require hv
  obtain ⟨a, -, hslot⟩ := Heap.value?_of_load hv
  exact hh.isPlain hslot

theorem memberOf_plain (container : Value) (field : Name) :
    KeepsPlain (memberOf container field) (·.isPlain = true) := by
  unfold memberOf
  split
  · refine .bind (P := fun _ v? => ∀ v, v? = some v → v.isPlain = true)
      (.get fun h hh v hv => ?_) fun _ _ _ hv => .require hv
    obtain ⟨i, f, -, hslot⟩ := Heap.value?_of_field hv
    exact hh.isPlain hslot
  · exact MapRef.read_plain _ _
  · exact .fail _
  · exact .fail _

theorem readMember_plain (object : Value) (field : Name) :
    KeepsPlain (readMember object field) (·.isPlain = true) := by
  refine .bind (P := fun _ _ => True) ?_ fun _ _ container _ => memberOf_plain container field
  unfold memberSource
  split
  · exact (PointerRef.load_plain _ _).imp fun _ _ _ _ => trivial
  · exact .pure trivial

theorem ArrayRef.items_plain (a : ArrayRef) :
    KeepsPlain (.get (·.items a)) fun items => ∀ v ∈ items, v.isPlain = true := by
  refine .get fun h hh v hv => ?_
  obtain ⟨i, hslot⟩ := Heap.value?_of_mem_items hv
  exact hh.isPlain hslot

theorem readItem_plain (collection index : Value) :
    KeepsPlain (readItem collection index) (·.isPlain = true) := by
  unfold readItem
  split
  · next a _ =>
    refine .bind (P := fun _ _ => True) (.ofExcept fun _ _ => trivial) fun _ _ i _ => ?_
    exact .bind a.items_plain fun _ _ items hitems => .ofExcept fun v hv =>
      hitems v (mem_of_elementAt hv)
  · exact MapRef.read_plain _ _
  · refine .bind (P := fun _ _ => True) (.ofExcept fun _ _ => trivial) fun _ _ i _ => ?_
    exact .bind (P := fun _ _ => True) (.ofExcept fun _ _ => trivial) fun _ _ _ _ => .pure rfl
  · exact .fail _

theorem readSlice_plain (collection : Value) (start stop : Option Int) :
    KeepsPlain (readSlice collection start stop) (·.isPlain = true) := by
  unfold readSlice
  split
  · next a _ =>
    refine .bind a.items_plain fun _ _ items hitems => ?_
    refine .bind (P := fun _ part => ∀ v ∈ part, v.isPlain = true)
      (.ofExcept fun part hpart v hv => hitems v (mem_of_elementsIn hpart hv))
      fun _ _ part hpart => ?_
    exact .bind (ArrayRef.make_plain a.elem hpart) fun _ _ _ _ => .pure rfl
  · exact .bind (P := fun _ _ => True) (.ofExcept fun _ _ => trivial) fun _ _ _ _ => .pure rfl
  · exact .fail _

theorem readPointee_plain (pointer : Value) :
    KeepsPlain (readPointee pointer) (·.isPlain = true) := by
  unfold readPointee
  split
  · exact PointerRef.load_plain _ _
  · exact .fail _

end Reads

/-! ### Evaluation -/

/-- Whether a run keeps interfaces out of a state and its results are in `Q`. -/
abbrev State.KeepsPlain {α : Type} (x : Run α) (Q : α → Prop) : Prop :=
  Maintains (fun (_ : Unit) => Plain) () x fun _ => Q

section Eval

open State (KeepsPlain)

theorem Run.onHeap_plain {α : Type} {x : Action Heap α} {Q : α → Prop}
    (hx : Heap.KeepsPlain x Q) : KeepsPlain (onHeap x) Q :=
  .onHeap State.Plain.heap (fun _ hst hh => ⟨hh, hst.env⟩) hx

theorem bound?_plain {ev : Expr → Run Value} {bound : Option Expr}
    (h : ∀ e, bound = some e → KeepsPlain (ev e) (·.isPlain = true)) :
    KeepsPlain (bound? ev bound) fun _ => True := by
  cases bound with
  | none => exact .pure trivial
  | some e =>
    refine .bind (h e rfl) fun _ _ v _ => ?_
    exact .bind (P := fun _ _ => True) (.ofExcept fun _ _ => trivial) fun _ _ _ _ => .pure trivial

theorem evaluateNode_plain {ev : Expr → Run Value}
    (hev : ∀ e, e.isAssignFree = true → KeepsPlain (ev e) (·.isPlain = true)) :
    (e : Expr) → e.isAssignFree = true → KeepsPlain (evaluateNode ev e) (·.isPlain = true)
  | .literal v _, _ => .pure (by cases v <;> rfl)
  | .array es _, he => by
    rw [Expr.isAssignFree, Expr.areAssignFree_iff] at he
    have hkept (v : Value) (w w' : Unit) (_ : w ≤ w') (hv : v.isPlain = true) := hv
    refine .bind (.mapM_all hkept fun e hmem _ _ => hev e (he e hmem)) fun _ _ values hvalues => ?_
    exact .bind (Run.onHeap_plain (ArrayRef.make_plain .any hvalues.2)) fun _ _ _ _ => .pure rfl
  | .ident name _, _ => by
    refine .bind (P := fun _ v? => ∀ v, v? = some v → v.isPlain = true)
      (.get fun st hst v hv => ?_) fun _ _ _ hv => .require hv
    obtain ⟨scope, hscope, hmem⟩ := Environment.exists_entry_of_lookup? hv
    exact hst.env scope hscope _ hmem
  | .member object field _, he => .bind (hev object he) fun _ _ o _ =>
    Run.onHeap_plain (readMember_plain o field)
  | .item collection index _, he => by
    simp only [Expr.isAssignFree, Bool.and_eq_true] at he
    exact .bind (hev collection he.1) fun _ _ c _ => .bind (hev index he.2) fun _ _ i _ =>
      Run.onHeap_plain (readItem_plain c i)
  | .slice collection start stop _, he => by
    simp only [Expr.isAssignFree, Bool.and_eq_true, Expr.isAssignFreeBound_iff] at he
    exact .bind (hev collection he.1.1) fun _ _ c _ =>
      .bind (bound?_plain fun e h => hev e (he.1.2 e h)) fun _ _ low _ =>
        .bind (bound?_plain fun e h => hev e (he.2 e h)) fun _ _ high _ =>
          Run.onHeap_plain (readSlice_plain c low high)
  | .deref pointer _, he => .bind (hev pointer he) fun _ _ p _ =>
    Run.onHeap_plain (readPointee_plain p)

theorem evaluateWithin_plain (limit : Nat) : (room : Nat) → (e : Expr) → e.isAssignFree = true →
    KeepsPlain (evaluateWithin limit room e) (·.isPlain = true)
  | 0, _, _ => .within (.fail _)
  | room + 1, e, he =>
    .within (.nested (fun hst => ⟨hst.heap, hst.env⟩)
      (evaluateNode_plain (evaluateWithin_plain limit room) e he))

/-- Evaluation makes no interfaces. -/
theorem evaluate_plain {limit : Nat} {e : Expr} (he : e.isAssignFree = true) {st st' : State}
    {v : Value} (hst : st.Plain) (hrun : (evaluate limit e).run st = (.ok v, st')) :
    v.isPlain = true ∧ st'.Plain := by
  obtain ⟨_, -, hplain, hv⟩ := evaluateWithin_plain limit (limit - st.depth) e he st hst
  change ((evaluate limit e).run st).2.Plain at hplain
  rw [hrun] at hplain
  exact ⟨hv v (congrArg Prod.fst hrun), hplain⟩

end Eval

end TenantScript
