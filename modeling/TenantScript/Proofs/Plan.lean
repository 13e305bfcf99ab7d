import TenantScript.Eval.Assign
import TenantScript.Proofs.Growth
import TenantScript.Proofs.Slot

/-!
Stores in two steps. Every store into a container first makes a plan, which takes all checks and
conversions, can fail and only adds storages; carrying out the plan is one write, or none if the
container is replaced, and cannot fail.
-/

open TenantScript.Action

namespace TenantScript

/-- What a store comes to once everything is checked and converted. -/
inductive Plan where
  /-- `v` goes into a slot. -/
  | write (slot : Slot) (v : Value)
  /-- This container takes the place of the old one. -/
  | replace (container : Value)
  deriving DecidableEq

/-- Carries out a plan. -/
def Plan.commit : Plan → Action Heap Mutation
  | write slot v => do
    .modify (·.store slot v)
    return .inPlace v
  | replace container => return .replaced container

/-! ### The plans of the stores -/

def StructRef.planField (s : StructRef) (name : Name) (v : Value) : Action Heap Plan :=
  match s.defn.field? name with
  | none => .fail (.noSuchMember name s!"struct {s.defn.name}")
  | some (i, field) =>
    if !field.settable then .fail (.notSettable s!"struct member '{name}'")
    else do return .write ⟨s.address, .field i⟩ (← convert field.ty v)

def MapRef.planEntry (m : MapRef) (key v : Value) : Action Heap Plan := do
  let k ← convertKey m.key key
  let converted ← convert m.value v
  match m.address? with
  | some a => return .write ⟨a, .entry k⟩ converted
  | none =>
    return .replace (.map (← MapRef.make m.key m.value (SortedMap.empty.insert k converted)))

def ArrayRef.planAppend (a : ArrayRef) (v : Value) : Action Heap Plan := do
  let items ← .get (·.items a)
  if a.fixed then .fail (.indexOutOfRange items.length items.length)
  else
    let extra ← additions a.elem v
    let items ← .get (·.items a)
    return .replace (.array (← ArrayRef.make a.elem (items ++ extra)))

def ArrayRef.planIndex (a : ArrayRef) (index : Int) (v : Value) : Action Heap Plan := do
  let items ← .get (·.items a)
  match position? index with
  | none => .fail (.indexOutOfRange index items.length)
  | some i =>
    if i = items.length then a.planAppend v
    else if i > items.length then .fail (.indexOutOfRange index items.length)
    else if a.readOnly then .fail (.notSettable s!"array index {index}")
    else return .write ⟨a.address, .item i⟩ (← convert a.elem v)

/-- The slot of what a pointer points to. -/
def PointerRef.slot (p : PointerRef) : Action Heap Slot :=
  match p.address? with
  | none => .fail (.typeInvalid "nil pointer dereference")
  | some a => return ⟨a, .cell⟩

def planCharacter (s : String) (index : Int) (v : Value) : Action Heap Plan :=
  match v.unwrap with
  | .str piece =>
    let cs := s.toList
    match (position? index).filter (· ≤ cs.length) with
    | some i => return .replace (.str (String.ofList (spliceAt cs i piece.toList)))
    | none => .fail (.indexOutOfRange index cs.length)
  | w => mismatched w .str

def planMember (container : Value) (field : Name) (v : Value) : Action Heap Plan :=
  match container with
  | .struct s => s.planField field v
  | .map m => m.planEntry (.str field) v
  | w => .fail (.unsupported .memberAssignment w.kind)

def planItem (collection index v : Value) : Action Heap Plan := do
  match collection.unwrap with
  | .array a => a.planIndex (← .ofExcept (toIndex index)) v
  | .map m => m.planEntry index v
  | .str s => planCharacter s (← .ofExcept (toIndex index)) v
  | w => .fail (.unsupported .indexAssignment w.kind)

def pointeeSlot (pointer : Value) : Action Heap Slot :=
  match pointer.unwrap with
  | .pointer p => p.slot
  | w => .fail (.typeInvalid s!"cannot dereference {w.kind.text}")

/-- The position from which on a range of an array is overwritten, and the values that go there. -/
def ArrayRef.planRange (a : ArrayRef) (start stop : Int) (v : Value) :
    Action Heap (Nat × List Value) := do
  let items ← .get (·.items a)
  let (low, high) ← .ofExcept (checkedRange start stop items.length)
  if a.readOnly then .fail (.notSettable s!"array slice [{start}:{stop}]")
  else
    match v.unwrap with
    | .array source =>
      let values ← .get (·.items source)
      if values.length ≠ high - low then
        .fail (.mismatch low high items.length values.length)
      else return (low, ← values.mapM (convert a.elem))
    | w => mismatched w (.array a.elem)

/-- Writes values over a range of an array; the result is a new array of them. -/
def ArrayRef.commitRange (a : ArrayRef) (start : Nat) (values : List Value) :
    Action Heap Mutation := do
  let items ← .get (·.items a)
  Heap.put a.address (.items (overwrite items start values))
  return .inPlace (.array (← ArrayRef.make a.elem values))

/-! ### A store is its plan, carried out -/

theorem StructRef.setField_eq (s : StructRef) (name : Name) (v : Value) :
    s.setField name v = s.planField name v >>= Plan.commit := by
  unfold setField planField
  rcases s.defn.field? name with _ | ⟨i, field⟩
  · rfl
  · rcases hs : field.settable with _ | _
    · simp only [hs, Bool.not_false, if_true]
      rfl
    · simp only [hs, Bool.not_true, Bool.false_eq_true, if_false, bind_assoc, pure_bind]
      rfl

theorem MapRef.insert_eq (m : MapRef) (key v : Value) :
    m.insert key v = m.planEntry key v >>= Plan.commit := by
  unfold insert planEntry
  simp only [bind_assoc]
  refine bind_congr fun k => bind_congr fun converted => ?_
  rcases m.address? with _ | a
  · simp only [bind_assoc, pure_bind]
    rfl
  · simp only [pure_bind]
    rfl

theorem ArrayRef.append_eq (a : ArrayRef) (v : Value) :
    a.append v = a.planAppend v >>= Plan.commit := by
  unfold append planAppend
  simp only [bind_assoc]
  refine bind_congr fun items => ?_
  by_cases hf : a.fixed = true
  · simp only [hf, if_true]
    rfl
  · simp only [if_neg hf, bind_assoc, pure_bind]
    rfl

theorem ArrayRef.setIndex_eq (a : ArrayRef) (index : Int) (v : Value) :
    a.setIndex index v = a.planIndex index v >>= Plan.commit := by
  unfold setIndex planIndex
  simp only [bind_assoc]
  refine bind_congr fun items => ?_
  rcases position? index with _ | i
  · rfl
  · by_cases heq : i = items.length
    · simp only [if_pos heq]
      exact a.append_eq v
    · by_cases hgt : i > items.length
      · simp only [if_neg heq, if_pos hgt]
        rfl
      · by_cases hro : a.readOnly = true
        · simp only [if_neg heq, if_neg hgt, if_pos hro]
          rfl
        · simp only [if_neg heq, if_neg hgt, if_neg hro, bind_assoc, pure_bind]
          rfl

theorem PointerRef.store_eq (p : PointerRef) (v : Value) :
    p.store v = p.slot >>= fun slot => (Plan.write slot v).commit := by
  unfold store slot
  rcases p.address? with _ | a <;> rfl

theorem setCharacter_eq (s : String) (index : Int) (v : Value) :
    setCharacter s index v = planCharacter s index v >>= Plan.commit := by
  unfold setCharacter planCharacter
  cases v.unwrap with
  | str piece =>
    simp only
    rcases (position? index).filter (· ≤ s.toList.length) with _ | i <;> rfl
  | _ => rfl

theorem setMember_eq (container : Value) (field : Name) (v : Value) :
    setMember container field v = planMember container field v >>= Plan.commit := by
  cases container with
  | struct s => exact s.setField_eq field v
  | map m => exact m.insert_eq (.str field) v
  | _ => rfl

theorem setItem_eq (collection index v : Value) :
    setItem collection index v = planItem collection index v >>= Plan.commit := by
  unfold setItem planItem
  cases collection.unwrap with
  | array a =>
    simp only [bind_assoc]
    exact bind_congr fun i => a.setIndex_eq i v
  | map m => exact m.insert_eq index v
  | str s =>
    simp only [bind_assoc]
    exact bind_congr fun i => setCharacter_eq s i v
  | _ => rfl

theorem setPointee_eq (pointer v : Value) :
    setPointee pointer v = pointeeSlot pointer >>= fun slot => (Plan.write slot v).commit := by
  unfold setPointee pointeeSlot
  cases pointer.unwrap with
  | pointer p => exact p.store_eq v
  | _ => rfl

theorem ArrayRef.setRange_eq (a : ArrayRef) (start stop : Int) (v : Value) :
    a.setRange start stop v =
      a.planRange start stop v >>= fun r => a.commitRange r.1 r.2 := by
  unfold setRange planRange
  simp only [bind_assoc]
  refine bind_congr fun items => bind_congr fun r => ?_
  by_cases hro : a.readOnly = true
  · simp only [if_pos hro]
    rfl
  · simp only [if_neg hro]
    cases v.unwrap with
    | array source =>
      simp only [bind_assoc]
      refine bind_congr fun values => ?_
      by_cases hlen : values.length ≠ r.2 - r.1
      · simp only [if_pos hlen]
        rfl
      · simp only [if_neg hlen, bind_assoc, pure_bind]
        rfl
    | _ => rfl

/-! ### What carrying out a range comes to -/

theorem ArrayRef.run_commitRange (a : ArrayRef) (start : Nat) (values : List Value) (h : Heap) :
    (a.commitRange start values).run h =
      (.ok (.inPlace (.array ⟨a.elem, false, false, h.size⟩)),
        (h.write a.address (.items (overwrite (h.items a) start values))).push
          (.items values)) := by
  show (Except.ok (Mutation.inPlace (.array ⟨_, _, _, Heap.size (Heap.write _ _ _)⟩)), _) = _
  rw [Heap.size_write]

section Range

variable {h : Heap} {a b : Address} (s t : Storage)

theorem Heap.get?_push_write_self (ha : a < h.size) : ((h.write a s).push t).get? a = some s := by
  rw [get?_push_of_lt _ (by rwa [size_write]), get?_write_self _ ha]

theorem Heap.get?_push_write_ne (hb : b < h.size) (hne : b ≠ a) :
    ((h.write a s).push t).get? b = h.get? b := by
  rw [get?_push_of_lt _ (by rwa [size_write]), get?_write_ne _ _ hne]

theorem Heap.get?_push_write_size (h : Heap) (a : Address) :
    ((h.write a s).push t).get? h.size = some t := by
  rw [← size_write h a s]
  exact get?_push_self _ _

end Range

/-! ### The slot of a pointer -/

theorem PointerRef.eq_of_run_slot {p : PointerRef} {slot : Slot} {h h' : Heap}
    (hrun : p.slot.run h = (.ok slot, h')) :
    ∃ a, p.address? = some a ∧ slot = ⟨a, .cell⟩ ∧ h' = h := by
  unfold PointerRef.slot at hrun
  cases ha : p.address? with
  | none =>
    simp only [ha] at hrun
    cases hrun
  | some a =>
    simp only [ha] at hrun
    cases hrun
    exact ⟨a, rfl, rfl, rfl⟩

/-! ### Plans only add storages -/

theorem StructRef.planField_adds (s : StructRef) (name : Name) (v : Value) :
    (s.planField name v).Adds := by
  unfold planField
  split
  · exact .fail _
  · split
    · exact .fail _
    · exact .bind (convert_adds _ _) fun _ => .pure _

theorem MapRef.planEntry_adds (m : MapRef) (key v : Value) : (m.planEntry key v).Adds := by
  refine .bind (convertKey_adds _ _) fun k => .bind (convert_adds _ _) fun converted => ?_
  split
  · exact .pure _
  · exact .bind (MapRef.make_adds _ _ _) fun _ => .pure _

theorem additions_adds (elem : Ty) (v : Value) : (additions elem v).Adds := by
  refine .recover (.bind (convert_adds _ _) fun _ => .pure _) fun e => ?_
  split
  · exact .bind (.get _) fun _ => .mapM fun w _ => convert_adds elem w
  · exact .throw e

theorem ArrayRef.planAppend_adds (a : ArrayRef) (v : Value) : (a.planAppend v).Adds := by
  refine .bind (.get _) fun items => ?_
  split
  · exact .fail _
  · exact .bind (additions_adds _ _) fun _ => .bind (.get _) fun _ =>
      .bind (ArrayRef.make_adds _ _) fun _ => .pure _

theorem ArrayRef.planIndex_adds (a : ArrayRef) (index : Int) (v : Value) :
    (a.planIndex index v).Adds := by
  refine .bind (.get _) fun items => ?_
  split
  · exact .fail _
  · split
    · exact a.planAppend_adds v
    · split
      · exact .fail _
      · split
        · exact .fail _
        · exact .bind (convert_adds _ _) fun _ => .pure _

theorem PointerRef.slot_adds (p : PointerRef) : p.slot.Adds := by
  unfold slot
  split
  · exact .fail _
  · exact .pure _

theorem planCharacter_adds (s : String) (index : Int) (v : Value) :
    (planCharacter s index v).Adds := by
  unfold planCharacter
  split
  · simp only
    split
    · exact .pure _
    · exact .fail _
  · exact .fail _

theorem planMember_adds (container : Value) (field : Name) (v : Value) :
    (planMember container field v).Adds := by
  unfold planMember
  split
  · exact StructRef.planField_adds _ _ _
  · exact MapRef.planEntry_adds _ _ _
  · exact .fail _

theorem planItem_adds (collection index v : Value) : (planItem collection index v).Adds := by
  unfold planItem
  split
  · exact .bind (.ofExcept _) fun _ => ArrayRef.planIndex_adds _ _ _
  · exact MapRef.planEntry_adds _ _ _
  · exact .bind (.ofExcept _) fun _ => planCharacter_adds _ _ _
  · exact .fail _

theorem pointeeSlot_adds (pointer : Value) : (pointeeSlot pointer).Adds := by
  unfold pointeeSlot
  split
  · exact PointerRef.slot_adds _
  · exact .fail _

theorem ArrayRef.planRange_adds (a : ArrayRef) (start stop : Int) (v : Value) :
    (a.planRange start stop v).Adds := by
  refine .bind (.get _) fun items => .bind (.ofExcept _) fun r => ?_
  obtain ⟨low, high⟩ := r
  simp only
  split
  · exact .fail _
  · split
    · refine .bind (.get _) fun values => ?_
      split
      · exact .fail _
      · exact .bind (.mapM fun w _ => convert_adds _ w) fun _ => .pure _
    · exact .fail _

/-! ### What plans come to -/

section Cases

variable {v : Value} {plan : Plan} {h h' : Heap}

theorem StructRef.cases_of_planField {s : StructRef} {name : Name}
    (hrun : (s.planField name v).run h = (.ok plan, h')) :
    ∃ i f w, s.defn.field? name = some (i, f) ∧ (convert f.ty v).run h = (.ok w, h') ∧
      plan = .write ⟨s.address, .field i⟩ w := by
  unfold planField at hrun
  split at hrun
  · cases hrun
  · next i f hfield =>
    split at hrun
    · cases hrun
    · obtain ⟨w, h₁, hw, hrun⟩ := exists_of_run_bind hrun
      cases hrun
      exact ⟨i, f, w, hfield, hw, rfl⟩

theorem MapRef.cases_of_planEntry {m : MapRef} {key : Value}
    (hrun : (m.planEntry key v).run h = (.ok plan, h')) :
    ∃ k w h₁, (∀ g, (convertKey m.key key).run g = (.ok k, g)) ∧
      (convert m.value v).run h = (.ok w, h₁) ∧
      ((∃ a, m.address? = some a ∧ plan = .write ⟨a, .entry k⟩ w ∧ h' = h₁) ∨
        (m.address? = none ∧ plan = .replace (.map ⟨m.key, m.value, some h₁.size⟩) ∧
          h' = h₁.push (.entries (SortedMap.empty.insert k w)))) := by
  obtain ⟨k, h₁, hk, hentry⟩ := exists_of_run_bind hrun
  obtain ⟨rfl, hkey⟩ := run_convertKey_of_run hk
  obtain ⟨w, h₂, hw, hplan⟩ := exists_of_run_bind hentry
  refine ⟨k, w, h₂, hkey, hw, ?_⟩
  split at hplan
  · next a ha =>
    cases hplan
    exact .inl ⟨a, ha, rfl, rfl⟩
  · next ha =>
    cases hplan
    exact .inr ⟨ha, rfl, rfl⟩

theorem ArrayRef.cases_of_planAppend {a : ArrayRef}
    (hrun : (a.planAppend v).run h = (.ok plan, h')) :
    ∃ extra h₁, (additions a.elem v).run h = (.ok extra, h₁) ∧
      plan = .replace (.array ⟨a.elem, false, false, h₁.size⟩) ∧
      h' = h₁.push (.items (h₁.items a ++ extra)) := by
  obtain ⟨items, h₀, hitems, hrun⟩ := exists_of_run_bind hrun
  cases hitems
  split at hrun
  · cases hrun
  · obtain ⟨extra, h₁, hextra, hrun⟩ := exists_of_run_bind hrun
    cases hrun
    exact ⟨extra, h₁, hextra, rfl, rfl⟩

/-- An element is replaced where it is, or the array is replaced by a longer one. -/
theorem ArrayRef.cases_of_planIndex {a : ArrayRef} {index : Int}
    (hrun : (a.planIndex index v).run h = (.ok plan, h')) :
    ∃ i, position? index = some i ∧
      ((i < (h.items a).length ∧ ∃ w, (convert a.elem v).run h = (.ok w, h') ∧
          plan = .write ⟨a.address, .item i⟩ w) ∨
        (i = (h.items a).length ∧ ∃ extra h₁, (additions a.elem v).run h = (.ok extra, h₁) ∧
          plan = .replace (.array ⟨a.elem, false, false, h₁.size⟩) ∧
          h' = h₁.push (.items (h₁.items a ++ extra)))) := by
  obtain ⟨items, h₁, hitems, hrun⟩ := exists_of_run_bind hrun
  cases hitems
  split at hrun
  · cases hrun
  · next i hi =>
    refine ⟨i, hi, ?_⟩
    by_cases hend : i = (h.items a).length
    · rw [if_pos hend] at hrun
      exact .inr ⟨hend, cases_of_planAppend hrun⟩
    · rw [if_neg hend] at hrun
      split at hrun
      · cases hrun
      · next hle =>
        split at hrun
        · cases hrun
        · obtain ⟨w, h₂, hw, hrun⟩ := exists_of_run_bind hrun
          cases hrun
          exact .inl ⟨Nat.lt_of_le_of_ne (Nat.not_lt.1 hle) hend, w, hw, rfl⟩

theorem str_of_planCharacter {text : String} {index : Int}
    (hrun : (planCharacter text index v).run h = (.ok plan, h')) :
    ∃ result, plan = .replace (.str result) := by
  unfold planCharacter at hrun
  split at hrun
  · simp only at hrun
    split at hrun
    · cases hrun
      exact ⟨_, rfl⟩
    · cases hrun
  · cases hrun

end Cases

end TenantScript
