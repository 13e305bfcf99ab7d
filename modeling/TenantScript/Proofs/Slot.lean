import TenantScript.Value.Heap

/-!
Slots: the places in a heap that hold one value each. A store into a slot that is there is seen in
that slot and in no other.
-/

namespace TenantScript

/-- Where in a storage a value is. -/
inductive Position where
  | item (index : Nat)
  | entry (key : MapKey)
  | field (index : Nat)
  | cell
  deriving DecidableEq

/-- A place in a heap. -/
structure Slot where
  address : Address
  position : Position
  deriving DecidableEq

namespace Storage

/-- What a storage holds at a position. -/
def value? : Storage → Position → Option Value
  | items vs, .item i => vs[i]?
  | entries m, .entry k => m.get? k
  | fields vs, .field i => vs[i]?
  | cell v, .cell => some v
  | _, _ => none

/-- Whether a value can be stored at a position: elements and fields have to be there, and an entry
can be new. -/
def HasRoom : Storage → Position → Prop
  | items vs, .item i => i < vs.length
  | entries _, .entry _ => True
  | fields vs, .field i => i < vs.length
  | cell _, .cell => True
  | _, _ => False

/-- A storage with `v` at a position. -/
def set : Storage → Position → Value → Storage
  | items vs, .item i, v => items (vs.set i v)
  | entries m, .entry k, v => entries (m.insert k v)
  | fields vs, .field i, v => fields (vs.set i v)
  | cell _, .cell, v => cell v
  | s, _, _ => s

theorem value?_set_self {s : Storage} {p : Position} (v : Value) (h : s.HasRoom p) :
    (s.set p v).value? p = some v := by
  cases s <;> cases p <;> simp_all [HasRoom, set, value?]

theorem value?_set_ne (s : Storage) {p q : Position} (v : Value) (hpq : q ≠ p) :
    (s.set p v).value? q = s.value? q := by
  have hne {i j : Nat} (hij : j ≠ i) (vs : List Value) : (vs.set i v)[j]? = vs[j]? :=
    List.getElem?_set_ne (Ne.symm hij)
  cases s with
  | items vs =>
    cases p with
    | item i =>
      cases q with
      | item j => exact hne (fun e => hpq (congrArg Position.item e)) vs
      | _ => rfl
    | _ => rfl
  | entries m =>
    cases p with
    | entry k =>
      cases q with
      | entry l => exact SortedMap.get?_insert_ne m v fun e => hpq (congrArg Position.entry e)
      | _ => rfl
    | _ => rfl
  | fields vs =>
    cases p with
    | field i =>
      cases q with
      | field j => exact hne (fun e => hpq (congrArg Position.field e)) vs
      | _ => rfl
    | _ => rfl
  | cell w =>
    cases p with
    | cell =>
      cases q with
      | cell => exact absurd rfl hpq
      | _ => rfl
    | _ => rfl

/-- There is room where there is a value. -/
theorem hasRoom_of_value? {s : Storage} {p : Position} {v : Value} (h : s.value? p = some v) :
    s.HasRoom p := by
  cases s <;> cases p <;>
    first | exact trivial | exact (List.getElem?_eq_some_iff.1 h).1 | cases h

theorem set_of_value? {s : Storage} {p : Position} {v : Value} (h : s.value? p = some v) :
    s.set p v = s := by
  have hset {vs : List Value} {i : Nat} (hi : vs[i]? = some v) : vs.set i v = vs := by
    obtain ⟨hlt, rfl⟩ := List.getElem?_eq_some_iff.1 hi
    exact List.set_getElem_self hlt
  cases s <;> cases p <;> try rfl
  case items.item vs i => exact congrArg items (hset h)
  case entries.entry m k => exact congrArg entries (SortedMap.insert_of_get? h)
  case fields.field vs i => exact congrArg fields (hset h)
  case cell.cell w => exact congrArg cell (Option.some.inj h).symm

end Storage

namespace Heap

/-- What a slot holds. -/
def value? (h : Heap) (slot : Slot) : Option Value :=
  (h.get? slot.address).bind (·.value? slot.position)

/-- Whether a value can be stored into a slot. -/
def HasRoom (h : Heap) (slot : Slot) : Prop :=
  ∃ s, h.get? slot.address = some s ∧ s.HasRoom slot.position

/-- The heap with `v` in a slot. -/
def store (h : Heap) (slot : Slot) (v : Value) : Heap :=
  h.write slot.address <|
    match slot.position with
    | .item i => .items ((h.itemsAt slot.address).set i v)
    | .entry k => .entries ((h.entriesAt slot.address).insert k v)
    | .field i => .fields ((h.fieldsAt slot.address).set i v)
    | .cell => .cell v

variable {h : Heap} {slot : Slot} {v : Value}

theorem get?_store_ne (h : Heap) (slot : Slot) (v : Value) {a : Address} (ha : a ≠ slot.address) :
    (h.store slot v).get? a = h.get? a := get?_write_ne _ _ ha

/-- A store replaces a storage by one that differs in the slot alone. -/
theorem store_eq_write {s : Storage} (hs : h.get? slot.address = some s)
    (hroom : s.HasRoom slot.position) :
    h.store slot v = h.write slot.address (s.set slot.position v) := by
  obtain ⟨a, p⟩ := slot
  rw [store]
  congr 1
  cases s <;> cases p <;>
    simp_all [Storage.HasRoom, Storage.set, itemsAt, entriesAt, fieldsAt]

theorem get?_store_self {s : Storage} (hs : h.get? slot.address = some s)
    (hroom : s.HasRoom slot.position) :
    (h.store slot v).get? slot.address = some (s.set slot.position v) := by
  rw [store_eq_write hs hroom, get?_write_self _ (lt_size_of_get? hs)]

theorem value?_store_self (hroom : h.HasRoom slot) : (h.store slot v).value? slot = some v := by
  obtain ⟨s, hs, hp⟩ := hroom
  rw [value?, get?_store_self hs hp]
  exact Storage.value?_set_self v hp

theorem value?_store_ne (hroom : h.HasRoom slot) {other : Slot} (hne : other ≠ slot) :
    (h.store slot v).value? other = h.value? other := by
  obtain ⟨s, hs, hp⟩ := hroom
  by_cases ha : other.address = slot.address
  · have hpos : other.position ≠ slot.position := by
      intro hpos
      cases other
      cases slot
      simp_all
    rw [value?, value?, ha, get?_store_self hs hp, hs]
    exact Storage.value?_set_ne s v hpos
  · rw [value?, value?, get?_store_ne h slot v ha]

/-- A store of what a slot holds changes nothing. -/
theorem store_of_value? (hv : h.value? slot = some v) : h.store slot v = h := by
  obtain ⟨s, hs, hp⟩ := Option.bind_eq_some_iff.1 hv
  refine ext_get? fun a => ?_
  by_cases ha : a = slot.address
  · rw [ha, get?_store_self hs (Storage.hasRoom_of_value? hp), hs, Storage.set_of_value? hp]
  · exact get?_store_ne h slot v ha

theorem not_hasRoom_of_empty (hget : h.get? slot.address = some (.items [])) :
    ¬ h.HasRoom slot := by
  rintro ⟨s, hs, hroom⟩
  cases hs.symm.trans hget
  cases hpos : slot.position with
  | item i =>
    rw [hpos] at hroom
    exact Nat.not_lt_zero i hroom
  | _ =>
    rw [hpos] at hroom
    cases hroom

/-! ### What containers hold is in slots -/

theorem getElem?_items (h : Heap) (a : ArrayRef) (i : Nat) :
    (h.items a)[i]? = h.value? ⟨a.address, .item i⟩ := by
  rw [items, itemsAt, value?]
  cases h.get? a.address with
  | none => rfl
  | some s => cases s <;> rfl

theorem get?_entries (h : Heap) {m : MapRef} {a : Address} (ha : m.address? = some a)
    (k : MapKey) : (h.entries m).get? k = h.value? ⟨a, .entry k⟩ := by
  rw [entries, ha, value?]
  simp only [entriesAt]
  cases h.get? a with
  | none => rfl
  | some s => cases s <;> rfl

theorem field?_eq (h : Heap) {s : StructRef} {name : Name} {i : Nat} {f : FieldDef}
    (hfield : s.defn.field? name = some (i, f)) :
    h.field? s name = h.value? ⟨s.address, .field i⟩ := by
  rw [field?, hfield, value?]
  show (h.fieldsAt s.address)[i]? = _
  rw [fieldsAt]
  cases h.get? s.address with
  | none => rfl
  | some t => cases t <;> rfl

theorem load?_eq (h : Heap) {p : PointerRef} {a : Address} (ha : p.address? = some a) :
    h.load? p = h.value? ⟨a, .cell⟩ := by
  rw [load?, ha, value?]
  show h.cellAt? a = _
  rw [cellAt?]
  cases h.get? a with
  | none => rfl
  | some s => cases s <;> rfl

end Heap

end TenantScript
