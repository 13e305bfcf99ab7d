import TenantScript.Data.SortedMap
import TenantScript.Value.Basic

/-!
The heap: the storages that references lead to, each at its address. Making a storage changes none
that is there, and writing one leaves all others as they are; storages are never taken away.
-/

namespace TenantScript

/-- What lies at an address. -/
inductive Storage where
  /-- The elements of an array. -/
  | items (values : List Value)
  /-- The entries of a map. -/
  | entries (map : SortedMap MapKey Value)
  /-- The fields of a struct, in the order of its definition. -/
  | fields (values : List Value)
  /-- What a pointer points to. -/
  | cell (value : Value)
  deriving DecidableEq

/-- All storages; an address is a position. -/
structure Heap where
  storages : Array Storage
  deriving DecidableEq

namespace Heap

/-- The heap without storages. -/
def empty : Heap := ⟨#[]⟩

instance : Inhabited Heap := ⟨empty⟩

/-- The number of storages, which is the next free address. -/
def size (h : Heap) : Nat := h.storages.size

/-- The storage at an address. -/
def get? (h : Heap) (a : Address) : Option Storage := h.storages[a]?

/-- The heap with one more storage, which lies at address `h.size`. -/
def push (h : Heap) (s : Storage) : Heap := ⟨h.storages.push s⟩

/-- The heap with another storage at `a`. -/
def write (h : Heap) (a : Address) (s : Storage) : Heap := ⟨h.storages.setIfInBounds a s⟩

theorem ext_get? {g h : Heap} (e : ∀ a, g.get? a = h.get? a) : g = h := by
  cases g; cases h
  congr
  exact Array.ext_getElem? e

@[simp] theorem size_push (h : Heap) (s : Storage) : (h.push s).size = h.size + 1 := by
  simp [size, push]

@[simp] theorem size_write (h : Heap) (a : Address) (s : Storage) :
    (h.write a s).size = h.size := by
  simp [size, write]

theorem get?_push (h : Heap) (s : Storage) (a : Address) :
    (h.push s).get? a = if a = h.size then some s else h.get? a :=
  Array.getElem?_push

@[simp] theorem get?_push_self (h : Heap) (s : Storage) : (h.push s).get? h.size = some s := by
  simp [get?_push]

theorem get?_push_of_lt {h : Heap} (s : Storage) {a : Address} (ha : a < h.size) :
    (h.push s).get? a = h.get? a := by
  rw [get?_push, if_neg (Nat.ne_of_lt ha)]

theorem get?_write_self {h : Heap} {a : Address} (s : Storage) (ha : a < h.size) :
    (h.write a s).get? a = some s := by
  simp [get?, write, show a < h.storages.size from ha]

theorem get?_write_ne (h : Heap) {a b : Address} (s : Storage) (hab : b ≠ a) :
    (h.write a s).get? b = h.get? b := by
  simp [get?, write, Ne.symm hab]

theorem lt_size_of_get? {h : Heap} {a : Address} {s : Storage} (e : h.get? a = some s) :
    a < h.size := by
  simp only [get?] at e
  exact (Array.getElem?_eq_some_iff.1 e).1

theorem get?_isSome_iff {h : Heap} {a : Address} : (h.get? a).isSome ↔ a < h.size := by
  simp [get?, size]

/-- The elements of the array at `a`. -/
def itemsAt (h : Heap) (a : Address) : List Value :=
  match h.get? a with
  | some (.items values) => values
  | _ => []

/-- The entries of the map at `a`. -/
def entriesAt (h : Heap) (a : Address) : SortedMap MapKey Value :=
  match h.get? a with
  | some (.entries m) => m
  | _ => .empty

/-- The fields of the struct at `a`. -/
def fieldsAt (h : Heap) (a : Address) : List Value :=
  match h.get? a with
  | some (.fields values) => values
  | _ => []

/-- What the cell at `a` holds. -/
def cellAt? (h : Heap) (a : Address) : Option Value :=
  match h.get? a with
  | some (.cell v) => some v
  | _ => none

/-- The elements of an array. -/
def items (h : Heap) (a : ArrayRef) : List Value := h.itemsAt a.address

/-- The entries of a map; a nil map has none. -/
def entries (h : Heap) (m : MapRef) : SortedMap MapKey Value :=
  match m.address? with
  | some a => h.entriesAt a
  | none => .empty

/-- The fields of a struct. -/
def fields (h : Heap) (s : StructRef) : List Value := h.fieldsAt s.address

/-- The fields of a struct with their names. -/
def namedFields (h : Heap) (s : StructRef) : List (Name × Value) :=
  (s.defn.fields.map (·.name)).zip (h.fields s)

/-- The value of the field that a name stands for. -/
def field? (h : Heap) (s : StructRef) (name : Name) : Option Value := do
  let (i, _) ← s.defn.field? name
  (h.fields s)[i]?

/-- What a pointer points to; nothing for a nil pointer. -/
def load? (h : Heap) (p : PointerRef) : Option Value := p.address?.bind h.cellAt?

end Heap

end TenantScript
