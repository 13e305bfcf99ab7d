import TenantScript.Action
import TenantScript.Value.Heap

/-!
Making values: new storages with references to them, and the zero value of each type.
-/

namespace TenantScript

/-- Makes a storage. -/
def Heap.allocate (s : Storage) : Action Heap Address := ⟨fun h => (.ok h.size, h.push s)⟩

/-- Makes an array to which elements can be added. -/
def ArrayRef.make (elem : Ty) (items : List Value) : Action Heap ArrayRef := do
  return ⟨elem, false, false, ← Heap.allocate (.items items)⟩

/-- Makes an array that keeps its length. -/
def ArrayRef.makeFixed (elem : Ty) (items : List Value) : Action Heap ArrayRef := do
  return ⟨elem, true, false, ← Heap.allocate (.items items)⟩

/-- Makes a map that is not nil. -/
def MapRef.make (key value : Ty) (entries : SortedMap MapKey Value) : Action Heap MapRef := do
  return ⟨key, value, some (← Heap.allocate (.entries entries))⟩

/-- Makes a pointer to a new cell. -/
def PointerRef.make (elem : Ty) (v : Value) : Action Heap PointerRef := do
  return ⟨elem, some (← Heap.allocate (.cell v))⟩

/-- The zero value of a type: no elements for an array, nil for a map, a pointer, a struct and
`any`. -/
def Value.zero : Ty → Action Heap Value
  | .any | .struct _ => return .nil
  | .bool => return .bool false
  | .int => return .int 0
  | .float => return .float ⟨0⟩
  | .str => return .str ""
  | .array elem => return .array (← ArrayRef.make elem [])
  | .map key value => return .map ⟨key, value, none⟩
  | .pointer elem => return .pointer ⟨elem, none⟩

/-- Makes a struct with a zero value in each field. -/
def StructRef.makeZero (d : StructDef) : Action Heap StructRef := do
  let values ← d.fields.mapM fun f => Value.zero f.ty
  return ⟨d, ← Heap.allocate (.fields values)⟩

end TenantScript
