import TenantScript.Value.Convert
import TenantScript.Value.Index

/-!
Reads from containers: members, elements, ranges, and what pointers point to. A read changes no
storage; a range of an array is read into a storage of its own.
-/

namespace TenantScript

/-- The value under a key, or the zero value of the map's type if there is none. -/
def MapRef.read (m : MapRef) (key : Value) : Action Heap Value := do
  let k ← convertKey m.key key
  let entries ← .get (·.entries m)
  match entries.get? k with
  | some v => return v
  | none => Value.zero m.value

/-- What a pointer points to. -/
def PointerRef.load (p : PointerRef) (onNil : Cause) : Action Heap Value := do
  .require onNil (← .get (·.load? p))

/-- The container whose member is read: the object, or what it points to. -/
def memberSource (object : Value) : Action Heap Value :=
  match object.unwrap with
  | .pointer p => p.load (.typeInvalid "member access through nil pointer")
  | v => return v

/-- The value of a member of a struct or a map. -/
def memberOf (container : Value) (field : Name) : Action Heap Value :=
  match container with
  | .struct s => do
    .require (.noSuchMember field s!"struct {s.defn.name}") (← .get (·.field? s field))
  | .map m => m.read (.str field)
  | .nil => .fail (.typeInvalid "member access on nil")
  | v => .fail (.unsupported .memberAccess v.kind)

/-- The value of a member of a struct or a map, also through a pointer. -/
def readMember (object : Value) (field : Name) : Action Heap Value := do
  memberOf (← memberSource object) field

/-- The element at an index, of a list. -/
def elementAt {α : Type} (items : List α) (index : Int) : Except Cause α :=
  match (position? index).bind (items[·]?) with
  | some a => .ok a
  | none => .error (.indexOutOfRange index items.length)

/-- The element of an array, the entry of a map or the character of a string. -/
def readItem (collection index : Value) : Action Heap Value := do
  match collection.unwrap with
  | .array a =>
    let i ← .ofExcept (toIndex index)
    .ofExcept (elementAt (← .get (·.items a)) i)
  | .map m => m.read index
  | .str s =>
    let i ← .ofExcept (toIndex index)
    return .str (String.singleton (← .ofExcept (elementAt s.toList i)))
  | v => .fail (.unsupported .indexAccess v.kind)

/-- The elements of a list in a half-open range, of which a missing bound is the end of the
list. -/
def elementsIn {α : Type} (items : List α) (start stop : Option Int) : Except Cause (List α) := do
  let (low, high) ← checkedRange (start.getD 0) (stop.getD items.length) items.length
  return (items.drop low).take (high - low)

/-- A range of an array, as a new array, or of a string. -/
def readSlice (collection : Value) (start stop : Option Int) : Action Heap Value := do
  match collection.unwrap with
  | .array a =>
    let part ← .ofExcept (elementsIn (← .get (·.items a)) start stop)
    return .array (← ArrayRef.make a.elem part)
  | .str s =>
    return .str (String.ofList (← .ofExcept (elementsIn s.toList start stop)))
  | v => .fail (.unsupported .sliceAccess v.kind)

/-- What a pointer points to. -/
def readPointee (pointer : Value) : Action Heap Value :=
  match pointer.unwrap with
  | .pointer p => p.load (.typeInvalid "nil pointer dereference")
  | v => .fail (.typeInvalid s!"cannot dereference {v.kind.text}")

/-- The values that a loop runs over: the elements of an array, the keys of a map, the characters
of a string; none for nil. -/
def readEach (iterable : Value) : Action Heap (List Value) :=
  match iterable.unwrap with
  | .array a => .get (·.items a)
  | .map m => .get fun h => (h.entries m).keys.map MapKey.toValue
  | .str s => return s.toList.map fun c => .str (String.singleton c)
  | .nil => return []
  | v => .fail (.unsupported .iteration v.kind)

end TenantScript
