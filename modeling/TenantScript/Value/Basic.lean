import TenantScript.Number.Binary64
import TenantScript.Value.MapKey
import TenantScript.Value.Ty

/-!
Values. Numbers, booleans and strings are held in the value itself. Arrays, maps, structs and
pointers are references: the value says how its storage is declared and where it lies, and two
references to one address share what is stored there.
-/

namespace TenantScript

/-- The place of a storage. -/
abbrev Address := Nat

/-- What a value is, for dispatch and for messages. -/
inductive Kind where
  | nil
  | bool
  | int
  | float
  | str
  | array
  | map
  | struct
  | pointer
  | interface
  deriving DecidableEq, Inhabited

/-- The kind in a message. -/
def Kind.text : Kind → String
  | nil => "nil"
  | bool => "bool"
  | int => "int"
  | float => "float"
  | str => "str"
  | array => "array"
  | map => "map"
  | struct => "struct"
  | pointer => "pointer"
  | interface => "interface"

/-- A declared field of a struct. One that is not settable can be read but not assigned. -/
structure FieldDef where
  name : Name
  ty : Ty
  settable : Bool
  deriving DecidableEq, Inhabited

/-- A struct type: its name and its fields in order. -/
structure StructDef where
  name : Name
  fields : List FieldDef
  deriving DecidableEq, Inhabited

/-- The first field named `name` in a list, with its position. -/
def FieldDef.find? (name : Name) : List FieldDef → Option (Nat × FieldDef)
  | [] => none
  | f :: fs => if f.name = name then some (0, f) else (find? name fs).map fun p => (p.1 + 1, p.2)

/-- The field that a name stands for, with its position: of several fields of that name the
first, so that the others cannot be reached by name. -/
def StructDef.field? (d : StructDef) (name : Name) : Option (Nat × FieldDef) :=
  FieldDef.find? name d.fields

/-- A reference to an array. A fixed array is never longer or shorter than it was made; through a
read-only reference no element can be stored. -/
structure ArrayRef where
  elem : Ty
  fixed : Bool
  readOnly : Bool
  address : Address
  deriving DecidableEq, Inhabited

/-- A reference to a map, or a nil map, which has no storage. -/
structure MapRef where
  key : Ty
  value : Ty
  address? : Option Address
  deriving DecidableEq, Inhabited

/-- A reference to a struct. -/
structure StructRef where
  defn : StructDef
  address : Address
  deriving DecidableEq, Inhabited

/-- A reference to a cell, or a nil pointer, which has none. -/
structure PointerRef where
  elem : Ty
  address? : Option Address
  deriving DecidableEq, Inhabited

/-- A value. -/
inductive Value where
  | nil
  | bool (b : Bool)
  | int (n : Int64)
  | float (x : Binary64)
  | str (s : String)
  | array (ref : ArrayRef)
  | map (ref : MapRef)
  | struct (ref : StructRef)
  | pointer (ref : PointerRef)
  /-- A value held behind the dynamic type. -/
  | interface (inner : Value)
  deriving DecidableEq, Inhabited

/-- A reference to the same array through which no element can be stored. -/
def ArrayRef.asReadOnly (a : ArrayRef) : ArrayRef := { a with readOnly := true }

/-- Whether elements can be stored through the reference. -/
def ArrayRef.isSettable (a : ArrayRef) : Bool := !a.readOnly

/-- Whether the map has no storage. -/
def MapRef.isNil (m : MapRef) : Bool := m.address?.isNone

/-- Whether the pointer has no cell. -/
def PointerRef.isNil (p : PointerRef) : Bool := p.address?.isNone

/-- Whether two maps share their storage; a nil map shares nothing. -/
def MapRef.sharesWith (m n : MapRef) : Bool := m.address?.isSome && m.address? == n.address?

namespace Value

/-- What a value is. -/
def kind : Value → Kind
  | nil => .nil
  | bool _ => .bool
  | int _ => .int
  | float _ => .float
  | str _ => .str
  | array _ => .array
  | map _ => .map
  | struct _ => .struct
  | pointer _ => .pointer
  | interface _ => .interface

/-- The value without its outermost interface, if it has one. -/
def unwrap : Value → Value
  | interface inner => inner
  | v => v

/-- The value without any interface around it. -/
def bare : Value → Value
  | interface inner => inner.bare
  | v => v

/-- The value as `n` interfaces hold it. -/
def wrapped (v : Value) : Nat → Value
  | 0 => v
  | n + 1 => interface (v.wrapped n)

/-- The declared type that fits the value exactly; `any` for nil and behind an interface. -/
def dynamicType : Value → Ty
  | nil | interface _ => .any
  | bool _ => .bool
  | int _ => .int
  | float _ => .float
  | str _ => .str
  | array a => .array a.elem
  | map m => .map m.key m.value
  | struct s => .struct s.defn.name
  | pointer p => .pointer p.elem

/-- Whether the value is nil, a nil map or a nil pointer, behind at most one interface. -/
def isNil (v : Value) : Bool :=
  match v.unwrap with
  | nil => true
  | map m => m.isNil
  | pointer p => p.isNil
  | _ => false

/-- The integer that the value is, behind at most one interface. -/
def asInt? (v : Value) : Option Int64 :=
  match v.unwrap with
  | int n => some n
  | _ => none

/-- The string that the value is, behind at most one interface. -/
def asStr? (v : Value) : Option String :=
  match v.unwrap with
  | str s => some s
  | _ => none

end Value

namespace MapKey

/-- The key that a value is, behind at most one interface. -/
def ofValue? (v : Value) : Option MapKey :=
  match v.unwrap with
  | .bool b => some (.bool b)
  | .int n => some (.int n)
  | .str s => some (.str s)
  | _ => none

/-- The value that a key is. -/
def toValue : MapKey → Value
  | bool b => .bool b
  | int n => .int n
  | str s => .str s

@[simp] theorem ofValue?_toValue (k : MapKey) : ofValue? k.toValue = some k := by
  cases k <;> rfl

end MapKey

end TenantScript
