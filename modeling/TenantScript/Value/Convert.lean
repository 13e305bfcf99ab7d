import TenantScript.Value.Make

/-!
Conversion of a value for a slot with a declared type. An integer becomes a floating-point number,
nil becomes the nil of the type, and interfaces are taken off; nothing else changes its kind. An
array or map declared with the very same types is kept as it is, so that it stays shared; one that
is declared otherwise is rebuilt, element by element, in a storage of its own.
-/

namespace TenantScript

/-- The failure to store `v` as a `target`. -/
def mismatched {α : Type} (v : Value) (target : Ty) : Action Heap α :=
  .fail (.typeConversion v.dynamicType target)

/-- The key for a map with keys of type `key`, given how values convert to `key`. -/
def keyVia (convert : Value → Action Heap Value) (key : Ty) (v : Value) : Action Heap MapKey := do
  if !key.isHashable then
    .fail (.typeInvalid s!"invalid map key type {key.text}")
  else
    let converted ← convert v
    .require (.typeInvalid s!"{v.kind.text} is not a valid map key") (MapKey.ofValue? converted)

/-- Converts a value to a type. -/
def convert : Ty → Value → Action Heap Value
  | .any, v => return v
  | .bool, v =>
    match v.bare with
    | .bool b => return .bool b
    | w => mismatched w .bool
  | .int, v =>
    match v.bare with
    | .int n => return .int n
    | w => mismatched w .int
  | .float, v =>
    match v.bare with
    | .float x => return .float x
    | .int n => return .float (.ofInt n.toInt)
    | w => mismatched w .float
  | .str, v =>
    match v.bare with
    | .str s => return .str s
    | w => mismatched w .str
  | .array elem, v =>
    match v.bare with
    | .nil => return .array (← ArrayRef.make elem [])
    | .array a =>
      if a.elem = elem then return .array a
      else do
        let items ← .get (·.items a)
        return .array (← ArrayRef.make elem (← items.mapM (convert elem)))
    | w => mismatched w (.array elem)
  | .map key value, v =>
    match v.bare with
    | .nil => return .map ⟨key, value, none⟩
    | .map m =>
      if m.key = key ∧ m.value = value then return .map m
      else if m.isNil then return .map ⟨key, value, none⟩
      else do
        let entries ← .get (·.entries m)
        let converted ← entries.entries.mapM fun e => do
          let k ← keyVia (convert key) key e.1.toValue
          let w ← convert value e.2
          return (k, w)
        return .map (← MapRef.make key value (.ofList converted))
    | w => mismatched w (.map key value)
  | .struct name, v =>
    match v.bare with
    | .nil => return .nil
    | .struct s => if s.defn.name = name then return .struct s else mismatched v.bare (.struct name)
    | w => mismatched w (.struct name)
  | .pointer elem, v =>
    match v.bare with
    | .nil => return .pointer ⟨elem, none⟩
    | .pointer p =>
      if elem.isAny ∨ p.elem.isAny ∨ p.elem = elem then return .pointer p
      else mismatched v.bare (.pointer elem)
    | w => mismatched w (.pointer elem)

/-- Conversion to a scalar type leaves the heap alone: it gives a value of that very type, or there
is none. -/
theorem convert_scalar {ty : Ty} (hty : ty.isScalar = true) (v : Value) :
    (∃ u : Value, u.dynamicType = ty ∧ convert ty v = pure u) ∨
      convert ty v = mismatched v.bare ty := by
  cases ty with
  | bool | int | float | str =>
    rw [convert]
    cases v.bare <;> first | exact .inl ⟨_, rfl, rfl⟩ | exact .inr rfl
  | _ => cases hty

/-- Converts a value to a key for a map with keys of type `key`. -/
def convertKey (key : Ty) (v : Value) : Action Heap MapKey := keyVia (convert key) key v

/-- Makes a struct, each field from a value converted to its type. -/
def StructRef.make (d : StructDef) (values : List Value) : Action Heap StructRef := do
  if values.length ≠ d.fields.length then
    .fail (.invalidOperation
      s!"struct {d.name} has {d.fields.length} fields, got {values.length} values")
  else
    let converted ← (d.fields.zip values).mapM fun p => convert p.1.ty p.2
    return ⟨d, ← Heap.allocate (.fields converted)⟩

end TenantScript
