import TenantScript.Syntax.Name

/-!
Declared types: what a slot of an array, map or struct promises about the values in it.
-/

namespace TenantScript

/-- A declared type. Every value fits `any`; a struct type is known by its name. -/
inductive Ty where
  | any
  | bool
  | int
  | float
  | str
  | array (elem : Ty)
  | map (key value : Ty)
  | struct (name : Name)
  | pointer (elem : Ty)
  deriving DecidableEq, Inhabited

namespace Ty

/-- Whether the type is the one that every value fits. -/
def isAny : Ty → Bool
  | any => true
  | _ => false

/-- Whether the type can be declared for the keys of a map. -/
def isHashable : Ty → Bool
  | any | bool | int | str => true
  | _ => false

/-- Whether the values of the type have no parts and no storage. -/
def isScalar : Ty → Bool
  | bool | int | float | str => true
  | _ => false

/-- The text of a type, as in `map[str][]*Quota`. -/
def text : Ty → String
  | any => "any"
  | bool => "bool"
  | int => "int"
  | float => "float"
  | str => "str"
  | array elem => "[]" ++ elem.text
  | map key value => "map[" ++ key.text ++ "]" ++ value.text
  | struct name => name
  | pointer elem => "*" ++ elem.text

/-- The text of a type, marked as a type. -/
def outline (t : Ty) : String := "Type(" ++ t.text ++ ")"

end Ty

end TenantScript
