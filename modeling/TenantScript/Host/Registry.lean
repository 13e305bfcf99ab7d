import TenantScript.Data.SortedMap
import TenantScript.Error
import TenantScript.Host.Function

/-!
Registries of functions. No two functions of a registry share their id or their name.
-/

namespace TenantScript

/-- Why registering or invoking a function failed. -/
inductive HostError where
  | invalid (error : RecordError)
  | duplicateId (id : String)
  | duplicateName (name : Name)
  | unknownFunction (name : Name)
  /-- The body of a function failed. -/
  | failed (function : Name) (error : EvalError)
  deriving DecidableEq, Inhabited

namespace HostError

/-- The error in words. -/
def text : HostError → String
  | invalid error => s!"invalid function: {error.text}"
  | duplicateId id => s!"function id '{id}' is already registered"
  | duplicateName name => s!"function name '{name}' is already registered"
  | unknownFunction name => s!"unknown function '{name}'"
  | failed function error => s!"function '{function}' failed: {error.text}"

/-- The text of the error behind this one. -/
def source? : HostError → Option String
  | invalid error => some error.text
  | failed _ error => some error.text
  | _ => none

end HostError

/-- Functions by name, and the names of functions by id. -/
structure Registry where
  byName : SortedMap Name Function
  names : SortedMap String Name

namespace Registry

/-- The registry without functions. -/
def empty : Registry := ⟨.empty, .empty⟩

instance : Inhabited Registry := ⟨empty⟩

/-- Adds a function, of which neither the id nor the name may be in use; a used id is reported
before a used name. -/
def register (r : Registry) (f : Function) : Except HostError Registry :=
  if r.names.contains f.id then .error (.duplicateId f.id)
  else if r.byName.contains f.name then .error (.duplicateName f.name)
  else .ok ⟨r.byName.insert f.name f, r.names.insert f.id f.name⟩

/-- The function with a name. -/
def get? (r : Registry) (name : Name) : Option Function := r.byName.get? name

/-- The function with an id. -/
def getById? (r : Registry) (id : String) : Option Function := (r.names.get? id).bind r.get?

/-- Takes the function with a name away, which frees its id and its name. -/
def remove (r : Registry) (name : Name) : Registry :=
  match r.get? name with
  | some f => ⟨r.byName.erase name, r.names.erase f.id⟩
  | none => r

/-- The names in use, in order. -/
def sortedNames (r : Registry) : List Name := r.byName.keys

/-- The number of functions. -/
def size (r : Registry) : Nat := r.byName.size

/-- Whether there are no functions. -/
def isEmpty (r : Registry) : Bool := r.byName.isEmpty

end Registry

end TenantScript
