import TenantScript.Syntax.Stmt

/-!
Functions: named blocks with an identity. A record has to keep the rules for ids and names, which
are counted and checked on the bytes of their UTF-8 form.
-/

namespace TenantScript

/-- The number of bytes of a function id. -/
def idLength : Nat := 20

/-- The least number of bytes of a function name. -/
def nameMin : Nat := 2

/-- The greatest number of bytes of a function name. -/
def nameMax : Nat := 32

/-- Whether a byte is an ASCII letter or digit. -/
def isAlphanumericByte (b : UInt8) : Bool :=
  (48 ≤ b && b ≤ 57) || (65 ≤ b && b ≤ 90) || (97 ≤ b && b ≤ 122)

/-- Whether a text has from `least` to `most` bytes, all of them ASCII letters or digits. -/
def isAlphanumeric (s : String) (least most : Nat) : Bool :=
  let bytes := s.toUTF8
  least ≤ bytes.size && bytes.size ≤ most && bytes.data.all isAlphanumericByte

/-- Why a function record is refused. -/
inductive RecordError where
  | invalidId (id : String)
  | invalidName (name : String)
  | emptyBody
  deriving DecidableEq, Inhabited

/-- The rule that is broken, in words. -/
def RecordError.text : RecordError → String
  | invalidId id => s!"id '{id}' must be {idLength} letters or digits"
  | invalidName name => s!"name '{name}' must be {nameMin} to {nameMax} letters or digits"
  | emptyBody => "function body is empty"

/-- A function: whether the public interface offers it, under which user it runs if not under the
caller's, and its body. -/
structure Function where
  id : String
  name : Name
  api : Bool
  runAs? : Option String
  body : List Stmt
  deriving DecidableEq, Inhabited

namespace Function

/-- The function of a record that keeps the rules, of which the first broken one is reported. -/
def create (id : String) (name : Name) (body : List Stmt) : Except RecordError Function :=
  if !isAlphanumeric id idLength idLength then .error (.invalidId id)
  else if !isAlphanumeric name nameMin nameMax then .error (.invalidName name)
  else if body.isEmpty then .error .emptyBody
  else .ok ⟨id, name, false, none, body⟩

/-- The function, offered by the public interface or not. -/
def withApi (f : Function) (api : Bool) : Function := { f with api }

/-- The function, run under `user`; the empty name stands for the caller. -/
def withRunAs (f : Function) (user : String) : Function :=
  { f with runAs? := if user.isEmpty then none else some user }

end Function

end TenantScript
