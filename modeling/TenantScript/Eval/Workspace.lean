import TenantScript.Eval.Environment

/-!
Several environments side by side, some of them over one global scope. An environment is taken out
of the workspace to work in it and put back afterwards; what it wrote to its global scope is then
seen from every environment over that scope, and its local scopes are its own.
-/

namespace TenantScript

/-- An environment in a workspace: its local scopes, and which global scope it stands on. -/
structure Seat where
  locals : List Scope
  base : Nat
  deriving DecidableEq, Inhabited

/-- Global scopes, and environments over them by name. -/
structure Workspace where
  bases : List Scope
  seats : SortedMap String Seat
  deriving DecidableEq

namespace Workspace

/-- The workspace without environments. -/
def empty : Workspace := ⟨[], .empty⟩

instance : Inhabited Workspace := ⟨empty⟩

/-- The global scope number `base`. -/
def globals (w : Workspace) (base : Nat) : Scope := w.bases.getD base .empty

/-- Writes a global scope. -/
def setGlobals (w : Workspace) (base : Nat) (scope : Scope) : Workspace :=
  { w with bases := w.bases.set base scope }

/-- Adds a global scope without bindings; its number comes first. -/
def addGlobals (w : Workspace) : Nat × Workspace :=
  (w.bases.length, { w with bases := w.bases ++ [.empty] })

/-- Adds an environment over a global scope of its own. -/
def openOver (w : Workspace) (name : String) (scope : Scope) : Workspace :=
  ⟨w.bases ++ [scope], w.seats.insert name ⟨[], w.bases.length⟩⟩

/-- Adds an environment over the global scope number `base`. -/
def openOn (w : Workspace) (name : String) (base : Nat) : Workspace :=
  { w with seats := w.seats.insert name ⟨[], base⟩ }

/-- The environment with a name. -/
def environment? (w : Workspace) (name : String) : Option Environment :=
  (w.seats.get? name).map fun seat => ⟨seat.locals, w.globals seat.base⟩

/-- Puts an environment back under the name that it was taken from. -/
def putBack (w : Workspace) (name : String) (env : Environment) : Workspace :=
  match w.seats.get? name with
  | some seat =>
    ⟨w.bases.set seat.base env.globals, w.seats.insert name { seat with locals := env.locals }⟩
  | none => w

/-- The global scope on which the environment with a name stands. -/
def base? (w : Workspace) (name : String) : Option Nat := (w.seats.get? name).map (·.base)

end Workspace

end TenantScript
