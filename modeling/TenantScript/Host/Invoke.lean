import TenantScript.Eval.Block
import TenantScript.Host.Registry

/-!
Hosts: a registry of functions, the limits that they run under, and the invocation of functions
over global bindings and a heap that all invocations share. Arguments and other local names of an
invocation are its own.
-/

namespace TenantScript

/-- The limits of a host. Without a number of threads the host chooses one. -/
structure HostConfig where
  threads : Nat
  maxDepth : Nat
  deriving DecidableEq

/-- The limits of a host that is given none. -/
def HostConfig.default : HostConfig := ⟨0, defaultMaxDepth⟩

instance : Inhabited HostConfig := ⟨.default⟩

/-- A host. -/
structure Host where
  config : HostConfig
  registry : Registry
  deriving Inhabited

/-- What invocations share: the global bindings and the heap. -/
structure Shared where
  globals : Scope
  heap : Heap
  deriving DecidableEq, Inhabited

/-- A call of a function by name, with its arguments in order. -/
structure Invocation where
  function : Name
  args : List (Name × Value)
  deriving DecidableEq, Inhabited

namespace Host

/-- The environment in which a body starts: one local scope, with the arguments. -/
def startEnvironment (globals : Scope) (args : List (Name × Value)) : Environment :=
  args.foldl (fun env a => env.define a.1 a.2) (Environment.mk [] globals).push

/-- Runs the named function. -/
def invoke (host : Host) (call : Invocation) (shared : Shared) :
    Except HostError Value × Shared :=
  match host.registry.get? call.function with
  | none => (.error (.unknownFunction call.function), shared)
  | some f =>
    let start : State := ⟨startEnvironment shared.globals call.args, shared.heap, 0⟩
    let (result, st) := (execBlock host.config.maxDepth f.body).run start
    (result.mapError (.failed call.function), ⟨st.env.globals, st.heap⟩)

/-- Runs calls one after another. -/
def invokeAll (host : Host) : List Invocation → Shared → List (Except HostError Value) × Shared
  | [], shared => ([], shared)
  | call :: calls, shared =>
    let (result, shared) := host.invoke call shared
    let (results, shared) := host.invokeAll calls shared
    (result :: results, shared)

end Host

end TenantScript
