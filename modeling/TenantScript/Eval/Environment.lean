import TenantScript.Data.SortedMap
import TenantScript.Value.Basic

/-!
Environments: a stack of local scopes over one global scope. A name means its innermost binding.
-/

namespace TenantScript

/-- The bindings of one scope. -/
abbrev Scope := SortedMap Name Value

/-- Local scopes, the innermost first, over a global scope. -/
structure Environment where
  locals : List Scope
  globals : Scope
  deriving DecidableEq

namespace Environment

/-- The environment with no local scope and no binding. -/
def empty : Environment := ⟨[], .empty⟩

instance : Inhabited Environment := ⟨empty⟩

/-- The number of local scopes. -/
def depth (env : Environment) : Nat := env.locals.length

/-- Opens a local scope. -/
def push (env : Environment) : Environment := { env with locals := .empty :: env.locals }

/-- Closes the innermost local scope; the global scope stays. -/
def pop (env : Environment) : Environment := { env with locals := env.locals.tail }

/-- Binds a name in the innermost scope. -/
def define (env : Environment) (name : Name) (v : Value) : Environment :=
  match env.locals with
  | [] => { env with globals := env.globals.insert name v }
  | scope :: outer => { env with locals := scope.insert name v :: outer }

/-- The innermost binding of a name among scopes. -/
def find? (name : Name) : List Scope → Option Value
  | [] => none
  | scope :: outer => (scope.get? name).or (find? name outer)

/-- What a name means. -/
def lookup? (env : Environment) (name : Name) : Option Value :=
  find? name (env.locals ++ [env.globals])

/-- Overwrites the binding of a name in a scope that has one. -/
def overwrite? (scope : Scope) (name : Name) (v : Value) : Option Scope :=
  if scope.contains name then some (scope.insert name v) else none

/-- Overwrites the innermost binding of a name among scopes, if there is one. -/
def setLocal? (name : Name) (v : Value) : List Scope → Option (List Scope)
  | [] => none
  | scope :: outer =>
    match overwrite? scope name v with
    | some scope' => some (scope' :: outer)
    | none => (setLocal? name v outer).map (scope :: ·)

/-- Overwrites the innermost binding of a name, if there is one. -/
def set? (env : Environment) (name : Name) (v : Value) : Option Environment :=
  match setLocal? name v env.locals with
  | some locals => some { env with locals }
  | none => (overwrite? env.globals name v).map fun globals => { env with globals }

theorem lookup?_define_self (env : Environment) (name : Name) (v : Value) :
    (env.define name v).lookup? name = some v := by
  rcases env with ⟨_ | ⟨scope, outer⟩, globals⟩ <;> simp [define, lookup?, find?]

theorem lookup?_define_ne (env : Environment) {name other : Name} (v : Value)
    (h : other ≠ name) : (env.define name v).lookup? other = env.lookup? other := by
  rcases env with ⟨_ | ⟨scope, outer⟩, globals⟩ <;>
    simp [define, lookup?, find?, SortedMap.get?_insert_ne _ v h]

theorem overwrite?_eq_some_iff {scope scope' : Scope} {name : Name} {v : Value} :
    overwrite? scope name v = some scope' ↔
      (scope.get? name).isSome ∧ scope' = scope.insert name v := by
  cases h : scope.get? name <;> simp [overwrite?, SortedMap.contains, h, eq_comm]

theorem overwrite?_eq_none_iff {scope : Scope} {name : Name} {v : Value} :
    overwrite? scope name v = none ↔ scope.get? name = none := by
  cases h : scope.get? name <;> simp [overwrite?, SortedMap.contains, h]

/-- Overwriting in a stack is overwriting in the innermost scope that binds the name. -/
theorem setLocal?_append (name : Name) (v : Value) (globals : Scope) : (locals : List Scope) →
    setLocal? name v (locals ++ [globals]) =
      match setLocal? name v locals with
      | some locals' => some (locals' ++ [globals])
      | none => (overwrite? globals name v).map fun globals' => locals ++ [globals']
  | [] => by
    cases h : overwrite? globals name v <;> simp [setLocal?, h]
  | scope :: outer => by
    cases h : overwrite? scope name v
    · have ih := setLocal?_append name v globals outer
      cases h' : setLocal? name v outer <;> rw [h'] at ih <;>
        cases h'' : overwrite? globals name v <;> simp_all [setLocal?]
    · simp [setLocal?, h]

theorem setLocal?_eq_none_iff {name : Name} {v : Value} : (scopes : List Scope) →
    (setLocal? name v scopes = none ↔ find? name scopes = none)
  | [] => by simp [setLocal?, find?]
  | scope :: outer => by
    rw [setLocal?, find?]
    cases h : overwrite? scope name v with
    | none => simp [overwrite?_eq_none_iff.1 h, setLocal?_eq_none_iff outer]
    | some scope' =>
      have := (overwrite?_eq_some_iff.1 h).1
      cases h' : scope.get? name <;> simp_all

theorem find?_of_setLocal? {name : Name} {v : Value} (other : Name) :
    {scopes scopes' : List Scope} → setLocal? name v scopes = some scopes' →
      find? other scopes' = if other = name then some v else find? other scopes
  | [], _, h => by simp [setLocal?] at h
  | scope :: outer, scopes', h => by
    rw [setLocal?] at h
    cases ho : overwrite? scope name v with
    | some scope' =>
      rw [ho] at h
      cases h
      obtain ⟨_, rfl⟩ := overwrite?_eq_some_iff.1 ho
      by_cases hn : other = name
      · subst hn; simp [find?]
      · simp [find?, SortedMap.get?_insert_ne _ v hn, hn]
    | none =>
      rw [ho] at h
      obtain ⟨outer', ho', rfl⟩ := Option.map_eq_some_iff.1 h
      have hnone := overwrite?_eq_none_iff.1 ho
      rw [find?, find?_of_setLocal? other ho', find?]
      by_cases hn : other = name
      · subst hn; simp [hnone]
      · simp [hn]

/-- Assigning to a name is assigning in the stack of all scopes, the global one included. -/
theorem set?_eq_some_iff {env env' : Environment} {name : Name} {v : Value} :
    env.set? name v = some env' ↔
      setLocal? name v (env.locals ++ [env.globals]) = some (env'.locals ++ [env'.globals]) := by
  rw [setLocal?_append, set?]
  rcases env' with ⟨locals', globals'⟩
  cases h : setLocal? name v env.locals with
  | some locals => simp
  | none => cases overwrite? env.globals name v <;> simp

/-- A name can be assigned if and only if it is bound. -/
theorem set?_eq_none_iff {env : Environment} {name : Name} {v : Value} :
    env.set? name v = none ↔ env.lookup? name = none := by
  rw [lookup?, ← setLocal?_eq_none_iff (v := v) _, setLocal?_append, set?]
  cases setLocal? name v env.locals <;> simp

theorem lookup?_of_set? {env env' : Environment} {name : Name} {v : Value} (other : Name)
    (h : env.set? name v = some env') :
    env'.lookup? other = if other = name then some v else env.lookup? other :=
  find?_of_setLocal? other (set?_eq_some_iff.1 h)

end Environment

end TenantScript
