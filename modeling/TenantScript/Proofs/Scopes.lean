import TenantScript.Eval.Assign

/-!
Environments as stacks of scopes, the global scope being the last. Assigning to a name writes one
binding of one scope, after which the name has the value that was assigned.
-/

namespace TenantScript

namespace Environment

/-- The scopes, from the innermost to the global one. -/
def scopes (env : Environment) : List Scope := env.locals ++ [env.globals]

/-- The environment in which a name has been assigned: its innermost binding is overwritten, or
there is a new one in the innermost scope. -/
def assign (env : Environment) (name : Name) (v : Value) : Environment :=
  (env.set? name v).getD (env.define name v)

/-- Whether an environment is another one but for a binding of `name` in the scope at a level. -/
def BindsAt (env : Environment) (level : Nat) (name : Name) (v : Value) (env' : Environment) :
    Prop :=
  ∃ scope, env.scopes[level]? = some scope ∧
    env'.scopes = env.scopes.set level (scope.insert name v)

/-- Whether the innermost binding of a name is the one of the scope at a level. -/
structure InnermostAt (scopes : List Scope) (name : Name) (level : Nat) : Prop where
  bound : ∃ scope, scopes[level]? = some scope ∧ (scope.get? name).isSome
  inner : ∀ i < level, ∀ scope, scopes[i]? = some scope → scope.get? name = none

theorem InnermostAt.cons {scope : Scope} {outer : List Scope} {name : Name} {level : Nat}
    (h : InnermostAt outer name level) (hscope : scope.get? name = none) :
    InnermostAt (scope :: outer) name (level + 1) where
  bound := h.bound
  inner i hi inner hget := by
    cases i with
    | zero => cases hget; exact hscope
    | succ i => exact h.inner i (Nat.lt_of_succ_lt_succ hi) inner hget

/-- Overwriting in a stack writes the innermost binding. -/
theorem innermostAt_of_setLocal? {name : Name} {v : Value} : {scopes scopes' : List Scope} →
    setLocal? name v scopes = some scopes' → ∃ level scope, InnermostAt scopes name level ∧
      scopes[level]? = some scope ∧ scopes' = scopes.set level (scope.insert name v)
  | [], _, h => nomatch h
  | scope :: outer, scopes', h => by
    rw [setLocal?] at h
    cases ho : overwrite? scope name v with
    | some scope' =>
      rw [ho] at h
      cases h
      obtain ⟨hbound, rfl⟩ := overwrite?_eq_some_iff.1 ho
      exact ⟨0, scope, ⟨⟨scope, rfl, hbound⟩, fun i hi => absurd hi i.not_lt_zero⟩, rfl, rfl⟩
    | none =>
      rw [ho] at h
      obtain ⟨outer', ho', rfl⟩ := Option.map_eq_some_iff.1 h
      obtain ⟨level, inner, hinnermost, hlevel, rfl⟩ := innermostAt_of_setLocal? ho'
      exact ⟨level + 1, inner, hinnermost.cons (overwrite?_eq_none_iff.1 ho), hlevel, rfl⟩

theorem innermostAt_of_set? {env env' : Environment} {name : Name} {v : Value}
    (h : env.set? name v = some env') :
    ∃ level, InnermostAt env.scopes name level ∧ env.BindsAt level name v env' := by
  obtain ⟨level, scope, hinnermost, hlevel, hscopes⟩ :=
    innermostAt_of_setLocal? (set?_eq_some_iff.1 h)
  exact ⟨level, hinnermost, scope, hlevel, hscopes⟩

theorem bindsAt_define (env : Environment) (name : Name) (v : Value) :
    env.BindsAt 0 name v (env.define name v) := by
  rcases env with ⟨_ | ⟨scope, outer⟩, globals⟩
  · exact ⟨globals, rfl, rfl⟩
  · exact ⟨scope, rfl, rfl⟩

/-- Assigning to a name writes one binding of one scope. -/
theorem exists_bindsAt (env : Environment) (name : Name) (v : Value) :
    ∃ level, env.BindsAt level name v (env.assign name v) := by
  unfold assign
  cases hset : env.set? name v with
  | some env' =>
    obtain ⟨level, _, hbinds⟩ := innermostAt_of_set? hset
    exact ⟨level, hbinds⟩
  | none => exact ⟨0, env.bindsAt_define name v⟩

theorem lookup?_assign (env : Environment) (name other : Name) (v : Value) :
    (env.assign name v).lookup? other = if other = name then some v else env.lookup? other := by
  unfold assign
  cases hset : env.set? name v with
  | some env' => exact lookup?_of_set? other hset
  | none =>
    by_cases hn : other = name
    · subst hn
      rw [if_pos rfl]
      exact lookup?_define_self env other v
    · rw [if_neg hn]
      exact lookup?_define_ne env v hn

/-- The bindings of a name, from the innermost scope to the global one. -/
def bindings (env : Environment) (name : Name) : List (Option Value) :=
  env.scopes.map (SortedMap.get? · name)

/-- A scope that is replaced by one with the same binding of a name. -/
theorem map_get?_set {scopes : List Scope} {scope scope' : Scope} {name : Name} {level : Nat}
    (hscope : scopes[level]? = some scope) (hget : scope'.get? name = scope.get? name) :
    (scopes.set level scope').map (SortedMap.get? · name) =
      scopes.map (SortedMap.get? · name) := by
  obtain ⟨hlevel, rfl⟩ := List.getElem?_eq_some_iff.1 hscope
  rw [List.map_set, hget, ← List.getElem_map (SortedMap.get? · name), List.set_getElem_self]
  rwa [List.length_map]

/-- Other names are bound in each scope as before. -/
theorem bindings_assign (env : Environment) {name other : Name} (v : Value) (h : other ≠ name) :
    (env.assign name v).bindings other = env.bindings other := by
  obtain ⟨level, scope, hscope, hscopes⟩ := env.exists_bindsAt name v
  rw [bindings, hscopes]
  exact map_get?_set hscope (SortedMap.get?_insert_ne _ v h)

theorem find?_eq_of_map_get? {name : Name} : {scopes scopes' : List Scope} →
    scopes'.map (SortedMap.get? · name) = scopes.map (SortedMap.get? · name) →
      find? name scopes' = find? name scopes
  | [], [], _ => rfl
  | _ :: _, _ :: _, h => by
    obtain ⟨hscope, houter⟩ := List.cons.inj h
    rw [find?, find?, find?_eq_of_map_get? houter]
    exact congrArg (Option.or · _) hscope

theorem lookup?_eq_of_bindings {env env' : Environment} {name : Name}
    (h : env'.bindings name = env.bindings name) : env'.lookup? name = env.lookup? name :=
  find?_eq_of_map_get? h

theorem setLocal?_of_find? {name : Name} {v : Value} : {scopes : List Scope} →
    find? name scopes = some v → setLocal? name v scopes = some scopes
  | scope :: outer, h => by
    rw [find?] at h
    rw [setLocal?]
    cases hg : scope.get? name with
    | some w =>
      rw [hg] at h
      cases h
      rw [overwrite?_eq_some_iff.2 ⟨Option.isSome_of_mem hg, rfl⟩, SortedMap.insert_of_get? hg]
    | none =>
      rw [hg] at h
      rw [overwrite?_eq_none_iff.2 hg, setLocal?_of_find? h]
      rfl

/-- A name that is assigned what it means is bound as before. -/
theorem assign_of_lookup? {env : Environment} {name : Name} {v : Value}
    (h : env.lookup? name = some v) : env.assign name v = env := by
  rw [assign, set?_eq_some_iff.2 (setLocal?_of_find? h)]
  rfl

theorem exists_scope_of_find? {name : Name} {v : Value} : {scopes : List Scope} →
    find? name scopes = some v → ∃ scope ∈ scopes, scope.get? name = some v
  | scope :: outer, h => by
    rw [find?] at h
    cases hg : scope.get? name with
    | some w =>
      rw [hg] at h
      exact ⟨scope, List.mem_cons_self, h ▸ hg⟩
    | none =>
      rw [hg] at h
      obtain ⟨inner, hinner, hv⟩ := exists_scope_of_find? h
      exact ⟨inner, List.mem_cons_of_mem _ hinner, hv⟩

/-- What a name means is a binding of one of the scopes. -/
theorem exists_entry_of_lookup? {env : Environment} {name : Name} {v : Value}
    (h : env.lookup? name = some v) : ∃ scope ∈ env.scopes, (name, v) ∈ scope.entries := by
  obtain ⟨scope, hscope, hv⟩ := exists_scope_of_find? h
  exact ⟨scope, hscope, SortedMap.get?_eq_some_iff.1 hv⟩

/-- The entries after an assignment are those before it and the new one. -/
theorem mem_entries_assign {env : Environment} {name : Name} {v : Value} {scope : Scope}
    {e : Name × Value} (hscope : scope ∈ (env.assign name v).scopes) (he : e ∈ scope.entries) :
    e = (name, v) ∨ ∃ old ∈ env.scopes, e ∈ old.entries := by
  obtain ⟨level, old, hold, hscopes⟩ := env.exists_bindsAt name v
  rw [hscopes] at hscope
  rcases List.mem_or_eq_of_mem_set hscope with hmem | rfl
  · exact .inr ⟨scope, hmem, he⟩
  · rcases SortedMap.mem_place he with rfl | he
    · exact .inl rfl
    · exact .inr ⟨old, List.mem_of_getElem? hold, he⟩

end Environment

open TenantScript.Action in
/-- Assigning to a name fails if the name is qualified and unbound, and binds it otherwise. -/
theorem run_assignName (name : Name) (v : Value) (st : State) :
    (assignName name v).run st =
      if (st.env.lookup? name).isNone && Name.isQualified name then
        (.error (.ofCause (.undefinedSymbol name)), st)
      else (.ok v, { st with env := st.env.assign name v }) := by
  unfold assignName
  rw [run_bind, run_get]
  simp only
  cases hset : st.env.set? name v with
  | some env =>
    have hlook : (st.env.lookup? name).isNone = false := by
      cases hl : st.env.lookup? name with
      | none => rw [Environment.set?_eq_none_iff.2 hl] at hset; cases hset
      | some w => rfl
    rw [hlook, Environment.assign, hset]
    rfl
  | none =>
    rw [Environment.set?_eq_none_iff.1 hset, Environment.assign, hset]
    cases Name.isQualified name <;> rfl

end TenantScript
