import TenantScript.Proofs.Scopes

/-!
Scopes that differ in one binding, that of a name whose value is behind an interface in the one and
not in the other. An assignment to the name makes them the same; all other assignments, and local
scopes that are opened and closed, leave the difference as it is.
-/

namespace TenantScript

/-- Whether scopes are the same or the innermost binding of `x` is `interface c` in the first ones
and `c` in the second ones. -/
inductive Strips (x : Name) (c : Value) : List Scope → List Scope → Prop
  | same {scopes : List Scope} : Strips x c scopes scopes
  | here {scope : Scope} {outer : List Scope} (h : scope.get? x = some (.interface c)) :
      Strips x c (scope :: outer) (scope.insert x c :: outer)
  | there {scope : Scope} {outer outer' : List Scope} (h : scope.get? x = none)
      (houter : Strips x c outer outer') : Strips x c (scope :: outer) (scope :: outer')

namespace Strips

open Environment

variable {x name : Name} {c v : Value} {scopes scopes' : List Scope}

theorem of_find? : {scopes : List Scope} → find? x scopes = some (.interface c) →
    ∃ scopes', setLocal? x c scopes = some scopes' ∧ Strips x c scopes scopes'
  | scope :: outer, h => by
    rw [find?] at h
    rw [setLocal?]
    cases hg : scope.get? x with
    | some w =>
      rw [hg] at h
      cases h
      rw [overwrite?_eq_some_iff.2 ⟨Option.isSome_of_mem hg, rfl⟩]
      exact ⟨_, rfl, .here hg⟩
    | none =>
      rw [hg] at h
      obtain ⟨outer', houter, hstrips⟩ := of_find? h
      rw [overwrite?_eq_none_iff.2 hg, houter]
      exact ⟨_, rfl, .there hg hstrips⟩

/-- Other names are bound alike in each scope. -/
theorem map_get? (h : Strips x c scopes scopes') (hname : name ≠ x) :
    scopes'.map (SortedMap.get? · name) = scopes.map (SortedMap.get? · name) := by
  induction h with
  | same => rfl
  | here => rw [List.map_cons, List.map_cons, SortedMap.get?_insert_ne _ c hname]
  | there _ _ ih => rw [List.map_cons, List.map_cons, ih]

/-- The name itself means the same, or it is bound as it was. -/
theorem eq_or_find? (h : Strips x c scopes scopes') :
    scopes' = scopes ∨ find? x scopes = some (.interface c) ∧ find? x scopes' = some c := by
  induction h with
  | same => exact .inl rfl
  | here h =>
    refine .inr ⟨?_, ?_⟩
    · rw [find?, h]
      rfl
    · rw [find?, SortedMap.get?_insert_self]
      rfl
  | there h _ ih =>
    rcases ih with rfl | ⟨hfind, hfind'⟩
    · exact .inl rfl
    · refine .inr ⟨?_, ?_⟩ <;> rw [find?, h] <;> assumption

theorem isNone_find? (h : Strips x c scopes scopes') :
    (find? name scopes').isNone = (find? name scopes).isNone := by
  by_cases hname : name = x
  · subst hname
    rcases h.eq_or_find? with rfl | ⟨hfind, hfind'⟩
    · rfl
    · rw [hfind, hfind']
      rfl
  · rw [find?_eq_of_map_get? (h.map_get? hname)]

/-- An assignment to the name makes the scopes the same. -/
theorem setLocal?_self (h : Strips x c scopes scopes') :
    setLocal? x v scopes' = setLocal? x v scopes := by
  induction h with
  | same => rfl
  | @here scope outer h =>
    have hbound : ((scope.insert x c).get? x).isSome := by
      rw [SortedMap.get?_insert_self]
      rfl
    rw [setLocal?, setLocal?, overwrite?_eq_some_iff.2 ⟨hbound, rfl⟩,
      overwrite?_eq_some_iff.2 ⟨Option.isSome_of_mem h, rfl⟩, SortedMap.insert_insert]
  | there h _ ih => rw [setLocal?, setLocal?, overwrite?_eq_none_iff.2 h, ih]

/-- An assignment to another name that is bound leaves the difference. -/
theorem setLocal?_ne (h : Strips x c scopes scopes') (hname : name ≠ x) {set : List Scope}
    (hset : setLocal? name v scopes = some set) :
    ∃ set', setLocal? name v scopes' = some set' ∧ Strips x c set set' := by
  induction h generalizing set with
  | same => exact ⟨set, hset, .same⟩
  | @here scope outer h =>
    have hget : (scope.insert x c).get? name = scope.get? name :=
      SortedMap.get?_insert_ne _ c hname
    rw [setLocal?] at hset ⊢
    cases hbound : scope.get? name with
    | some w =>
      rw [overwrite?_eq_some_iff.2 ⟨Option.isSome_of_mem hbound, rfl⟩] at hset
      cases hset
      rw [overwrite?_eq_some_iff.2 ⟨Option.isSome_of_mem (hget.trans hbound), rfl⟩,
        SortedMap.insert_comm _ _ _ hname.symm]
      refine ⟨_, rfl, .here ?_⟩
      rw [SortedMap.get?_insert_ne _ v hname.symm, h]
    | none =>
      rw [overwrite?_eq_none_iff.2 hbound] at hset
      obtain ⟨set, houter, rfl⟩ := Option.map_eq_some_iff.1 hset
      rw [overwrite?_eq_none_iff.2 (hget.trans hbound), houter]
      exact ⟨_, rfl, .here h⟩
  | @there scope outer outer' h _ ih =>
    rw [setLocal?] at hset ⊢
    cases hover : overwrite? scope name v with
    | some scope' =>
      rw [hover] at hset
      cases hset
      obtain ⟨-, rfl⟩ := overwrite?_eq_some_iff.1 hover
      refine ⟨_, rfl, .there ?_ ‹_›⟩
      rw [SortedMap.get?_insert_ne _ v hname.symm, h]
    | none =>
      rw [hover] at hset
      obtain ⟨set, houter, rfl⟩ := Option.map_eq_some_iff.1 hset
      obtain ⟨set', houter', hstrips⟩ := ih houter
      rw [houter']
      exact ⟨_, rfl, .there h hstrips⟩

/-- So does a new binding of another name. -/
theorem modifyHead (h : Strips x c scopes scopes') (hname : name ≠ x) (v : Value) :
    Strips x c (scopes.modifyHead (SortedMap.insert · name v))
      (scopes'.modifyHead (SortedMap.insert · name v)) := by
  cases h with
  | same => exact .same
  | here h =>
    rw [List.modifyHead_cons, List.modifyHead_cons, SortedMap.insert_comm _ _ _ hname.symm]
    exact .here (by rw [SortedMap.get?_insert_ne _ v hname.symm, h])
  | there h houter =>
    exact .there (by rw [SortedMap.get?_insert_ne _ v hname.symm, h]) houter

theorem length_eq (h : Strips x c scopes scopes') : scopes'.length = scopes.length := by
  induction h with
  | same => rfl
  | here => rfl
  | there _ _ ih => rw [List.length_cons, List.length_cons, ih]

theorem tail (h : Strips x c scopes scopes') : Strips x c scopes.tail scopes'.tail := by
  cases h with
  | same => exact .same
  | here => exact .same
  | there _ houter => exact houter

end Strips

namespace Environment

variable {x name : Name} {c v : Value} {env env' : Environment}

theorem scopes_assign (env : Environment) (name : Name) (v : Value) :
    (env.assign name v).scopes = (setLocal? name v env.scopes).getD
      (env.scopes.modifyHead (SortedMap.insert · name v)) := by
  unfold assign
  cases hset : env.set? name v with
  | some env' =>
    rw [scopes, scopes, set?_eq_some_iff.1 hset]
    rfl
  | none =>
    have hfind : find? name env.scopes = none := set?_eq_none_iff.1 hset
    rw [(setLocal?_eq_none_iff env.scopes).2 hfind]
    rcases env with ⟨_ | ⟨scope, outer⟩, globals⟩ <;> rfl

theorem eq_of_scopes (h : env'.scopes = env.scopes) : env' = env := by
  obtain ⟨hlocals, hglobals⟩ := List.append_inj' h rfl
  cases env
  cases env'
  cases hlocals
  cases hglobals
  rfl

theorem strips_assign (h : Strips x c env.scopes env'.scopes) (name : Name) (v : Value) :
    Strips x c (env.assign name v).scopes (env'.assign name v).scopes := by
  rw [scopes_assign, scopes_assign]
  by_cases hname : name = x
  · subst hname
    rw [h.setLocal?_self]
    rcases h.eq_or_find? with hsame | ⟨hfind, -⟩
    · rw [hsame]
      exact .same
    · cases hset : setLocal? name v env.scopes with
      | some set => exact .same
      | none =>
        rw [(setLocal?_eq_none_iff _).1 hset] at hfind
        cases hfind
  · cases hset : setLocal? name v env.scopes with
    | some set =>
      obtain ⟨set', hset', hstrips⟩ := h.setLocal?_ne hname hset
      rw [hset']
      exact hstrips
    | none =>
      have hnone : setLocal? name v env'.scopes = none := by
        have hfind := (setLocal?_eq_none_iff _).1 hset
        rw [setLocal?_eq_none_iff, find?_eq_of_map_get? (h.map_get? hname), hfind]
      rw [hnone]
      exact h.modifyHead hname v

theorem strips_push (h : Strips x c env.scopes env'.scopes) :
    Strips x c env.push.scopes env'.push.scopes := .there rfl h

theorem strips_pop (h : Strips x c env.scopes env'.scopes) :
    Strips x c env.pop.scopes env'.pop.scopes := by
  have hlength := h.length_eq
  rcases env with ⟨_ | ⟨scope, outer⟩, globals⟩ <;>
    rcases env' with ⟨_ | ⟨scope', outer'⟩, globals'⟩
  · exact h
  · simp [scopes] at hlength
  · simp [scopes] at hlength
  · exact h.tail

end Environment

end TenantScript
