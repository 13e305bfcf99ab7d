import TenantScript.Host.Invoke
import TenantScript.Proofs.Congruence
import TenantScript.Proofs.Scopes

/-!
Balanced scopes. Main statement: however a run ends, it leaves the scopes that there were when it
started, with all names that they bound; only the innermost one may bind further names, none of
which is qualified. A function invoked by a host binds no name in the globals.
-/

open TenantScript.Action

namespace TenantScript

namespace Environment

/-- Whether the scope at a level, of which the innermost is 0, binds a name. -/
def binds (env : Environment) (level : Nat) (name : Name) : Bool :=
  match env.scopes[level]? with
  | some scope => scope.contains name
  | none => false

/-- The scopes of `after` are those of `before`, apart from values and from further names in the
innermost one. -/
structure Balanced (before after : Environment) : Prop where
  depth : after.depth = before.depth
  kept : ∀ level name, before.binds level name = true → after.binds level name = true
  outer : ∀ level name, 0 < level → after.binds level name = true →
    before.binds level name = true
  fresh : ∀ name, after.binds 0 name = true →
    before.binds 0 name = true ∨ Name.isQualified name = false

namespace Balanced

variable {env env₁ env₂ : Environment}

theorem refl (env : Environment) : Balanced env env :=
  ⟨rfl, fun _ _ h => h, fun _ _ _ h => h, fun _ h => .inl h⟩

theorem trans (h₁ : Balanced env env₁) (h₂ : Balanced env₁ env₂) : Balanced env env₂ where
  depth := h₂.depth.trans h₁.depth
  kept level name h := h₂.kept level name (h₁.kept level name h)
  outer level name hlevel h := h₁.outer level name hlevel (h₂.outer level name hlevel h)
  fresh name h := by
    rcases h₂.fresh name h with h | h
    · exact h₁.fresh name h
    · exact .inr h

/-- Outer scopes bind the same names before and after. -/
theorem binds_eq (h : Balanced env env₁) {level : Nat} (hlevel : 0 < level) (name : Name) :
    env₁.binds level name = env.binds level name :=
  Bool.eq_iff_iff.2 ⟨h.outer level name hlevel, h.kept level name⟩

end Balanced

@[simp] theorem binds_push (env : Environment) (level : Nat) (name : Name) :
    env.push.binds (level + 1) name = env.binds level name := rfl

theorem binds_pop {env : Environment} (h : 0 < env.depth) (level : Nat) (name : Name) :
    env.pop.binds level name = env.binds (level + 1) name := by
  obtain ⟨_ | ⟨scope, outer⟩, globals⟩ := env
  · exact absurd h (Nat.lt_irrefl 0)
  · rfl

theorem binds_depth (env : Environment) (name : Name) :
    env.binds env.depth name = env.globals.contains name := by
  simp [binds, scopes, depth]

/-- A scope that is opened and closed again takes with it what was bound in it. -/
theorem Balanced.pop {env env' : Environment} (h : Balanced env.push env') :
    Balanced env env'.pop := by
  have hdepth : env'.depth = env.depth + 1 := h.depth
  have hbinds (level : Nat) (name : Name) : env'.pop.binds level name = env.binds level name := by
    rw [binds_pop (by omega), h.binds_eq (Nat.succ_pos level), binds_push]
  refine ⟨?_, fun level name hn => ?_, fun level name _ hn => ?_, fun name hn => .inl ?_⟩
  · exact List.length_tail.trans (Nat.sub_eq_of_eq_add hdepth)
  · rwa [hbinds]
  · rwa [hbinds] at hn
  · rwa [hbinds] at hn

theorem length_scopes (env : Environment) : env.scopes.length = env.depth + 1 := by
  simp [scopes, depth]

theorem BindsAt.binds_iff {env env' : Environment} {level : Nat} {name : Name} {v : Value}
    (h : env.BindsAt level name v env') (l : Nat) (n : Name) :
    env'.binds l n = true ↔ env.binds l n = true ∨ l = level ∧ n = name := by
  obtain ⟨scope, hscope, hscopes⟩ := h
  by_cases hl : l = level
  · subst hl
    have hlt : l < env.scopes.length := (List.getElem?_eq_some_iff.1 hscope).1
    have hnew : env'.scopes[l]? = some (scope.insert name v) := by
      rw [hscopes, List.getElem?_set_self hlt]
    rw [binds, binds, hnew, hscope]
    simp only [SortedMap.contains, SortedMap.get?_insert, true_and]
    by_cases hn : n = name <;> simp [hn]
  · rw [binds, binds, hscopes, List.getElem?_set_ne (Ne.symm hl)]
    simp [hl]

/-- Writing a binding of a scope that binds the name already, or an unqualified one of the innermost
scope. -/
theorem BindsAt.balanced {env env' : Environment} {level : Nat} {name : Name} {v : Value}
    (h : env.BindsAt level name v env')
    (hlevel : env.binds level name = true ∨ level = 0 ∧ Name.isQualified name = false) :
    Balanced env env' where
  depth := by
    obtain ⟨scope, -, hscopes⟩ := h
    have hlength := congrArg List.length hscopes
    rw [List.length_set, length_scopes, length_scopes] at hlength
    exact Nat.succ.inj hlength
  kept l n hn := (h.binds_iff l n).2 (.inl hn)
  outer l n hl hn := by
    rcases (h.binds_iff l n).1 hn with hn | ⟨rfl, rfl⟩
    · exact hn
    · rcases hlevel with hbound | ⟨rfl, -⟩
      · exact hbound
      · exact absurd hl (Nat.lt_irrefl 0)
  fresh n hn := by
    rcases (h.binds_iff 0 n).1 hn with hn | ⟨rfl, rfl⟩
    · exact .inl hn
    · exact hlevel.imp_right And.right

/-- Assigning to a name that is bound or unqualified. -/
theorem balanced_assign (env : Environment) (name : Name) (v : Value)
    (h : ((env.lookup? name).isNone && Name.isQualified name) = false) :
    Balanced env (env.assign name v) := by
  unfold assign
  cases hset : env.set? name v with
  | some env' =>
    obtain ⟨level, hinnermost, hbinds⟩ := innermostAt_of_set? hset
    obtain ⟨scope, hscope, hbound⟩ := hinnermost.bound
    refine hbinds.balanced (.inl ?_)
    rw [binds, hscope]
    exact hbound
  | none =>
    rw [set?_eq_none_iff.1 hset] at h
    exact (env.bindsAt_define name v).balanced (.inr ⟨rfl, h⟩)

end Environment

/-! ### Runs -/

/-- However a run of the first action ends, it leaves the scopes balanced. -/
def balancing : Congruence fun _ => True where
  Rel x _ := ∀ st : State, st.env.Balanced (x.run st).2.env
  pure _ st := .refl st.env
  fail _ st := .refl st.env
  bind {_ _ x _ _ _} hx hf st := by
    have hfirst := hx st
    rw [run_bind]
    rcases hr : x.run st with ⟨e | a, st₁⟩
    · rw [hr] at hfirst
      exact hfirst
    · rw [hr] at hfirst
      exact hfirst.trans (hf a st₁)
  within hx st := by
    rw [run_within]
    exact hx st
  inScope hx st := (hx { st with env := st.env.push }).pop
  onHeap _ st := .refl st.env
  lookup _ st := .refl st.env
  assignName {name} _ v st := by
    rw [run_assignName]
    split
    · exact .refl st.env
    · next h => exact st.env.balanced_assign name v (Bool.eq_false_iff.2 h)

theorem evaluateWithin_balancing (limit : Nat) : (room : Nat) → (e : Expr) →
    balancing.Rel (evaluateWithin limit room e) (evaluateWithin limit room e)
  | 0, _ => balancing.within fun st : State => .refl st.env
  | room + 1, e => by
    have hparts : balancing.Relates (evaluateWithin limit room) (evaluateWithin limit room)
        fun _ => True :=
      ⟨fun {e} _ => evaluateWithin_balancing limit room e, fun _ _ => trivial, fun _ => trivial⟩
    refine balancing.within fun st => ?_
    exact hparts.evaluateNode e (fun _ _ => trivial) (fun _ _ _ => trivial)
      { st with depth := st.depth + 1 }

theorem balancing_relates (limit : Nat) :
    balancing.Relates (evaluate limit) (evaluate limit) fun _ => True :=
  ⟨fun {e} _ st => evaluateWithin_balancing limit (limit - st.depth) e st, fun _ _ => trivial,
    fun _ => trivial⟩

theorem execBlock_balancing (limit : Nat) (body : List Stmt) :
    balancing.Rel (execBlock limit body) (execBlock limit body) :=
  balancing.bind ((balancing_relates limit).execStmts body (fun _ _ => trivial) .nil) fun flow =>
    balancing.pure flow.value

/-! ### Invocations -/

namespace Host

/-- A body starts in one local scope over the globals, which binds the names of the arguments. -/
theorem startEnvironment_eq (globals : Scope) (args : List (Name × Value)) :
    startEnvironment globals args =
      ⟨[args.foldl (fun scope a => scope.insert a.1 a.2) .empty], globals⟩ := by
  have hfold (own : Scope) : args.foldl (fun env a => env.define a.1 a.2) ⟨[own], globals⟩ =
      (⟨[args.foldl (fun scope a => scope.insert a.1 a.2) own], globals⟩ : Environment) := by
    induction args generalizing own with
    | nil => rfl
    | cons a args ih => exact ih _
  exact hfold .empty

/-- What an invocation of a registered function comes to. -/
theorem invoke_eq {host : Host} {call : Invocation} {f : Function}
    (hf : host.registry.get? call.function = some f) (shared : Shared) :
    host.invoke call shared =
      let after := (execBlock host.config.maxDepth f.body).run
        ⟨startEnvironment shared.globals call.args, shared.heap, 0⟩
      (after.1.mapError (.failed call.function), ⟨after.2.env.globals, after.2.heap⟩) := by
  unfold invoke
  rw [hf]

/-- What an invocation of a function that is not registered comes to. -/
theorem invoke_eq_unknown {host : Host} {call : Invocation}
    (hf : host.registry.get? call.function = none) (shared : Shared) :
    host.invoke call shared = (.error (.unknownFunction call.function), shared) := by
  unfold invoke
  rw [hf]

/-- An invocation binds no name in the globals, and takes none away. -/
theorem invoke_contains (host : Host) (call : Invocation) (shared : Shared) (name : Name) :
    (host.invoke call shared).2.globals.contains name = shared.globals.contains name := by
  cases hf : host.registry.get? call.function with
  | none => rw [invoke_eq_unknown hf]
  | some f =>
    have hbalanced := execBlock_balancing host.config.maxDepth f.body
      ⟨startEnvironment shared.globals call.args, shared.heap, 0⟩
    rw [invoke_eq hf]
    rw [startEnvironment_eq] at hbalanced ⊢
    have hname := hbalanced.binds_eq Nat.one_pos name
    have hdepth := hbalanced.depth
    simp only
    rw [← Environment.binds_depth, hdepth]
    exact hname

end Host

/-! ### Main statement -/

/-- However an expression, an assignment or a block ends, it leaves the scopes balanced, and an
invocation leaves the globals with the names that they bound. -/
theorem scopes_balanced (limit : Nat) (st : State) :
    (∀ e, st.env.Balanced ((evaluate limit e).run st).2.env) ∧
      (∀ t v, st.env.Balanced ((assign (evaluate limit) t v).run st).2.env) ∧
        (∀ body, st.env.Balanced ((execBlock limit body).run st).2.env) ∧
          ∀ (host : Host) (call : Invocation) (shared : Shared) (name : Name),
            (host.invoke call shared).2.globals.contains name = shared.globals.contains name :=
  ⟨fun _ => (balancing_relates limit).rel trivial st,
    fun t v => (balancing_relates limit).assign t v trivial st,
    fun body => execBlock_balancing limit body st, Host.invoke_contains⟩

end TenantScript
