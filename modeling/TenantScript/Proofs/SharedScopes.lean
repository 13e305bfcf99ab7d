import TenantScript.Eval.Workspace
import TenantScript.Proofs.Scopes

/-!
Environments over one global scope, and the calls that they serve. A call writes at most one binding
of one scope: in a local scope no other environment sees it, and in the global scope all of them do.
While a scope that binds a name is open, its environment leaves the bindings further out alone.
-/

namespace TenantScript

/-- What an environment can be called for. -/
inductive ScopeCall where
  | push
  | pop
  | define (name : Name) (v : Value)
  | set (name : Name) (v : Value)
  | lookup (name : Name)
  deriving DecidableEq

/-- What a call answers: nothing, whether there was a binding to overwrite, or what was found. -/
inductive ScopeAnswer where
  | done
  | overwritten (bound : Bool)
  | found (v : Option Value)
  deriving DecidableEq

namespace Environment

/-- Serves a call. An assignment to an unbound name leaves the environment as it is. -/
def serve (env : Environment) : ScopeCall → ScopeAnswer × Environment
  | .push => (.done, env.push)
  | .pop => (.done, env.pop)
  | .define name v => (.done, env.define name v)
  | .set name v =>
    match env.set? name v with
    | some env' => (.overwritten true, env')
    | none => (.overwritten false, env)
  | .lookup name => (.found (env.lookup? name), env)

variable {env env' : Environment} {name other : Name} {level d : Nat} {u v : Value}

/-! ### The binding that is written -/

theorem exists_set?_of_lookup? (v : Value) (h : env.lookup? name = some u) :
    ∃ env', env.set? name v = some env' := by
  refine Option.ne_none_iff_exists'.1 fun hset => ?_
  rw [set?_eq_none_iff.1 hset] at h
  cases h

/-- A binding in the global scope. -/
theorem bindsAt_depth (env : Environment) (name : Name) (v : Value) :
    env.BindsAt env.depth name v { env with globals := env.globals.insert name v } :=
  ⟨env.globals, by simp [scopes, depth], by simp [scopes, depth]⟩

theorem BindsAt.level_le (h : env.BindsAt level name v env') : level ≤ env.depth := by
  obtain ⟨scope, hscope, _⟩ := h
  have hlt := (List.getElem?_eq_some_iff.1 hscope).1
  rw [scopes, List.length_append, List.length_singleton] at hlt
  exact Nat.le_of_lt_succ hlt

/-- A binding in a local scope leaves the global scope as it is. -/
theorem BindsAt.of_lt_depth (h : env.BindsAt level name v env') (hlevel : level < env.depth) :
    ∃ scope, env.locals[level]? = some scope ∧
      env' = { env with locals := env.locals.set level (scope.insert name v) } := by
  obtain ⟨scope, hscope, hscopes⟩ := h
  rw [scopes, List.getElem?_append_left hlevel] at hscope
  rw [scopes, scopes, List.set_append_left _ _ hlevel] at hscopes
  obtain ⟨hlocals, hglobals⟩ := List.append_inj' hscopes rfl
  refine ⟨scope, hscope, ?_⟩
  rcases env' with ⟨locals', globals'⟩
  cases hlocals
  cases hglobals
  rfl

/-- A binding at the level below the local scopes is one in the global scope. -/
theorem BindsAt.of_depth (h : env.BindsAt env.depth name v env') :
    env' = { env with globals := env.globals.insert name v } := by
  obtain ⟨scope, hscope, hscopes⟩ := h
  obtain ⟨_, hscope', hscopes'⟩ := env.bindsAt_depth name v
  cases hscope.symm.trans hscope'
  obtain ⟨hlocals, hglobals⟩ := List.append_inj' (hscopes.trans hscopes'.symm) rfl
  rcases env' with ⟨locals', globals'⟩
  cases hlocals
  cases hglobals
  rfl

/-! ### Shadowed bindings -/

/-- Whether the local scope at a level binds a name, so that the bindings further out are not
seen. -/
def Shadows (env : Environment) (d : Nat) (name : Name) : Prop :=
  ∃ scope, env.locals[d]? = some scope ∧ (scope.get? name).isSome

/-- The bindings of a name in the local scopes that are further out than a level. -/
def further (env : Environment) (d : Nat) (name : Name) : List (Option Value) :=
  (env.locals.drop (d + 1)).map (SortedMap.get? · name)

/-- Whether `env'` shadows a name at the level `d'` as `env` does at `d`, over the same local
bindings. -/
structure Keeps (name : Name) (d : Nat) (env : Environment) (d' : Nat) (env' : Environment) :
    Prop where
  shadows : env'.Shadows d' name
  further : env'.further d' name = env.further d name

theorem Keeps.trans {d₁ d₂ d₃ : Nat} {env₁ env₂ env₃ : Environment}
    (h : Keeps name d₁ env₁ d₂ env₂) (h' : Keeps name d₂ env₂ d₃ env₃) :
    Keeps name d₁ env₁ d₃ env₃ :=
  ⟨h'.shadows, h'.further.trans h.further⟩

theorem Shadows.lt_depth (h : env.Shadows d name) : d < env.depth := by
  obtain ⟨scope, hscope, _⟩ := h
  exact (List.getElem?_eq_some_iff.1 hscope).1

/-- The innermost binding is not further out than a scope that binds the name. -/
theorem Shadows.level_le (h : env.Shadows d name) (hlevel : InnermostAt env.scopes name level) :
    level ≤ d := by
  obtain ⟨scope, hscope, hbound⟩ := h
  refine Nat.le_of_not_lt fun hlt => ?_
  have hscopes : env.scopes[d]? = some scope := by
    rw [scopes, List.getElem?_append_left (List.getElem?_eq_some_iff.1 hscope).1, hscope]
  rw [hlevel.inner d hlt scope hscopes] at hbound
  cases hbound

/-- A binding of another name, or of the name itself not further out than where it is shadowed,
leaves what is shadowed. -/
theorem Shadows.write (h : env.Shadows d name) (hb : env.BindsAt level other v env')
    (hlevel : other = name → level ≤ d) : Keeps name d env d env' := by
  obtain ⟨scope, hscope, hbound⟩ := h
  rcases Nat.lt_or_eq_of_le hb.level_le with hlt | rfl
  · obtain ⟨written, hwritten, rfl⟩ := hb.of_lt_depth hlt
    refine ⟨?_, ?_⟩
    · by_cases hld : level = d
      · subst hld
        cases hscope.symm.trans hwritten
        refine ⟨scope.insert other v, List.getElem?_set_self hlt, ?_⟩
        rw [SortedMap.get?_insert]
        split
        · rfl
        · exact hbound
      · exact ⟨scope, (List.getElem?_set_ne hld).trans hscope, hbound⟩
    · by_cases hle : level ≤ d
      · simp only [further]
        rw [List.drop_set_of_lt (by omega)]
      · have hne : name ≠ other := fun hn => hle (hlevel hn.symm)
        simp only [further]
        rw [List.map_drop, List.map_drop, map_get?_set hwritten (SortedMap.get?_insert_ne _ v hne)]
  · rw [hb.of_depth]
    exact ⟨⟨scope, hscope, hbound⟩, rfl⟩

theorem Shadows.push (h : env.Shadows d name) : Keeps name d env (d + 1) env.push := ⟨h, rfl⟩

theorem Shadows.pop (h : env.Shadows (d + 1) name) : Keeps name (d + 1) env d env.pop := by
  rcases env with ⟨_ | ⟨scope, outer⟩, globals⟩
  · exact absurd h.lt_depth (Nat.not_lt_zero _)
  · exact ⟨h, rfl⟩

/-- A call that opens and closes no scope leaves what is shadowed. -/
theorem Shadows.serve {call : ScopeCall} (h : env.Shadows d name) (hpush : call ≠ .push)
    (hpop : call ≠ .pop) : Keeps name d env d (env.serve call).2 := by
  cases call with
  | push => exact absurd rfl hpush
  | pop => exact absurd rfl hpop
  | lookup other => exact ⟨h, rfl⟩
  | define other v => exact h.write (env.bindsAt_define other v) fun _ => Nat.zero_le d
  | set other v =>
    rw [Environment.serve]
    cases hset : env.set? other v with
    | none => exact ⟨h, rfl⟩
    | some env' =>
      obtain ⟨level, hinnermost, hb⟩ := innermostAt_of_set? hset
      exact h.write hb fun hn => h.level_le (hn ▸ hinnermost)

end Environment

namespace Workspace

/-- Environments without local scopes over one global scope. -/
def sharing (globals : Scope) (names : List String) : Workspace :=
  names.foldl (fun w name => w.openOn name 0) ⟨[globals], .empty⟩

/-- Serves a call to the environment with a name, if there is one: it is taken out of the workspace
and put back afterwards. -/
def serve (w : Workspace) (who : String) (call : ScopeCall) : Option ScopeAnswer × Workspace :=
  match w.environment? who with
  | some env => (some (env.serve call).1, w.putBack who (env.serve call).2)
  | none => (none, w)

/-- The workspace after some calls. -/
def serveAll (w : Workspace) (calls : List (String × ScopeCall)) : Workspace :=
  calls.foldl (fun w call => (w.serve call.1 call.2).2) w

/-- Whether all environments stand on one global scope. -/
structure IsShared (w : Workspace) : Prop where
  one : ∃ globals, w.bases = [globals]
  base : ∀ who seat, w.seats.get? who = some seat → seat.base = 0

variable {w w' : Workspace} {who other : String} {env env' : Environment} {call : ScopeCall}
  {name : Name} {level d : Nat} {v : Value}

theorem isShared_sharing (globals : Scope) (names : List String) :
    (sharing globals names).IsShared := by
  have key (w : Workspace) (hw : w.IsShared) :
      (names.foldl (fun w name => w.openOn name 0) w).IsShared := by
    induction names generalizing w with
    | nil => exact hw
    | cons name names ih =>
      refine ih (w.openOn name 0) ⟨hw.one, fun who seat hseat => ?_⟩
      rw [openOn, SortedMap.get?_insert] at hseat
      split at hseat
      · cases hseat; rfl
      · exact hw.base who seat hseat
  exact key _ ⟨⟨globals, rfl⟩, fun _ _ hseat => nomatch hseat⟩

theorem environment?_openOn (w : Workspace) (name : String) (base : Nat) (who : String) :
    (w.openOn name base).environment? who =
      if who = name then some ⟨[], w.globals base⟩ else w.environment? who := by
  rw [Workspace.environment?, openOn, SortedMap.get?_insert]
  split
  · rfl
  · rfl

theorem environment?_sharing (globals : Scope) (names : List String) (who : String) :
    (sharing globals names).environment? who =
      if who ∈ names then some ⟨[], globals⟩ else none := by
  have key (w : Workspace) : (names.foldl (fun w name => w.openOn name 0) w).environment? who =
      if who ∈ names then some ⟨[], w.globals 0⟩ else w.environment? who := by
    induction names generalizing w with
    | nil => rfl
    | cons name names ih =>
      rw [List.foldl_cons, ih, environment?_openOn]
      by_cases hnames : who ∈ names
      · rw [if_pos hnames, if_pos (List.mem_cons_of_mem _ hnames)]
        rfl
      · rw [if_neg hnames]
        simp only [List.mem_cons, hnames, or_false]
  exact key ⟨[globals], .empty⟩

theorem IsShared.environment? (hw : w.IsShared) (who : String) :
    w.environment? who = (w.seats.get? who).map fun seat => ⟨seat.locals, w.globals 0⟩ := by
  rw [Workspace.environment?]
  cases hseat : w.seats.get? who with
  | none => rfl
  | some seat => rw [Option.map_some, Option.map_some, hw.base who seat hseat]

theorem IsShared.globals_eq (hw : w.IsShared) (he : w.environment? who = some env) :
    env.globals = w.globals 0 := by
  rw [hw.environment?] at he
  obtain ⟨seat, _, rfl⟩ := Option.map_eq_some_iff.1 he
  rfl

theorem IsShared.putBack (hw : w.IsShared) (who : String) (env : Environment) :
    (w.putBack who env).IsShared := by
  rw [Workspace.putBack]
  split
  next seat hseat =>
    obtain ⟨globals, hone⟩ := hw.one
    refine ⟨⟨env.globals, ?_⟩, fun other seat' hseat' => ?_⟩
    · rw [hone, hw.base who seat hseat]
      rfl
    · rw [SortedMap.get?_insert] at hseat'
      split at hseat'
      · cases hseat'
        exact hw.base who seat hseat
      · exact hw.base other seat' hseat'
  next => exact hw

/-- An environment that is put back is found again, and what it left in the global scope is seen
from all others. -/
theorem IsShared.environment?_putBack (hw : w.IsShared) (he : w.environment? who = some env)
    (env' : Environment) (other : String) : (w.putBack who env').environment? other =
      if other = who then some env'
      else (w.environment? other).map fun e => { e with globals := env'.globals } := by
  rw [(hw.putBack who env').environment?, hw.environment? other]
  rw [hw.environment?] at he
  obtain ⟨seat, hseat, rfl⟩ := Option.map_eq_some_iff.1 he
  obtain ⟨globals, hone⟩ := hw.one
  have hglobals : (w.putBack who env').globals 0 = env'.globals := by
    simp [Workspace.putBack, hseat, Workspace.globals, hone, hw.base who seat hseat]
  rw [hglobals]
  simp only [Workspace.putBack, hseat, SortedMap.get?_insert]
  split
  · rfl
  · rw [Option.map_map]
    rfl

/-- Putting back what was taken out changes nothing. -/
theorem IsShared.putBack_self (hw : w.IsShared) (he : w.environment? who = some env) :
    w.putBack who env = w := by
  rw [hw.environment?] at he
  obtain ⟨seat, hseat, rfl⟩ := Option.map_eq_some_iff.1 he
  obtain ⟨globals, hone⟩ := hw.one
  have hbases : w.bases.set 0 (w.globals 0) = w.bases := by
    rw [Workspace.globals, hone]
    rfl
  rw [Workspace.putBack, hseat]
  simp only [hw.base who seat hseat, hbases]
  rw [← hw.base who seat hseat, SortedMap.insert_of_get? hseat]

theorem serve_of_environment? (he : w.environment? who = some env) (call : ScopeCall) :
    w.serve who call = (some (env.serve call).1, w.putBack who (env.serve call).2) := by
  rw [Workspace.serve, he]

/-! ### What a call leaves -/

/-- Whether a workspace is another one but for the local scopes of one environment. -/
structure Rescopes (w : Workspace) (who : String) (env' : Environment) (w' : Workspace) : Prop where
  own : w'.environment? who = some env'
  others : ∀ other ≠ who, w'.environment? other = w.environment? other

/-- Whether a workspace is another one but for one binding, made from the environment `env` in its
scope at a level: the other environments see it if that is the global scope, and are as they were if
it is a local one. -/
structure Binds (w : Workspace) (who : String) (env : Environment) (level : Nat) (name : Name)
    (v : Value) (w' : Workspace) : Prop where
  own : ∃ env', w'.environment? who = some env' ∧ env.BindsAt level name v env'
  others_of_local : level < env.depth →
    ∀ other ≠ who, w'.environment? other = w.environment? other
  others_of_global : level = env.depth → ∀ other ≠ who, w'.environment? other =
    (w.environment? other).map fun e => { e with globals := e.globals.insert name v }

/-- An environment that kept its globals leaves the others as they were. -/
theorem IsShared.environment?_of_globals_eq (hw : w.IsShared) (he : w.environment? who = some env)
    (hglobals : env'.globals = env.globals) (hne : other ≠ who) :
    (w.putBack who env').environment? other = w.environment? other := by
  rw [hw.environment?_putBack he, if_neg hne]
  cases ho : w.environment? other with
  | none => rfl
  | some e =>
    have hshared : e.globals = env'.globals :=
      (hw.globals_eq ho).trans ((hw.globals_eq he).symm.trans hglobals.symm)
    rw [Option.map_some, ← hshared]

theorem IsShared.rescopes (hw : w.IsShared) (he : w.environment? who = some env)
    (hglobals : env'.globals = env.globals) : w.Rescopes who env' (w.putBack who env') where
  own := by rw [hw.environment?_putBack he, if_pos rfl]
  others _ hne := hw.environment?_of_globals_eq he hglobals hne

theorem IsShared.binds (hw : w.IsShared) (he : w.environment? who = some env)
    (hb : env.BindsAt level name v env') : w.Binds who env level name v (w.putBack who env') where
  own := ⟨env', by rw [hw.environment?_putBack he, if_pos rfl], hb⟩
  others_of_local hlevel other hne := by
    obtain ⟨_, _, rfl⟩ := hb.of_lt_depth hlevel
    exact hw.environment?_of_globals_eq he rfl hne
  others_of_global hlevel other hne := by
    subst hlevel
    rw [hw.environment?_putBack he, if_neg hne, hb.of_depth]
    cases ho : w.environment? other with
    | none => rfl
    | some e => rw [Option.map_some, Option.map_some, hw.globals_eq he, hw.globals_eq ho]

/-! ### Scopes that are closed again -/

/-- Calls during which an environment with `d` local scopes above a certain one opens and closes
scopes so that the certain one is the innermost again at the end, and is never closed. Calls to
other environments come in between as they like. -/
inductive Within (who : String) : Nat → List (String × ScopeCall) → Prop
  | done : Within who 0 []
  | push {d : Nat} {calls : List (String × ScopeCall)} (h : Within who (d + 1) calls) :
    Within who d ((who, .push) :: calls)
  | pop {d : Nat} {calls : List (String × ScopeCall)} (h : Within who d calls) :
    Within who (d + 1) ((who, .pop) :: calls)
  | stay {d : Nat} {call : ScopeCall} {calls : List (String × ScopeCall)} (hpush : call ≠ .push)
    (hpop : call ≠ .pop) (h : Within who d calls) : Within who d ((who, call) :: calls)
  | other {d : Nat} {other : String} {call : ScopeCall} {calls : List (String × ScopeCall)}
    (hne : other ≠ who) (h : Within who d calls) : Within who d ((other, call) :: calls)

theorem IsShared.environment?_serve_self (hw : w.IsShared) (he : w.environment? who = some env)
    (call : ScopeCall) : (w.serve who call).2.environment? who = some (env.serve call).2 := by
  rw [serve_of_environment? he, hw.environment?_putBack he, if_pos rfl]

/-- A call to another environment leaves the local scopes. -/
theorem IsShared.environment?_serve_other (hw : w.IsShared) (he : w.environment? who = some env)
    (hne : other ≠ who) (call : ScopeCall) :
    ∃ globals, (w.serve other call).2.environment? who = some { env with globals } := by
  cases ho : w.environment? other with
  | none =>
    refine ⟨env.globals, ?_⟩
    rw [Workspace.serve, ho]
    exact he
  | some e =>
    refine ⟨(e.serve call).2.globals, ?_⟩
    rw [serve_of_environment? ho, hw.environment?_putBack ho, if_neg hne.symm, he]
    rfl

end Workspace

end TenantScript
