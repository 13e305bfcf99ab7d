import TenantScript.Proofs.Balance

/-!
Invocations and the globals that they do not mention. Main statement: over two global scopes in
which every name of a function's body is unbound, unless it is an argument, an invocation has the
same result and leaves the same heap, and both global scopes stay as they are.
-/

open TenantScript.Action

namespace TenantScript

/-! ### The names in expressions and blocks -/

namespace Expr

mutual
/-- The names in an expression. Fields of members are not names. -/
def names : Expr → List Name
  | literal .. => []
  | ident name _ => [name]
  | array xs _ => namesOfAll xs
  | member o _ _ => o.names
  | item c i _ => c.names ++ i.names
  | slice c a b _ => c.names ++ (namesOfBound a ++ namesOfBound b)
  | deref p _ => p.names
  | assign t v _ => t.names ++ v.names
termination_by structural e => e

/-- The names in the expressions of a list. -/
def namesOfAll : List Expr → List Name
  | [] => []
  | x :: xs => x.names ++ namesOfAll xs
termination_by structural es => es

/-- The names in a bound. -/
def namesOfBound : Option Expr → List Name
  | none => []
  | some e => e.names
termination_by structural bound => bound
end

theorem names_subset_of_mem : {es : List Expr} → {e : Expr} → e ∈ es → e.names ⊆ namesOfAll es
  | x :: xs, e, h => by
    rw [namesOfAll]
    rcases List.mem_cons.1 h with rfl | h
    · exact List.subset_append_left _ _
    · exact List.subset_append_of_subset_right _ (names_subset_of_mem h)

/-- The names in a part of an expression are names in it. -/
theorem names_subset_of_mem_children {e c : Expr} (h : c ∈ e.children) : c.names ⊆ e.names := by
  cases e with
  | literal | ident => cases h
  | array xs => exact names_subset_of_mem (e := c) h
  | slice collection start stop =>
    simp only [children, List.mem_cons, List.mem_append, Option.mem_toList] at h
    rw [names]
    rcases h with rfl | rfl | rfl
    · exact List.subset_append_left _ _
    · rw [namesOfBound]
      exact List.subset_append_of_subset_right _ (List.subset_append_left _ _)
    · rw [namesOfBound]
      exact List.subset_append_of_subset_right _ (List.subset_append_right _ _)
  | member | deref =>
    obtain rfl := List.mem_singleton.1 h
    exact List.Subset.refl _
  | item | assign =>
    simp only [children, List.mem_cons, List.not_mem_nil, or_false] at h
    rw [names]
    rcases h with rfl | rfl
    · exact List.subset_append_left _ _
    · exact List.subset_append_right _ _

end Expr

/-- The names in a block. -/
def Stmt.blockNames (body : List Stmt) : List Name := Expr.namesOfAll (blockExprs body)

/-! ### Globals that are out of sight -/

namespace Environment

/-- The environment over other globals. -/
def withGlobals (env : Environment) (globals : Scope) : Environment := { env with globals }

/-- Names of `N` that no local scope binds are not bound in `globals`. -/
def Hides (N : Name → Prop) (globals : Scope) (locals : List Scope) : Prop :=
  ∀ name, N name → find? name locals = none → globals.get? name = none

variable {N : Name → Prop} {globals : Scope} {locals : List Scope} {name : Name}

theorem find?_append (name : Name) (scopes : List Scope) (globals : Scope) :
    find? name (scopes ++ [globals]) = (find? name scopes).or (globals.get? name) := by
  induction scopes with
  | nil => simp [find?]
  | cons scope outer ih => rw [List.cons_append, find?, find?, ih, Option.or_assoc]

/-- A name that is hidden in the globals means what it means without them. -/
theorem lookup?_of_hides (env : Environment) (h : Hides N env.globals env.locals) (hn : N name) :
    env.lookup? name = find? name env.locals := by
  rw [Environment.lookup?, find?_append]
  cases hf : find? name env.locals with
  | some v => rfl
  | none => rw [h name hn hf]; rfl

/-- Assigning to a name that is hidden in the globals leaves them out. -/
theorem assign_of_hides (env : Environment) (h : Hides N env.globals env.locals)
    (hlocals : env.locals ≠ []) (hn : N name) (v : Value) :
    env.assign name v = ((env.withGlobals .empty).assign name v).withGlobals env.globals := by
  obtain ⟨locals, globals⟩ := env
  unfold Environment.assign set? withGlobals
  simp only
  cases hset : setLocal? name v locals with
  | some locals' => rfl
  | none =>
    have hglobals := h name hn ((setLocal?_eq_none_iff locals).1 hset)
    rw [overwrite?_eq_none_iff.2 hglobals, overwrite?_eq_none_iff.2 (SortedMap.get?_empty name)]
    obtain ⟨scope, outer, rfl⟩ := List.exists_cons_of_ne_nil hlocals
    rfl

/-- A name has a meaning in the local scopes if one of them binds it. -/
theorem find?_isSome_iff (name : Name) (globals : Scope) : (locals : List Scope) →
    ((find? name locals).isSome = true ↔
      ∃ level < locals.length, binds ⟨locals, globals⟩ level name = true)
  | [] => by simp [find?]
  | scope :: outer => by
    rw [find?, Option.isSome_or, Bool.or_eq_true, find?_isSome_iff name globals outer]
    constructor
    · rintro (h | ⟨level, hlt, h⟩)
      · exact ⟨0, Nat.succ_pos _, h⟩
      · exact ⟨level + 1, Nat.succ_lt_succ hlt, h⟩
    · rintro ⟨_ | level, hlt, h⟩
      · exact .inl h
      · exact .inr ⟨level, Nat.lt_of_succ_lt_succ hlt, h⟩

/-- What is hidden stays hidden while the scopes stay balanced, as no local scope loses a name. -/
theorem Hides.of_balanced {env env' : Environment} (h : Hides N globals env.locals)
    (hbalanced : env.Balanced env') : Hides N globals env'.locals := by
  intro name hn hnone
  refine h name hn (Option.not_isSome_iff_eq_none.1 fun hsome => ?_)
  obtain ⟨level, hlt, hbinds⟩ := (find?_isSome_iff name env.globals env.locals).1 hsome
  have hsome' := (find?_isSome_iff name env'.globals env'.locals).2
    ⟨level, Nat.lt_of_lt_of_eq hlt hbalanced.depth.symm, hbalanced.kept level name hbinds⟩
  rw [hnone] at hsome'
  cases hsome'

end Environment

/-! ### Runs over other globals -/

/-- The state over other globals. -/
def State.withGlobals (st : State) (globals : Scope) : State :=
  { st with env := st.env.withGlobals globals }

/-- The globals are `G`, there is a local scope, and what no local scope binds of `N` is bound
neither in `G` nor in `G'`. -/
structure State.Apart (N : Name → Prop) (G G' : Scope) (st : State) : Prop where
  globals : st.env.globals = G
  locals : st.env.locals ≠ []
  hides : Environment.Hides N G st.env.locals
  hides' : Environment.Hides N G' st.env.locals

theorem State.Apart.of_balanced {N : Name → Prop} {G G' : Scope} {st st' : State}
    (h : st.Apart N G G') (hbalanced : st.env.Balanced st'.env) (hglobals : st'.env.globals = G) :
    st'.Apart N G G' where
  globals := hglobals
  locals := by
    have hlength : st'.env.locals.length = st.env.locals.length := hbalanced.depth
    exact List.ne_nil_of_length_pos (hlength ▸ List.length_pos_iff.2 h.locals)
  hides := h.hides.of_balanced hbalanced
  hides' := h.hides'.of_balanced hbalanced

section Apart

variable {N : Name → Prop} {G G' : Scope} {st : State} (h : st.Apart N G G') {name : Name}
  (hn : N name)

include h hn

namespace State.Apart

theorem lookup? : st.env.lookup? name = Environment.find? name st.env.locals := by
  obtain rfl := h.globals
  exact st.env.lookup?_of_hides h.hides hn

theorem lookup?_withGlobals :
    (st.withGlobals G').env.lookup? name = Environment.find? name st.env.locals :=
  (st.env.withGlobals G').lookup?_of_hides h.hides' hn

/-- Over either globals, assigning to a name is assigning to it over no globals at all. -/
theorem assign (v : Value) :
    st.env.assign name v = ((st.env.withGlobals .empty).assign name v).withGlobals G := by
  obtain rfl := h.globals
  exact st.env.assign_of_hides h.hides h.locals hn v

theorem assign_withGlobals (v : Value) :
    (st.withGlobals G').env.assign name v =
      ((st.env.withGlobals .empty).assign name v).withGlobals G' :=
  (st.env.withGlobals G').assign_of_hides h.hides' h.locals hn v

end State.Apart

end Apart

/-- Where the names of `N` are out of sight in `G` and in `G'`, a run of the first action keeps the
scopes balanced and leaves `G` as it is, and the second action does the same over `G'`. -/
def apart (N : Name → Prop) (G G' : Scope) : Congruence N where
  Rel x y := ∀ st : State, st.Apart N G G' → st.env.Balanced (x.run st).2.env ∧
    (x.run st).2.env.globals = G ∧
      y.run (st.withGlobals G') = ((x.run st).1, (x.run st).2.withGlobals G')
  pure _ st h := ⟨.refl st.env, h.globals, rfl⟩
  fail _ st h := ⟨.refl st.env, h.globals, rfl⟩
  bind {_ _ x y _ _} hx hf st h := by
    obtain ⟨hbalanced, hglobals, hsame⟩ := hx st h
    rw [run_bind, run_bind, hsame]
    rcases hr : x.run st with ⟨e | a, st₁⟩
    · rw [hr] at hbalanced hglobals
      exact ⟨hbalanced, hglobals, rfl⟩
    · rw [hr] at hbalanced hglobals
      obtain ⟨hbalanced', hrest⟩ := hf a st₁ (h.of_balanced hbalanced hglobals)
      exact ⟨hbalanced.trans hbalanced', hrest⟩
  within hx st h := by
    obtain ⟨hbalanced, hglobals, hsame⟩ := hx st h
    rw [run_within, run_within, hsame]
    exact ⟨hbalanced, hglobals, rfl⟩
  inScope hx st h := by
    obtain ⟨hbalanced, hglobals, hsame⟩ := hx { st with env := st.env.push }
      ⟨h.globals, List.cons_ne_nil _ _, h.hides, h.hides'⟩
    refine ⟨hbalanced.pop, hglobals, ?_⟩
    rw [Run.run_inScope]
    simp only
    rw [show ({ st.withGlobals G' with env := (st.withGlobals G').env.push } : State) =
      State.withGlobals { st with env := st.env.push } G' from rfl, hsame]
    rfl
  onHeap _ st h := ⟨.refl st.env, h.globals, rfl⟩
  lookup {name} hn st h := by
    rw [run_get, run_get, h.lookup? hn, h.lookup?_withGlobals hn]
    exact ⟨.refl st.env, h.globals, rfl⟩
  assignName {name} hn v st h := by
    have hglobals := congrArg Environment.globals (h.assign hn v)
    rw [run_assignName, run_assignName, h.lookup? hn, h.lookup?_withGlobals hn,
      h.assign_withGlobals hn]
    split
    · exact ⟨.refl st.env, h.globals, rfl⟩
    · next hc =>
      rw [← h.lookup? hn] at hc
      refine ⟨st.env.balanced_assign name v (Bool.eq_false_iff.2 hc), hglobals, ?_⟩
      simp only [State.withGlobals]
      rw [h.assign hn v]
      rfl

theorem evaluateWithin_apart (N : Name → Prop) (G G' : Scope) (limit : Nat) : (room : Nat) →
    {e : Expr} → (∀ name ∈ e.names, N name) →
      (apart N G G').Rel (evaluateWithin limit room e) (evaluateWithin limit room e)
  | 0, _, _ => (apart N G G').within fun st h => ⟨.refl st.env, h.globals, rfl⟩
  | room + 1, e, he => by
    have hparts : (apart N G G').Relates (evaluateWithin limit room) (evaluateWithin limit room)
        fun e => ∀ name ∈ e.names, N name :=
      ⟨fun hc => evaluateWithin_apart N G G' limit room hc,
        fun hc hmem name hn => hc name (Expr.names_subset_of_mem_children hmem hn),
        fun hc => hc _ (List.mem_singleton_self _)⟩
    have hnode := hparts.evaluateNode e
      (fun c hc name hn => he name (Expr.names_subset_of_mem_children hc hn))
      fun name span h => he name (h ▸ List.mem_singleton_self name)
    refine (apart N G G').within fun st h => ?_
    obtain ⟨hbalanced, hglobals, hsame⟩ := hnode { st with depth := st.depth + 1 }
      ⟨h.globals, h.locals, h.hides, h.hides'⟩
    refine ⟨hbalanced, hglobals, ?_⟩
    rw [Run.run_nested]
    simp only
    rw [show ({ st.withGlobals G' with depth := (st.withGlobals G').depth + 1 } : State) =
      State.withGlobals { st with depth := st.depth + 1 } G' from rfl, hsame]
    rfl

theorem apart_relates (N : Name → Prop) (G G' : Scope) (limit : Nat) :
    (apart N G G').Relates (evaluate limit) (evaluate limit) fun e => ∀ name ∈ e.names, N name :=
  ⟨fun he st => evaluateWithin_apart N G G' limit (limit - st.depth) he st,
    fun he hmem name hn => he name (Expr.names_subset_of_mem_children hmem hn),
    fun he => he _ (List.mem_singleton_self _)⟩

theorem execBlock_apart {N : Name → Prop} (G G' : Scope) (limit : Nat) {body : List Stmt}
    (h : ∀ name ∈ Stmt.blockNames body, N name) :
    (apart N G G').Rel (execBlock limit body) (execBlock limit body) :=
  (apart N G G').bind ((apart_relates N G G' limit).execStmts body
    (fun _ he name hn => h name (Expr.names_subset_of_mem he hn)) .nil)
      fun flow => (apart N G G').pure flow.value

/-! ### Invocations -/

namespace Host

/-- The scope in which the arguments are bound one after another binds the name of each. -/
theorem contains_foldl_insert {name : Name} : {args : List (Name × Value)} → {own : Scope} →
    name ∈ args.map (·.1) ∨ own.contains name = true →
      (args.foldl (fun scope a => scope.insert a.1 a.2) own).contains name = true
  | [], _, h => by simpa using h
  | (first, v) :: args, own, h => by
    refine @contains_foldl_insert name args _ ?_
    rw [SortedMap.contains, SortedMap.get?_insert]
    by_cases hname : name = first
    · simp [hname]
    · simpa [hname, SortedMap.contains] using h

/-- An invocation does not depend on globals that the body of the function does not mention, and
leaves all globals as they are: if each name in the body is an argument or unbound in both `G` and
`G'`, then over either of them the call has the same result and leaves the same heap. -/
theorem invoke_noninterference (host : Host) (call : Invocation) (heap : Heap) (G G' : Scope)
    (h : ∀ f, host.registry.get? call.function = some f → ∀ name ∈ Stmt.blockNames f.body,
      name ∉ call.args.map (·.1) → G.get? name = none ∧ G'.get? name = none) :
    (host.invoke call ⟨G, heap⟩).1 = (host.invoke call ⟨G', heap⟩).1 ∧
      (host.invoke call ⟨G, heap⟩).2.heap = (host.invoke call ⟨G', heap⟩).2.heap ∧
        (host.invoke call ⟨G, heap⟩).2.globals = G ∧
          (host.invoke call ⟨G', heap⟩).2.globals = G' := by
  cases hf : host.registry.get? call.function with
  | none =>
    rw [invoke_eq_unknown hf, invoke_eq_unknown hf]
    exact ⟨rfl, rfl, rfl, rfl⟩
  | some f =>
    -- what the own scope does not bind is no argument
    have hunbound (name : Name) (hname : name ∈ Stmt.blockNames f.body)
        (hfind : Environment.find? name (startEnvironment G call.args).locals = none) :
        G.get? name = none ∧ G'.get? name = none := by
      refine h f hf name hname fun harg => ?_
      have hcontains := @contains_foldl_insert name call.args .empty (.inl harg)
      rw [startEnvironment_eq, Environment.find?, Environment.find?, Option.or_none] at hfind
      rw [SortedMap.contains, hfind] at hcontains
      cases hcontains
    have hstart : State.Apart (· ∈ Stmt.blockNames f.body) G G'
        ⟨startEnvironment G call.args, heap, 0⟩ := by
      refine ⟨?_, ?_, fun name hn hf => (hunbound name hn hf).1,
        fun name hn hf => (hunbound name hn hf).2⟩
      · rw [startEnvironment_eq]
      · rw [startEnvironment_eq]
        exact List.cons_ne_nil _ _
    have hother : startEnvironment G' call.args =
        (startEnvironment G call.args).withGlobals G' := by
      rw [startEnvironment_eq, startEnvironment_eq]
      rfl
    obtain ⟨-, hglobals, hsame⟩ := execBlock_apart G G' host.config.maxDepth (fun _ hn => hn) _
      hstart
    rw [invoke_eq hf, invoke_eq hf]
    simp only
    rw [hother, show (⟨(startEnvironment G call.args).withGlobals G', heap, 0⟩ : State) =
      State.withGlobals ⟨startEnvironment G call.args, heap, 0⟩ G' from rfl, hsame]
    exact ⟨rfl, rfl, hglobals, rfl⟩

/-- `last = nil; for x in xs { last = x }; return last`. -/
def lastOf : Function where
  id := "lastlastlastlastlast"
  name := "last"
  api := false
  runAs? := none
  body :=
    [.assign [.ident "last" .dummy] [.literal .nil .dummy] .dummy,
      .forIn (.ident "x" .dummy) (.ident "xs" .dummy)
        [.assign [.ident "last" .dummy] [.ident "x" .dummy] .dummy] .dummy,
      .ret (some (.ident "last" .dummy)) .dummy]

def lastHost : Host := ⟨.default, ⟨SortedMap.empty.insert "last" lastOf, SortedMap.empty.insert
  "lastlastlastlastlast" "last"⟩⟩

/-- `last([1, 2])`. -/
def lastCall : Invocation := ⟨"last", [("xs", .array ⟨.any, false, false, 0⟩)]⟩

def lastHeap : Heap := Heap.empty.push (.items [.int 1, .int 2])

/-- The globals of one tenant. -/
def plainGlobals : Scope := SortedMap.empty.insert "tenant" (.str "a")

/-- The globals of another tenant, who has a token. -/
def tokenGlobals : Scope :=
  (SortedMap.empty.insert "tenant" (.str "b")).insert "token" (.int 7)

/-- The function declares `last` and `x` in scopes of its own, over either globals. -/
theorem invoke_noninterference_last :
    (∀ f, lastHost.registry.get? lastCall.function = some f →
      ∀ name ∈ Stmt.blockNames f.body, name ∉ lastCall.args.map (·.1) →
        plainGlobals.get? name = none ∧ tokenGlobals.get? name = none) ∧
      (lastHost.invoke lastCall ⟨plainGlobals, lastHeap⟩).1 = .ok (.int 2) ∧
        (lastHost.invoke lastCall ⟨plainGlobals, lastHeap⟩).1 =
          (lastHost.invoke lastCall ⟨tokenGlobals, lastHeap⟩).1 ∧
          (lastHost.invoke lastCall ⟨plainGlobals, lastHeap⟩).2.heap =
            (lastHost.invoke lastCall ⟨tokenGlobals, lastHeap⟩).2.heap ∧
            (lastHost.invoke lastCall ⟨plainGlobals, lastHeap⟩).2.globals = plainGlobals ∧
              (lastHost.invoke lastCall ⟨tokenGlobals, lastHeap⟩).2.globals = tokenGlobals := by
  have hunbound : ∀ f, lastHost.registry.get? lastCall.function = some f →
      ∀ name ∈ Stmt.blockNames f.body, name ∉ lastCall.args.map (·.1) →
        plainGlobals.get? name = none ∧ tokenGlobals.get? name = none := by
    intro f hf
    have hlast : lastHost.registry.get? lastCall.function = some lastOf := by decide +kernel
    obtain rfl := Option.some.inj (hlast.symm.trans hf)
    decide +kernel
  exact ⟨hunbound, by decide +kernel, invoke_noninterference lastHost lastCall lastHeap
    plainGlobals tokenGlobals hunbound⟩

end Host

end TenantScript
