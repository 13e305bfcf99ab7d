import TenantScript.Proofs.ArrayVariable
import TenantScript.Proofs.Conversion

/-!
Assignments to several targets at once. Main statement: names are bound to what their expressions
were worth before the statement, so that names trade values in one statement; the elements of one
array are dealt out to the names, which get nil where there are too few; and two items of an array
are exchanged.
-/

open TenantScript.Action

namespace TenantScript

/-! ### Names as targets -/

/-- The expressions for some names. -/
def Expr.ofNames (xs : List (Name × Span)) : List Expr := xs.map fun x => .ident x.1 x.2

namespace Environment

/-- The environment in which values have been assigned to names in order, and nil where there are
too few. -/
def assignEach (env : Environment) : List Name → List Value → Environment
  | [], _ => env
  | x :: xs, vs => (env.assign x (vs.headD .nil)).assignEach xs vs.tail

/-- Whether names are bound to values, and to nil where there are too few, and all other names in
each scope as before. -/
structure Rebinds (env : Environment) (xs : List Name) (vs : List Value) (env' : Environment) :
    Prop where
  bound : ∀ i x, xs[i]? = some x → env'.lookup? x = some (vs.getD i .nil)
  others : ∀ y, y ∉ xs → env'.bindings y = env.bindings y

theorem rebinds_assignEach {xs : List Name} (hnodup : xs.Nodup) (env : Environment)
    (vs : List Value) : env.Rebinds xs vs (env.assignEach xs vs) := by
  induction xs generalizing env vs with
  | nil => exact ⟨fun _ _ hi => (nomatch hi), fun _ _ => rfl⟩
  | cons x xs ih =>
    obtain ⟨hx, hnodup⟩ := List.nodup_cons.1 hnodup
    obtain ⟨hbound, hothers⟩ := ih hnodup (env.assign x (vs.headD .nil)) vs.tail
    refine ⟨fun i y hi => ?_, fun y hy => ?_⟩
    · cases i with
      | zero =>
        cases hi
        -- no later target is the same name, so what it was bound to first stays
        rw [assignEach, lookup?_eq_of_bindings (hothers x hx), lookup?_assign, if_pos rfl]
        cases vs <;> rfl
      | succ i =>
        rw [assignEach, hbound i y hi]
        cases vs <;> simp
    · rw [List.mem_cons, not_or] at hy
      rw [assignEach, hothers y hy.2, bindings_assign _ _ hy.1]

end Environment

section Names

variable (ev : Expr → Run Value) (st : State)

theorem run_assign_ident {x : Name} {span : Span} {v : Value}
    (hx : Name.isQualified x = false) :
    (assign ev (.ident x span) v).run st = (.ok v, { st with env := st.env.assign x v }) := by
  rw [assign, run_within, Run.lift_eq, run_assignName, hx, Bool.and_false]
  rfl

theorem run_assignEach_names {xs : List (Name × Span)}
    (hxs : ∀ x ∈ xs, Name.isQualified x.1 = false) (vs : List Value) (stored : Value) :
    ∃ r, (assignEach ev (Expr.ofNames xs) vs stored).run st =
      (.ok r, { st with env := st.env.assignEach (xs.map (·.1)) vs }) := by
  induction xs generalizing st vs stored with
  | nil => exact ⟨stored, rfl⟩
  | cons x xs ih =>
    obtain ⟨r, hr⟩ := ih { st with env := st.env.assign x.1 (vs.headD .nil) }
      (fun y hy => hxs y (List.mem_cons_of_mem _ hy)) vs.tail (vs.headD .nil)
    exact ⟨r, (run_bind_ok _ (run_assign_ident ev st (hxs x List.mem_cons_self))).trans hr⟩

end Names

/-! ### Values that are evaluated after others -/

/-- Whether `v` is in the heap `h'` what `w` is in `h`, but that what has been made from address
`base` on lies further on. -/
def Relocated (base : Nat) (h : Heap) (w : Value) (h' : Heap) (v : Value) : Prop :=
  ∃ size, v = w.shift ⟨base, size⟩ ∧ ∀ a s, h.get? a = some s →
    h'.get? (Gap.address ⟨base, size⟩ a) = some (s.shift ⟨base, size⟩)

theorem Relocated.mono {base : Nat} {h h' g : Heap} {w v : Value} (hv : Relocated base h w h' v)
    (hle : h' ≤ g) : Relocated base h w g v := by
  obtain ⟨size, hshift, hget⟩ := hv
  exact ⟨size, hshift, fun a s hs => hle _ _ (hget a s hs)⟩

/-- Whether a value is, after a statement, what an expression was worth before it. -/
def WorthBefore (limit : Nat) (st st' : State) (e : Expr) (v : Value) : Prop :=
  ∀ w s, (evaluate limit e).run st = (.ok w, s) →
    Relocated st.heap.size s.heap w st'.heap v

/-- Where each action of a list has a result in all states to which `I` leads, what `P` says of the
results still holds at the end. -/
theorem exists_run_mapM {σ α ε : Type} {I : σ → σ → Prop} (hrefl : ∀ s, I s s)
    (htrans : ∀ {s t u}, I s t → I t u → I s u) {P : σ → ε → α → Prop}
    (hmono : ∀ {s t e a}, I s t → P s e a → P t e a) {f : ε → Action σ α} {es : List ε} {s : σ}
    (hf : ∀ e ∈ es, ∀ t, I s t → ∃ a u, (f e).run t = (.ok a, u) ∧ I t u ∧ P u e a) :
    ∃ as t, (es.mapM f).run s = (.ok as, t) ∧ I s t ∧ List.Forall₂ (P t) es as := by
  induction es generalizing s with
  | nil => exact ⟨[], s, rfl, hrefl s, .nil⟩
  | cons e es ih =>
    obtain ⟨a, t, ha, hst, hp⟩ := hf e List.mem_cons_self s (hrefl s)
    obtain ⟨as, u, has, htu, hrest⟩ :=
      ih fun d hd t' ht' => hf d (List.mem_cons_of_mem _ hd) t' (htrans hst ht')
    refine ⟨a :: as, u, ?_, htrans hst htu, .cons (hmono htu hp) hrest⟩
    rw [List.mapM_cons, run_bind_ok _ ha, run_bind_ok _ has]
    rfl

section Values

variable {limit : Nat} {st st' : State} {es : List Expr}

/-- An expression without assignments that has a value in a state has it also after others have
been evaluated. -/
theorem exists_worthBefore (hclosed : st.Closed) (hle : st ≤ st') {e : Expr}
    (he : e.isAssignFree = true) (hvalue : ∃ w s, (evaluate limit e).run st = (.ok w, s)) :
    ∃ v s', (evaluate limit e).run st' = (.ok v, s') ∧ st' ≤ s' ∧ WorthBefore limit st s' e v := by
  obtain ⟨w, s, hrun⟩ := hvalue
  obtain ⟨v, s', hrun', ⟨hshifted, -⟩, hmoves⟩ :=
    evaluate_follows (Nat.le_refl _) he st st' ⟨hclosed.shifted_of_le hle, hle.2.1⟩ w s hrun
  refine ⟨v, s', hrun', (evaluate_adds limit he).le_of_run hrun', fun w' t ht => ?_⟩
  cases hrun.symm.trans ht
  refine ⟨_, hmoves, fun a u hu => ?_⟩
  rw [hshifted.heap.get?, hu]
  rfl

theorem WorthBefore.mono {e : Expr} {v : Value} {s t : State} (hv : WorthBefore limit st s e v)
    (hle : s ≤ t) : WorthBefore limit st t e v :=
  fun w u hw => (hv w u hw).mono hle.2.2

theorem exists_worthBefore_each (hclosed : st.Closed) (hes : ∀ e ∈ es, e.isAssignFree = true)
    (hvalues : ∀ e ∈ es, ∃ w s, (evaluate limit e).run st = (.ok w, s)) :
    ∃ vs s, (es.mapM (evaluate limit)).run st = (.ok vs, s) ∧ st ≤ s ∧
      List.Forall₂ (WorthBefore limit st s) es vs :=
  exists_run_mapM (fun _ => le_rfl) (fun hst htu => hst.trans htu) (fun hle hv => hv.mono hle)
    fun e he _ hle => exists_worthBefore hclosed hle (hes e he) (hvalues e he)

/-- Names are evaluated to what they are bound to. -/
theorem exists_bound_each {ys : List (Name × Span)} (hroom : st.depth < limit)
    (hys : ∀ y ∈ ys, (st.env.lookup? y.1).isSome) :
    ∃ vs, ((Expr.ofNames ys).mapM (evaluate limit)).run st = (.ok vs, st) ∧
      List.Forall₂ (fun y v => st.env.lookup? y.1 = some v) ys vs := by
  have hname : ∀ y ∈ ys, ∀ t, st = t → ∃ v u,
      (evaluate limit (.ident y.1 y.2)).run t = (.ok v, u) ∧ t = u ∧
        st.env.lookup? y.1 = some v := by
    rintro y hy _ rfl
    obtain ⟨v, hv⟩ := Option.isSome_iff_exists.1 (hys y hy)
    exact ⟨v, st, run_evaluate_name hroom hv, rfl, hv⟩
  rw [Expr.ofNames, List.mapM_map]
  obtain ⟨vs, s, hvs, rfl, hall⟩ := exists_run_mapM (I := Eq)
    (P := fun _ (y : Name × Span) v => st.env.lookup? y.1 = some v) (fun _ => rfl) Eq.trans
    (fun _ hv => hv) hname
  exact ⟨vs, hvs, hall⟩

end Values

/-! ### Statements -/

section Statements

variable {ev : Expr → Run Value} {xs : List (Name × Span)} {span : Span} {st s : State}
  {vs : List Value}

/-- The values are evaluated before anything is assigned. -/
theorem run_execStmt_assign {targets es : List Expr} {r : Value} {st' : State}
    (hlength : targets.length = es.length) (hvs : (es.mapM ev).run st = (.ok vs, s))
    (heach : (assignEach ev targets vs .nil).run s = (.ok r, st')) :
    (execStmt ev (.assign targets es span)).run st = (.ok (.next r), st') := by
  have hall : (assignAll ev targets es).run st = (.ok r, st') := by
    unfold assignAll
    rw [if_pos hlength, run_bind_ok _ hvs, heach]
  rw [execStmt, run_within, run_bind_ok _ hall]
  rfl

/-- The elements of an array are copied before anything is assigned. -/
theorem run_execStmt_spread {targets : List Expr} {e : Expr} {u r : Value} {a : ArrayRef}
    {st' : State} (hlength : 2 ≤ targets.length) (he : (ev e).run st = (.ok u, s))
    (hu : u.unwrap = .array a)
    (heach : (assignEach ev targets (s.heap.items a) .nil).run s = (.ok r, st')) :
    (execStmt ev (.assign targets [e] span)).run st = (.ok (.next r), st') := by
  have hspread : (Run.onHeap (spread u targets.length)).run s = (.ok (s.heap.items a), s) := by
    unfold spread
    rw [hu]
    rfl
  have hall : (assignAll ev targets [e]).run st = (.ok r, st') := by
    unfold assignAll
    rw [if_neg (by rw [List.length_singleton]; omega)]
    simp only [if_pos (show targets.length > 1 from hlength)]
    rw [run_bind_ok _ he, run_bind_ok _ hspread, heach]
  rw [execStmt, run_within, run_bind_ok _ hall]
  rfl

end Statements

/-! ### Items that are exchanged -/

/-- Whether an expression denotes a position, whatever the storages hold, wherever a level of
nesting is left. -/
def Expr.IsPosition (limit : Nat) (env : Environment) (index : Expr) (n : Nat) : Prop :=
  ∃ k, toIndex k = .ok (n : Int) ∧ ∀ h d, d < limit →
    (evaluate limit index).run ⟨env, h, d⟩ = (.ok k, ⟨env, h, d⟩)

/-- Whether an expression is the item of a variable at a position. -/
def Expr.IsItemAt (limit : Nat) (env : Environment) (x : Name) (n : Nat) (e : Expr) : Prop :=
  ∃ index xspan span, e = .item (.ident x xspan) index span ∧ index.IsPosition limit env n

section Items

variable {limit n d : Nat} {env : Environment} {x : Name} {e : Expr} {v : Value}

theorem Expr.isPosition_literal {l : Literal} {span : Span} (hl : toIndex l.value = .ok (n : Int)) :
    (Expr.literal l span).IsPosition limit env n :=
  ⟨l.value, hl, fun _ _ hd => run_evaluate_of_lt hd rfl⟩

theorem Expr.isPosition_name {y : Name} {span : Span} (hy : env.lookup? y = some v)
    (hv : toIndex v = .ok (n : Int)) : (Expr.ident y span).IsPosition limit env n :=
  ⟨v, hv, fun _ _ hd => run_evaluate_name hd hy⟩

/-- A value that conforms is stored as it is. -/
theorem ArrayRef.run_setIndex_of_conforms {a : ArrayRef} {vs : List Value} {h : Heap}
    (hget : h.get? a.address = some (.items vs)) (hwritable : a.readOnly = false)
    (hn : n < vs.length) (hv : v.conforms a.elem = true) :
    (a.setIndex n v).run h = (.ok (.inPlace v), h.write a.address (.items (vs.set n v))) := by
  have hitems := Heap.items_of_get? hget
  have hpos : position? (n : Int) = some n := position?_eq_some_iff.2 rfl
  unfold setIndex
  rw [run_bind, run_get]
  simp only [hitems, hpos, if_neg (Nat.ne_of_lt hn), if_neg (Nat.lt_asymm hn), hwritable,
    Bool.false_eq_true, if_false, convert_of_conforms hv, pure_bind]
  rw [run_bind, run_get]
  simp only [hitems]
  rfl

variable {st : State} {a : ArrayRef} {vs : List Value}

theorem run_evaluate_itemAt (hx : st.Holds x a vs) (he : e.IsItemAt limit st.env x n)
    (hroom : st.depth + 1 < limit) (hv : vs[n]? = some v) :
    (evaluate limit e).run st = (.ok v, st) := by
  obtain ⟨u, hu, ha⟩ := hx.bound
  obtain ⟨index, xspan, span, rfl, k, hk, hindex⟩ := he
  have hread : (readItem u k).run st.heap = (.ok v, st.heap) := by
    unfold readItem
    rw [ha, hk]
    show (Action.ofExcept (elementAt (st.heap.items a) n)).run st.heap = _
    rw [Heap.items_of_get? hx.items, elementAt, position?_eq_some_iff.2 rfl, Option.bind_some, hv]
    rfl
  refine run_evaluate_of_lt (Nat.lt_of_succ_lt hroom) ?_
  rw [evaluateNode, run_bind_ok _ (run_evaluate_name hroom hu), run_bind_ok _ (hindex _ _ hroom),
    Run.run_onHeap, hread]

theorem run_assign_itemAt (hx : st.Holds x a vs) (he : e.IsItemAt limit st.env x n)
    (hroom : st.depth < limit) (hwritable : a.readOnly = false) (hn : n < vs.length)
    (hv : v.conforms a.elem = true) :
    (assign (evaluate limit) e v).run st =
      (.ok v, { st with heap := st.heap.write a.address (.items (vs.set n v)) }) := by
  obtain ⟨u, hu, ha⟩ := hx.bound
  obtain ⟨index, xspan, span, rfl, k, hk, hindex⟩ := he
  have hset : (setItem u k v).run st.heap =
      (.ok (.inPlace v), st.heap.write a.address (.items (vs.set n v))) := by
    unfold setItem
    rw [ha, hk]
    exact ArrayRef.run_setIndex_of_conforms hx.items hwritable hn hv
  rw [assign, run_within, run_bind_ok _ (run_evaluate_name hroom hu),
    run_bind_ok _ (hindex _ _ hroom), inHeap_eq, run_bind, Run.run_onHeap, hset]
  rfl

/-- A variable is bound to the same array after a store into it. -/
theorem State.Holds.write (hx : st.Holds x a vs) (ws : List Value) :
    { st with heap := st.heap.write a.address (.items ws) }.Holds x a ws :=
  ⟨hx.bound, Heap.get?_write_self _ (Heap.lt_size_of_get? hx.items)⟩

end Items

/-! ### Main statement -/

/-- What a statement that assigns to several names at once does. -/
structure AssignsAtOnce (limit : Nat) (st : State) (xs : List (Name × Span)) : Prop where
  /-- Each name is bound to what its expression was worth before the statement. -/
  values : ∀ es span, es.length = xs.length → st.Closed → (∀ e ∈ es, e.isAssignFree = true) →
    (∀ e ∈ es, ∃ w s, (evaluate limit e).run st = (.ok w, s)) → ∃ r vs st',
      (execStmt (evaluate limit) (.assign (Expr.ofNames xs) es span)).run st =
          (.ok (.next r), st') ∧
        st'.depth = st.depth ∧ st.heap ≤ st'.heap ∧ st.env.Rebinds (xs.map (·.1)) vs st'.env ∧
        List.Forall₂ (WorthBefore limit st st') es vs
  /-- The names trade values, or take those of other names. -/
  trade : ∀ ys span, ys.length = xs.length → st.depth < limit →
    (∀ y ∈ ys, (st.env.lookup? y.1).isSome) → ∃ r vs env',
      (execStmt (evaluate limit) (.assign (Expr.ofNames xs) (Expr.ofNames ys) span)).run st =
          (.ok (.next r), { st with env := env' }) ∧
        st.env.Rebinds (xs.map (·.1)) vs env' ∧
        List.Forall₂ (fun y v => st.env.lookup? y.1 = some v) ys vs
  /-- The elements of one array are dealt out. -/
  spread : ∀ e span u a s, 2 ≤ xs.length → (evaluate limit e).run st = (.ok u, s) →
    u.unwrap = .array a → ∃ r env',
      (execStmt (evaluate limit) (.assign (Expr.ofNames xs) [e] span)).run st =
          (.ok (.next r), { s with env := env' }) ∧
        s.env.Rebinds (xs.map (·.1)) (s.heap.items a) env'

theorem assignsAtOnce (limit : Nat) (st : State) {xs : List (Name × Span)}
    (hnodup : (xs.map (·.1)).Nodup) (hxs : ∀ x ∈ xs, Name.isQualified x.1 = false) :
    AssignsAtOnce limit st xs where
  values es span hlength hclosed hes hvalues := by
    obtain ⟨vs, s, hvs, hle, hworth⟩ := exists_worthBefore_each hclosed hes hvalues
    obtain ⟨r, hr⟩ := run_assignEach_names (evaluate limit) s hxs vs .nil
    have hlength' : (Expr.ofNames xs).length = es.length := (List.length_map _).trans hlength.symm
    refine ⟨r, vs, _, run_execStmt_assign hlength' hvs hr, hle.2.1, hle.2.2, ?_, hworth⟩
    rw [← hle.1]
    exact Environment.rebinds_assignEach hnodup s.env vs
  trade ys span hlength hroom hys := by
    obtain ⟨vs, hvs, hbound⟩ := exists_bound_each hroom hys
    obtain ⟨r, hr⟩ := run_assignEach_names (evaluate limit) st hxs vs .nil
    have hlength' : (Expr.ofNames xs).length = (Expr.ofNames ys).length := by
      rw [Expr.ofNames, Expr.ofNames, List.length_map, List.length_map, hlength]
    exact ⟨r, vs, _, run_execStmt_assign hlength' hvs hr,
      Environment.rebinds_assignEach hnodup st.env vs, hbound⟩
  spread e span u a s hlength he hu := by
    obtain ⟨r, hr⟩ := run_assignEach_names (evaluate limit) s hxs (s.heap.items a) .nil
    have hlength' : 2 ≤ (Expr.ofNames xs).length := by rwa [Expr.ofNames, List.length_map]
    exact ⟨r, _, run_execStmt_spread hlength' he hu hr,
      Environment.rebinds_assignEach hnodup s.env _⟩

/-- Whether two items of a variable, which is an array of the values `vs`, are exchanged by one
statement that changes nothing else. -/
def ExchangesItems (limit : Nat) (st : State) (x : Name) (a : ArrayRef) (vs : List Value) : Prop :=
  ∀ i j v w t t' e e' span, vs[i]? = some v → vs[j]? = some w →
    t.IsItemAt limit st.env x i → t'.IsItemAt limit st.env x j →
    e.IsItemAt limit st.env x j → e'.IsItemAt limit st.env x i →
    (execStmt (evaluate limit) (.assign [t, t'] [e, e'] span)).run st = (.ok (.next v),
      { st with heap := st.heap.write a.address (.items ((vs.set i w).set j v)) })

theorem exchangesItems {limit : Nat} {st : State} {x : Name} {a : ArrayRef} {vs : List Value}
    (hx : st.Holds x a vs) (hwritable : a.readOnly = false)
    (hvs : ∀ v ∈ vs, v.conforms a.elem = true) (hroom : st.depth + 1 < limit) :
    ExchangesItems limit st x a vs := by
  intro i j v w t t' e e' span hi hj ht ht' he he'
  have hlt : st.depth < limit := Nat.lt_of_succ_lt hroom
  have hvalues : ([e, e'].mapM (evaluate limit)).run st = (.ok [w, v], st) := by
    rw [List.mapM_cons, run_bind_ok _ (run_evaluate_itemAt hx he hroom hj), List.mapM_cons,
      bind_assoc, run_bind_ok _ (run_evaluate_itemAt hx he' hroom hi), List.mapM_nil]
    rfl
  have hfirst := run_assign_itemAt hx ht hlt hwritable (List.getElem?_eq_some_iff.1 hi).1
    (hvs w (List.mem_of_getElem? hj))
  -- the second store finds the first one done and the same expressions denoting the same positions
  have hsecond := run_assign_itemAt (hx.write (vs.set i w)) ht' hlt hwritable
    (by rw [List.length_set]; exact (List.getElem?_eq_some_iff.1 hj).1)
    (hvs v (List.mem_of_getElem? hi))
  rw [Heap.write_write] at hsecond
  refine run_execStmt_assign rfl hvalues ?_
  rw [assignEach, List.headD_cons, run_bind_ok _ hfirst, assignEach, List.tail_cons,
    List.headD_cons, run_bind_ok _ hsecond]
  rfl

/-- Assignments to several targets are simultaneous, for names and for the items of an array. -/
theorem parallel_assignment (limit : Nat) (st : State) :
    (∀ xs : List (Name × Span), (xs.map (·.1)).Nodup →
      (∀ x ∈ xs, Name.isQualified x.1 = false) → AssignsAtOnce limit st xs) ∧
    ∀ x a vs, st.Holds x a vs → a.readOnly = false → (∀ v ∈ vs, v.conforms a.elem = true) →
      st.depth + 1 < limit → ExchangesItems limit st x a vs :=
  ⟨fun _ hnodup hxs => assignsAtOnce limit st hnodup hxs,
    fun _ _ _ hx hwritable hvs hroom => exchangesItems hx hwritable hvs hroom⟩

/-- Two integers and an array of three. -/
def threeScores : State where
  env := ((Environment.empty.define "a" (.int 1)).define "b" (.int 2)).define "scores"
    (.array ⟨.int, false, false, 0⟩)
  heap := Heap.empty.push (.items [.int 10, .int 20, .int 30])
  depth := 0

/-- `a` and `b`. -/
def aAndB : List (Name × Span) := [("a", .dummy), ("b", .dummy)]

/-- `b` and `[a]`. -/
def otherAndOwn : List Expr := [.ident "b" .dummy, .array [.ident "a" .dummy] .dummy]

/-- `scores[0]`. -/
def firstScore : Expr :=
  .item (.ident "scores" .dummy) (.literal (.int 0) .dummy) .dummy

/-- `scores[b]`. -/
def scoreAtB : Expr := .item (.ident "scores" .dummy) (.ident "b" .dummy) .dummy

/-- `a, b = b, [a]`, `a, b = b, a`, `a, b = scores`, and
`scores[0], scores[b] = scores[b], scores[0]`. -/
theorem parallel_assignment_threeScores :
    (∃ r vs st', (execStmt (evaluate 2) (.assign (Expr.ofNames aAndB) otherAndOwn .dummy)).run
        threeScores = (.ok (.next r), st') ∧
      List.Forall₂ (WorthBefore 2 threeScores st') otherAndOwn vs ∧
      st'.env.lookup? "b" = some (vs.getD 1 .nil)) ∧
    (∃ r env', (execStmt (evaluate 2) (.assign (Expr.ofNames aAndB)
        (Expr.ofNames aAndB.reverse) .dummy)).run threeScores =
        (.ok (.next r), { threeScores with env := env' }) ∧
      env'.lookup? "a" = some (.int 2) ∧ env'.lookup? "b" = some (.int 1)) ∧
    (∃ r env', (execStmt (evaluate 2) (.assign (Expr.ofNames aAndB)
        [.ident "scores" .dummy] .dummy)).run threeScores =
        (.ok (.next r), { threeScores with env := env' }) ∧
      env'.lookup? "a" = some (.int 10) ∧ env'.lookup? "b" = some (.int 20)) ∧
    (execStmt (evaluate 2) (.assign [firstScore, scoreAtB] [scoreAtB, firstScore] .dummy)).run
        threeScores = (.ok (.next (.int 10)),
      { threeScores with heap := Heap.empty.push (.items [.int 30, .int 20, .int 10]) }) := by
  obtain ⟨hnames, hitems⟩ := parallel_assignment 2 threeScores
  have honce : AssignsAtOnce 2 threeScores aAndB := hnames aAndB (by decide) (by decide)
  have hexchange : ExchangesItems 2 threeScores "scores" ⟨.int, false, false, 0⟩
      [.int 10, .int 20, .int 30] :=
    hitems _ _ _ ⟨⟨_, by rfl, rfl⟩, by rfl⟩ rfl (by decide) (by decide)
  refine ⟨?_, ?_, ?_, ?_⟩
  · have hvalues : ∀ e ∈ otherAndOwn, ∃ w s, (evaluate 2 e).run threeScores = (.ok w, s) := by
      intro e he
      simp only [otherAndOwn, List.mem_cons, List.not_mem_nil, or_false] at he
      rcases he with rfl | rfl <;> exact ⟨_, _, rfl⟩
    obtain ⟨r, vs, st', hrun, -, -, hrebinds, hworth⟩ :=
      honce.values otherAndOwn .dummy rfl (by decide) (by decide) hvalues
    exact ⟨r, vs, st', hrun, hworth, hrebinds.bound 1 "b" rfl⟩
  · obtain ⟨r, vs, env', hrun, hrebinds, hall⟩ :=
      honce.trade aAndB.reverse .dummy rfl (by decide) (by decide)
    obtain rfl : vs = [.int 2, .int 1] := by
      cases hall with
      | cons hb hall =>
        cases hall with
        | cons ha hall =>
          cases hall
          cases hb
          cases ha
          rfl
    exact ⟨r, env', hrun, hrebinds.bound 0 "a" rfl, hrebinds.bound 1 "b" rfl⟩
  · obtain ⟨r, env', hrun, hrebinds⟩ :=
      honce.spread (.ident "scores" .dummy) .dummy _ ⟨.int, false, false, 0⟩ threeScores
        (by decide) rfl rfl
    exact ⟨r, env', hrun, hrebinds.bound 0 "a" rfl, hrebinds.bound 1 "b" rfl⟩
  · have hfirst : firstScore.IsItemAt 2 threeScores.env "scores" 0 :=
      ⟨_, _, _, rfl, Expr.isPosition_literal (by decide)⟩
    have hsecond : scoreAtB.IsItemAt 2 threeScores.env "scores" 2 :=
      ⟨_, _, _, rfl, Expr.isPosition_name (by rfl) (by decide)⟩
    exact hexchange 0 2 (.int 10) (.int 30) _ _ _ _ .dummy rfl rfl hfirst hsecond hsecond hfirst

end TenantScript
