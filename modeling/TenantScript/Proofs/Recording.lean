import Mathlib.Data.List.FinRange
import Mathlib.Data.List.Nodup
import TenantScript.Proofs.Balance
import TenantScript.Proofs.Erasure
import TenantScript.Proofs.RunSteps

/-!
Invocations that record into a shared map. Each of them stores a number under a key of its own in
the map that a global name denotes, and keeps the number in a local name as well. Main statement: in
whatever order such invocations run, each gives its own number, and the map has all of them in the
end.
-/

open TenantScript.Action

namespace TenantScript

/-! ### Parts of a body -/

section Runs

variable {limit d : Nat} {env env' : Environment} {heap heap' : Heap} {v w : Value}

/-- A statement that assigns the value of an expression to a target, as an expression or on its own
account. -/
inductive Stmt.Assigns (target value : Expr) : Stmt → Prop
  | expr : Assigns target value (.expr (.assign target value .dummy) .dummy)
  | own : Assigns target value (.assign [target] [value] .dummy)

/-- What an assignment does at each depth, the statement does. -/
theorem run_execStmt_of_assigns {target value : Expr} {s : Stmt} (hs : s.Assigns target value)
    (hd : d + 1 < limit)
    (hvalue : ∀ d < limit, (evaluate limit value).run ⟨env, heap, d⟩ = (.ok v, ⟨env, heap, d⟩))
    (htarget : ∀ d < limit,
      (assign (evaluate limit) target v).run ⟨env, heap, d⟩ = (.ok w, ⟨env', heap', d⟩)) :
    (execStmt (evaluate limit) s).run ⟨env, heap, d⟩ = (.ok (.next w), ⟨env', heap', d⟩) := by
  cases hs with
  | expr =>
    have hassign : (evaluate limit (.assign target value .dummy)).run ⟨env, heap, d⟩ =
        (.ok w, ⟨env', heap', d⟩) := by
      refine run_evaluate_of_lt (Nat.lt_of_succ_lt hd) ?_
      rw [evaluateNode, run_bind_ok _ (hvalue _ hd), htarget _ hd]
    rw [execStmt, run_within, run_bind_ok _ hassign]
    rfl
  | own =>
    have hd : d < limit := Nat.lt_of_succ_lt hd
    have hassign : (assignAll (evaluate limit) [target] [value]).run ⟨env, heap, d⟩ =
        (.ok w, ⟨env', heap', d⟩) := by
      rw [assignAll_single, run_bind_ok _ (hvalue d hd), htarget d hd]
    rw [execStmt, run_within, run_bind_ok _ hassign]
    rfl

theorem run_execStmts_of_next {ev : Expr → Run Value} {s : Stmt} {rest : List Stmt} {last : Value}
    {st st' : State} (h : (execStmt ev s).run st = (.ok (.next v), st')) :
    (execStmts ev (s :: rest) last).run st =
      (execStmts ev rest (if s.isExpr then v else last)).run st' := by
  rw [execStmts, run_bind_ok _ h]

end Runs

/-- The calls run one after another in an order, and each result goes to the position of its
call. -/
def Host.invokeInOrder (host : Host) {count : Nat} (calls : Fin count → Invocation)
    (order : List (Fin count)) (shared : Shared) :
    (Fin count → Option (Except HostError Value)) × Shared :=
  let after := host.invokeAll (order.map calls) shared
  (fun i => (order.zip after.1).lookup i, after.2)

theorem Host.invokeInOrder_of_invokeAll {host : Host} {count : Nat} {calls : Fin count → Invocation}
    {order : List (Fin count)} (hmem : ∀ i, i ∈ order) {shared after : Shared}
    {result : Fin count → Except HostError Value}
    (h : host.invokeAll (order.map calls) shared = (order.map result, after)) :
    host.invokeInOrder calls order shared = (fun i => some (result i), after) := by
  simp only [invokeInOrder, h, ← List.map_prod_left_eq_zip, List.lookup_graph result (hmem _)]

namespace Recording

/-! ### One recording -/

/-- `seen[key] = n; mine = n; return mine`, whatever the places of its nodes. -/
def Body (body : List Stmt) : Prop :=
  ∃ s₁ s₂,
    s₁.Assigns (.item (.ident "seen" .dummy) (.ident "key" .dummy) .dummy) (.ident "n" .dummy) ∧
    s₂.Assigns (.ident "mine" .dummy) (.ident "n" .dummy) ∧
    Stmt.eraseSpansOfBlock body = [s₁, s₂, .ret (some (.ident "mine" .dummy)) .dummy]

/-- The globals that bind `seen` alone, to the map of numbers by texts that is at an address. -/
def globals (a : Address) : Scope := SortedMap.empty.insert "seen" (.map ⟨.str, .int, some a⟩)

/-- A call that records a number under a key. -/
def call (r : String × Int64) : Invocation := ⟨"record", [("key", .str r.1), ("n", .int r.2)]⟩

/-- The entries of a map in which numbers have been recorded. -/
def recorded (m : SortedMap MapKey Value) (records : List (String × Int64)) :
    SortedMap MapKey Value :=
  records.foldl (fun m r => m.insert (.str r.1) (.int r.2)) m

section Run

variable {limit d : Nat} {env : Environment} {heap : Heap} {a : Address}
  {m : SortedMap MapKey Value} {k : String} {n : Int64}

theorem run_assign_seen (hseen : env.lookup? "seen" = some (.map ⟨.str, .int, some a⟩))
    (hkey : env.lookup? "key" = some (.str k)) (hlive : heap.get? a = some (.entries m))
    (hd : d < limit) :
    (assign (evaluate limit) (.item (.ident "seen" .dummy) (.ident "key" .dummy) .dummy)
      (.int n)).run ⟨env, heap, d⟩ =
        (.ok (.int n), ⟨env, heap.write a (.entries (m.insert (.str k) (.int n))), d⟩) := by
  have hentries : heap.entriesAt a = m := by
    rw [Heap.entriesAt, hlive]
  have hset : (setItem (.map ⟨.str, .int, some a⟩) (.str k) (.int n)).run heap =
      (.ok (.inPlace (.int n)), heap.write a (.entries (m.insert (.str k) (.int n)))) :=
    hentries ▸ rfl
  rw [assign, run_within, run_bind_ok _ (run_evaluate_name hd hseen),
    run_bind_ok _ (run_evaluate_name hd hkey), inHeap, Run.lift_eq, run_bind, Run.run_onHeap, hset]
  rfl

theorem run_assign_mine (hmine : env.lookup? "mine" = none) (d : Nat) :
    (assign (evaluate limit) (.ident "mine" .dummy) (.int n)).run ⟨env, heap, d⟩ =
      (.ok (.int n), ⟨env.define "mine" (.int n), heap, d⟩) := by
  have hassign : env.assign "mine" (.int n) = env.define "mine" (.int n) := by
    rw [Environment.assign, Environment.set?_eq_none_iff.2 hmine]
    rfl
  rw [assign, run_within, Run.lift_eq, run_assignName, hmine, hassign]
  rfl

/-- Over a live map the body records, gives the number back, and leaves the globals as they are. -/
theorem run_body (hlimit : 2 ≤ limit) {body : List Stmt} (hbody : Body body)
    (hlive : heap.get? a = some (.entries m)) :
    ∃ own, (execBlock limit body).run
      ⟨Host.startEnvironment (globals a) (call (k, n)).args, heap, 0⟩ =
        (.ok (.int n),
          ⟨⟨[own], globals a⟩, heap.write a (.entries (m.insert (.str k) (.int n))), 0⟩) := by
  obtain ⟨s₁, s₂, h₁, h₂, herase⟩ := hbody
  let own : Scope := (SortedMap.empty.insert "key" (.str k)).insert "n" (.int n)
  let env : Environment := ⟨[own], globals a⟩
  let heap₁ : Heap := heap.write a (.entries (m.insert (.str k) (.int n)))
  have hstart : Host.startEnvironment (globals a) (call (k, n)).args = env :=
    Host.startEnvironment_eq _ _
  have hn (heap : Heap) (d : Nat) (hd : d < limit) :
      (evaluate limit (.ident "n" .dummy)).run ⟨env, heap, d⟩ = (.ok (.int n), ⟨env, heap, d⟩) :=
    run_evaluate_name hd rfl
  have hseen : (execStmt (evaluate limit) s₁).run ⟨env, heap, 0⟩ =
      (.ok (.next (.int n)), ⟨env, heap₁, 0⟩) :=
    run_execStmt_of_assigns h₁ hlimit (hn heap) fun d hd => run_assign_seen rfl rfl hlive hd
  have hmine : (execStmt (evaluate limit) s₂).run ⟨env, heap₁, 0⟩ =
      (.ok (.next (.int n)), ⟨env.define "mine" (.int n), heap₁, 0⟩) :=
    run_execStmt_of_assigns h₂ hlimit (hn heap₁) fun d _ => run_assign_mine rfl d
  have hreturned : (evaluate limit (.ident "mine" .dummy)).run
      ⟨env.define "mine" (.int n), heap₁, 0⟩ =
        (.ok (.int n), ⟨env.define "mine" (.int n), heap₁, 0⟩) :=
    run_evaluate_name (Nat.lt_of_succ_lt hlimit) (Environment.lookup?_define_self ..)
  refine ⟨own.insert "mine" (.int n), run_execBlock_of_eraseSpans ?_⟩
  have hall : (execStmts (evaluate limit) [s₁, s₂, .ret (some (.ident "mine" .dummy)) .dummy]
      .nil).run ⟨env, heap, 0⟩ =
        (.ok (.ret (.int n)), ⟨env.define "mine" (.int n), heap₁, 0⟩) := by
    rw [run_execStmts_of_next hseen, run_execStmts_of_next hmine, execStmts, execStmt, run_bind,
      run_within, run_bind_ok _ hreturned]
    rfl
  rw [herase, hstart, execBlock, run_bind_ok _ hall]
  rfl

end Run

/-! ### Recordings one after another -/

section Host

variable {host : Host} {f : Function} {heap : Heap} {a : Address} {m : SortedMap MapKey Value}

theorem invoke_call (hf : host.registry.get? "record" = some f) (hbody : Body f.body)
    (hdepth : 2 ≤ host.config.maxDepth) (hlive : heap.get? a = some (.entries m))
    (r : String × Int64) : host.invoke (call r) ⟨globals a, heap⟩ =
      (.ok (.int r.2), ⟨globals a, heap.write a (.entries (m.insert (.str r.1) (.int r.2)))⟩) := by
  obtain ⟨own, hrun⟩ := run_body (k := r.1) (n := r.2) hdepth hbody hlive
  rw [Host.invoke_eq hf]
  simp only [hrun]
  rfl

/-- Recordings one after another give their numbers, which the map has in the end. -/
theorem invokeAll_calls (hf : host.registry.get? "record" = some f) (hbody : Body f.body)
    (hdepth : 2 ≤ host.config.maxDepth) (records : List (String × Int64)) {heap : Heap}
    {m : SortedMap MapKey Value} (hlive : heap.get? a = some (.entries m)) :
    host.invokeAll (records.map call) ⟨globals a, heap⟩ =
      (records.map fun r => .ok (.int r.2),
        ⟨globals a, heap.write a (.entries (recorded m records))⟩) := by
  induction records generalizing heap m with
  | nil => rw [recorded, List.foldl_nil, Heap.write_of_get? hlive]; rfl
  | cons r records ih =>
    have hnext := ih (Heap.get?_write_self (.entries (m.insert (.str r.1) (.int r.2)))
      (Heap.lt_size_of_get? hlive))
    rw [Heap.write_write] at hnext
    rw [List.map_cons, Host.invokeAll, invoke_call hf hbody hdepth hlive]
    simp only [hnext]
    rfl

end Host

section Recorded

variable {m : SortedMap MapKey Value} {records records' : List (String × Int64)}

/-- Recordings under different keys commute. -/
theorem recorded_perm (hkeys : (records.map (·.1)).Nodup) (h : records.Perm records') :
    recorded m records = recorded m records' := by
  refine h.foldl_eq' (fun r hr r' hr' m => ?_) m
  by_cases hkey : r.1 = r'.1
  · rw [List.inj_on_of_nodup_map hkeys hr hr' hkey]
  · exact SortedMap.insert_comm _ _ _ fun h => hkey (MapKey.str.inj h)

/-- Keys under which nothing is recorded have the values that they had. -/
theorem get?_recorded_of_ne {key : MapKey} (h : ∀ r ∈ records, key ≠ .str r.1) :
    (recorded m records).get? key = m.get? key := by
  induction records generalizing m with
  | nil => rfl
  | cons r records ih =>
    rw [recorded, List.foldl_cons, ← recorded, ih fun r hr => h r (List.mem_cons_of_mem _ hr),
      SortedMap.get?_insert_ne _ _ (h r List.mem_cons_self)]

theorem get?_recorded (hkeys : (records.map (·.1)).Nodup) {r : String × Int64} (hr : r ∈ records) :
    (recorded m records).get? (.str r.1) = some (.int r.2) := by
  induction records generalizing m with
  | nil => cases hr
  | cons first records ih =>
    obtain ⟨hfirst, hrest⟩ := List.nodup_cons.1 hkeys
    rcases List.mem_cons.1 hr with rfl | hr
    · rw [recorded, List.foldl_cons, ← recorded, get?_recorded_of_ne fun r' hr' h => ?_,
        SortedMap.get?_insert_self]
      exact hfirst (List.mem_map.2 ⟨r', hr', (MapKey.str.inj h).symm⟩)
    · exact ih hrest hr

end Recorded

/-! ### Main statement -/

/-- Recordings under different keys give their own numbers, each in the position of its call, in
whatever order they run. The globals still bind `seen` alone, to the same map, which has in the end
what it had, and each number under its key; and nothing else on the heap has changed. The two
levels are those that the expressions of the body are nested. -/
theorem recording_in_any_order {host : Host} {f : Function}
    (hf : host.registry.get? "record" = some f) (hbody : Body f.body)
    (hdepth : 2 ≤ host.config.maxDepth) {heap : Heap} {a : Address} {m : SortedMap MapKey Value}
    (hlive : heap.get? a = some (.entries m)) {count : Nat} {records : Fin count → String × Int64}
    (hkeys : Function.Injective fun i => (records i).1) {order : List (Fin count)}
    (horder : order.Perm (List.finRange count)) :
    let final := recorded m (List.ofFn records)
    let after : Shared := ⟨globals a, heap.write a (.entries final)⟩
    host.invokeInOrder (fun i => call (records i)) order ⟨globals a, heap⟩ =
        (fun i => some (.ok (.int (records i).2)), after) ∧
      host.invokeAll (List.ofFn fun i => call (records i)) ⟨globals a, heap⟩ =
        (List.ofFn fun i => .ok (.int (records i).2), after) ∧
      (∀ i, final.get? (.str (records i).1) = some (.int (records i).2)) ∧
      ∀ key, (∀ i, key ≠ .str (records i).1) → final.get? key = m.get? key := by
  have hnodup : ((order.map records).map (·.1)).Nodup := by
    rw [List.map_map]
    exact (horder.nodup_iff.2 (List.nodup_finRange count)).map hkeys
  have hperm : (order.map records).Perm (List.ofFn records) := by
    rw [List.ofFn_eq_map]
    exact horder.map records
  refine ⟨?_, ?_, fun i => ?_, fun key hkey => get?_recorded_of_ne fun r hr => ?_⟩
  · have hrun := invokeAll_calls hf hbody hdepth (order.map records) hlive
    rw [recorded_perm hnodup hperm, List.map_map, List.map_map] at hrun
    exact Host.invokeInOrder_of_invokeAll (fun i => horder.mem_iff.2 (List.mem_finRange i)) hrun
  · have hrun := invokeAll_calls hf hbody hdepth (List.ofFn records) hlive
    simpa only [List.map_ofFn, Function.comp_def] using hrun
  · exact get?_recorded ((hperm.map _).nodup_iff.1 hnodup) (List.mem_ofFn.2 ⟨i, rfl⟩)
  · obtain ⟨i, rfl⟩ := List.mem_ofFn.1 hr
    exact hkey i

/-- A function that records. -/
def recorder : Function where
  id := "recordrecordrecordre"
  name := "record"
  api := false
  runAs? := none
  body :=
    [.expr (.assign (.item (.ident "seen" ⟨0, 4⟩) (.ident "key" ⟨5, 8⟩) ⟨0, 9⟩)
        (.ident "n" ⟨12, 13⟩) ⟨0, 13⟩) ⟨0, 13⟩,
      .assign [.ident "mine" ⟨15, 19⟩] [.ident "n" ⟨22, 23⟩] ⟨15, 23⟩,
      .ret (some (.ident "mine" ⟨32, 36⟩)) ⟨25, 36⟩]

def recordingHost : Host := ⟨.default, ⟨SortedMap.empty.insert "record" recorder,
  SortedMap.empty.insert "recordrecordrecordre" "record"⟩⟩

/-- What has been seen before. -/
def seenBefore : SortedMap MapKey Value := .ofList [(.str "a", .int 7), (.str "z", .int 9)]

/-- What has been seen in the end. -/
def seenAfter : SortedMap MapKey Value :=
  .ofList [(.str "a", .int 1), (.str "b", .int 2), (.str "c", .int 3), (.str "z", .int 9)]

/-- What is recorded. -/
def threeRecords : Fin 3 → String × Int64 := [("b", 2), ("a", 1), ("c", 3)].get

theorem recorder_body : Body recorder.body := ⟨_, _, .expr, .own, rfl⟩

/-- The last call is the first to run. -/
theorem recording_in_any_order_lastFirst :
    recordingHost.invokeInOrder (fun i => call (threeRecords i)) [2, 0, 1]
        ⟨globals 0, ⟨#[.entries seenBefore]⟩⟩ =
      (fun i => some (.ok (.int (threeRecords i).2)),
        ⟨globals 0, ⟨#[.entries seenAfter]⟩⟩) := by
  have hf : recordingHost.registry.get? "record" = some recorder := by decide +kernel
  have hkeys : Function.Injective fun i => (threeRecords i).1 := by
    intro i j
    revert i j
    decide
  have hfinal : recorded seenBefore (List.ofFn threeRecords) = seenAfter := by decide +kernel
  have horder : [2, 0, 1].Perm (List.finRange 3) := by decide
  have hlive : Heap.get? ⟨#[.entries seenBefore]⟩ 0 = some (.entries seenBefore) := rfl
  have hrun := (recording_in_any_order hf recorder_body (by decide) hlive hkeys horder).1
  rw [hfinal] at hrun
  exact hrun

end Recording

end TenantScript
