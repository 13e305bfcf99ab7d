import TenantScript.Proofs.Congruence
import TenantScript.Proofs.Scopes

/-!
The limit on nesting. Main statement: however a run ends, it is at the depth again at which it
started; an expression that is no higher than the levels that are left is never nested too deeply;
and a run that is not nested too deeply ends in the same way, in the same state, under every
greater limit.
-/

open TenantScript.Action

namespace TenantScript

/-! ### The height of an expression -/

namespace Expr

mutual
/-- The number of nodes on the longest way down from the outermost node. -/
def treeHeight : Expr → Nat
  | literal .. | ident .. => 1
  | array xs _ => treeHeights xs + 1
  | member o _ _ => o.treeHeight + 1
  | item c i _ => max c.treeHeight i.treeHeight + 1
  | slice c a b _ => max c.treeHeight (max (boundHeight a) (boundHeight b)) + 1
  | deref p _ => p.treeHeight + 1
  | assign t v _ => max t.treeHeight v.treeHeight + 1
termination_by structural e => e

/-- The greatest height of the expressions of a list. -/
def treeHeights : List Expr → Nat
  | [] => 0
  | x :: xs => max x.treeHeight (treeHeights xs)
termination_by structural es => es

/-- The height of a bound; a missing one has none. -/
def boundHeight : Option Expr → Nat
  | none => 0
  | some e => e.treeHeight
termination_by structural bound => bound
end

theorem treeHeight_le_of_mem : {es : List Expr} → {e : Expr} → e ∈ es →
    e.treeHeight ≤ treeHeights es
  | x :: xs, e, h => by
    rw [treeHeights]
    rcases List.mem_cons.1 h with rfl | h
    · exact Nat.le_max_left _ _
    · exact Nat.le_trans (treeHeight_le_of_mem h) (Nat.le_max_right _ _)

/-- The parts of an expression are less high than it. -/
theorem treeHeight_le_of_mem_children {e c : Expr} {n : Nat} (h : c ∈ e.children)
    (he : e.treeHeight ≤ n + 1) : c.treeHeight ≤ n := by
  refine Nat.le_of_lt_succ (Nat.lt_of_lt_of_le ?_ he)
  cases e with
  | literal | ident => cases h
  | array xs =>
    have : c.treeHeight ≤ treeHeights xs := treeHeight_le_of_mem h
    rw [treeHeight]
    omega
  | slice collection start stop =>
    simp only [children, List.mem_cons, List.mem_append, Option.mem_toList] at h
    rw [treeHeight]
    rcases h with rfl | rfl | rfl
    · omega
    all_goals
      rw [boundHeight]
      omega
  | member | deref =>
    obtain rfl := List.mem_singleton.1 h
    rw [treeHeight]
    omega
  | item | assign =>
    simp only [children, List.mem_cons, List.not_mem_nil, or_false] at h
    rw [treeHeight]
    rcases h with rfl | rfl <;> omega

end Expr

/-! ### Runs that are not nested too deeply -/

/-- Whether a run failed because expressions were nested too deeply. -/
def isTooDeep {α : Type} : Except EvalError α → Bool
  | .ok _ => false
  | .error e => e.cause.isDepthLimit

theorem isTooDeep_mapError {α : Type} (r : Except EvalError α) (span : Span) :
    isTooDeep (r.mapError (·.orAt span)) = isTooDeep r := by
  cases r with
  | ok a => rfl
  | error e => exact congrArg Cause.isDepthLimit (e.cause_orAt span)

theorem isTooDeep_onHeap {α : Type} {x : Action Heap α} (hx : x.FailsPlainly) (st : State) :
    isTooDeep ((Run.onHeap x).run st).1 = false := by
  rw [Run.run_onHeap]
  cases hr : (x.run st.heap).1 with
  | ok a => rfl
  | error e => exact (hx st.heap e hr).cause

/-- The state at another depth. -/
def State.atDepth (st : State) (d : Nat) : State := { st with depth := d }

/-- From depth `d`, a run of the first action comes back to depth `d`, and its nesting is not too
deep. -/
def shallow (d : Nat) : Congruence fun _ => True where
  Rel x _ := ∀ st, st.depth = d → (x.run st).2.depth = d ∧ isTooDeep (x.run st).1 = false
  pure _ _ hd := ⟨hd, rfl⟩
  fail hc _ hd := ⟨hd, hc⟩
  bind {_ _ x _ _ _} hx hf st hd := by
    obtain ⟨hback, hdeep⟩ := hx st hd
    rw [run_bind]
    rcases hr : x.run st with ⟨e | a, st₁⟩
    · rw [hr] at hback hdeep
      exact ⟨hback, hdeep⟩
    · rw [hr] at hback
      exact hf a st₁ hback
  within hx st hd := by
    rw [run_within, isTooDeep_mapError]
    exact hx st hd
  inScope hx st hd := by
    exact hx { st with env := st.env.push } hd
  onHeap hx st hd := ⟨hd, isTooDeep_onHeap hx st⟩
  lookup _ _ hd := ⟨hd, rfl⟩
  assignName _ v st hd := by
    rw [run_assignName]
    split <;> exact ⟨hd, rfl⟩

/-- From depth `d`, a run of the first action comes back to depth `d`, and if its nesting is not too
deep, then the second action does the same from the same state at depth `d'`. -/
def deeper (d d' : Nat) : Congruence fun _ => True where
  Rel x y := ∀ st, st.depth = d → (x.run st).2.depth = d ∧ (isTooDeep (x.run st).1 = false →
    y.run (st.atDepth d') = ((x.run st).1, (x.run st).2.atDepth d'))
  pure _ _ hd := ⟨hd, fun _ => rfl⟩
  fail _ _ hd := ⟨hd, fun _ => rfl⟩
  bind {_ _ x y _ _} hx hf st hd := by
    obtain ⟨hback, hsame⟩ := hx st hd
    rw [run_bind, run_bind]
    rcases hr : x.run st with ⟨e | a, st₁⟩
    · rw [hr] at hback hsame
      exact ⟨hback, fun hdeep => by rw [hsame hdeep]⟩
    · rw [hr] at hback hsame
      rw [hsame rfl]
      exact hf a st₁ hback
  within hx st hd := by
    obtain ⟨hback, hsame⟩ := hx st hd
    rw [run_within, run_within, isTooDeep_mapError]
    exact ⟨hback, fun hdeep => by rw [hsame hdeep]⟩
  inScope hx st hd := by
    obtain ⟨hback, hsame⟩ := hx { st with env := st.env.push } hd
    refine ⟨hback, fun hdeep => ?_⟩
    rw [Run.run_inScope]
    simp only
    rw [show ({ st.atDepth d' with env := (st.atDepth d').env.push } : State) =
      State.atDepth { st with env := st.env.push } d' from rfl, hsame hdeep]
    rfl
  onHeap _ st hd := ⟨hd, fun _ => rfl⟩
  lookup _ _ hd := ⟨hd, fun _ => rfl⟩
  assignName _ v st hd := by
    rw [run_assignName, run_assignName]
    show State.depth _ = d ∧ (_ → (if (st.env.lookup? _).isNone && _ then _ else _) = _)
    split <;> exact ⟨hd, fun _ => rfl⟩

/-- Entering a level of nesting. -/
theorem shallow_nested {α : Type} {d : Nat} {x y : Run α} (h : (shallow (d + 1)).Rel x y) :
    (shallow d).Rel (Run.nested x) (Run.nested y) := by
  intro st hd
  obtain ⟨hback, hdeep⟩ := h { st with depth := st.depth + 1 } (congrArg (· + 1) hd)
  rw [Run.run_nested]
  exact ⟨congrArg (· - 1) hback, hdeep⟩

theorem deeper_nested {α : Type} {d d' : Nat} {x y : Run α}
    (h : (deeper (d + 1) (d' + 1)).Rel x y) :
    (deeper d d').Rel (Run.nested x) (Run.nested y) := by
  intro st hd
  obtain ⟨hback, hsame⟩ := h { st with depth := st.depth + 1 } (congrArg (· + 1) hd)
  rw [Run.run_nested, Run.run_nested]
  refine ⟨congrArg (· - 1) hback, fun hdeep => ?_⟩
  have henter : ({ st.atDepth d' with depth := (st.atDepth d').depth + 1 } : State) =
    State.atDepth { st with depth := st.depth + 1 } (d' + 1) := rfl
  simp only
  rw [henter, hsame hdeep]
  rfl

/-! ### Expressions -/

/-- An expression that is no higher than the levels that are left is not nested too deeply. -/
theorem evaluateWithin_shallow (limit : Nat) : (room : Nat) → {e : Expr} → e.treeHeight ≤ room →
    (d : Nat) → (shallow d).Rel (evaluateWithin limit room e) (evaluateWithin limit room e)
  | 0, e, he, d => by
    cases e <;> simp [Expr.treeHeight] at he
  | room + 1, e, he, d => by
    have hparts : (shallow (d + 1)).Relates (evaluateWithin limit room)
        (evaluateWithin limit room) fun c => c.treeHeight ≤ room :=
      ⟨fun hc => evaluateWithin_shallow limit room hc (d + 1),
        fun hc hmem => Expr.treeHeight_le_of_mem_children hmem (Nat.le_succ_of_le hc),
        fun _ => trivial⟩
    refine (shallow d).within (shallow_nested (hparts.evaluateNode e (fun c hc => ?_)
      fun _ _ _ => trivial))
    exact Expr.treeHeight_le_of_mem_children hc he

/-- With more levels left, and at any depth, an expression that was not nested too deeply does what
it did. -/
theorem evaluateWithin_deeper (limit limit' : Nat) : {room room' : Nat} → room ≤ room' →
    (e : Expr) → (d d' : Nat) →
      (deeper d d').Rel (evaluateWithin limit room e) (evaluateWithin limit' room' e)
  | 0, _, _, e, d, d' => by
    refine fun st hd => ⟨hd, fun hdeep => ?_⟩
    rw [evaluateWithin, run_within, isTooDeep_mapError] at hdeep
    cases hdeep
  | room + 1, room' + 1, hroom, e, d, d' => by
    have hparts : (deeper (d + 1) (d' + 1)).Relates (evaluateWithin limit room)
        (evaluateWithin limit' room') fun _ => True :=
      ⟨fun {e} _ => evaluateWithin_deeper limit limit' (Nat.le_of_succ_le_succ hroom) e _ _,
        fun _ _ => trivial, fun _ => trivial⟩
    exact (deeper d d').within (deeper_nested (hparts.evaluateNode e (fun _ _ => trivial)
      fun _ _ _ => trivial))

theorem evaluate_shallow {limit d : Nat} {e : Expr} (he : e.treeHeight ≤ limit - d) :
    (shallow d).Rel (evaluate limit e) (evaluate limit e) := by
  rintro st rfl
  exact evaluateWithin_shallow limit _ he st.depth st rfl

theorem evaluate_deeper {limit limit' d d' : Nat} (h : limit - d ≤ limit' - d') (e : Expr) :
    (deeper d d').Rel (evaluate limit e) (evaluate limit' e) := by
  rintro st rfl
  exact evaluateWithin_deeper limit limit' h e st.depth d' st rfl

/-- What has a value has it at its outermost node, also where the state is not one level deeper. -/
theorem node_of_evaluate {limit : Nat} {e : Expr} {v : Value} {st s : State}
    (h : (evaluate limit e).run st = (.ok v, s)) :
    (evaluateNode (evaluateWithin limit (limit - st.depth)) e).run st = (.ok v, s) := by
  obtain ⟨room, s₁, hroom, hnode, rfl⟩ := node_of_evaluateWithin h
  have hparts : (deeper (st.depth + 1) st.depth).Relates (evaluateWithin limit room)
      (evaluateWithin limit (limit - st.depth)) fun _ => True :=
    ⟨fun {e} _ => evaluateWithin_deeper limit limit (by omega) e _ _, fun _ _ => trivial,
      fun _ => trivial⟩
  obtain ⟨hback, hsame⟩ := hparts.evaluateNode e (fun _ _ => trivial) (fun _ _ _ => trivial)
    { st with depth := st.depth + 1 } rfl
  rw [hnode] at hback hsame
  have hdepth : s₁.depth - 1 = st.depth := by
    rw [show s₁.depth = st.depth + 1 from hback]
    rfl
  rw [hdepth]
  exact hsame rfl

theorem shallow_relates (limit d : Nat) : (shallow d).Relates (evaluate limit) (evaluate limit)
    fun e => e.treeHeight ≤ limit - d :=
  ⟨evaluate_shallow,
    fun he hc => Expr.treeHeight_le_of_mem_children hc (Nat.le_succ_of_le he),
    fun _ => trivial⟩

theorem deeper_relates {limit limit' d d' : Nat} (h : limit - d ≤ limit' - d') :
    (deeper d d').Relates (evaluate limit) (evaluate limit') fun _ => True :=
  ⟨fun {e} _ => evaluate_deeper h e, fun _ _ => trivial, fun _ => trivial⟩

/-! ### Main statement -/

/-- What the limit means for a family of runs, one for each limit, of something of which the
expressions have at most the height `height`. -/
structure Limited {α : Type} (run : Nat → Run α) (height limit : Nat) (st : State) : Prop where
  /-- However the run ends, it is at the depth again at which it started. -/
  restores : ((run limit).run st).2.depth = st.depth
  /-- There is room for expressions that are no higher than the levels that are left. -/
  fits : height ≤ limit - st.depth → isTooDeep ((run limit).run st).1 = false
  /-- A greater limit makes no difference to a run that is not nested too deeply. -/
  unobserved : ∀ limit', limit ≤ limit' → isTooDeep ((run limit).run st).1 = false →
    (run limit').run st = (run limit).run st

theorem limited_of_rel {α : Type} {run : Nat → Run α} {height : Nat} {limit : Nat} {st : State}
    (hshallow : height ≤ limit - st.depth → (shallow st.depth).Rel (run limit) (run limit))
    (hdeeper : ∀ limit', limit ≤ limit' →
      (deeper st.depth st.depth).Rel (run limit) (run limit')) : Limited run height limit st where
  restores := (hdeeper limit (Nat.le_refl limit) st rfl).1
  fits h := (hshallow h st rfl).2
  unobserved limit' hle hdeep := by
    obtain ⟨hback, hsame⟩ := hdeeper limit' hle st rfl
    have hrun := hsame hdeep
    rw [show st.atDepth st.depth = st from rfl] at hrun
    rw [hrun, ← hback]
    rfl

/-- The limit on nesting is restoring, sufficient and otherwise unobservable, for every expression,
every assignment and every block. -/
theorem nesting_limited (limit : Nat) (st : State) :
    (∀ e, Limited (fun l => evaluate l e) e.treeHeight limit st) ∧
      (∀ t v, Limited (fun l => assign (evaluate l) t v) t.treeHeight limit st) ∧
        ∀ body, Limited (fun l => execBlock l body) (Expr.treeHeights (Stmt.blockExprs body))
          limit st := by
  have hrelates (limit' : Nat) (hle : limit ≤ limit') :=
    deeper_relates (Nat.sub_le_sub_right hle st.depth)
  refine ⟨fun e => ?_, fun t v => ?_, fun body => ?_⟩
  · exact limited_of_rel evaluate_shallow fun limit' hle => (hrelates limit' hle).rel trivial
  · exact limited_of_rel (fun ht => (shallow_relates limit st.depth).assign t v ht)
      fun limit' hle => (hrelates limit' hle).assign t v trivial
  · refine limited_of_rel (fun hbody => ?_) fun limit' hle => ?_
    · have hparts := (shallow_relates limit st.depth).execStmts body
        (fun e he => Nat.le_trans (Expr.treeHeight_le_of_mem he) hbody) .nil
      exact (shallow st.depth).bind hparts fun flow => (shallow st.depth).pure flow.value
    · have hparts := (hrelates limit' hle).execStmts body (fun _ _ => trivial) .nil
      exact (deeper st.depth st.depth).bind hparts fun flow =>
        (deeper st.depth st.depth).pure flow.value

/-- `[[1]]`, which has three levels. -/
def nestedArrays : Expr := .array [.array [.literal (.int 1) .dummy] .dummy] .dummy

/-- An empty state in which one level has been entered. -/
def enteredState : State := State.atDepth default 1

/-- Of four levels three are left, which is just enough. -/
theorem nesting_limited_nestedArrays :
    nestedArrays.treeHeight ≤ 4 - enteredState.depth ∧
      isTooDeep ((evaluate 3 nestedArrays).run enteredState).1 = true ∧
        isTooDeep ((evaluate 4 nestedArrays).run enteredState).1 = false ∧
          ((evaluate 4 nestedArrays).run enteredState).2.depth = 1 ∧
            (evaluate 512 nestedArrays).run enteredState =
              (evaluate 4 nestedArrays).run enteredState := by
  have hlimited := (nesting_limited 4 enteredState).1 nestedArrays
  have hheight : nestedArrays.treeHeight ≤ 4 - enteredState.depth := by decide
  have hdeep := hlimited.fits hheight
  exact ⟨hheight, by decide, hdeep, hlimited.restores, hlimited.unobserved 512 (by decide) hdeep⟩

end TenantScript
