import TenantScript.Proofs.LiveMaps

/-!
Blocks one after the other. Main statement: the statements of two blocks in a row do what the first
block does, if it fails or reaches a `return`, however many loops are around that; and otherwise
they go on as the second block does, with its value, unless it completes without an expression
statement of its own. What is evaluated in the body of a loop is never the value of the block.
-/

open TenantScript.Action

namespace TenantScript

variable {ev : Expr → Run Value} {b b₁ b₂ : List Stmt} {t : Stmt} {v w last : Value}
  {st st' s s' : State}

/-! ### The value so far -/

/-- Goes on with `f` after statements that have ended normally. -/
def Flow.andThen (f : Value → Run Flow) : Flow → Run Flow
  | ret v => return ret v
  | next v => f v

/-- How statements end that have the value `last` unless one of them is an expression. -/
def Flow.over (b : List Stmt) (last : Value) : Flow → Flow
  | ret v => ret v
  | next v => next (if b.any Stmt.isExpr then v else last)

theorem execStmts_cons (t : Stmt) (b : List Stmt) (last : Value) : execStmts ev (t :: b) last =
    execStmt ev t >>= Flow.andThen fun v => execStmts ev b (if t.isExpr then v else last) := by
  rw [execStmts]
  rfl

theorem execStmts_append (b₁ b₂ : List Stmt) (last : Value) :
    execStmts ev (b₁ ++ b₂) last = execStmts ev b₁ last >>= Flow.andThen (execStmts ev b₂) := by
  induction b₁ generalizing last with
  | nil => rfl
  | cons t b₁ ih =>
    rw [List.cons_append, execStmts_cons, execStmts_cons, bind_assoc]
    congr 1
    funext flow
    cases flow with
    | ret v => rfl
    | next v => exact ih _

/-- What statements do does not depend on the value so far. -/
theorem execStmts_eq (b : List Stmt) (last : Value) :
    execStmts ev b last = Flow.over b last <$> execStmts ev b .nil := by
  induction b generalizing last with
  | nil => rfl
  | cons t b ih =>
    rw [execStmts_cons, execStmts_cons, map_bind]
    congr 1
    funext flow
    cases flow with
    | ret v => rfl
    | next v =>
      simp only [Flow.andThen]
      rw [ih (if t.isExpr then v else last), ih (if t.isExpr then v else .nil), ← comp_map]
      congr 1
      funext flow
      cases flow with
      | ret w => rfl
      | next w => cases ht : t.isExpr <;> cases hb : b.any Stmt.isExpr <;> simp [Flow.over, ht, hb]

/-! ### Statements that end normally -/

/-- Whether the statements of a block end normally, one after the other. -/
inductive Completes (ev : Expr → Run Value) : List Stmt → State → State → Prop
  | nil (st : State) : Completes ev [] st st
  | cons {t : Stmt} {b : List Stmt} {v : Value} {st s st' : State}
    (ht : (execStmt ev t).run st = (.ok (.next v), s)) (hb : Completes ev b s st') :
    Completes ev (t :: b) st st'

theorem run_execStmts_cons_next (ht : (execStmt ev t).run st = (.ok (.next v), s)) :
    (execStmts ev (t :: b) last).run st =
      (execStmts ev b (if t.isExpr then v else last)).run s := by
  rw [execStmts_cons, run_bind_ok _ ht]
  rfl

theorem Completes.exists_run (h : Completes ev b st st') (last : Value) :
    ∃ v, (execStmts ev b last).run st = (.ok (.next v), st') := by
  induction h generalizing last with
  | nil => exact ⟨last, rfl⟩
  | cons ht _ ih =>
    obtain ⟨v, hv⟩ := ih _
    exact ⟨v, (run_execStmts_cons_next ht).trans hv⟩

theorem completes_of_run (h : (execStmts ev b last).run st = (.ok (.next v), st')) :
    Completes ev b st st' := by
  induction b generalizing last st with
  | nil =>
    cases h
    exact .nil _
  | cons t b ih =>
    rw [execStmts_cons] at h
    obtain ⟨flow, s, ht, hb⟩ := exists_of_run_bind h
    cases flow with
    | ret w => cases hb
    | next w => exact .cons ht (ih hb)

/-! ### Turns of loops -/

section Loops

variable {bind : Value → Run Value} {body : Run Flow} {item : Value} {items before : List Value}
  {flow : Flow}

theorem run_loopTurn_eq_ok_iff : (loopTurn bind body item).run st = (.ok flow, st') ↔
    ∃ stored s s', (bind item).run { st with env := st.env.push } = (.ok stored, s) ∧
      body.run s = (.ok flow, s') ∧ st' = { s' with env := s'.env.pop } := by
  rw [loopTurn, Run.run_inScope]
  constructor
  · intro h
    obtain ⟨hresult, rfl⟩ := Prod.mk.inj h
    obtain ⟨stored, s, hbind, hbody⟩ := exists_of_run_bind (Prod.ext hresult rfl)
    exact ⟨stored, s, _, hbind, hbody, rfl⟩
  · rintro ⟨stored, s, s', hbind, hbody, rfl⟩
    rw [run_bind_ok _ hbind, hbody]

theorem forEach_cons (item : Value) (items : List Value) : forEach bind body (item :: items) =
    loopTurn bind body item >>= Flow.andThen fun _ => forEach bind body items := by
  rw [forEach]
  rfl

/-- After turns that have ended normally a loop goes on with the items that are left. -/
theorem run_forEach_append (h : Visits (loopTurn bind body) st before (.ok (.next .nil)) s) :
    (forEach bind body (before ++ items)).run st = (forEach bind body items).run s := by
  generalize hr : (Except.ok (Flow.next .nil) : Except EvalError Flow) = r at h
  induction h with
  | done => rfl
  | stop _ hstop => exact absurd hr.symm (hstop _)
  | next hturn _ ih =>
    rw [List.cons_append, forEach_cons, run_bind_ok _ hturn]
    exact ih hr

/-- A loop in which a `return` is reached has reached it in one of its turns. -/
theorem exists_turn_of_run_forEach (h : (forEach bind body items).run st = (.ok (.ret v), st')) :
    ∃ before item after s, items = before ++ item :: after ∧
      Visits (loopTurn bind body) st before (.ok (.next .nil)) s ∧
        (loopTurn bind body item).run s = (.ok (.ret v), st') := by
  induction items generalizing st with
  | nil => cases h
  | cons item items ih =>
    rw [forEach_cons] at h
    obtain ⟨flow, s, hturn, hrest⟩ := exists_of_run_bind h
    cases flow with
    | ret w =>
      cases hrest
      exact ⟨[], item, items, st, rfl, .done st, hturn⟩
    | next w =>
      obtain ⟨before, item', after, s', rfl, hbefore, hturn'⟩ := ih hrest
      exact ⟨item :: before, item', after, s', rfl, .next hturn hbefore, hturn'⟩

end Loops

/-! ### Statements that return -/

/-- Whether a block reaches a `return` of `v`, perhaps in loops, and leaves the state `st'`. -/
inductive Returns (ev : Expr → Run Value) : List Stmt → State → Value → State → Prop
  | bare {span : Span} {b : List Stmt} {st : State} : Returns ev (.ret none span :: b) st .nil st
  | value {e : Expr} {span : Span} {b : List Stmt} {v : Value} {st st' : State}
    (he : (ev e).run st = (.ok v, st')) : Returns ev (.ret (some e) span :: b) st v st'
  /-- In a turn of a loop, where the turns before have ended normally and none is taken after. -/
  | loop {var iterable : Expr} {body : List Stmt} {span : Span} {b : List Stmt}
    {before after : List Value} {u item stored v : Value} {st s₁ s₂ s₃ s₄ s₅ : State}
    (hiterable : (ev iterable).run st = (.ok u, s₁))
    (hitems : (Run.onHeap (readEach u)).run s₁ = (.ok (before ++ item :: after), s₂))
    (hbefore : Visits (loopTurn (assign ev var) (execStmts ev body .nil)) s₂ before
      (.ok (.next .nil)) s₃)
    (hbind : (assign ev var item).run { s₃ with env := s₃.env.push } = (.ok stored, s₄))
    (hbody : Returns ev body s₄ v s₅) :
    Returns ev (.forIn var iterable body span :: b) st v { s₅ with env := s₅.env.pop }
  /-- After a statement that ends normally. -/
  | later {t : Stmt} {b : List Stmt} {w v : Value} {st s st' : State}
    (ht : (execStmt ev t).run st = (.ok (.next w), s)) (hb : Returns ev b s v st') :
    Returns ev (t :: b) st v st'

theorem run_execStmts_cons_ret (ht : (execStmt ev t).run st = (.ok (.ret v), st')) :
    (execStmts ev (t :: b) last).run st = (.ok (.ret v), st') := by
  rw [execStmts_cons, run_bind_ok _ ht]
  rfl

/-- A `return` ends all loops around it, and the block. -/
theorem Returns.run (h : Returns ev b st v st') (last : Value) :
    (execStmts ev b last).run st = (.ok (.ret v), st') := by
  induction h generalizing last with
  | bare =>
    refine run_execStmts_cons_ret ?_
    rw [execStmt]
    rfl
  | value he =>
    refine run_execStmts_cons_ret ?_
    rw [execStmt, run_within, run_bind_ok _ he]
    rfl
  | loop hiterable hitems hbefore hbind _ ih =>
    refine run_execStmts_cons_ret ?_
    have hturn := run_loopTurn_eq_ok_iff.2 ⟨_, _, _, hbind, ih .nil, rfl⟩
    rw [execStmt, run_within, run_bind_ok _ hiterable, run_bind_ok _ hitems,
      run_forEach_append hbefore, forEach_cons, run_bind_ok _ hturn]
    rfl
  | later ht _ ih => exact (run_execStmts_cons_next ht).trans (ih _)

/-- The `return` in `for x in "ab" { for y in x { return y } }` ends both loops. -/
example : ((execBlock 1 [.forIn (.ident "x" .dummy) (.literal (.str "ab") .dummy)
    [.forIn (.ident "y" .dummy) (.ident "x" .dummy) [.ret (some (.ident "y" .dummy)) .dummy]
      .dummy] .dummy]).run default).1 = .ok (.str "a") := by
  decide +kernel

mutual
theorem Returns.of_execStmt : (t : Stmt) → {st st' : State} → {v : Value} → {b : List Stmt} →
    (execStmt ev t).run st = (.ok (.ret v), st') → Returns ev (t :: b) st v st'
  | .expr e span, st, st', v, b, h => by
    rw [execStmt] at h
    obtain ⟨w, s, _, h⟩ := exists_of_run_bind (run_of_run_within h)
    cases h
  | .assign targets values span, st, st', v, b, h => by
    rw [execStmt] at h
    obtain ⟨w, s, _, h⟩ := exists_of_run_bind (run_of_run_within h)
    cases h
  | .forIn var iterable body span, st, st', v, b, h => by
    rw [execStmt] at h
    obtain ⟨u, s₁, hiterable, h⟩ := exists_of_run_bind (run_of_run_within h)
    obtain ⟨items, s₂, hitems, hloop⟩ := exists_of_run_bind h
    obtain ⟨before, item, after, s₃, rfl, hbefore, hturn⟩ := exists_turn_of_run_forEach hloop
    obtain ⟨stored, s₄, s₅, hbind, hbody, rfl⟩ := run_loopTurn_eq_ok_iff.1 hturn
    exact .loop hiterable hitems hbefore hbind (Returns.of_execStmts body hbody)
  | .ret none span, st, st', v, b, h => by
    rw [execStmt] at h
    cases run_of_run_within h
    exact .bare
  | .ret (some e) span, st, st', v, b, h => by
    rw [execStmt] at h
    obtain ⟨w, s, he, h⟩ := exists_of_run_bind (run_of_run_within h)
    cases h
    exact .value he

theorem Returns.of_execStmts : (b : List Stmt) → {st st' : State} → {v last : Value} →
    (execStmts ev b last).run st = (.ok (.ret v), st') → Returns ev b st v st'
  | [], _, _, _, _, h => nomatch h
  | t :: b, st, st', v, last, h => by
    rw [execStmts_cons] at h
    obtain ⟨flow, s, ht, hb⟩ := exists_of_run_bind h
    cases flow with
    | ret w =>
      cases hb
      exact Returns.of_execStmt t ht
    | next w => exact .later ht (Returns.of_execStmts b hb)
end

/-! ### Values of blocks -/

theorem run_execStmts_eq (b : List Stmt) (last : Value) (st : State) :
    (execStmts ev b last).run st = (((execStmts ev b .nil).run st).1.map (Flow.over b last),
      ((execStmts ev b .nil).run st).2) := by
  rw [execStmts_eq, map_eq_pure_bind, run_bind]
  rcases (execStmts ev b .nil).run st with ⟨_ | _, _⟩ <;> rfl

/-- Statements that complete without an expression among them keep the value so far. -/
theorem Completes.run_of_silent (h : Completes ev b st st') (hb : ∀ t ∈ b, t.isExpr = false)
    (last : Value) : (execStmts ev b last).run st = (.ok (.next last), st') := by
  obtain ⟨v, hv⟩ := h.exists_run .nil
  have hany : b.any Stmt.isExpr = false := List.any_eq_false.2 fun t ht => by simp [hb t ht]
  rw [run_execStmts_eq, hv]
  simp [Except.map, Flow.over, hany]

/-- Other statements do what they do on their own. -/
theorem run_execStmts_of_overtaken
    (h : (∃ t ∈ b, t.isExpr = true) ∨ ∀ st', ¬Completes ev b st st') (last : Value) :
    (execStmts ev b last).run st = (execStmts ev b .nil).run st := by
  rw [run_execStmts_eq]
  rcases hb : (execStmts ev b .nil).run st with ⟨e | flow, st'⟩
  · rfl
  · cases flow with
    | ret v => rfl
    | next v =>
      have hany : b.any Stmt.isExpr = true := by
        rcases h with h | h
        · exact List.any_eq_true.2 h
        · exact absurd (completes_of_run hb) (h st')
      simp [Except.map, Flow.over, hany]

/-- What statements that complete are worth: what their last expression statement was evaluated to,
or `init` if there is none. An expression in the body of a loop is not one of the statements. -/
inductive Worth (ev : Expr → Run Value) (init : Value) (st st' : State) : List Stmt → Value → Prop
  | none {b : List Stmt} (hsilent : ∀ t ∈ b, t.isExpr = false) : Worth ev init st st' b init
  | last {before after : List Stmt} {e : Expr} {span : Span} {v : Value} {s s' : State}
    (hbefore : Completes ev before st s) (he : (ev e).run s = (.ok v, s'))
    (hafter : Completes ev after s' st') (hsilent : ∀ t ∈ after, t.isExpr = false) :
    Worth ev init st st' (before ++ .expr e span :: after) v

theorem Worth.cons (ht : (execStmt ev t).run st = (.ok (.next w), s))
    (hb : Completes ev b s st') (h : Worth ev (if t.isExpr then w else last) s st' b v) :
    Worth ev last st st' (t :: b) v := by
  cases h with
  | last hbefore he hafter hsilent =>
    rw [← List.cons_append]
    exact .last (.cons ht hbefore) he hafter hsilent
  | none hsilent =>
    cases t with
    | expr e span =>
      rw [execStmt] at ht
      obtain ⟨u, s', he, hu⟩ := exists_of_run_bind (run_of_run_within ht)
      cases hu
      have hworth : Worth ev last st st' ([] ++ .expr e span :: b) _ :=
        .last (.nil st) he hb hsilent
      exact hworth
    | assign | forIn | ret => exact .none (List.forall_mem_cons.2 ⟨rfl, hsilent⟩)

theorem worth_of_run (h : (execStmts ev b last).run st = (.ok (.next v), st')) :
    Worth ev last st st' b v := by
  induction b generalizing last st with
  | nil =>
    cases h
    exact .none fun _ ht => nomatch ht
  | cons t b ih =>
    rw [execStmts_cons] at h
    obtain ⟨flow, s, ht, hb⟩ := exists_of_run_bind h
    cases flow with
    | ret w => cases hb
    | next w => exact (ih hb).cons ht (completes_of_run hb)

/-! ### Blocks in a row -/

theorem Completes.run_append (h : Completes ev b₁ st s) (b₂ : List Stmt) (last : Value) :
    ∃ v, (execStmts ev b₁ last).run st = (.ok (.next v), s) ∧
      (execStmts ev (b₁ ++ b₂) last).run st = (execStmts ev b₂ v).run s := by
  obtain ⟨v, hv⟩ := h.exists_run last
  exact ⟨v, hv, by rw [execStmts_append, run_bind_ok _ hv]; rfl⟩

theorem Returns.append (h : Returns ev b₁ st v s) (b₂ : List Stmt) :
    Returns ev (b₁ ++ b₂) st v s := by
  have hrun : (execStmts ev (b₁ ++ b₂) .nil).run st = (.ok (.ret v), s) := by
    rw [execStmts_append, run_bind_ok _ (h.run .nil)]
    rfl
  exact Returns.of_execStmts (b₁ ++ b₂) hrun

theorem completes_append_iff : Completes ev (b₁ ++ b₂) st s' ↔
    ∃ s, Completes ev b₁ st s ∧ Completes ev b₂ s s' := by
  constructor
  · intro h
    obtain ⟨v, hv⟩ := h.exists_run .nil
    rw [execStmts_append] at hv
    obtain ⟨flow, s, h₁, h₂⟩ := exists_of_run_bind hv
    cases flow with
    | ret w => cases h₂
    | next w => exact ⟨s, completes_of_run h₁, completes_of_run h₂⟩
  · rintro ⟨s, h₁, h₂⟩
    obtain ⟨v, -, happend⟩ := h₁.run_append b₂ .nil
    obtain ⟨w, hw⟩ := h₂.exists_run v
    exact completes_of_run (happend.trans hw)

theorem returns_append_iff : Returns ev (b₁ ++ b₂) st v s' ↔
    Returns ev b₁ st v s' ∨ ∃ s, Completes ev b₁ st s ∧ Returns ev b₂ s v s' := by
  constructor
  · intro h
    have hrun := h.run .nil
    rw [execStmts_append] at hrun
    obtain ⟨flow, s, h₁, h₂⟩ := exists_of_run_bind hrun
    cases flow with
    | ret w =>
      cases h₂
      exact .inl (Returns.of_execStmts b₁ h₁)
    | next w => exact .inr ⟨s, completes_of_run h₁, Returns.of_execStmts b₂ h₂⟩
  · rintro (h | ⟨s, h₁, h₂⟩)
    · exact h.append b₂
    · obtain ⟨w, -, happend⟩ := h₁.run_append b₂ .nil
      exact Returns.of_execStmts (b₁ ++ b₂) (happend.trans (h₂.run w))

/-- A block either returns or completes. -/
theorem Returns.not_completes (h : Returns ev b st v s) : ¬Completes ev b st s' := by
  intro hcompletes
  obtain ⟨w, hw⟩ := hcompletes.exists_run .nil
  cases (h.run .nil).symm.trans hw

theorem run_execBlock (limit : Nat) (b : List Stmt) (st : State) : (execBlock limit b).run st =
    (((execStmts (evaluate limit) b .nil).run st).1.map Flow.value,
      ((execStmts (evaluate limit) b .nil).run st).2) := by
  rw [execBlock, run_bind]
  rcases (execStmts (evaluate limit) b .nil).run st with ⟨_ | _, _⟩ <;> rfl

/-! ### Main statement -/

/-- What the statements of `b₁` and of `b₂` in a row do. -/
structure BlocksCompose (limit : Nat) (b₁ b₂ : List Stmt) (st : State) : Prop where
  /-- A block fails, or returns, or completes. -/
  ends : (∃ e s, (execBlock limit b₁).run st = (.error e, s)) ∨
    (∃ v s, Returns (evaluate limit) b₁ st v s) ∨ ∃ s, Completes (evaluate limit) b₁ st s
  failed : ∀ {e s}, (execBlock limit b₁).run st = (.error e, s) →
    (execBlock limit (b₁ ++ b₂)).run st = (.error e, s)
  /-- If the first block returns, out of any loops, then both do. -/
  returned : ∀ {v s}, Returns (evaluate limit) b₁ st v s →
    (execBlock limit b₁).run st = (.ok v, s) ∧ (execBlock limit (b₁ ++ b₂)).run st = (.ok v, s) ∧
      ∀ s', ¬Completes (evaluate limit) b₁ st s'
  /-- If it completes, then it has the value of its last expression statement. -/
  worth : ∀ {s}, Completes (evaluate limit) b₁ st s → ∃ v,
    (execBlock limit b₁).run st = (.ok v, s) ∧ Worth (evaluate limit) .nil st s b₁ v
  /-- The second block goes on from there, with its own value if it has an expression statement or
  does not complete. -/
  overtaken : ∀ {s}, Completes (evaluate limit) b₁ st s →
    ((∃ t ∈ b₂, t.isExpr = true) ∨ ∀ s', ¬Completes (evaluate limit) b₂ s s') →
    (execBlock limit (b₁ ++ b₂)).run st = (execBlock limit b₂).run s
  /-- Otherwise the value is that of the first block. -/
  kept : ∀ {v s s'}, Completes (evaluate limit) b₁ st s →
    (execBlock limit b₁).run st = (.ok v, s) → Completes (evaluate limit) b₂ s s' →
    (∀ t ∈ b₂, t.isExpr = false) → (execBlock limit (b₁ ++ b₂)).run st = (.ok v, s')
  /-- Both blocks complete if each does, and return if one of them does. -/
  completes_iff : ∀ {s'}, Completes (evaluate limit) (b₁ ++ b₂) st s' ↔
    ∃ s, Completes (evaluate limit) b₁ st s ∧ Completes (evaluate limit) b₂ s s'
  returns_iff : ∀ {v s'}, Returns (evaluate limit) (b₁ ++ b₂) st v s' ↔
    Returns (evaluate limit) b₁ st v s' ∨
      ∃ s, Completes (evaluate limit) b₁ st s ∧ Returns (evaluate limit) b₂ s v s'

/-- Blocks compose. -/
theorem blocks_compose (limit : Nat) (b₁ b₂ : List Stmt) (st : State) :
    BlocksCompose limit b₁ b₂ st where
  ends := by
    rcases hrun : (execStmts (evaluate limit) b₁ .nil).run st with ⟨e | flow, s⟩
    · exact .inl ⟨e, s, by rw [run_execBlock, hrun]; rfl⟩
    · cases flow with
      | ret v => exact .inr (.inl ⟨v, s, Returns.of_execStmts b₁ hrun⟩)
      | next v => exact .inr (.inr ⟨s, completes_of_run hrun⟩)
  failed {e s} h := by
    rw [run_execBlock] at h
    rcases hrun : (execStmts (evaluate limit) b₁ .nil).run st with ⟨e' | flow, s'⟩
    · rw [hrun] at h
      cases h
      rw [run_execBlock, execStmts_append, run_bind_error _ hrun]
      rfl
    · rw [hrun] at h
      cases h
  returned {v s} h := by
    refine ⟨?_, ?_, fun s' => h.not_completes⟩
    · rw [run_execBlock, h.run .nil]
      rfl
    · rw [run_execBlock, (h.append b₂).run .nil]
      rfl
  worth {s} h := by
    obtain ⟨v, hv⟩ := h.exists_run .nil
    exact ⟨v, by rw [run_execBlock, hv]; rfl, worth_of_run hv⟩
  overtaken {s} h hb := by
    obtain ⟨v, -, happend⟩ := h.run_append b₂ .nil
    rw [run_execBlock, happend, run_execStmts_of_overtaken hb, run_execBlock]
  kept {v s s'} h hv hb hsilent := by
    obtain ⟨w, hw, happend⟩ := h.run_append b₂ .nil
    rw [run_execBlock, hw] at hv
    cases hv
    rw [run_execBlock, happend, hb.run_of_silent hsilent]
    rfl
  completes_iff := completes_append_iff
  returns_iff := returns_append_iff

end TenantScript
