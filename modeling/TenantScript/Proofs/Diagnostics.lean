import TenantScript.Proofs.Course

/-!
Where failures are placed. A call that fails has failed on its own account, or else one of the calls
that it made has failed, and it fails in the same way. Main statement: in a block whose nodes all
have places, a failure is that of an innermost call and is placed at the node of that call; and
every call through which it came out, each of which is about a node around that one, reports this
very failure.
-/

open TenantScript.Action

namespace TenantScript

/-! ### The calls that are made -/

/-- From the state `st`, the course makes the call `c` in the state `st'`. -/
inductive Course.Makes (ev : Expr → Run Value) :
    {α β : Type} → Course α → State → Call β → State → Prop where
  | here {α β : Type} {c : Call β} {next : β → Course α} {st : State} :
    Makes ev (.call c next) st c st
  | afterStep {α β γ : Type} {x : Run γ} {plain : x.FailsPlainly} {next : γ → Course α}
    {c : Call β} {st st₁ st' : State} {b : γ} (hx : x.run st = (.ok b, st₁))
    (h : Makes ev (next b) st₁ c st') : Makes ev (.step x plain next) st c st'
  | afterCall {α β γ : Type} {c₀ : Call γ} {next : γ → Course α} {c : Call β}
    {st st₁ st' : State} {b : γ} (hc₀ : (c₀.run ev).run st = (.ok b, st₁))
    (h : Makes ev (next b) st₁ c st') : Makes ev (.call c₀ next) st c st'
  | inside {α β γ : Type} {inner : Course γ} {next : γ → Course α} {c : Call β}
    {st st' : State} (h : Makes ev inner { st with env := st.env.push } c st') :
    Makes ev (.inScope inner next) st c st'
  | afterScope {α β γ : Type} {inner : Course γ} {next : γ → Course α} {c : Call β}
    {st st₁ st' : State} {b : γ} (hinner : (Run.inScope (inner.run ev)).run st = (.ok b, st₁))
    (h : Makes ev (next b) st₁ c st') : Makes ev (.inScope inner next) st c st'

namespace Course

variable {α β : Type} {ev : Expr → Run Value} {p : Course α} {c : Call β} {st st' : State}
  {e : EvalError}

theorem Makes.of_all {P : ∀ {β : Type}, Call β → Prop} (h : p.Makes ev st c st') (hp : p.All P) :
    P c := by
  induction h with
  | here => exact hp.1
  | afterStep _ _ ih => exact ih (hp _)
  | afterCall _ _ ih => exact ih (hp.2 _)
  | inside _ ih => exact ih hp.1
  | afterScope _ _ ih => exact ih (hp.2 _)

/-- A course in which a call fails fails in the same way. -/
theorem Makes.failed (h : p.Makes ev st c st') (hc : ((c.run ev).run st').1 = .error e) :
    ((p.run ev).run st).1 = .error e := by
  induction h with
  | here => exact fst_run_bind_eq_error_iff.2 (.inl hc)
  | afterStep hx _ ih =>
    rw [run, run_bind_ok _ hx]
    exact ih hc
  | afterCall hc₀ _ ih =>
    rw [run, run_bind_ok _ hc₀]
    exact ih hc
  | inside _ ih => exact fst_run_bind_eq_error_iff.2 (.inl (ih hc))
  | afterScope hinner _ ih =>
    rw [run, run_bind_ok _ hinner]
    exact ih hc

/-- From the state `st`, the course makes a call that fails with `e`. -/
def FailsIn (ev : Expr → Run Value) (p : Course α) (st : State) (e : EvalError) : Prop :=
  ∃ (β : Type) (c : Call β) (st' : State), p.Makes ev st c st' ∧ ((c.run ev).run st').1 = .error e

theorem FailsIn.imp {p' : Course β} {st₁ : State}
    (h : ∀ {γ : Type} {c : Call γ} {st' : State}, p.Makes ev st c st' → p'.Makes ev st₁ c st')
    (hfail : p.FailsIn ev st e) : p'.FailsIn ev st₁ e := by
  obtain ⟨γ, c, st', hmakes, hc⟩ := hfail
  exact ⟨γ, c, st', h hmakes, hc⟩

/-- A course fails on its own account, without a place, or because a call fails in the same way. -/
theorem cases_of_failed (h : ((p.run ev).run st).1 = .error e) :
    e.span? = none ∨ p.FailsIn ev st e := by
  induction p generalizing st with
  | done a => cases h
  | step x plain next ih =>
    rcases fst_run_bind_eq_error_iff.1 h with hx | ⟨b, st₁, hx, hnext⟩
    · exact .inl (plain st e hx).unplaced
    · exact (ih b hnext).imp_right (.imp (.afterStep hx))
  | call c next ih =>
    rcases fst_run_bind_eq_error_iff.1 h with hc | ⟨b, st₁, hc, hnext⟩
    · exact .inr ⟨_, c, st, .here, hc⟩
    · exact (ih b hnext).imp_right (.imp (.afterCall hc))
  | inScope inner next ihInner ih =>
    rcases fst_run_bind_eq_error_iff.1 h with hinner | ⟨b, st₁, hinner, hnext⟩
    · exact (ihInner hinner).imp_right (.imp .inside)
    · exact (ih b hnext).imp_right (.imp (.afterScope hinner))

/-- Statements in order fail because one of them does. -/
theorem failsIn_of_executeAll_failed {body : List Stmt} {last : Value}
    (h : (((executeAll body last).run ev).run st).1 = .error e) :
    (executeAll body last).FailsIn ev st e := by
  induction body generalizing last st with
  | nil => cases h
  | cons s rest ih =>
    rcases fst_run_bind_eq_error_iff.1 h with hs | ⟨flow, st₁, hs, hrest⟩
    · exact ⟨_, .execute s, st, .here, hs⟩
    · cases flow with
      | ret v => cases hrest
      | next v => exact (ih hrest).imp (.afterCall hs)

end Course

namespace Call

variable {α β γ : Type} {limit : Nat} {c : Call α} {c' : Call β} {st st' : State} {e : EvalError}

/-- The state in which the course of a call starts, unless expressions are nested too deeply. -/
def start? (limit : Nat) : {α : Type} → Call α → State → Option State
  | _, evaluate _, st => if st.depth < limit then some { st with depth := st.depth + 1 } else none
  | _, assign .., st | _, execute _, st => some st

/-- From the state `st`, the call `c` makes the call `c'` in the state `st'`. -/
def Makes (limit : Nat) (c : Call α) (st : State) (c' : Call β) (st' : State) : Prop :=
  ∃ st₀, c.start? limit st = some st₀ ∧
    c.course.Makes (TenantScript.evaluate limit) st₀ c' st'

/-- From the state `st`, the call fails with `e`. -/
def FailsWith (limit : Nat) (c : Call α) (st : State) (e : EvalError) : Prop :=
  ((c.run (TenantScript.evaluate limit)).run st).1 = .error e

theorem FailsWith.eq {e' : EvalError} (h : c.FailsWith limit st e) (h' : c.FailsWith limit st e') :
    e = e' :=
  Except.error.inj (h.symm.trans h')

theorem fst_run_enter (limit : Nat) (c : Call α) (x : Run α) (st : State) :
    ((c.enter limit x).run st).1 = match c.start? limit st with
      | some st₀ => (x.run st₀).1
      | none => .error (.ofCause (.depthLimitExceeded limit)) := by
  cases c with
  | evaluate e =>
    rw [enter, Run.run_below, start?]
    split <;> rfl
  | assign | execute => rfl

/-- What a call comes to is what its course comes to, a failure being placed at the node of the call
if it has no place. -/
theorem failsWith_iff : c.FailsWith limit st e ↔ ∃ e₀, e = e₀.orAt c.span ∧
    (match c.start? limit st with
      | some st₀ => ((c.course.run (TenantScript.evaluate limit)).run st₀).1
      | none => .error (.ofCause (.depthLimitExceeded limit))) = .error e₀ := by
  rw [FailsWith, c.run_eq, run_within, ← fst_run_enter]
  cases ((c.enter limit (c.course.run (TenantScript.evaluate limit))).run st).1 with
  | ok a => simp [Except.mapError]
  | error e₀ => simp [Except.mapError, eq_comm]

/-- A call fails as a call that it makes fails, at its own node if that gave no place. -/
theorem Makes.failsWith (h : c.Makes limit st c' st') (hc : c'.FailsWith limit st' e) :
    c.FailsWith limit st (e.orAt c.span) := by
  obtain ⟨st₀, hstart, hmakes⟩ := h
  refine failsWith_iff.2 ⟨e, rfl, ?_⟩
  rw [hstart]
  exact hmakes.failed hc

/-- A call fails on its own account or as a call that it makes. -/
theorem exists_of_failsWith (h : c.FailsWith limit st e) : ∃ e₀, e = e₀.orAt c.span ∧
    (e₀.span? = none ∨ ∃ (β : Type) (c' : Call β) (st' : State),
      c.Makes limit st c' st' ∧ c'.FailsWith limit st' e₀) := by
  obtain ⟨e₀, he, hfail⟩ := failsWith_iff.1 h
  refine ⟨e₀, he, ?_⟩
  cases hstart : c.start? limit st with
  | none =>
    rw [hstart] at hfail
    cases hfail
    exact .inl rfl
  | some st₀ =>
    rw [hstart] at hfail
    refine (Course.cases_of_failed hfail).imp_right fun hmade => ?_
    obtain ⟨β, c', st', hmakes, hc⟩ := hmade
    exact ⟨β, c', st', ⟨st₀, hstart, hmakes⟩, hc⟩

theorem Makes.isBelow (h : c.Makes limit st c' st') : c.IsBelow c' := by
  obtain ⟨st₀, -, hmakes⟩ := h
  exact hmakes.of_all (P := fun c' => c.IsBelow c') c.course_below

theorem Makes.spans_subset (h : c.Makes limit st c' st') : c'.spans ⊆ c.spans := by
  rw [c.spans_eq]
  exact List.subset_cons_of_subset _ h.isBelow.subset

/-! ### The way out of a failure -/

/-- From the state `st`, the call `c` is `c'` in the state `st'`, or makes a call that leads to
it. -/
inductive Leads (limit : Nat) : {α β : Type} → Call α → State → Call β → State → Prop where
  | self {α : Type} {c : Call α} {st : State} : Leads limit c st c st
  | on {α β γ : Type} {c : Call α} {c₁ : Call β} {c' : Call γ} {st st₁ st' : State}
    (h : c.Makes limit st c₁ st₁) (hrest : Leads limit c₁ st₁ c' st') : Leads limit c st c' st'

theorem Leads.spans_subset (h : c.Leads limit st c' st') : c'.spans ⊆ c.spans := by
  induction h with
  | self => exact List.Subset.refl _
  | on hmakes _ ih => exact List.Subset.trans ih hmakes.spans_subset

/-- A failure that has a place comes out as it is. -/
theorem Leads.failsWith (h : c.Leads limit st c' st') (hc : c'.FailsWith limit st' e)
    (he : e.span?.isSome) : c.FailsWith limit st e := by
  induction h with
  | self => exact hc
  | @on α β γ c c₁ c' st st₁ st' hmakes _ ih =>
    have hfail := hmakes.failsWith (ih hc)
    rwa [EvalError.orAt_of_isSome _ he] at hfail

/-- The call fails, and no call that it makes does. -/
structure FailsItself (limit : Nat) (c : Call α) (st : State) (e : EvalError) : Prop where
  fails : c.FailsWith limit st e
  alone : ∀ {β : Type} (c' : Call β) (st' : State) (e' : EvalError),
    c.Makes limit st c' st' → ¬c'.FailsWith limit st' e'

/-- Each node that the call is about has a place. -/
def Placed (c : Call α) : Prop := ∀ s ∈ c.spans, s.isDummy = false

theorem Makes.placed (h : c.Makes limit st c' st') (hplaced : c.Placed) : c'.Placed := fun s hs =>
  hplaced s (h.spans_subset hs)

/-- A failure is placed at the node of an innermost call that fails. -/
theorem exists_innermost (c : Call α) (hplaced : c.Placed) {st : State} {e : EvalError}
    (h : c.FailsWith limit st e) : ∃ (β : Type) (c' : Call β) (st' : State),
      c.Leads limit st c' st' ∧ c'.FailsItself limit st' e ∧ e.span? = some c'.span := by
  revert hplaced st e
  refine Call.induction (P := fun c => c.Placed → ∀ {st : State} {e : EvalError},
    c.FailsWith limit st e → ∃ (β : Type) (c' : Call β) (st' : State),
      c.Leads limit st c' st' ∧ c'.FailsItself limit st' e ∧ e.span? = some c'.span)
    (fun {α} c ih hplaced st e h => ?_) c
  -- a call that fails leads to an innermost one; if no call does, this one is innermost itself
  by_cases hmade : ∃ (β : Type) (c₁ : Call β) (st₁ : State) (e₁ : EvalError),
    c.Makes limit st c₁ st₁ ∧ c₁.FailsWith limit st₁ e₁
  · obtain ⟨β, c₁, st₁, e₁, hmakes, hfail⟩ := hmade
    obtain ⟨γ, c', st', hleads, hself, hspan⟩ :=
      hmakes.choose_spec.2.of_all ih (hmakes.placed hplaced) hfail
    have hout := hmakes.failsWith hfail
    rw [EvalError.orAt_of_isSome _ (hspan ▸ rfl)] at hout
    obtain rfl := h.eq hout
    exact ⟨γ, c', st', .on hmakes hleads, hself, hspan⟩
  · obtain ⟨e₀, rfl, hnone | ⟨β, c₁, st₁, hmakes, hfail⟩⟩ := exists_of_failsWith h
    · refine ⟨α, c, st, .self, ⟨h, fun c₁ st₁ e₁ hmakes hfail =>
        hmade ⟨_, c₁, st₁, e₁, hmakes, hfail⟩⟩, ?_⟩
      exact EvalError.span?_orAt hnone (hplaced c.span (c.spans_eq ▸ List.mem_cons_self))
    · exact absurd ⟨β, c₁, st₁, e₀, hmakes, hfail⟩ hmade

end Call

/-! ### Main statement -/

section Block

variable {limit : Nat} {body : List Stmt} {α : Type} {c : Call α} {st st' : State} {e : EvalError}

/-- From the state `st`, the block makes a call that leads to `c` in the state `st'`. -/
def BlockLeads (limit : Nat) (body : List Stmt) (st : State) (c : Call α) (st' : State) : Prop :=
  ∃ (β : Type) (c₀ : Call β) (st₀ : State),
    (Course.executeAll body .nil).Makes (evaluate limit) st c₀ st₀ ∧ c₀.Leads limit st₀ c st'

theorem fst_run_execBlock_eq_error_iff : ((execBlock limit body).run st).1 = .error e ↔
    (((Course.executeAll body .nil).run (evaluate limit)).run st).1 = .error e := by
  rw [execBlock_eq_course, fst_run_bind_eq_error_iff]
  simp

theorem Course.Makes.placed (h : (executeAll body .nil).Makes (evaluate limit) st c st')
    (hplaced : ∀ s ∈ Stmt.blockSpans body, s.isDummy = false) : c.Placed :=
  h.of_all (P := Call.Placed) (.executeAll fun _ hs r hr =>
    hplaced r ((Stmt.spans_sublist_of_mem hs).subset hr))

namespace BlockLeads

theorem placed (h : BlockLeads limit body st c st')
    (hplaced : ∀ s ∈ Stmt.blockSpans body, s.isDummy = false) : c.Placed := by
  obtain ⟨β, c₀, st₀, hmakes, hleads⟩ := h
  exact fun s hs => hmakes.placed hplaced s (hleads.spans_subset hs)

/-- A failure that has a place comes out of the block as it is. -/
theorem failed (h : BlockLeads limit body st c st') (hc : c.FailsWith limit st' e)
    (he : e.span?.isSome) : ((execBlock limit body).run st).1 = .error e := by
  obtain ⟨β, c₀, st₀, hmakes, hleads⟩ := h
  exact fst_run_execBlock_eq_error_iff.2 (hmakes.failed (hleads.failsWith hc he))

end BlockLeads

end Block

/-- In a block whose nodes all have places, a failure is placed. Each call that has failed on the
way has failed with this very failure, which is placed at a node within that of the call; and the
place is the node of a call that has failed while no call that it made has. -/
theorem failure_innermost (limit : Nat) {body : List Stmt}
    (hplaced : ∀ s ∈ Stmt.blockSpans body, s.isDummy = false) {st : State} {e : EvalError}
    (h : ((execBlock limit body).run st).1 = .error e) :
    ∃ s, e.span? = some s ∧
      (∀ {α : Type} (c : Call α) (st' : State) (e' : EvalError), BlockLeads limit body st c st' →
        c.FailsWith limit st' e' → e' = e ∧ s ∈ c.spans) ∧
      ∃ (α : Type) (c : Call α) (st' : State), BlockLeads limit body st c st' ∧
        c.FailsItself limit st' e ∧ c.span = s := by
  obtain ⟨β, c₀, st₀, hmakes, hfail⟩ :=
    Course.failsIn_of_executeAll_failed (fst_run_execBlock_eq_error_iff.1 h)
  obtain ⟨γ, c', st', hleads, hself, hspan⟩ :=
    c₀.exists_innermost (hmakes.placed hplaced) hfail
  refine ⟨c'.span, hspan, fun c st₁ e₁ hc hfail₁ => ?_,
    γ, c', st', ⟨β, c₀, st₀, hmakes, hleads⟩, hself, rfl⟩
  -- this call has an innermost one too, whose failure comes out of the block, which has only one
  obtain ⟨δ, c'', st'', hleads₁, -, hspan₁⟩ := c.exists_innermost (hc.placed hplaced) hfail₁
  have hout := hc.failed hfail₁ (hspan₁ ▸ rfl)
  obtain rfl : e = e₁ := Except.error.inj (h.symm.trans hout)
  obtain hsame : c'.span = c''.span := Option.some.inj (hspan.symm.trans hspan₁)
  refine ⟨rfl, hleads₁.spans_subset ?_⟩
  rw [hsame, c''.spans_eq]
  exact List.mem_cons_self

/-- A state in which `t` is a struct whose field `code` cannot be assigned. -/
def ticketState : State :=
  { env := ⟨[], SortedMap.empty.insert "t" (.struct ⟨⟨"Ticket", [⟨"code", .str, false⟩]⟩, 0⟩)⟩
    heap := ⟨#[.fields [.str "abc"]]⟩
    depth := 0 }

/-- `t.code[0] = "x"`. -/
def recodeTicket : List Stmt :=
  [.expr (.assign
    (.item (.member (.ident "t" ⟨0, 1⟩) "code" ⟨0, 6⟩) (.literal (.int 0) ⟨7, 8⟩) ⟨0, 9⟩)
    (.literal (.str "x") ⟨12, 15⟩) ⟨0, 15⟩) ⟨0, 15⟩]

/-- The character is replaced in a text of its own, which `t.code` then refuses: the failure is
placed there, and not at the target around it. -/
theorem failure_innermost_recodeTicket :
    let e : EvalError := ⟨.notSettable "struct member 'code'", some ⟨0, 6⟩⟩
    (∀ s ∈ Stmt.blockSpans recodeTicket, s.isDummy = false) ∧
      ((execBlock 8 recodeTicket).run ticketState).1 = .error e ∧
      ∃ s, e.span? = some s ∧
        (∀ {α : Type} (c : Call α) (st' : State) (e' : EvalError),
          BlockLeads 8 recodeTicket ticketState c st' → c.FailsWith 8 st' e' →
            e' = e ∧ s ∈ c.spans) ∧
        ∃ (α : Type) (c : Call α) (st' : State), BlockLeads 8 recodeTicket ticketState c st' ∧
          c.FailsItself 8 st' e ∧ c.span = s := by
  have hplaced : ∀ s ∈ Stmt.blockSpans recodeTicket, s.isDummy = false := by decide
  have hfail : ((execBlock 8 recodeTicket).run ticketState).1 =
      .error ⟨.notSettable "struct member 'code'", some ⟨0, 6⟩⟩ := by decide +kernel
  exact ⟨hplaced, hfail, failure_innermost 8 hplaced hfail⟩

end TenantScript
