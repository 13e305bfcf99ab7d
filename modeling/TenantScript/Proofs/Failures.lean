import TenantScript.Eval.Block
import TenantScript.Proofs.Invariant

/-!
How the operations on values fail. Such a failure has a cause that is its own, never the limit on
the nesting of expressions, and no place in the script yet: both come from the expressions and
statements around the operation.
-/

open TenantScript.Action

namespace TenantScript

/-- Whether the cause is that expressions were nested too deeply. -/
def Cause.isDepthLimit : Cause → Bool
  | depthLimitExceeded _ => true
  | _ => false

/-- A failure of an operation on values. -/
structure EvalError.IsPlain (e : EvalError) : Prop where
  unplaced : e.span? = none
  cause : e.cause.isDepthLimit = false

theorem EvalError.isPlain_ofCause {cause : Cause} (h : cause.isDepthLimit = false) :
    (EvalError.ofCause cause).IsPlain := ⟨rfl, h⟩

namespace Action

variable {σ α β : Type}

/-- Every failure of the action is one of an operation on values. -/
def FailsPlainly (x : Action σ α) : Prop := ∀ s e, (x.run s).1 = .error e → e.IsPlain

namespace FailsPlainly

variable {x : Action σ α}

theorem pure (a : α) : (pure a : Action σ α).FailsPlainly := fun _ _ h => nomatch h

theorem throw {e : EvalError} (he : e.IsPlain) : (throw e : Action σ α).FailsPlainly := by
  intro s e' h
  cases h
  exact he

theorem fail {cause : Cause} (hc : cause.isDepthLimit = false) :
    (fail cause : Action σ α).FailsPlainly := throw (EvalError.isPlain_ofCause hc)

theorem get (f : σ → α) : (get f).FailsPlainly := fun _ _ h => nomatch h

theorem modify (f : σ → σ) : (modify f).FailsPlainly := fun _ _ h => nomatch h

theorem ofExcept {r : Except Cause α} (h : ∀ cause, r = .error cause → cause.isDepthLimit = false) :
    (ofExcept r : Action σ α).FailsPlainly := by
  cases r with
  | ok a => exact pure a
  | error cause => exact fail (h cause rfl)

theorem require {cause : Cause} (hc : cause.isDepthLimit = false) (a? : Option α) :
    (require cause a? : Action σ α).FailsPlainly := by
  cases a? with
  | some a => exact pure a
  | none => exact fail hc

theorem bind {f : α → Action σ β} (hx : x.FailsPlainly) (hf : ∀ a, (f a).FailsPlainly) :
    (x >>= f).FailsPlainly := by
  intro s e h
  rcases fst_run_bind_eq_error_iff.1 h with hfirst | ⟨a, s', -, hsecond⟩
  · exact hx s e hfirst
  · exact hf a s' e hsecond

theorem recover {f : EvalError → Action σ α} (hx : x.FailsPlainly)
    (hf : ∀ e, e.IsPlain → (f e).FailsPlainly) : (recover x f).FailsPlainly := by
  intro s e h
  rw [run_recover] at h
  rcases hr : x.run s with ⟨e' | a, s'⟩
  · rw [hr] at h
    exact hf e' (hx s e' (congrArg Prod.fst hr)) s' e h
  · rw [hr] at h
    cases h

theorem mapM {f : α → Action σ β} (h : ∀ a, (f a).FailsPlainly) : (as : List α) →
    (as.mapM f).FailsPlainly
  | [] => by
    rw [List.mapM_nil]
    exact pure []
  | a :: as => by
    rw [List.mapM_cons]
    exact bind (h a) fun _ => bind (mapM h as) fun _ => pure _

end FailsPlainly

end Action

/-! ### Positions -/

theorem isDepthLimit_of_toIndex : {v : Value} → {cause : Cause} → toIndex v = .error cause →
    cause.isDepthLimit = false
  | .interface inner, _, h => isDepthLimit_of_toIndex (v := inner) h
  | .float x, cause, h => by
    rw [toIndex] at h
    split at h <;> cases h
    rfl
  | .str s, cause, h => by
    rw [toIndex] at h
    split at h <;> cases h
    rfl
  | .nil, _, h | .array _, _, h | .map _, _, h | .struct _, _, h | .pointer _, _, h => by
    cases h
    rfl

theorem isDepthLimit_of_checkedRange {start stop : Int} {length : Nat} {cause : Cause}
    (h : checkedRange start stop length = .error cause) : cause.isDepthLimit = false := by
  unfold checkedRange at h
  split at h <;> cases h
  rfl

theorem isDepthLimit_of_elementAt {α : Type} {items : List α} {index : Int} {cause : Cause}
    (h : elementAt items index = .error cause) : cause.isDepthLimit = false := by
  unfold elementAt at h
  split at h <;> cases h
  rfl

theorem isDepthLimit_of_elementsIn {α : Type} {items : List α} {start stop : Option Int}
    {cause : Cause} (h : elementsIn items start stop = .error cause) :
    cause.isDepthLimit = false := by
  unfold elementsIn at h
  cases hr : checkedRange (start.getD 0) (stop.getD items.length) items.length with
  | ok r =>
    rw [hr] at h
    cases h
  | error cause' =>
    rw [hr] at h
    cases h
    exact isDepthLimit_of_checkedRange hr

/-! ### Conversions and reads -/

theorem ArrayRef.make_failsPlainly (elem : Ty) (items : List Value) :
    (ArrayRef.make elem items).FailsPlainly :=
  .bind (fun _ _ h => nomatch h) fun _ => .pure _

theorem MapRef.make_failsPlainly (key value : Ty) (entries : SortedMap MapKey Value) :
    (MapRef.make key value entries).FailsPlainly :=
  .bind (fun _ _ h => nomatch h) fun _ => .pure _

theorem Value.zero_failsPlainly (ty : Ty) : (Value.zero ty).FailsPlainly := by
  cases ty with
  | array elem => exact .bind (ArrayRef.make_failsPlainly elem []) fun _ => .pure _
  | _ => exact .pure _

theorem keyVia_failsPlainly {conv : Value → Action Heap Value} (h : ∀ v, (conv v).FailsPlainly)
    (key : Ty) (v : Value) : (keyVia conv key v).FailsPlainly := by
  unfold keyVia
  split
  · exact .fail rfl
  · exact .bind (h v) fun _ => .require rfl _

theorem convert_scalar_failsPlainly {target : Ty} (h : target.isScalar = true) (v : Value) :
    (convert target v).FailsPlainly := by
  rcases convert_scalar h v with ⟨u, -, hu⟩ | hmismatched
  · rw [hu]
    exact .pure u
  · rw [hmismatched]
    exact .fail rfl

theorem convert_failsPlainly : (target : Ty) → (v : Value) → (convert target v).FailsPlainly
  | .any, v => .pure v
  | .bool, v | .int, v | .float, v | .str, v => convert_scalar_failsPlainly rfl v
  | .array elem, v => by
    rw [convert]
    split
    · exact .bind (ArrayRef.make_failsPlainly _ _) fun _ => .pure _
    · split
      · exact .pure _
      · exact .bind (.get _) fun items => .bind (.mapM (convert_failsPlainly elem) items) fun _ =>
          .bind (ArrayRef.make_failsPlainly _ _) fun _ => .pure _
    · exact .fail rfl
  | .map key value, v => by
    rw [convert]
    split
    · exact .pure _
    · split
      · exact .pure _
      · split
        · exact .pure _
        · refine .bind (.get _) fun entries => .bind (.mapM (fun e => ?_) _) fun _ =>
            .bind (MapRef.make_failsPlainly _ _ _) fun _ => .pure _
          exact .bind (keyVia_failsPlainly (convert_failsPlainly key) key _) fun _ =>
            .bind (convert_failsPlainly value _) fun _ => .pure _
    · exact .fail rfl
  | .struct name, v => by
    rw [convert]
    split
    · exact .pure _
    · split
      · exact .pure _
      · exact .fail rfl
    · exact .fail rfl
  | .pointer elem, v => by
    rw [convert]
    split
    · exact .pure _
    · split
      · exact .pure _
      · exact .fail rfl
    · exact .fail rfl

theorem convertKey_failsPlainly (key : Ty) (v : Value) : (convertKey key v).FailsPlainly :=
  keyVia_failsPlainly (convert_failsPlainly key) key v

theorem MapRef.read_failsPlainly (m : MapRef) (key : Value) : (m.read key).FailsPlainly := by
  refine .bind (convertKey_failsPlainly _ _) fun k => .bind (.get _) fun entries => ?_
  cases entries.get? k with
  | some v => exact .pure v
  | none => exact Value.zero_failsPlainly _

theorem PointerRef.load_failsPlainly (p : PointerRef) {onNil : Cause}
    (h : onNil.isDepthLimit = false) : (p.load onNil).FailsPlainly :=
  .bind (.get _) fun _ => .require h _

theorem readMember_failsPlainly (object : Value) (field : Name) :
    (readMember object field).FailsPlainly := by
  refine .bind ?_ fun container => ?_
  · unfold memberSource
    split
    · exact PointerRef.load_failsPlainly _ rfl
    · exact .pure _
  · unfold memberOf
    split
    · exact .bind (.get _) fun _ => .require rfl _
    · exact MapRef.read_failsPlainly _ _
    · exact .fail rfl
    · exact .fail rfl

theorem readItem_failsPlainly (collection index : Value) :
    (readItem collection index).FailsPlainly := by
  unfold readItem
  split
  · exact .bind (.ofExcept fun _ => isDepthLimit_of_toIndex) fun _ => .bind (.get _) fun _ =>
      .ofExcept fun _ => isDepthLimit_of_elementAt
  · exact MapRef.read_failsPlainly _ _
  · exact .bind (.ofExcept fun _ => isDepthLimit_of_toIndex) fun _ =>
      .bind (.ofExcept fun _ => isDepthLimit_of_elementAt) fun _ => .pure _
  · exact .fail rfl

theorem readSlice_failsPlainly (collection : Value) (start stop : Option Int) :
    (readSlice collection start stop).FailsPlainly := by
  unfold readSlice
  split
  · exact .bind (.get _) fun _ => .bind (.ofExcept fun _ => isDepthLimit_of_elementsIn) fun _ =>
      .bind (ArrayRef.make_failsPlainly _ _) fun _ => .pure _
  · exact .bind (.ofExcept fun _ => isDepthLimit_of_elementsIn) fun _ => .pure _
  · exact .fail rfl

theorem readPointee_failsPlainly (pointer : Value) : (readPointee pointer).FailsPlainly := by
  unfold readPointee
  split
  · exact PointerRef.load_failsPlainly _ rfl
  · exact .fail rfl

theorem readEach_failsPlainly (iterable : Value) : (readEach iterable).FailsPlainly := by
  unfold readEach
  split
  · exact .get _
  · exact .get _
  · exact .pure _
  · exact .pure _
  · exact .fail rfl

theorem spread_failsPlainly (v : Value) (targets : Nat) : (spread v targets).FailsPlainly := by
  unfold spread
  split
  · exact .get _
  · exact .fail rfl

/-! ### Stores -/

theorem StructRef.setField_failsPlainly (s : StructRef) (name : Name) (v : Value) :
    (s.setField name v).FailsPlainly := by
  unfold setField
  split
  · exact .fail rfl
  · split
    · exact .fail rfl
    · exact .bind (convert_failsPlainly _ _) fun _ => .bind (.get _) fun _ =>
        .bind (.modify _) fun _ => .pure _

theorem MapRef.insert_failsPlainly (m : MapRef) (key v : Value) :
    (m.insert key v).FailsPlainly := by
  refine .bind (convertKey_failsPlainly _ _) fun k => .bind (convert_failsPlainly _ _) fun w => ?_
  split
  · exact .bind (.get _) fun _ => .bind (.modify _) fun _ => .pure _
  · exact .bind (MapRef.make_failsPlainly _ _ _) fun _ => .pure _

/-- A value that is no element and no array of elements is refused for the reason why it is no
element. -/
theorem additions_failsPlainly (elem : Ty) (v : Value) : (additions elem v).FailsPlainly := by
  refine .recover (.bind (convert_failsPlainly _ _) fun _ => .pure _) fun e he => ?_
  split
  · exact .bind (.get _) fun _ => .mapM (convert_failsPlainly elem) _
  · exact .throw he

theorem ArrayRef.append_failsPlainly (a : ArrayRef) (v : Value) : (a.append v).FailsPlainly := by
  refine .bind (.get _) fun _ => ?_
  split
  · exact .fail rfl
  · exact .bind (additions_failsPlainly _ _) fun _ => .bind (.get _) fun _ =>
      .bind (ArrayRef.make_failsPlainly _ _) fun _ => .pure _

theorem ArrayRef.setIndex_failsPlainly (a : ArrayRef) (index : Int) (v : Value) :
    (a.setIndex index v).FailsPlainly := by
  refine .bind (.get _) fun items => ?_
  split
  · exact .fail rfl
  · split
    · exact a.append_failsPlainly v
    · split
      · exact .fail rfl
      · split
        · exact .fail rfl
        · exact .bind (convert_failsPlainly _ _) fun _ => .bind (.get _) fun _ =>
            .bind (.modify _) fun _ => .pure _

theorem ArrayRef.setRange_failsPlainly (a : ArrayRef) (start stop : Int) (v : Value) :
    (a.setRange start stop v).FailsPlainly := by
  refine .bind (.get _) fun items =>
    .bind (.ofExcept fun _ => isDepthLimit_of_checkedRange) fun ⟨low, high⟩ => ?_
  dsimp only
  split
  · exact .fail rfl
  · split
    · refine .bind (.get _) fun values => ?_
      split
      · exact .fail rfl
      · exact .bind (.mapM (convert_failsPlainly _) _) fun _ => .bind (.get _) fun _ =>
          .bind (.modify _) fun _ => .bind (ArrayRef.make_failsPlainly _ _) fun _ => .pure _
    · exact .fail rfl

theorem PointerRef.store_failsPlainly (p : PointerRef) (v : Value) : (p.store v).FailsPlainly := by
  unfold store
  split
  · exact .fail rfl
  · exact .bind (.modify _) fun _ => .pure _

theorem setCharacter_failsPlainly (s : String) (index : Int) (v : Value) :
    (setCharacter s index v).FailsPlainly := by
  unfold setCharacter
  split
  · simp only
    split
    · exact .pure _
    · exact .fail rfl
  · exact .fail rfl

theorem memberContainer_failsPlainly (object : Value) : (memberContainer object).FailsPlainly := by
  unfold memberContainer
  split
  · exact .fail rfl
  · refine .bind (.get _) fun pointee => ?_
    split
    · exact .fail rfl
    · exact .fail rfl
    · exact .pure _
  · exact .pure _

theorem setMember_failsPlainly (container : Value) (field : Name) (v : Value) :
    (setMember container field v).FailsPlainly := by
  unfold setMember
  split
  · exact StructRef.setField_failsPlainly _ _ _
  · exact MapRef.insert_failsPlainly _ _ _
  · exact .fail rfl

theorem setItem_failsPlainly (collection index v : Value) :
    (setItem collection index v).FailsPlainly := by
  unfold setItem
  split
  · exact .bind (.ofExcept fun _ => isDepthLimit_of_toIndex) fun _ =>
      ArrayRef.setIndex_failsPlainly _ _ _
  · exact MapRef.insert_failsPlainly _ _ _
  · exact .bind (.ofExcept fun _ => isDepthLimit_of_toIndex) fun _ =>
      setCharacter_failsPlainly _ _ _
  · exact .fail rfl

theorem sliceTarget_failsPlainly (collection : Value) : (sliceTarget collection).FailsPlainly := by
  unfold sliceTarget
  split
  · exact .pure _
  · exact .fail rfl

theorem setPointee_failsPlainly (pointer v : Value) : (setPointee pointer v).FailsPlainly := by
  unfold setPointee
  split
  · exact PointerRef.store_failsPlainly _ _
  · exact .fail rfl

end TenantScript
