import TenantScript.Proofs.Checked

/-!
No access fails. From every state that is held, each operation with its accesses tested runs as the
one without the tests, whatever is done where a test fails: bounds that were compared are still
good when the storage is written, because a storage keeps its length, and a struct has a value for
each of its fields.
-/

open TenantScript.Action

namespace TenantScript

namespace Checked

variable {failure : Failure} {D : Discipline} {w : Holding D}

/-! ### Operations on values -/

theorem access_some {α : Type} (kind : Access) {a? : Option α} {a : α} (h : a? = some a) :
    access failure kind a? = pure a := by
  rw [h]
  rfl

theorem setField_agrees {s : StructRef} (hs : w.Has (.struct s)) (name : Name) {v : Value}
    (hv : w.Has v) : Agrees Holding.Of w (setField failure s name v) (s.setField name v) := by
  unfold setField StructRef.setField
  cases hfield : s.defn.field? name with
  | none => exact .refl _
  | some p =>
    obtain ⟨i, field⟩ := p
    simp only
    split
    · exact .refl _
    · refine .bind (.refl _) (convert_steps field.ty hv) fun w₁ hle converted _ => ?_
      rintro _ rfl
      have hlen := (w₁.sound.fields (hs.mono hle).fits).length_eq
      have hi := (List.getElem?_eq_some_iff.1 (FieldDef.getElem?_of_find? hfield)).1
      have hvalue := List.getElem?_eq_getElem (hlen ▸ hi)
      simp only [run_bind, run_get, access_some .field hvalue, run_pure]

theorem setIndex_agrees {a : ArrayRef} (ha : w.Has (.array a)) (index : Int) {v : Value}
    (hv : w.Has v) : Agrees Holding.Of w (setIndex failure a index v) (a.setIndex index v) := by
  unfold setIndex ArrayRef.setIndex
  refine .bind (.refl _) (ArrayRef.items_steps ha) fun w₁ hle₁ items hitems => ?_
  cases position? index with
  | none => exact .refl _
  | some i =>
    simp only
    split
    · exact .refl _
    · split
      · exact .refl _
      · split
        · exact .refl _
        · refine .bind (.refl _) (convert_steps a.elem (hv.mono hle₁))
            fun w₂ hle₂ converted _ => ?_
          rintro _ rfl
          -- the bound was tested before the conversion, which leaves the array as long as it was
          have hlen := Holding.length_items hle₂ (ha.mono hle₁)
          rw [← hitems.1] at hlen
          have hi : i < (w₂.heap.items a).length := by omega
          have hvalue := List.getElem?_eq_getElem hi
          simp only [run_bind, run_get, access_some .item hvalue, run_pure]

theorem setRange_agrees {a : ArrayRef} (ha : w.Has (.array a)) (start stop : Int) {v : Value}
    (hv : w.Has v) :
    Agrees Holding.Of w (setRange failure a start stop v) (a.setRange start stop v) := by
  unfold setRange ArrayRef.setRange
  refine .bind (.refl _) (ArrayRef.items_steps ha) fun w₁ hle₁ items hitems => ?_
  refine .bind (P := fun _ r => r.1 ≤ r.2 ∧ r.2 ≤ items.length) (.refl _)
    (.ofExcept fun r hr => (checkedRange_eq_ok_iff.1 hr).2.2) fun w₂ hle₂ r hr => ?_
  obtain ⟨low, high⟩ := r
  simp only at hr ⊢
  split
  · exact .refl _
  · have hu := (hv.mono (hle₁.trans hle₂)).unwrap
    cases hsource : v.unwrap with
    | array source =>
      rw [hsource] at hu
      have hcount : difference? high low = some (high - low) := if_pos hr.1
      rw [access_some .count hcount]
      simp only [pure_bind]
      refine .bind (.refl _) (ArrayRef.items_steps hu) fun w₃ hle₃ values hvalues => ?_
      by_cases hne : values.length ≠ high - low
      · rw [if_pos hne, if_pos hne]
        exact .refl _
      · rw [if_neg hne, if_neg hne]
        refine .bind (.refl _) (.mapM_all (Q := fun w' u => w'.Supplies a.elem u)
          (fun u _ _ hle hu => hu.mono hle) fun u hu w' hle' =>
            convert_steps a.elem ((hvalues.2 u hu).1.mono hle')) fun w₄ hle₄ converted hconv => ?_
        rintro _ rfl
        have hlen := Holding.length_items (hle₂.trans (hle₃.trans hle₄)) (ha.mono hle₁)
        rw [← hitems.1] at hlen
        have hpart : subrange? (w₄.heap.items a) low high =
            some (((w₄.heap.items a).drop low).take (high - low)) := if_pos ⟨hr.1, hlen ▸ hr.2⟩
        have hcopy :
            converted.length = (((w₄.heap.items a).drop low).take (high - low)).length := by
          rw [hconv.1, not_ne_iff.1 hne, List.length_take, List.length_drop, hlen]
          omega
        simp only [run_bind, run_get, access_some .range hpart, run_pure,
          access_some .copy (if_pos hcopy)]
    | _ => exact .refl _

theorem readSlice_eq (collection : Value) (start stop : Option Int) :
    readSlice failure collection start stop = TenantScript.readSlice collection start stop := by
  unfold readSlice TenantScript.readSlice elementsIn
  cases collection.unwrap with
  | array a =>
    simp only
    refine bind_congr fun items => ?_
    cases hr : checkedRange (start.getD 0) (stop.getD items.length) items.length with
    | error cause => rfl
    | ok r =>
      have hpart : subrange? items r.1 r.2 = some ((items.drop r.1).take (r.2 - r.1)) :=
        if_pos (checkedRange_eq_ok_iff.1 hr).2.2
      show (do
        let part ← access failure .part (subrange? items r.1 r.2)
        return Value.array (← ArrayRef.make a.elem part)) = _
      rw [access_some .part hpart]
      rfl
  | str s =>
    simp only
    cases hr : checkedRange (start.getD 0) (stop.getD s.toList.length) s.toList.length with
    | error cause => rfl
    | ok r =>
      have hcount : difference? r.2 r.1 = some (r.2 - r.1) :=
        if_pos (checkedRange_eq_ok_iff.1 hr).2.2.1
      show (do
        let count ← access failure .count (difference? r.2 r.1)
        return Value.str (String.ofList ((s.toList.drop r.1).take count))) = _
      rw [access_some .count hcount]
      rfl
  | _ => rfl

theorem setMember_agrees {container : Value} (hc : w.Has container) (field : Name) {v : Value}
    (hv : w.Has v) : Agrees Holding.Of w (setMember failure container field v)
      (TenantScript.setMember container field v) := by
  cases container with
  | struct s => exact setField_agrees hc field hv
  | _ => exact .refl _

theorem setItem_agrees {collection : Value} (hc : w.Has collection) (index : Value) {v : Value}
    (hv : w.Has v) : Agrees Holding.Of w (setItem failure collection index v)
      (TenantScript.setItem collection index v) := by
  have hu := hc.unwrap
  unfold setItem TenantScript.setItem
  cases hc' : collection.unwrap with
  | array a =>
    rw [hc'] at hu
    exact .bind (P := fun _ _ => True) (.refl _) (.ofExcept fun _ _ => trivial)
      fun w₁ hle i _ => setIndex_agrees (hu.mono hle) i (hv.mono hle)
  | _ => exact .refl _

/-! ### Scripts -/

theorem onHeap_agrees {α : Type} {x y : Action Heap α} (h : Agrees Holding.Of w x y) :
    Agrees Holding.Meets w (Run.onHeap x) (Run.onHeap y) := by
  intro st hst
  rw [Run.run_onHeap, Run.run_onHeap, h st.heap hst.heap]

theorem setMember_steps {container : Value} (hc : w.Has container) (field : Name) {v : Value}
    (hv : w.Has v) :
    Maintains Holding.Of w (TenantScript.setMember container field v) fun w' m =>
      w'.Has m.value := by
  rw [setMember_eq]
  exact .bind (planMember_steps hc field hv) fun _ _ _ => Plan.commit_steps

theorem setItem_steps {collection index v : Value} (hc : w.Has collection) (hi : w.Has index)
    (hv : w.Has v) :
    Maintains Holding.Of w (TenantScript.setItem collection index v) fun w' m =>
      w'.Has m.value := by
  rw [setItem_eq]
  exact .bind (planItem_steps hc hi hv) fun _ _ _ => Plan.commit_steps

theorem rebind_agrees {toPlace toPlace' : Value → Run Value} (via : Option PointerRef)
    {m : Mutation} (hm : w.Has m.value)
    (h : ∀ v, w.Has v → Agrees Holding.Meets w (toPlace v) (toPlace' v)) :
    Agrees Holding.Meets w (rebind toPlace via m) (rebind toPlace' via m) := by
  cases m with
  | inPlace stored => exact .refl _
  | replaced container =>
    cases via with
    | some p => exact .refl _
    | none => exact h container hm

theorem forEach_agrees {bind bind' : Value → Run Value} {body body' : Run Flow}
    (hbind : ∀ v (w : Holding D), w.Has v →
      Maintains Holding.Meets w (bind v) fun w' u => w'.Has u)
    (hbody : ∀ w : Holding D, Maintains Holding.Meets w body fun w' flow => w'.Has flow.value)
    (hbinds : ∀ v (w : Holding D), w.Has v → Agrees Holding.Meets w (bind' v) (bind v))
    (hbodies : ∀ w : Holding D, Agrees Holding.Meets w body' body) :
    (items : List Value) → {w : Holding D} → (∀ v ∈ items, w.Has v) →
      Agrees Holding.Meets w (forEach bind' body' items) (forEach bind body items)
  | [], _, _ => .refl _
  | item :: items, w, h => by
    have hitem := h item List.mem_cons_self
    -- a round runs in a scope of its own, which holds nothing yet
    have hround : Agrees Holding.Meets w (Run.inScope do let _ ← bind' item; body')
        (Run.inScope do let _ ← bind item; body) := by
      intro st hst
      have hpush : w.Meets { st with env := st.env.push } := by
        refine ⟨hst.heap, fun scope hscope e he => ?_⟩
        rcases List.mem_cons.1 hscope with rfl | hscope
        · cases he
        · exact hst.env scope hscope e he
      rw [Run.run_inScope, Run.run_inScope]
      simp only
      rw [Agrees.bind (hbinds item w hitem) (hbind item w hitem) (fun w' _ _ _ => hbodies w') _
        hpush]
    refine .bind hround (Run.inScope_steps (.bind (hbind item w hitem) fun w₁ _ _ _ => hbody w₁))
      fun w₁ hle flow _ => ?_
    cases flow with
    | ret v => exact .refl _
    | next v => exact forEach_agrees hbind hbody hbinds hbodies items fun u hu =>
        (h u (List.mem_cons_of_mem _ hu)).mono hle

section Eval

variable {ev ev' : Expr → Run Value}
  (hev : ∀ e (w : Holding D), Maintains Holding.Meets w (ev e) fun w' v => w'.Has v)
  (hevs : ∀ e (w : Holding D), Agrees Holding.Meets w (ev' e) (ev e))

include hev hevs

theorem boundOr_agrees (missing : Run Int) (bound : Option Expr) :
    Agrees Holding.Meets w (boundOr ev' missing bound) (boundOr ev missing bound) := by
  cases bound with
  | none => exact .refl _
  | some e => exact .bind (hevs e w) (hev e w) fun _ _ _ _ => .refl _

theorem bound?_agrees (bound : Option Expr) :
    Agrees Holding.Meets w (bound? ev' bound) (bound? ev bound) := by
  cases bound with
  | none => exact .refl _
  | some e => exact .bind (hevs e w) (hev e w) fun _ _ _ _ => .refl _

theorem mapM_eval_agrees (es : List Expr) :
    Agrees Holding.Meets w (es.mapM ev') (es.mapM ev) :=
  .mapM (fun e _ w' _ => hevs e w') fun e _ w' _ => (hev e w').imp fun _ _ _ _ => trivial

theorem assign_agrees : (target : Expr) → {v : Value} → {w : Holding D} → w.Has v →
    Agrees Holding.Meets w (assign failure ev' target v) (TenantScript.assign ev target v)
  | .ident _ _, _, _, _ => .refl _
  | .member object field _, v, w, hv => by
    refine .within (.bind (hevs object w) (hev object w) fun w₁ hle₁ o ho => ?_)
    refine .bind (.refl _) (Run.onHeap_steps (memberContainer_steps ho))
      fun w₂ hle₂ found hfound => ?_
    have hv₂ := hv.mono (hle₁.trans hle₂)
    exact .bind (onHeap_agrees (setMember_agrees hfound.1 field hv₂))
      (Run.onHeap_steps (setMember_steps hfound.1 field hv₂))
      fun w₃ _ m hm => rebind_agrees found.2 hm fun u hu => assign_agrees object hu
  | .item collection index _, v, w, hv => by
    refine .within (.bind (hevs collection w) (hev collection w) fun w₁ hle₁ c hc => ?_)
    refine .bind (hevs index w₁) (hev index w₁) fun w₂ hle₂ i hi => ?_
    have hv₂ := hv.mono (hle₁.trans hle₂)
    exact .bind (onHeap_agrees (setItem_agrees (hc.mono hle₂) i hv₂))
      (Run.onHeap_steps (setItem_steps (hc.mono hle₂) hi hv₂))
      fun w₃ _ m hm => rebind_agrees none hm fun u hu => assign_agrees collection hu
  | .slice collection start stop _, v, w, hv => by
    refine .within (.bind (hevs collection w) (hev collection w) fun w₁ hle₁ c hc => ?_)
    refine .bind (.refl _) (Run.onHeap_steps (sliceTarget_steps hc)) fun w₂ hle₂ a ha => ?_
    refine .bind (boundOr_agrees hev hevs _ start) (boundOr_steps hev (.pure trivial) start)
      fun w₃ hle₃ low _ => ?_
    refine .bind (boundOr_agrees hev hevs _ stop)
      (boundOr_steps hev (Run.onHeap_steps (x := .get fun h => ((h.items a).length : Int))
        (.get fun _ _ => trivial)) stop) fun w₄ hle₄ high _ => ?_
    have ha₄ := ha.mono (hle₃.trans hle₄)
    have hv₄ := hv.mono (hle₁.trans (hle₂.trans (hle₃.trans hle₄)))
    refine .bind (P := fun _ _ => True) (onHeap_agrees (setRange_agrees ha₄ low high hv₄)) ?_
      fun _ _ _ _ => .refl _
    rw [ArrayRef.setRange_eq]
    exact Run.onHeap_steps (.bind (ArrayRef.planRange_steps ha₄ low high hv₄) fun _ _ _ hr =>
      (ArrayRef.commitRange_steps hr).imp fun _ _ _ _ => trivial)
  | .deref pointer _, _, w, _ =>
    .within (.bind (hevs pointer w) (hev pointer w) fun _ _ _ _ => .refl _)
  | .literal .., _, _, _ | .array .., _, _, _ | .assign .., _, _, _ => .refl _

theorem evaluateNode_agrees : (e : Expr) →
    Agrees Holding.Meets w (evaluateNode failure ev' e) (TenantScript.evaluateNode ev e)
  | .literal _ _ | .ident _ _ => .refl _
  | .array es _ => .bind (mapM_eval_agrees hev hevs es) (mapM_eval_steps hev es)
    fun _ _ _ _ => .refl _
  | .member object _ _ => .bind (hevs object w) (hev object w) fun _ _ _ _ => .refl _
  | .item collection index _ => .bind (hevs collection w) (hev collection w)
    fun w₁ _ _ _ => .bind (hevs index w₁) (hev index w₁) fun _ _ _ _ => .refl _
  | .slice collection start stop _ => .bind (hevs collection w) (hev collection w)
    fun _ _ c _ => .bind (bound?_agrees hev hevs start) (bound?_steps hev start)
      fun _ _ low _ => .bind (bound?_agrees hev hevs stop) (bound?_steps hev stop)
        fun _ _ high _ => .of_eq (congrArg Run.onHeap (readSlice_eq c low high))
  | .deref pointer _ => .bind (hevs pointer w) (hev pointer w) fun _ _ _ _ => .refl _
  | .assign target value _ => .bind (hevs value w) (hev value w)
    fun _ _ _ hv => assign_agrees hev hevs target hv

theorem assignEach_agrees : (targets : List Expr) → {values : List Value} → {stored : Value} →
    {w : Holding D} → (∀ v ∈ values, w.Has v) →
      Agrees Holding.Meets w (assignEach failure ev' targets values stored)
        (TenantScript.assignEach ev targets values stored)
  | [], _, _, _, _ => .refl _
  | target :: targets, values, _, w, hvalues => by
    have hhead : w.Has (values.headD .nil) := by
      cases values with
      | nil => exact Holding.has_nil
      | cons v vs => exact hvalues v List.mem_cons_self
    refine .bind (assign_agrees hev hevs target hhead) (assign_steps hev target hhead)
      fun w₁ hle u _ => ?_
    exact assignEach_agrees targets fun v hv => (hvalues v (List.mem_of_mem_tail hv)).mono hle

theorem assignAll_agrees (targets values : List Expr) :
    Agrees Holding.Meets w (assignAll failure ev' targets values)
      (TenantScript.assignAll ev targets values) := by
  unfold assignAll TenantScript.assignAll
  by_cases hlen : targets.length = values.length
  · rw [if_pos hlen, if_pos hlen]
    exact .bind (mapM_eval_agrees hev hevs values) (mapM_eval_steps hev values)
      fun _ _ _ hvs => assignEach_agrees hev hevs targets hvs
  · rw [if_neg hlen, if_neg hlen]
    rcases values with _ | ⟨value, _ | ⟨second, rest⟩⟩
    · exact .refl _
    · by_cases hmany : targets.length > 1
      · rw [if_pos ⟨rfl, hmany⟩]
        simp only [if_pos hmany]
        rw [access_some .first (List.head?_cons : [value].head? = some value)]
        exact .bind (hevs value w) (hev value w) fun _ _ _ hv =>
          .bind (.refl _) (Run.onHeap_steps (spread_steps hv _))
            fun _ _ _ hvs => assignEach_agrees hev hevs targets hvs
      · rw [if_neg fun h => hmany h.2]
        simp only [if_neg hmany]
        exact .refl _
    · rw [if_neg fun h => absurd h.1 (by simp)]
      exact .refl _

end Eval

mutual
theorem execStmt_agrees {ev ev' : Expr → Run Value}
    (hev : ∀ e (w : Holding D), Maintains Holding.Meets w (ev e) fun w' v => w'.Has v)
    (hevs : ∀ e (w : Holding D), Agrees Holding.Meets w (ev' e) (ev e)) : (s : Stmt) →
      {w : Holding D} → Agrees Holding.Meets w (execStmt failure ev' s)
        (TenantScript.execStmt ev s)
  | .expr e _, w => .within (.bind (hevs e w) (hev e w) fun _ _ _ _ => .refl _)
  | .assign targets values _, _ =>
    .within (.bind (assignAll_agrees hev hevs targets values) (assignAll_steps hev targets values)
      fun _ _ _ _ => .refl _)
  | .forIn var iterable body _, w =>
    .within (.bind (hevs iterable w) (hev iterable w) fun _ _ _ hv =>
      .bind (.refl _) (Run.onHeap_steps (readEach_steps hv)) fun _ _ items hitems =>
        forEach_agrees (fun _ _ hu => assign_steps hev var hu)
          (fun _ => execStmts_steps hev body Holding.has_nil)
          (fun _ _ hu => assign_agrees hev hevs var hu)
          (fun _ => execStmts_agrees hev hevs body Holding.has_nil) items hitems)
  | .ret none _, _ => by
    rw [execStmt, TenantScript.execStmt]
    exact .refl _
  | .ret (some e) _, w => .within (.bind (hevs e w) (hev e w) fun _ _ _ _ => .refl _)

theorem execStmts_agrees {ev ev' : Expr → Run Value}
    (hev : ∀ e (w : Holding D), Maintains Holding.Meets w (ev e) fun w' v => w'.Has v)
    (hevs : ∀ e (w : Holding D), Agrees Holding.Meets w (ev' e) (ev e)) : (body : List Stmt) →
      {last : Value} → {w : Holding D} → w.Has last → Agrees Holding.Meets w
        (execStmts failure ev' body last) (TenantScript.execStmts ev body last)
  | [], _, _, _ => .refl _
  | s :: rest, last, _, hlast => by
    refine .bind (execStmt_agrees hev hevs s) (execStmt_steps hev s) fun w₁ hle flow hflow => ?_
    cases flow with
    | ret v => exact .refl _
    | next v =>
      refine execStmts_agrees hev hevs rest ?_
      split
      · exact hflow
      · exact hlast.mono hle
end

theorem evaluateWithin_agrees (limit : Nat) : (room : Nat) → (e : Expr) → (w : Holding D) →
    Agrees Holding.Meets w (evaluateWithin failure limit room e)
      (TenantScript.evaluateWithin limit room e)
  | 0, _, _ => .refl _
  | room + 1, e, w => by
    refine .within fun st hst => ?_
    rw [Run.run_nested, Run.run_nested, evaluateNode_agrees (evaluateWithin_steps limit room)
      (evaluateWithin_agrees limit room) e { st with depth := st.depth + 1 } ⟨hst.heap, hst.env⟩]

theorem evaluate_agrees (limit : Nat) (e : Expr) (w : Holding D) :
    Agrees Holding.Meets w (evaluate failure limit e) (TenantScript.evaluate limit e) :=
  fun st hst => evaluateWithin_agrees limit (limit - st.depth) e w st hst

/-- From a state that is held, a command that is given what is at hand runs with all accesses
tested as it does without the tests. -/
theorem run_agrees (c : Command) (h : ∀ v ∈ c.values, w.Has v) :
    Agrees Holding.Meets w (run failure c) c.run := by
  have stored {x y : Action Heap Mutation} (hxy : Agrees Holding.Of w x y)
      (hy : Maintains Holding.Of w y fun w' m => w'.Has m.value) :
      Agrees Holding.Meets w (do return (← Run.onHeap x).value)
        (do return (← Run.onHeap y).value) :=
    .bind (onHeap_agrees hxy) (Run.onHeap_steps hy) fun _ _ _ _ => .refl _
  cases c with
  | setIndex a index v =>
    simp only [Command.values, List.forall_mem_cons] at h
    refine stored (setIndex_agrees h.1 index h.2.1) ?_
    rw [a.setIndex_eq]
    exact .bind (ArrayRef.planIndex_steps h.1 index h.2.1) fun _ _ _ => Plan.commit_steps
  | setRange a start stop v =>
    simp only [Command.values, List.forall_mem_cons] at h
    refine stored (setRange_agrees h.1 start stop h.2.1) ?_
    rw [a.setRange_eq]
    exact .bind (ArrayRef.planRange_steps h.1 start stop h.2.1) fun _ _ _ =>
      ArrayRef.commitRange_steps
  | setField s field v =>
    simp only [Command.values, List.forall_mem_cons] at h
    refine stored (setField_agrees h.1 field h.2.1) ?_
    rw [s.setField_eq]
    exact .bind (StructRef.planField_steps h.1 field h.2.1) fun _ _ _ => Plan.commit_steps
  | evaluate limit e => exact evaluate_agrees limit e w
  | assign limit target v =>
    exact assign_agrees (evaluate_steps limit) (evaluate_agrees limit) target
      (h v List.mem_cons_self)
  | execBlock limit body =>
    exact .bind (execStmts_agrees (evaluate_steps limit) (evaluate_agrees limit) body
      Holding.has_nil) (execStmts_steps (evaluate_steps limit) body Holding.has_nil)
        fun _ _ _ _ => .refl _
  | _ => exact .refl _

end Checked

end TenantScript
