import TenantScript.Eval.Evaluate
import TenantScript.Proofs.Invariant

/-!
Actions that only add storages. One heap extends another if every storage of the other lies in it
as it was, and one state extends another if nothing else differs. Conversions and reads go from a
state to an extension of it, and so does the evaluation of every expression in which nothing is
assigned, whether it has a result or fails.
-/

open TenantScript.Action

namespace TenantScript

/-- A heap extends another if every storage of the other is in it, as it was. -/
instance : Preorder Heap where
  le g h := ∀ a s, g.get? a = some s → h.get? a = some s
  le_refl _ _ _ e := e
  le_trans _ _ _ h₁ h₂ a s e := h₂ a s (h₁ a s e)

namespace Heap

variable {g h : Heap} {a : Address}

theorem get?_eq_some_of_le {s : Storage} (hle : g ≤ h) (e : g.get? a = some s) :
    h.get? a = some s := hle a s e

theorem get?_eq_of_le (hle : g ≤ h) (ha : a < g.size) : h.get? a = g.get? a := by
  obtain ⟨s, hs⟩ := Option.isSome_iff_exists.1 (get?_isSome_iff.2 ha)
  rw [hs, hle a s hs]

theorem size_le_of_le (hle : g ≤ h) : g.size ≤ h.size := by
  rcases Nat.eq_zero_or_pos g.size with h0 | hpos
  · omega
  · have := get?_isSome_iff.2 (show g.size - 1 < g.size by omega)
    obtain ⟨s, hs⟩ := Option.isSome_iff_exists.1 this
    have hlt : g.size - 1 < h.size := lt_size_of_get? (hle _ _ hs)
    omega

theorem le_push (h : Heap) (s : Storage) : h ≤ h.push s := by
  intro a t e
  rw [get?_push_of_lt s (lt_size_of_get? e), e]

end Heap

namespace Heap

variable {g h : Heap} {a : ArrayRef}

theorem items_of_get? {vs : List Value} (hget : h.get? a.address = some (.items vs)) :
    h.items a = vs := by
  rw [items, itemsAt, hget]

theorem items_of_le {vs : List Value} (hle : g ≤ h) (hget : g.get? a.address = some (.items vs)) :
    h.items a = vs := items_of_get? (hle _ _ hget)

end Heap

/-- A state extends another if it has the same bindings and the same depth, and its heap extends
the heap of the other. -/
instance : Preorder State where
  le st st' := st'.env = st.env ∧ st'.depth = st.depth ∧ st.heap ≤ st'.heap
  le_refl _ := ⟨rfl, rfl, le_rfl⟩
  le_trans _ _ _ h₁ h₂ := ⟨h₂.1.trans h₁.1, h₂.2.1.trans h₁.2.1, h₁.2.2.trans h₂.2.2⟩

namespace Action

variable {σ α β : Type} [Preorder σ]

/-- Every run of the action ends in an extension of the state that it started in. -/
def Adds (x : Action σ α) : Prop := ∀ w, Maintains (fun w s => s = w) w x fun _ _ => True

theorem Adds.le {x : Action σ α} (h : x.Adds) (s : σ) : s ≤ (x.run s).2 := by
  obtain ⟨_, hle, rfl, _⟩ := h s s rfl
  exact hle

theorem Adds.le_of_run {x : Action σ α} (h : x.Adds) {s s' : σ} {r : Except EvalError α}
    (hrun : x.run s = (r, s')) : s ≤ s' := by
  have hle := h.le s
  rwa [hrun] at hle

theorem adds_of_le {x : Action σ α} (h : ∀ s, s ≤ (x.run s).2) : x.Adds := by
  rintro s _ rfl
  exact ⟨_, h _, rfl, fun _ _ => trivial⟩

namespace Adds

variable {x : Action σ α}

theorem pure (a : α) : (pure a : Action σ α).Adds := fun _ => .pure trivial

theorem fail (cause : Cause) : (fail cause : Action σ α).Adds := fun _ => .fail cause

theorem get (f : σ → α) : (get f).Adds := fun _ => .get fun _ _ => trivial

theorem ofExcept (r : Except Cause α) : (ofExcept r : Action σ α).Adds :=
  fun _ => .ofExcept fun _ _ => trivial

theorem require (cause : Cause) (a? : Option α) : (require cause a? : Action σ α).Adds :=
  fun _ => .require fun _ _ => trivial

theorem bind {f : α → Action σ β} (hx : x.Adds) (hf : ∀ a, (f a).Adds) : (x >>= f).Adds :=
  fun w => (hx w).bind fun w' _ a _ => hf a w'

theorem throw (e : EvalError) : (throw e : Action σ α).Adds := fun _ => .throw e

theorem recover {f : EvalError → Action σ α} (hx : x.Adds) (hf : ∀ e, (f e).Adds) :
    (recover x f).Adds :=
  fun w => (hx w).recover fun w' _ e => hf e w'

theorem within {span : Span} (h : x.Adds) : (within span x).Adds := fun w => (h w).within

theorem mapM {f : α → Action σ β} {as : List α} (h : ∀ a ∈ as, (f a).Adds) : (as.mapM f).Adds :=
  fun _ => (Maintains.mapM (fun _ _ _ => True) (fun _ _ _ _ _ _ => trivial) as
    fun a ha w' _ => h a ha w').imp fun _ _ _ _ => trivial

end Adds

end Action

/-! ### Conversions and reads -/

theorem Heap.allocate_adds (s : Storage) : (Heap.allocate s).Adds :=
  adds_of_le fun h => h.le_push s

theorem ArrayRef.make_adds (elem : Ty) (items : List Value) : (ArrayRef.make elem items).Adds :=
  .bind (Heap.allocate_adds _) fun _ => .pure _

theorem MapRef.make_adds (key value : Ty) (entries : SortedMap MapKey Value) :
    (MapRef.make key value entries).Adds :=
  .bind (Heap.allocate_adds _) fun _ => .pure _

theorem Value.zero_adds (ty : Ty) : (Value.zero ty).Adds := by
  cases ty with
  | array elem => exact .bind (ArrayRef.make_adds elem []) fun _ => .pure _
  | _ => exact .pure _

theorem keyVia_adds {conv : Value → Action Heap Value} (h : ∀ v, (conv v).Adds) (key : Ty)
    (v : Value) : (keyVia conv key v).Adds := by
  unfold keyVia
  split
  · exact .fail _
  · exact .bind (h v) fun _ => .require _ _

theorem convert_scalar_adds {target : Ty} (h : target.isScalar = true) (v : Value) :
    (convert target v).Adds := by
  rcases convert_scalar h v with ⟨u, -, hu⟩ | hmismatched
  · rw [hu]
    exact .pure u
  · rw [hmismatched]
    exact .fail _

theorem convert_adds : (target : Ty) → (v : Value) → (convert target v).Adds
  | .any, v => .pure v
  | .bool, v | .int, v | .float, v | .str, v => convert_scalar_adds rfl v
  | .array elem, v => by
    rw [convert]
    split
    · exact .bind (ArrayRef.make_adds _ _) fun _ => .pure _
    · split
      · exact .pure _
      · exact .bind (.get _) fun items => .bind (.mapM fun w _ => convert_adds elem w) fun _ =>
          .bind (ArrayRef.make_adds _ _) fun _ => .pure _
    · exact .fail _
  | .map key value, v => by
    rw [convert]
    split
    · exact .pure _
    · split
      · exact .pure _
      · split
        · exact .pure _
        · refine .bind (.get _) fun entries => .bind (.mapM fun e _ => ?_) fun _ =>
            .bind (MapRef.make_adds _ _ _) fun _ => .pure _
          exact .bind (keyVia_adds (convert_adds key) key _) fun _ =>
            .bind (convert_adds value _) fun _ => .pure _
    · exact .fail _
  | .struct name, v => by
    rw [convert]
    split
    · exact .pure _
    · split
      · exact .pure _
      · exact .fail _
    · exact .fail _
  | .pointer elem, v => by
    rw [convert]
    split
    · exact .pure _
    · split
      · exact .pure _
      · exact .fail _
    · exact .fail _

theorem convertKey_adds (key : Ty) (v : Value) : (convertKey key v).Adds :=
  keyVia_adds (convert_adds key) key v

/-- Conversion to a key neither reads nor writes the heap. -/
theorem exists_run_convertKey (key : Ty) (v : Value) :
    ∃ r, ∀ h, (convertKey key v).run h = (r, h) := by
  unfold convertKey keyVia
  cases key with
  | any =>
    simp only [convert, pure_bind]
    cases MapKey.ofValue? v <;> exact ⟨_, fun h => rfl⟩
  | bool | int | str =>
    simp only [convert]
    cases v.bare <;> exact ⟨_, fun h => rfl⟩
  | _ => exact ⟨_, fun h => rfl⟩

theorem run_convertKey_of_run {key : Ty} {v : Value} {k : MapKey} {h h' : Heap}
    (hrun : (convertKey key v).run h = (.ok k, h')) :
    h' = h ∧ ∀ g, (convertKey key v).run g = (.ok k, g) := by
  obtain ⟨r, hr⟩ := exists_run_convertKey key v
  cases (hr h).symm.trans hrun
  exact ⟨rfl, hr⟩

theorem MapRef.read_adds (m : MapRef) (key : Value) : (m.read key).Adds := by
  refine .bind (convertKey_adds _ _) fun k => .bind (.get _) fun entries => ?_
  cases entries.get? k with
  | some v => exact .pure v
  | none => exact Value.zero_adds _

theorem PointerRef.load_adds (p : PointerRef) (onNil : Cause) : (p.load onNil).Adds :=
  .bind (.get _) fun _ => .require _ _

theorem memberSource_adds (object : Value) : (memberSource object).Adds := by
  unfold memberSource
  split
  · exact PointerRef.load_adds _ _
  · exact .pure _

theorem memberOf_adds (container : Value) (field : Name) : (memberOf container field).Adds := by
  unfold memberOf
  split
  · exact .bind (.get _) fun _ => .require _ _
  · exact MapRef.read_adds _ _
  · exact .fail _
  · exact .fail _

theorem readMember_adds (object : Value) (field : Name) : (readMember object field).Adds :=
  .bind (memberSource_adds object) fun _ => memberOf_adds _ field

theorem readItem_adds (collection index : Value) : (readItem collection index).Adds := by
  unfold readItem
  split
  · exact .bind (.ofExcept _) fun _ => .bind (.get _) fun _ => .ofExcept _
  · exact MapRef.read_adds _ _
  · exact .bind (.ofExcept _) fun _ => .bind (.ofExcept _) fun _ => .pure _
  · exact .fail _

theorem readSlice_adds (collection : Value) (start stop : Option Int) :
    (readSlice collection start stop).Adds := by
  unfold readSlice
  split
  · exact .bind (.get _) fun _ => .bind (.ofExcept _) fun _ =>
      .bind (ArrayRef.make_adds _ _) fun _ => .pure _
  · exact .bind (.ofExcept _) fun _ => .pure _
  · exact .fail _

theorem readPointee_adds (pointer : Value) : (readPointee pointer).Adds := by
  unfold readPointee
  split
  · exact PointerRef.load_adds _ _
  · exact .fail _

/-! ### Expressions without assignments -/

namespace Expr

mutual
/-- Whether there is no assignment anywhere in the expression. -/
def isAssignFree : Expr → Bool
  | literal .. | ident .. => true
  | array xs _ => areAssignFree xs
  | member o _ _ => o.isAssignFree
  | item c i _ => c.isAssignFree && i.isAssignFree
  | slice c a b _ => c.isAssignFree && isAssignFreeBound a && isAssignFreeBound b
  | deref p _ => p.isAssignFree
  | assign .. => false
termination_by structural e => e

/-- Whether there is no assignment in any expression of a list. -/
def areAssignFree : List Expr → Bool
  | [] => true
  | x :: xs => x.isAssignFree && areAssignFree xs
termination_by structural es => es

/-- Whether there is no assignment in a bound. -/
def isAssignFreeBound : Option Expr → Bool
  | none => true
  | some e => e.isAssignFree
termination_by structural bound => bound
end

theorem areAssignFree_iff : (es : List Expr) →
    (areAssignFree es = true ↔ ∀ e ∈ es, e.isAssignFree = true)
  | [] => by simp [areAssignFree]
  | e :: es => by simp [areAssignFree, areAssignFree_iff es]

theorem isAssignFreeBound_iff {bound : Option Expr} :
    isAssignFreeBound bound = true ↔ ∀ e, bound = some e → e.isAssignFree = true := by
  cases bound <;> simp [isAssignFreeBound]

end Expr

namespace Run

variable {α : Type} {x : Run α}

theorem onHeap_adds {x : Action Heap α} (h : x.Adds) : (onHeap x).Adds :=
  adds_of_le fun st => ⟨rfl, rfl, h.le st.heap⟩

theorem nested_adds (h : x.Adds) : (nested x).Adds := by
  refine adds_of_le fun st => ?_
  obtain ⟨henv, hdepth, hheap⟩ := h.le { st with depth := st.depth + 1 }
  refine ⟨henv, ?_, hheap⟩
  rw [run_nested]
  simp only at hdepth ⊢
  omega

end Run

theorem bound?_adds {ev : Expr → Run Value} {bound : Option Expr}
    (h : ∀ e, bound = some e → (ev e).Adds) : (bound? ev bound).Adds := by
  cases bound with
  | none => exact .pure _
  | some e => exact .bind (h e rfl) fun _ => .bind (.ofExcept _) fun _ => .pure _

theorem evaluateNode_adds {ev : Expr → Run Value}
    (hev : ∀ e, e.isAssignFree = true → (ev e).Adds) :
    (e : Expr) → e.isAssignFree = true → (evaluateNode ev e).Adds
  | .literal v _, _ => .pure v.value
  | .array xs _, he => by
    have hxs := (Expr.areAssignFree_iff xs).1 (by simpa [Expr.isAssignFree] using he)
    exact .bind (.mapM fun x hx => hev x (hxs x hx)) fun _ =>
      .bind (Run.onHeap_adds (ArrayRef.make_adds _ _)) fun _ => .pure _
  | .ident _ _, _ => .bind (.get _) fun _ => .require _ _
  | .member o _ _, he => .bind (hev o he) fun _ => Run.onHeap_adds (readMember_adds _ _)
  | .item c i _, he => by
    simp only [Expr.isAssignFree, Bool.and_eq_true] at he
    exact .bind (hev c he.1) fun _ => .bind (hev i he.2) fun _ =>
      Run.onHeap_adds (readItem_adds _ _)
  | .slice c a b _, he => by
    simp only [Expr.isAssignFree, Bool.and_eq_true, Expr.isAssignFreeBound_iff] at he
    exact .bind (hev c he.1.1) fun _ => .bind (bound?_adds fun e h => hev e (he.1.2 e h)) fun _ =>
      .bind (bound?_adds fun e h => hev e (he.2 e h)) fun _ =>
        Run.onHeap_adds (readSlice_adds _ _ _)
  | .deref p _, he => .bind (hev p he) fun _ => Run.onHeap_adds (readPointee_adds _)

theorem evaluateWithin_adds (limit room : Nat) {e : Expr} (he : e.isAssignFree = true) :
    (evaluateWithin limit room e).Adds := by
  induction room generalizing e with
  | zero => exact .within (.fail _)
  | succ room ih => exact .within (Run.nested_adds (evaluateNode_adds (fun _ h => ih h) e he))

/-- Evaluating an expression without assignments changes no binding and no storage. -/
theorem evaluate_adds (limit : Nat) {e : Expr} (he : e.isAssignFree = true) :
    (evaluate limit e).Adds :=
  adds_of_le fun st => (evaluateWithin_adds limit (limit - st.depth) he).le st

end TenantScript
