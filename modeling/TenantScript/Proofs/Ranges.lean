import TenantScript.Proofs.RunSoundness
import TenantScript.Proofs.Shift

/-!
Assignments that end in a store over a range. The target is then a slice, or it is an item of a
slice to which an array without elements is appended. In the second case the slice is evaluated
twice, first as the array to append to and then as the place of the longer array; both evaluations
agree in the length, so that nothing can have been appended.
-/

open TenantScript.Action

namespace TenantScript

variable {D : Discipline} {Γ : Layout}

/-! ### What links come to -/

/-- Whether an expression denotes a range. -/
def Expr.IsSlice (e : Expr) : Prop := ∃ c low high span, e = .slice c low high span

/-- What is planned for a container ends in a store into a slot. -/
theorem write_of_linkPlan {target : Expr} {via : Option PointerRef} {plan : Plan} {store : Store}
    {st st' : State} (h : (linkPlan target via plan).run st = (.ok (.last store), st')) :
    ∃ slot w, store = .write slot w := by
  cases plan with
  | write slot w =>
    cases h
    exact ⟨slot, w, rfl⟩
  | replace container =>
    cases via with
    | none => cases h
    | some p =>
      obtain ⟨slot, st₁, -, h⟩ := exists_of_run_bind h
      cases h
      exact ⟨slot, container, rfl⟩

/-- An assignment that is done in one link stores into a slot, unless the target is a name or a
slice. -/
theorem write_of_link {ev : Expr → Run Value} {t : Expr} {v : Value} {store : Store}
    {st st' : State} (h : (link ev t v).run st = (.ok (.last store), st')) :
    (∃ name span, t = .ident name span) ∨ t.IsSlice ∨ ∃ slot w, store = .write slot w := by
  cases t with
  | ident name span => exact .inl ⟨name, span, rfl⟩
  | slice c low high span => exact .inr (.inl ⟨c, low, high, span, rfl⟩)
  | member object field span =>
    obtain ⟨o, st₁, -, h⟩ := exists_of_run_bind h
    obtain ⟨found, st₂, -, h⟩ := exists_of_run_bind h
    obtain ⟨p, st₃, -, h⟩ := exists_of_run_bind h
    exact .inr (.inr (write_of_linkPlan h))
  | item collection index span =>
    obtain ⟨c, st₁, -, h⟩ := exists_of_run_bind h
    obtain ⟨i, st₂, -, h⟩ := exists_of_run_bind h
    obtain ⟨p, st₃, -, h⟩ := exists_of_run_bind h
    exact .inr (.inr (write_of_linkPlan h))
  | deref pointer span =>
    obtain ⟨p, st₁, -, h⟩ := exists_of_run_bind h
    obtain ⟨slot, st₂, -, h⟩ := exists_of_run_bind h
    cases h
    exact .inr (.inr ⟨slot, v, rfl⟩)
  | _ => cases h

/-- Only slices end in a store over a range. -/
theorem link_overwrite {ev : Expr → Run Value} {t : Expr} {v : Value} {st st' : State}
    {a : ArrayRef} {start : Nat} {values : List Value}
    (h : (link ev t v).run st = (.ok (.last (.overwrite a start values)), st')) : t.IsSlice := by
  rcases write_of_link h with ⟨name, span, rfl⟩ | hslice | ⟨slot, w, hstore⟩
  · obtain ⟨env, st₁, -, h⟩ := exists_of_run_bind h
    split at h <;> cases h
  · exact hslice
  · cases hstore

/-- Slices end in nothing else. -/
theorem link_slice (ev : Expr → Run Value) {t : Expr} (ht : t.IsSlice) (v : Value) :
    (link ev t v).Yields fun l => ∃ a start values, l = .last (.overwrite a start values) := by
  obtain ⟨c, low, high, span, rfl⟩ := ht
  exact .bind fun _ => .bind fun a => .bind fun _ => .bind fun _ => .bind fun r =>
    .pure ⟨a, r.1, r.2, rfl⟩

/-- A link that passes a replacement on has made a plan to replace the container. -/
theorem plan_of_pass {target t : Expr} {via : Option PointerRef} {plan : Plan} {c : Value}
    {st st' : State} (h : (linkPlan target via plan).run st = (.ok (.pass t c), st')) :
    plan = .replace c ∧ via = none ∧ st' = st := by
  cases plan with
  | write slot w => cases h
  | replace container =>
    cases via with
    | none =>
      cases h
      exact ⟨rfl, rfl, rfl⟩
    | some p =>
      obtain ⟨slot, st₁, -, h⟩ := exists_of_run_bind h
      cases h

theorem item_of_pass {ev : Expr → Run Value} {collection index t : Expr} {span : Span}
    {v c : Value} {st st' : State}
    (h : (link ev (.item collection index span) v).run st = (.ok (.pass t c), st')) :
    ∃ w st₁ key st₂ heap, (ev collection).run st = (.ok w, st₁) ∧
      (ev index).run st₁ = (.ok key, st₂) ∧
      (planItem w key v).run st₂.heap = (.ok (.replace c), heap) ∧
      st' = { st₂ with heap } := by
  obtain ⟨w, st₁, hw, h⟩ := exists_of_run_bind h
  obtain ⟨key, st₂, hkey, h⟩ := exists_of_run_bind h
  obtain ⟨plan, heap, hplan, h⟩ := Run.exists_of_run_onHeap_bind h
  obtain ⟨rfl, -, rfl⟩ := plan_of_pass h
  exact ⟨w, st₁, key, st₂, heap, hw, hkey, hplan, rfl⟩

theorem member_of_pass {ev : Expr → Run Value} {object t : Expr} {field : Name} {span : Span}
    {v c : Value} {st st' : State}
    (h : (link ev (.member object field span) v).run st = (.ok (.pass t c), st')) :
    ∃ w st₁ heap, (ev object).run st = (.ok w, st₁) ∧
      (planMember w.unwrap field v).run st₁.heap = (.ok (.replace c), heap) ∧
      st' = { st₁ with heap } := by
  obtain ⟨w, st₁, hw, h⟩ := exists_of_run_bind h
  obtain ⟨found, heap₁, hfound, h⟩ := Run.exists_of_run_onHeap_bind h
  obtain ⟨plan, heap, hplan, h⟩ := Run.exists_of_run_onHeap_bind h
  obtain ⟨rfl, hvia, rfl⟩ := plan_of_pass h
  obtain ⟨rfl, hcontainer⟩ := run_memberContainer_iff.1 hfound
  cases hcontainer with
  | direct hnil hpointer => exact ⟨w, st₁, heap, hw, hplan, rfl⟩
  | through hp hload hnil => cases hvia

/-- The container that a link replaces has been evaluated. -/
theorem container_of_pass {ev : Expr → Run Value} {t c : Expr} {v w : Value} {st st' : State}
    (hc : t.container? = some c) (h : (link ev t v).run st = (.ok (.pass c w), st')) :
    ∃ u s, (ev c).run st = (.ok u, s) := by
  cases t with
  | member object field span =>
    cases hc
    obtain ⟨u, s, -, hu, -⟩ := member_of_pass h
    exact ⟨u, s, hu⟩
  | item collection index span =>
    cases hc
    obtain ⟨u, s, -, -, -, hu, -⟩ := item_of_pass h
    exact ⟨u, s, hu⟩
  | _ => cases hc

theorem range_of_overwrite {ev : Expr → Run Value} {collection : Expr} {low high : Option Expr}
    {span : Span} {v : Value} {st st' : State} {a : ArrayRef} {start : Nat} {values : List Value}
    (h : (link ev (.slice collection low high span) v).run st =
      (.ok (.last (.overwrite a start values)), st')) :
    ∃ w st₁ i st₂ j st₃ heap, (ev collection).run st = (.ok w, st₁) ∧ w.unwrap = .array a ∧
      (boundOr ev (return 0) low).run st₁ = (.ok i, st₂) ∧
      (boundOr ev (Run.onHeap (.get fun h => ((h.items a).length : Int))) high).run st₂ =
        (.ok j, st₃) ∧
      (a.planRange i j v).run st₃.heap = (.ok (start, values), heap) ∧
      st' = { st₃ with heap } := by
  obtain ⟨w, st₁, hw, h⟩ := exists_of_run_bind h
  obtain ⟨b, heap', htarget, h⟩ := Run.exists_of_run_onHeap_bind h
  obtain ⟨i, st₂, hi, h⟩ := exists_of_run_bind h
  obtain ⟨j, st₃, hj, h⟩ := exists_of_run_bind h
  obtain ⟨⟨start', values'⟩, heap, hrun, h⟩ := Run.exists_of_run_onHeap_bind h
  cases h
  unfold sliceTarget at htarget
  split at htarget
  · next a' ha =>
    cases htarget
    exact ⟨w, st₁, i, st₂, j, st₃, heap, hw, ha, hi, hj, hrun, rfl⟩
  · cases htarget

/-! ### What plans come to -/

theorem mapM_length {σ α β : Type} (f : α → Action σ β) : (as : List α) →
    (as.mapM f).Yields fun bs => bs.length = as.length
  | [] => by
    rw [List.mapM_nil]
    exact .pure rfl
  | a :: as => by
    rw [List.mapM_cons]
    exact .bind fun b => .bind_of (mapM_length f as) fun bs hbs => .pure (by simp [hbs])

theorem length_of_additions {elem : Ty} {v : Value} {extra : List Value} {h h' : Heap}
    (hrun : (additions elem v).run h = (.ok extra, h')) :
    extra.length = 1 ∨ ∃ source heap, v.unwrap = .array source ∧ h ≤ heap ∧
      extra.length = (heap.items source).length := by
  unfold additions at hrun
  rw [run_recover] at hrun
  have hle := (Adds.bind (convert_adds elem v) fun w => .pure [w]).le h
  rcases hr : (do return [← convert elem v] : Action Heap (List Value)).run h with ⟨e | ws, h₁⟩
  · rw [hr] at hrun hle
    simp only at hrun
    split at hrun
    · next source hsource =>
      obtain ⟨items, h₂, hitems, hrun⟩ := exists_of_run_bind hrun
      cases hitems
      exact .inr ⟨source, h₁, hsource, hle, mapM_length _ _ h₁ extra (congrArg Prod.fst hrun)⟩
    · cases hrun
  · rw [hr] at hrun
    cases hrun
    obtain ⟨w, h₂, -, hw⟩ := exists_of_run_bind hr
    cases hw
    exact .inl rfl

theorem append_of_replace {a : ArrayRef} {index : Int} {v c : Value} {h h' : Heap}
    (hrun : (a.planIndex index v).run h = (.ok (.replace c), h')) :
    position? index = some (h.items a).length ∧ ∃ extra h₁,
      (additions a.elem v).run h = (.ok extra, h₁) ∧
      c = .array ⟨a.elem, false, false, h₁.size⟩ ∧
      h' = h₁.push (.items (h₁.items a ++ extra)) := by
  obtain ⟨i, hi, ⟨-, w, -, hplan⟩ | ⟨rfl, extra, h₁, hextra, hplan, hh⟩⟩ :=
    ArrayRef.cases_of_planIndex hrun
  · cases hplan
  · cases hplan
    exact ⟨hi, extra, h₁, hextra, rfl, hh⟩

theorem source_of_planRange {a : ArrayRef} {i j : Int} {v : Value} {start : Nat}
    {values : List Value} {h h' : Heap}
    (hrun : (a.planRange i j v).run h = (.ok (start, values), h')) :
    ∃ stop source, checkedRange i j (h.items a).length = .ok (start, stop) ∧
      v.unwrap = .array source ∧ (h.items source).length = stop - start ∧
      ((h.items source).mapM (convert a.elem)).run h = (.ok values, h') := by
  unfold ArrayRef.planRange at hrun
  obtain ⟨items, h₀, hitems, hrun⟩ := exists_of_run_bind hrun
  cases hitems
  obtain ⟨r, h₁, hr, hrun⟩ := exists_of_run_bind hrun
  obtain ⟨hr, rfl⟩ := eq_of_run_ofExcept hr
  simp only at hrun
  split at hrun
  · cases hrun
  · split at hrun
    · next source hsource =>
      obtain ⟨items, h₂, hitems, hrun⟩ := exists_of_run_bind hrun
      cases hitems
      split at hrun
      · cases hrun
      · next hlen =>
        obtain ⟨ws, h₃, hws, hrun⟩ := exists_of_run_bind hrun
        cases hrun
        exact ⟨r.2, source, hr, hsource, not_ne_iff.1 hlen, hws⟩
    · cases hrun

/-! ### What evaluation comes to -/

theorem parts_of_slice {ev : Expr → Run Value} {collection : Expr} {low high : Option Expr}
    {span : Span} {r : Value} {st st' : State}
    (h : (evaluateNode ev (.slice collection low high span)).run st = (.ok r, st')) :
    ∃ w st₁ i st₂ j st₃ heap, (ev collection).run st = (.ok w, st₁) ∧
      (bound? ev low).run st₁ = (.ok i, st₂) ∧ (bound? ev high).run st₂ = (.ok j, st₃) ∧
      (readSlice w i j).run st₃.heap = (.ok r, heap) ∧ st' = { st₃ with heap } := by
  obtain ⟨w, st₁, hw, h⟩ := exists_of_run_bind h
  obtain ⟨i, st₂, hi, h⟩ := exists_of_run_bind h
  obtain ⟨j, st₃, hj, h⟩ := exists_of_run_bind h
  obtain ⟨heap, hrun, hst⟩ := Run.exists_of_run_onHeap h
  exact ⟨w, st₁, i, st₂, j, st₃, heap, hw, hi, hj, hrun, hst⟩

/-- A range of an array is a new array. -/
theorem array_of_readSlice {w r : Value} {a : ArrayRef} {i j : Option Int} {h h' : Heap}
    (ha : w.unwrap = .array a) (hrun : (readSlice w i j).run h = (.ok r, h')) :
    ∃ part, elementsIn (h.items a) i j = .ok part ∧
      r = .array ⟨a.elem, false, false, h.size⟩ ∧ h' = h.push (.items part) := by
  unfold readSlice at hrun
  simp only [ha] at hrun
  obtain ⟨items, h₀, hitems, hrun⟩ := exists_of_run_bind hrun
  cases hitems
  obtain ⟨part, h₁, hpart, hmake⟩ := exists_of_run_bind hrun
  obtain ⟨hok, rfl⟩ := eq_of_run_ofExcept hpart
  cases hmake
  exact ⟨part, hok, rfl, rfl⟩

theorem eq_of_elementsIn {α : Type} {items part : List α} {start stop : Option Int}
    {r : Nat × Nat} (h : elementsIn items start stop = .ok part)
    (hr : checkedRange (start.getD 0) (stop.getD items.length) items.length = .ok r) :
    part = (items.drop r.1).take (r.2 - r.1) := by
  rw [elementsIn, hr] at h
  cases h
  rfl

section Bounds

variable {ev : Expr → Run Value} (hev : ∀ e, e.isAssignFree = true → (ev e).Adds)
  {low high : Option Expr} (hlow : ∀ e, low = some e → e.isAssignFree = true)
  (hhigh : ∀ e, high = some e → e.isAssignFree = true) {st₁ st₂ st₃ : State}

include hev hlow hhigh

/-- Between the bounds of a slice that is read a state only grows. -/
theorem le_of_bounds {i j : Option Int} (hi : (bound? ev low).run st₁ = (.ok i, st₂))
    (hj : (bound? ev high).run st₂ = (.ok j, st₃)) : st₁ ≤ st₃ :=
  ((bound?_adds fun e he => hev e (hlow e he)).le_of_run hi).trans
    ((bound?_adds fun e he => hev e (hhigh e he)).le_of_run hj)

/-- So it does between the bounds of a slice that is assigned. -/
theorem le_of_boundsOr {a : ArrayRef} {i j : Int}
    (hi : (boundOr ev (return 0) low).run st₁ = (.ok i, st₂))
    (hj : (boundOr ev (Run.onHeap (.get fun h => ((h.items a).length : Int))) high).run st₂ =
      (.ok j, st₃)) : st₁ ≤ st₃ :=
  ((boundOr_adds (.pure _) fun e he => hev e (hlow e he)).le_of_run hi).trans
    ((boundOr_adds (Run.onHeap_adds (.get _)) fun e he => hev e (hhigh e he)).le_of_run hj)

end Bounds

/-! ### Slices that are evaluated twice -/

/-- A bound that is evaluated twice is the same; if it is missing the second one is a default. -/
theorem bound_twice {I : State → State → Prop} {g : Gap} {ev ev' : Expr → Run Value}
    {bound : Option Expr} {missing : Run Int} {d : State → Int}
    (hmissing : ∀ s, missing.run s = (.ok (d s), s))
    (h : ∀ e, bound = some e → Follows I g.Moves (ev e) (ev' e)) {s s' s₁ s₁' : State} (hs : I s s')
    {i? : Option Int} {i : Int} (hfirst : (bound? ev bound).run s = (.ok i?, s₁))
    (hsecond : (boundOr ev' missing bound).run s' = (.ok i, s₁')) :
    I s₁ s₁' ∧ i = i?.getD (d s₁') := by
  cases bound with
  | none =>
    cases hfirst
    cases (hmissing s').symm.trans hsecond
    exact ⟨hs, rfl⟩
  | some e =>
    obtain ⟨v, s₂, hv, hfirst⟩ := exists_of_run_bind hfirst
    obtain ⟨v', s₂', hv', hsecond⟩ := exists_of_run_bind hsecond
    obtain ⟨k, s₃, hk, hpure⟩ := exists_of_run_bind hfirst
    obtain ⟨hindex, rfl⟩ := eq_of_run_ofExcept hk
    obtain ⟨hindex', rfl⟩ := eq_of_run_ofExcept hsecond
    cases hpure
    obtain ⟨_, _, hrun, hs₂, hmoves⟩ := h e rfl s s' hs v _ hv
    cases hv'.symm.trans hrun
    rw [hmoves, Value.toIndex_shift, hindex] at hindex'
    cases hindex'
    exact ⟨hs₂, rfl⟩

/-- A slice that has a value and in which a store over a range ends later on: its value is a new
array of the range of one array, and the store goes over the same range of the same array, shifted.
-/
theorem parts_of_slice_twice {limit room depth : Nat} {collection : Expr} {low high : Option Expr}
    {span : Span} {c r : Value} {st s st' st'' : State} {a : ArrayRef} {start : Nat}
    {values : List Value} (hst : st.Sound D Γ) (hle : st ≤ st') (hroom : room ≤ limit - st'.depth)
    (hfree : (Expr.slice collection low high span).isAssignFree = true)
    (hfirst : (evaluateNode (evaluateWithin limit room) (.slice collection low high span)).run
      { st with depth } = (.ok r, s))
    (hsecond : (link (evaluate limit) (.slice collection low high span) c).run st' =
      (.ok (.last (.overwrite a start values)), st'')) :
    ∃ (a₀ source : ArrayRef) (items : List Value) (stop : Nat) (h₀ h₁ : Heap),
      a = a₀.shift ⟨st.heap.size, st'.heap.size - st.heap.size⟩ ∧
      st.heap ≤ h₀ ∧ h₀.get? a₀.address = some (.items items) ∧
      start ≤ stop ∧ stop ≤ items.length ∧
      r = .array ⟨a₀.elem, false, false, h₀.size⟩ ∧
      s.heap = h₀.push (.items ((items.drop start).take (stop - start))) ∧
      st'.heap ≤ h₁ ∧ c.unwrap = .array source ∧ (h₁.items source).length = stop - start ∧
      ((h₁.items source).mapM (convert a.elem)).run h₁ = (.ok values, st''.heap) := by
  simp only [Expr.isAssignFree, Bool.and_eq_true, Expr.isAssignFreeBound_iff] at hfree
  obtain ⟨w, st₁, i?, st₂, j?, st₃, heap, hw, hi, hj, hread, rfl⟩ := parts_of_slice hfirst
  obtain ⟨w', st₁', i, st₂', j, st₃', heap', hw', ha, hi', hj', hplan, rfl⟩ :=
    range_of_overwrite hsecond
  have hI := State.shiftedAt_of_le hst hle depth
  generalize (Gap.mk st.heap.size (st'.heap.size - st.heap.size)) = g at hI ⊢
  obtain ⟨_, _, hrun, hI₁, hmoves⟩ := evaluate_follows hroom hfree.1.1 _ _ hI w st₁ hw
  cases hw'.symm.trans hrun
  obtain ⟨hI₂, rfl⟩ := bound_twice (d := fun _ => 0) (fun _ => rfl)
    (fun e he => evaluate_follows hroom (hfree.1.2 e he)) hI₁ hi hi'
  obtain ⟨hI₃, rfl⟩ := bound_twice (d := fun s => ((s.heap.items a).length : Int)) (fun _ => rfl)
    (fun e he => evaluate_follows hroom (hfree.2 e he)) hI₂ hj hj'
  -- the collection is the same array in both evaluations, and so are its length and the bounds
  rw [hmoves, Value.unwrap_shift] at ha
  cases hu : w.unwrap with
  | array a₀ =>
    rw [hu] at ha
    cases ha
    obtain ⟨part, hpart, rfl, rfl⟩ := array_of_readSlice hu hread
    obtain ⟨stop, source, hrange, hsource, hlen, hvalues⟩ := source_of_planRange hplan
    rw [hI₃.1.heap.items, List.length_map] at hrange
    obtain rfl := eq_of_elementsIn hpart hrange
    obtain ⟨-, -, hstart, hstop⟩ := checkedRange_eq_ok_iff.1 hrange
    -- what the first evaluation read, and how the states grew on the way there
    obtain ⟨Γ', -, hst₁, hfits⟩ := evaluateWithin_sound limit room collection Γ { st with depth }
      ⟨hst.heap, hst.env⟩
    rw [hw] at hst₁ hfits
    have hfits' := (hfits w rfl).unwrap
    rw [hu] at hfits'
    obtain ⟨n, hn⟩ := hfits'
    have hev (e : Expr) (he : e.isAssignFree = true) := evaluateWithin_adds limit room he
    have hle₁ := (hev collection hfree.1.1).le_of_run hw
    have hle₂ := le_of_bounds hev hfree.1.2 hfree.2 hi hj
    have hget := hle₂.2.2 _ _ (hst₁.heap.items hn).1
    rw [← Heap.items_of_get? hget] at hget
    -- how they grew in the second evaluation
    have hle₁' := (evaluate_adds limit hfree.1.1).le_of_run hw'
    have hle₂' := le_of_boundsOr (fun e he => evaluate_adds limit he) hfree.1.2 hfree.2 hi' hj'
    exact ⟨a₀, source, _, stop, st₃.heap, st₃'.heap, rfl, (hle₁.trans hle₂).2.2, hget, hstart,
      hstop, rfl, rfl, (hle₁'.trans hle₂').2.2, hsource, hlen, hvalues⟩
  | _ =>
    rw [hu] at ha
    cases ha

/-- The value of such a slice is a new array as long as the one that was stored. -/
theorem length_of_slice_twice {limit room depth : Nat} {collection : Expr} {low high : Option Expr}
    {span : Span} {c r : Value} {st s st' st'' : State} {a : ArrayRef} {start : Nat}
    {values : List Value} (hst : st.Sound D Γ) (hle : st ≤ st') (hroom : room ≤ limit - st'.depth)
    (hfree : (Expr.slice collection low high span).isAssignFree = true)
    (hfirst : (evaluateNode (evaluateWithin limit room) (.slice collection low high span)).run
      { st with depth } = (.ok r, s))
    (hsecond : (link (evaluate limit) (.slice collection low high span) c).run st' =
      (.ok (.last (.overwrite a start values)), st'')) :
    ∃ fresh part source heap, r = .array fresh ∧ fresh.fixed = false ∧
      s.heap.get? fresh.address = some (.items part) ∧ c.unwrap = .array source ∧
      st'.heap ≤ heap ∧ (heap.items source).length = part.length := by
  obtain ⟨a₀, source, items, stop, h₀, h₁, -, -, -, hstart, hstop, rfl, hs, hle₁, hsource, hlen,
    -⟩ := parts_of_slice_twice hst hle hroom hfree hfirst hsecond
  refine ⟨_, (items.drop start).take (stop - start), source, h₁, rfl, rfl, ?_, hsource, hle₁, ?_⟩
  · rw [hs]
    exact Heap.get?_push_self _ _
  · rw [hlen, List.length_take, List.length_drop]
    omega

section Slice

variable {limit : Nat} {collection : Expr} {low high : Option Expr} {span : Span} {c : Value}
  {st st₁ st' : State} {a : ArrayRef} {start : Nat} {values : List Value}

/-- What a slice is when it is evaluated in the first of two states, if in the second one a store
over a range ends in it. -/
theorem array_of_slice_twice {w : Value} {s : State} (hst : st.Sound D Γ) (hle : st ≤ st₁)
    (hfree : (Expr.slice collection low high span).isAssignFree = true)
    (hw : (evaluate limit (.slice collection low high span)).run st = (.ok w, s))
    (hlast : (link (evaluate limit) (.slice collection low high span) c).run st₁ =
      (.ok (.last (.overwrite a start values)), st')) :
    ∃ fresh part source heap, w = .array fresh ∧ fresh.fixed = false ∧
      s.heap.get? fresh.address = some (.items part) ∧ c.unwrap = .array source ∧
      st₁.heap ≤ heap ∧ (heap.items source).length = part.length := by
  obtain ⟨room, s₁, hroom, hnode, rfl⟩ := node_of_evaluateWithin hw
  have hroom' : room ≤ limit - st₁.depth := by
    rw [hle.2.1]
    omega
  obtain ⟨fresh, part, source, heap, h⟩ := length_of_slice_twice hst hle hroom' hfree hnode hlast
  exact ⟨fresh, part, source, heap, h⟩

/-- No member of a slice passes a replacement on to it. -/
theorem member_slice_not_pass {field : Name} {mspan : Span} {v : Value} (hst : st.Sound D Γ)
    (hle : st ≤ st₁) (hfree : (Expr.slice collection low high span).isAssignFree = true)
    (hpass : (link (evaluate limit) (.member (.slice collection low high span) field mspan) v).run
      st = (.ok (.pass (.slice collection low high span) c), st₁))
    (hlast : (link (evaluate limit) (.slice collection low high span) c).run st₁ =
      (.ok (.last (.overwrite a start values)), st')) : False := by
  obtain ⟨w, s, heap, hw, hplan, -⟩ := member_of_pass hpass
  obtain ⟨fresh, part, source, heap', rfl, -⟩ := array_of_slice_twice hst hle hfree hw hlast
  cases hplan

/-- What is appended to a slice and stored over it has no elements. -/
theorem item_slice_append {index : Expr} {ispan : Span} {v : Value} (hst : st.Sound D Γ)
    (hv : v.Fits Γ)
    (hfree : (Expr.item (.slice collection low high span) index ispan).isAssignFree = true)
    (hpass : (link (evaluate limit) (.item (.slice collection low high span) index ispan) v).run
      st = (.ok (.pass (.slice collection low high span) c), st₁))
    (hlast : (link (evaluate limit) (.slice collection low high span) c).run st₁ =
      (.ok (.last (.overwrite a start values)), st')) :
    ∃ source, v.unwrap = .array source ∧ st.heap.items source = [] := by
  have hle := (link_adds (fun _ h => evaluate_adds limit h) _ _ hfree).le_of_run hpass
  rw [Expr.isAssignFree, Bool.and_eq_true] at hfree
  obtain ⟨w, s₁, key, s₂, heap, hw, hkey, hplan, rfl⟩ := item_of_pass hpass
  have hle₁ := (evaluate_adds limit hfree.1).le_of_run hw
  have hle₂ := (evaluate_adds limit hfree.2).le_of_run hkey
  obtain ⟨fresh, part, source, heap', rfl, -, hpart, hsource, hle', hlen⟩ :=
    array_of_slice_twice hst hle hfree.1 hw hlast
  obtain ⟨i, h₁, hi, happend⟩ := exists_of_run_bind hplan
  obtain ⟨hindex, rfl⟩ := eq_of_run_ofExcept hi
  obtain ⟨-, extra, h₂, hextra, rfl, rfl⟩ := append_of_replace happend
  cases hsource
  have hr := hle' _ _ (Heap.get?_push_self h₂ (.items (h₂.items fresh ++ extra)))
  have hle₃ := (additions_adds _ _).le_of_run hextra
  rw [Heap.items_of_get? hr, Heap.items_of_le (hle₂.2.2.trans hle₃) hpart,
    List.length_append] at hlen
  have hnone : extra.length = 0 := by omega
  rcases length_of_additions hextra with hone | ⟨src, heap'', hsrc, hle'', hlen'⟩
  · omega
  · refine ⟨src, hsrc, ?_⟩
    have hu := hv.unwrap
    rw [hsrc] at hu
    obtain ⟨n, hn⟩ := hu
    have hget := (hst.heap.items hn).1
    rw [Heap.items_of_le (hle₁.2.2.trans (hle₂.2.2.trans hle'')) hget, hnone] at hlen'
    exact List.length_eq_zero_iff.1 hlen'.symm

/-- An item of a slice that can be evaluated is not appended to the slice later on. -/
theorem item_slice_not_pass {index : Expr} {ispan : Span} {u c' : Value} {s st₂ : State}
    (hst : st.Sound D Γ) (hle : st ≤ st₁)
    (hfree : (Expr.item (.slice collection low high span) index ispan).isAssignFree = true)
    (hu : (evaluate limit (.item (.slice collection low high span) index ispan)).run st =
      (.ok u, s))
    (hpass : (link (evaluate limit) (.item (.slice collection low high span) index ispan) c').run
      st₁ = (.ok (.pass (.slice collection low high span) c), st₂))
    (hlast : (link (evaluate limit) (.slice collection low high span) c).run st₂ =
      (.ok (.last (.overwrite a start values)), st')) : False := by
  have hle₂ := hle.trans
    ((link_adds (fun _ h => evaluate_adds limit h) _ _ hfree).le_of_run hpass)
  rw [Expr.isAssignFree, Bool.and_eq_true] at hfree
  obtain ⟨room, s₀, hroom, hnode, -⟩ := node_of_evaluateWithin hu
  obtain ⟨w, s₁, hw, hnode⟩ := exists_of_run_bind hnode
  obtain ⟨key, s₂, hkey, hread⟩ := exists_of_run_bind hnode
  obtain ⟨heap, hitem, -⟩ := Run.exists_of_run_onHeap hread
  obtain ⟨room', s₁', rfl, hslice, rfl⟩ := node_of_evaluateWithin hw
  have hroom₁ : room' + 1 ≤ limit - st₁.depth := by
    rw [hle.2.1]
    omega
  have hroom₂ : room' ≤ limit - st₂.depth := by
    rw [hle₂.2.1]
    omega
  obtain ⟨fresh, part, -, -, rfl, -, hpart, -⟩ :=
    length_of_slice_twice hst hle₂ hroom₂ hfree.1 hslice hlast
  -- the second evaluation sees the same index and an array of the same length
  obtain ⟨w', t₁, key', t₂, heap', hw', hkey', hplan, -⟩ := item_of_pass hpass
  obtain ⟨_, _, hrun, hI₁, hmoves⟩ := evaluate_follows hroom₁ hfree.1 _ _
    (State.shiftedAt_of_le hst hle (st.depth + 1)) _ _ hw
  cases hw'.symm.trans hrun
  obtain ⟨_, _, hrun, hI₂, hmoves'⟩ := evaluate_follows hroom₁ hfree.2 _ _ hI₁ _ _ hkey
  cases hkey'.symm.trans hrun
  rw [hmoves, hmoves'] at hplan
  have hpart₂ := (evaluateWithin_adds limit (room' + 1) hfree.2).le_of_run hkey |>.2.2 _ _ hpart
  have hitems := hI₂.1.heap.items fresh
  rw [Heap.items_of_get? hpart₂] at hitems
  obtain ⟨i, h₁, hi, helem⟩ := exists_of_run_bind hitem
  obtain ⟨hindex, rfl⟩ := eq_of_run_ofExcept hi
  obtain ⟨i', h₁', hi', happend⟩ := exists_of_run_bind hplan
  obtain ⟨hindex', rfl⟩ := eq_of_run_ofExcept hi'
  rw [Value.toIndex_shift, hindex] at hindex'
  cases hindex'
  obtain ⟨hposition, -⟩ := append_of_replace happend
  rw [hitems, List.length_map] at hposition
  obtain ⟨items, h₂, hget, helem⟩ := exists_of_run_bind helem
  cases hget
  obtain ⟨helem, -⟩ := eq_of_run_ofExcept helem
  simp only [Heap.items_of_get? hpart₂] at helem
  unfold elementAt at helem
  rw [hposition, Option.bind_some, List.getElem?_eq_none (Nat.le_refl _)] at helem
  cases helem

end Slice

theorem Chain.overwrite_of_isSlice {ev : Expr → Run Value} {t : Expr} {v : Value} {st st' : State}
    {store : Store} (h : Chain ev t v st store st') (ht : t.IsSlice) :
    ∃ a start values, store = .overwrite a start values := by
  cases h with
  | last hl =>
    obtain ⟨a, start, values, h⟩ := link_slice ev ht v st _ (congrArg Prod.fst hl)
    cases h
    exact ⟨a, start, values, rfl⟩
  | pass hl _ _ =>
    obtain ⟨a, start, values, h⟩ := link_slice ev ht v st _ (congrArg Prod.fst hl)
    cases h

/-- Where an assignment ends in a store over a range, its target is a slice, or an item of a slice
to which an array without elements is appended. -/
theorem Chain.of_overwrite {limit : Nat} {t : Expr} {v : Value} {st st' : State} {store : Store}
    (h : Chain (evaluate limit) t v st store st') : {Γ : Layout} → st.Sound D Γ → v.Fits Γ →
      t.isAssignFree = true → ∀ a start values, store = .overwrite a start values →
        t.IsSlice ∨ ∃ c low high span index ispan source,
          t = .item (.slice c low high span) index ispan ∧ v.unwrap = .array source ∧
            st.heap.items source = [] := by
  induction h with
  | last hl =>
    intro Γ _ _ _ a start values hstore
    subst hstore
    exact .inl (link_overwrite hl)
  | @pass t v st t' c st₁ store st' hl hc htail ih =>
    intro Γ hst hv hfree a start values hstore
    have hle := (link_adds (fun _ h => evaluate_adds limit h) _ _ hfree).le_of_run hl
    have hfree' := Expr.isAssignFree_container hc hfree
    obtain ⟨Δ, -, hst₁, hfits⟩ := link_sound limit hv t st hst
    rw [hl] at hst₁ hfits
    right
    rcases ih hst₁ (hfits _ rfl) hfree' a start values hstore with
      ⟨d, low, high, span, rfl⟩ | ⟨d, low, high, span, index, ispan, source, rfl, -, -⟩
    · -- the replacement went from `t` straight to the slice
      cases htail with
      | pass _ hc' _ => cases hc'
      | last hlast =>
        subst hstore
        cases t with
        | member object field mspan =>
          cases hc
          exact (member_slice_not_pass hst hle hfree' hl hlast).elim
        | item collection index ispan =>
          cases hc
          obtain ⟨source, hsource⟩ := item_slice_append hst hv hfree hl hlast
          exact ⟨d, low, high, span, index, ispan, source, rfl, hsource⟩
        | _ => cases hc
    · -- the replacement went on from an item of the slice, which had been evaluated
      cases htail with
      | last hlast =>
        subst hstore
        obtain ⟨_, _, _, _, h⟩ := link_overwrite hlast
        cases h
      | pass hl' hc' htail' =>
        cases hc'
        cases htail' with
        | pass _ hc'' _ => cases hc''
        | last hlast =>
          subst hstore
          obtain ⟨u, s, hu⟩ := container_of_pass hc hl
          exact (item_slice_not_pass hst hle hfree' hu hl' hlast).elim

end TenantScript
