import TenantScript.Proofs.Course
import TenantScript.Proofs.PlaceSlots

/-!
Array variables. A name bound to an array that can grow and be written behaves, under assignments to
its items, like a list. Main statement: after any sequence of such assignments the name is bound to
an array of the elements that the list has, and another name of the first array sees those of them
that came before the array first grew, since the longer array is another one.
-/

open TenantScript.Action

namespace TenantScript

/-! ### The list -/

/-- A list after a store at an index: one element is replaced, or one is added after the last. -/
def storeAt (vs : List Value) (i : Int) (w : Value) : Except Cause (List Value) :=
  if 0 ≤ i ∧ i < vs.length then .ok (vs.set i.toNat w)
  else if i = vs.length then .ok (vs ++ [w])
  else .error (.indexOutOfRange i vs.length)

/-- A list after several stores, of which those that fail leave it as it is. -/
def storesAt (vs : List Value) (ws : List (Int × Value)) : List Value :=
  ws.foldl (fun vs e => (storeAt vs e.1 e.2).toOption.getD vs) vs

section List

variable {vs : List Value} {i : Int} (w : Value)

theorem storeAt_of_lt (hi : 0 ≤ i) (hlt : i < vs.length) :
    storeAt vs i w = .ok (vs.set i.toNat w) := if_pos ⟨hi, hlt⟩

theorem storeAt_length (vs : List Value) : storeAt vs vs.length w = .ok (vs ++ [w]) := by
  rw [storeAt, if_neg (by omega), if_pos rfl]

theorem storeAt_of_out (hi : i < 0 ∨ vs.length < i) :
    storeAt vs i w = .error (.indexOutOfRange i vs.length) := by
  rw [storeAt, if_neg (by omega), if_neg (by omega)]

/-- Only a store after the last element makes a list longer. -/
theorem length_storeAt (hi : i ≠ vs.length) :
    ((storeAt vs i w).toOption.getD vs).length = vs.length := by
  unfold storeAt
  split
  · exact List.length_set
  · rfl

end List

/-! ### Names of arrays -/

/-- Whether a name is bound to an array of some elements. -/
structure State.Holds (st : State) (name : Name) (a : ArrayRef) (vs : List Value) : Prop where
  bound : ∃ v, st.env.lookup? name = some v ∧ v.unwrap = .array a
  items : st.heap.get? a.address = some (.items vs)

/-- Whether an array of a type can grow and be written. -/
structure ArrayRef.Growable (a : ArrayRef) (elem : Ty) : Prop where
  elem : a.elem = elem
  fixed : a.fixed = false
  writable : a.readOnly = false

/-- An assignment to an item of a variable: `v` is assigned to the item of `x` at an index `i` and
converts to `w`. -/
inductive AssignsItem (limit : Nat) (x : Name) (elem : Ty) (st : State) (i : Int) (w : Value)
    (r : Except EvalError Value) (st' : State) : Prop
  | intro {index : Expr} {xspan span : Span} {k v : Value} {h : Heap}
    (hindex : (evaluate limit index).run st = (.ok k, st)) (hi : toIndex k = .ok i)
    (hconv : (convert elem v).run st.heap = (.ok w, h))
    (hrun : (assign (evaluate limit) (.item (.ident x xspan) index span) v).run st = (r, st'))

/-- Assignments to items of a variable one after the other, between which values may be made. -/
inductive AssignsItems (limit : Nat) (x : Name) (elem : Ty) :
    State → List (Int × Value) → State → Prop
  | nil (st : State) : AssignsItems limit x elem st [] st
  | cons {st st₁ st₂ st' : State} {i : Int} {w : Value} {ws : List (Int × Value)}
    {r : Except EvalError Value} (hle : st ≤ st₁) (h : AssignsItem limit x elem st₁ i w r st₂)
    (hrest : AssignsItems limit x elem st₂ ws st') : AssignsItems limit x elem st ((i, w) :: ws) st'

variable {limit : Nat} {x y : Name} {elem : Ty} {st st' : State} {a b : ArrayRef}
  {vs us : List Value} {i : Int} {w : Value} {r : Except EvalError Value}

/-- What is planned for a store into an array that can grow and be written. -/
theorem ArrayRef.run_planIndex {v : Value} {h h₁ : Heap} (ha : a.Growable elem)
    (hget : h.get? a.address = some (.items vs)) (hconv : (convert elem v).run h = (.ok w, h₁)) :
    (a.planIndex i v).run h =
      if i < 0 ∨ vs.length < i then (.error (.ofCause (.indexOutOfRange i vs.length)), h)
      else if i = vs.length then
        (.ok (.replace (.array ⟨elem, false, false, h₁.size⟩)), h₁.push (.items (vs ++ [w])))
      else (.ok (.write ⟨a.address, .item i.toNat⟩ w), h₁) := by
  obtain ⟨rfl, hfixed, hwritable⟩ := ha
  have hitems := Heap.items_of_get? hget
  have hitems₁ := Heap.items_of_le ((convert_adds _ _).le_of_run hconv) hget
  unfold planIndex
  rw [run_bind, run_get]
  simp only [hitems]
  cases hpos : position? i with
  | none =>
    rw [if_pos (.inl (position?_eq_none_iff.1 hpos))]
    rfl
  | some n =>
    obtain rfl := position?_eq_some_iff.1 hpos
    simp only
    by_cases hend : n = vs.length
    · subst hend
      rw [if_pos rfl, if_neg (by omega), if_pos rfl]
      unfold planAppend
      rw [run_bind, run_get]
      simp only [hfixed, Bool.false_eq_true, if_false]
      rw [run_bind_ok _ (run_additions hconv), run_bind, run_get]
      simp only [hitems₁]
      rfl
    · rw [if_neg hend]
      by_cases hgt : n > vs.length
      · rw [if_pos hgt, if_pos (.inr (by omega))]
        rfl
      · rw [if_neg hgt]
        simp only [hwritable, Bool.false_eq_true, if_false]
        rw [run_bind_ok _ hconv, if_neg (by omega), if_neg (by omega)]
        rfl

/-- What an assignment to an item of a variable does to the state. -/
inductive ItemStep (x : Name) (a : ArrayRef) (vs : List Value) (st : State) (i : Int) (w : Value) :
    Except EvalError Value → State → Prop
  | replace {h : Heap} (hi : 0 ≤ i) (hlt : i < vs.length) (hle : st.heap ≤ h) :
    ItemStep x a vs st i w (.ok w) { st with heap := h.store ⟨a.address, .item i.toNat⟩ w }
  | append {h : Heap} {c : ArrayRef} (hi : i = vs.length) (hle : st.heap ≤ h)
    (hc : c = ⟨a.elem, false, false, h.size⟩) :
    ItemStep x a vs st i w (.ok (.array c))
      { st with env := st.env.assign x (.array c), heap := h.push (.items (vs ++ [w])) }
  | refuse {e : EvalError} (hi : i < 0 ∨ vs.length < i)
    (he : e.cause = .indexOutOfRange i vs.length) : ItemStep x a vs st i w (.error e) st

/-- Where an expression has a value, a name that is bound has its value. -/
theorem run_evaluate_ident {index : Expr} {k u : Value} {s : State} {span : Span}
    (hroom : (evaluate limit index).run st = (.ok k, s)) (hx : st.env.lookup? x = some u) :
    (evaluate limit (.ident x span)).run st = (.ok u, st) :=
  run_evaluate_name (depth_lt_of_run_evaluate hroom) hx

theorem AssignsItem.step (hx : st.Holds x a vs) (ha : a.Growable elem)
    (h : AssignsItem limit x elem st i w r st') : ItemStep x a vs st i w r st' := by
  obtain ⟨u, hu, harray⟩ := hx.bound
  cases h with
  | @intro index xspan span k v h hindex hi hconv hrun =>
    have hle := (convert_adds _ _).le_of_run hconv
    have hlink : (link (evaluate limit) (.item (.ident x xspan) index span) v).run st =
        (Run.onHeap (a.planIndex i v) >>= linkPlan (.ident x xspan) none).run st := by
      rw [link, run_bind_ok _ (run_evaluate_ident hindex hu), run_bind_ok _ hindex, planItem,
        harray, hi]
      rfl
    rw [run_bind, Run.run_onHeap, ArrayRef.run_planIndex ha hx.items hconv] at hlink
    by_cases hout : i < 0 ∨ vs.length < i
    · rw [if_pos hout] at hlink
      rw [assign_eq, run_within, run_bind_error _ hlink] at hrun
      cases hrun
      exact .refuse hout (EvalError.cause_orAt _ _)
    · rw [if_neg hout] at hlink
      by_cases hend : i = vs.length
      · rw [if_pos hend] at hlink
        let s : State := { st with heap := h.push (.items (vs ++ [w])) }
        let c : Value := .array ⟨elem, false, false, h.size⟩
        have hpass : (link _ _ _).run st = (.ok (.pass (.ident x xspan) c), s) := hlink
        have hlast : (link (evaluate limit) (.ident x xspan) c).run s =
            (.ok (.last (.bind x c)), s) := run_link_ident hu
        rw [(Chain.pass hpass rfl (.last hlast)).run_assign] at hrun
        cases hrun
        exact .append hend hle (by rw [ha.elem])
      · rw [if_neg hend] at hlink
        rw [(Chain.last hlink).run_assign] at hrun
        cases hrun
        exact .replace (by omega) (by omega) hle

/-! ### What steps and runs keep -/

namespace State.Holds

theorem mono (hx : st.Holds x a vs) (hle : st ≤ st') : st'.Holds x a vs :=
  ⟨hle.1 ▸ hx.bound, hle.2.2 _ _ hx.items⟩

theorem lt_size (hx : st.Holds x a vs) : a.address < st.heap.size :=
  Heap.lt_size_of_get? hx.items

variable {h : Heap} {n : Nat}

/-- Every name of an array sees a store into it. -/
theorem store (hx : st.Holds x a vs) (hle : st.heap ≤ h) (hn : n < vs.length) :
    { st with heap := h.store ⟨a.address, .item n⟩ w }.Holds x a (vs.set n w) := by
  let slot : Slot := ⟨a.address, .item n⟩
  have hroom : (Storage.items vs).HasRoom slot.position := hn
  have hget : h.get? slot.address = some (.items vs) := hle _ _ hx.items
  exact ⟨hx.bound, Heap.get?_store_self hget hroom⟩

theorem store_ne (hx : st.Holds x a vs) (hle : st.heap ≤ h) {c : ArrayRef}
    (hne : a.address ≠ c.address) :
    { st with heap := h.store ⟨c.address, .item n⟩ w }.Holds x a vs :=
  ⟨hx.bound, (Heap.get?_store_ne _ _ _ hne).trans (hle _ _ hx.items)⟩

/-- A name that is assigned is bound to a new array. -/
theorem assign (st : State) (x : Name) (c : ArrayRef) (hc : c.address = h.size) :
    { st with env := st.env.assign x (.array c), heap := h.push (.items vs) }.Holds x c vs := by
  refine ⟨⟨.array c, ?_, rfl⟩, hc ▸ Heap.get?_push_self h _⟩
  rw [Environment.lookup?_assign, if_pos rfl]

theorem assign_ne (hy : st.Holds y b us) (hyx : y ≠ x) (hle : st.heap ≤ h) (c : ArrayRef) :
    { st with env := st.env.assign x (.array c), heap := h.push (.items vs) }.Holds y b us := by
  obtain ⟨u, hu, hb⟩ := hy.bound
  have hget := hle _ _ hy.items
  refine ⟨⟨u, ?_, hb⟩, (Heap.get?_push_of_lt _ (Heap.lt_size_of_get? hget)).trans hget⟩
  rw [Environment.lookup?_assign, if_neg hyx, hu]

end State.Holds

namespace ItemStep

/-- The variable holds what the list does, in the same array unless it has grown. -/
theorem own (h : ItemStep x a vs st i w r st') (hx : st.Holds x a vs) (ha : a.Growable elem) :
    ∃ c, st'.Holds x c ((storeAt vs i w).toOption.getD vs) ∧ c.Growable elem ∧
      (i ≠ vs.length → c = a) ∧ (i = vs.length → st.heap.size ≤ c.address) := by
  cases h with
  | replace hi hlt hle =>
    rw [storeAt_of_lt w hi hlt]
    exact ⟨a, hx.store hle (by omega), ha, fun _ => rfl, fun h => by omega⟩
  | append hi hle hc =>
    subst hi hc
    rw [storeAt_length]
    exact ⟨_, .assign st x _ rfl, ⟨ha.elem, rfl, rfl⟩, fun h => (h rfl).elim,
      fun _ => Heap.size_le_of_le hle⟩
  | refuse hi he =>
    rw [storeAt_of_out w hi]
    exact ⟨a, hx, ha, fun _ => rfl, fun h => by omega⟩

/-- Another name of the array sees what is stored, unless the array grows. -/
theorem shared (h : ItemStep x a vs st i w r st') (hy : st.Holds y b vs)
    (hab : b.address = a.address) (hi : i ≠ vs.length) :
    st'.Holds y b ((storeAt vs i w).toOption.getD vs) := by
  cases h with
  | replace hi hlt hle =>
    rw [storeAt_of_lt w hi hlt, ← hab]
    exact hy.store hle (by omega)
  | append hend => exact (hi hend).elim
  | refuse hout he =>
    rw [storeAt_of_out w hout]
    exact hy

/-- Another name of another array, or of one that grows, keeps what it holds. -/
theorem apart (h : ItemStep x a vs st i w r st') (hy : st.Holds y b us) (hyx : y ≠ x)
    (hab : b.address ≠ a.address ∨ i = vs.length) : st'.Holds y b us := by
  cases h with
  | replace hi hlt hle => exact hy.store_ne hle (hab.resolve_right (by omega))
  | append hi hle hc => exact hy.assign_ne hyx hle _
  | refuse hi he => exact hy

end ItemStep

namespace AssignsItems

variable {ws : List (Int × Value)}

/-- Once the arrays of two names are apart, they stay so. -/
theorem apart (hrun : AssignsItems limit x elem st ws st') (hyx : y ≠ x) :
    ∀ {a vs}, st.Holds x a vs → a.Growable elem → st.Holds y b us → b.address ≠ a.address →
      (∃ c, st'.Holds x c (storesAt vs ws) ∧ c.Growable elem) ∧ st'.Holds y b us := by
  induction hrun with
  | nil st => exact fun hx ha hy _ => ⟨⟨_, hx, ha⟩, hy⟩
  | @cons st st₁ st₂ st' i w ws r hle h _ ih =>
    intro a vs hx ha hy hab
    have hstep := h.step (hx.mono hle) ha
    obtain ⟨c, hc, hgrow, hsame, hnew⟩ := hstep.own (hx.mono hle) ha
    refine ih hc hgrow (hstep.apart (hy.mono hle) hyx (.inl hab)) fun hbc => ?_
    by_cases hend : i = vs.length
    · exact Nat.not_lt.2 (hnew hend) (hbc ▸ (hy.mono hle).lt_size)
    · exact hab (hbc.trans (congrArg _ (hsame hend)))

/-- Two names of one array see the same stores until it grows. -/
theorem shared (hrun : AssignsItems limit x elem st ws st') (hyx : y ≠ x) :
    ∀ {a vs}, st.Holds x a vs → a.Growable elem → st.Holds y b vs → b.address = a.address →
      (∃ c, st'.Holds x c (storesAt vs ws) ∧ c.Growable elem) ∧
        st'.Holds y b (storesAt vs (ws.takeWhile fun e => e.1 ≠ vs.length)) := by
  induction hrun with
  | nil st => exact fun hx ha hy _ => ⟨⟨_, hx, ha⟩, hy⟩
  | @cons st st₁ st₂ st' i w ws r hle h hrest ih =>
    intro a vs hx ha hy hab
    have hstep := h.step (hx.mono hle) ha
    obtain ⟨c, hc, hgrow, hsame, hnew⟩ := hstep.own (hx.mono hle) ha
    by_cases hend : i = vs.length
    · have hy₂ := hstep.apart (hy.mono hle) hyx (.inr hend)
      rw [List.takeWhile_cons_of_neg (by simpa using hend)]
      refine hrest.apart hyx hc hgrow hy₂ fun hbc => ?_
      exact Nat.not_lt.2 (hnew hend) (hbc ▸ (hy.mono hle).lt_size)
    · obtain rfl := hsame hend
      have hlen := length_storeAt w hend
      rw [List.takeWhile_cons_of_pos (by simpa using hend), ← hlen]
      exact ih hc hgrow (hstep.shared (hy.mono hle) hab hend) hab

end AssignsItems

/-- However many assignments `x[i] = v` have been made, of values that convert to the type of the
elements, the array of `x` has the elements of the list after these stores; another name of the
first array sees the stores before the first that made the array longer; and the next assignment
does what the list says, with a failure that changes nothing where the list has no place. -/
theorem array_variable_refines_list (hyx : y ≠ x) (hx : st.Holds x a vs) (hy : st.Holds y b vs)
    (hab : b.address = a.address) (hfixed : a.fixed = false) (hwritable : a.readOnly = false)
    {ws : List (Int × Value)} (hrun : AssignsItems limit x a.elem st ws st') :
    (∃ c, st'.Holds x c (storesAt vs ws) ∧ c.Growable a.elem) ∧
      st'.Holds y b (storesAt vs (ws.takeWhile fun e => e.1 ≠ vs.length)) ∧
      ∀ {i : Int} {w : Value} {r : Except EvalError Value} {s s' : State}, st' ≤ s →
        AssignsItem limit x a.elem s i w r s' →
          match storeAt (storesAt vs ws) i w with
          | .ok us => (∃ u, r = .ok u) ∧ ∃ c, s'.Holds x c us
          | .error cause => (∃ e, r = .error e ∧ e.cause = cause) ∧ s' = s := by
  obtain ⟨⟨c, hc, hgrow⟩, hother⟩ := hrun.shared hyx hx ⟨rfl, hfixed, hwritable⟩ hy hab
  refine ⟨⟨c, hc, hgrow⟩, hother, fun hle h => ?_⟩
  have hstep := h.step (hc.mono hle) hgrow
  obtain ⟨d, hd, -⟩ := hstep.own (hc.mono hle) hgrow
  cases hstep with
  | replace hi hlt =>
    rw [storeAt_of_lt _ hi hlt] at hd ⊢
    exact ⟨⟨_, rfl⟩, d, hd⟩
  | append hi =>
    subst hi
    rw [storeAt_length] at hd ⊢
    exact ⟨⟨_, rfl⟩, d, hd⟩
  | refuse hi he =>
    rw [storeAt_of_out _ hi]
    exact ⟨⟨_, rfl, he⟩, rfl⟩

/-- Two names of one array. -/
def twoNames : State :=
  let a : Value := .array ⟨.int, false, false, 0⟩
  { env := ⟨[], (SortedMap.empty.insert "xs" a).insert "ys" (.interface a)⟩
    heap := Heap.empty.push (.items [.int 1, .int 2])
    depth := 0 }

/-- `xs[n] = m`. -/
def setNth (n m : Int64) : Run Value :=
  assign (evaluate 8) (.item (.ident "xs" .dummy) (.literal (.int n) .dummy) .dummy) (.int m)

theorem assignsItem_setNth {s : State} (hdepth : s.depth = 0) (n m : Int64) :
    AssignsItem 8 "xs" .int s n.toInt (.int m) ((setNth n m).run s).1 ((setNth n m).run s).2 := by
  refine .intro (k := .int n) (h := s.heap) ?_ rfl (v := .int m) rfl rfl
  obtain ⟨env, heap, depth⟩ := s
  cases hdepth
  rfl

/-- `xs[0] = 5`, `xs[2] = 7`, `xs[0] = 9`, `xs[7] = 1`: the array grows in the second assignment,
and the last one fails. -/
theorem array_variable_refines_list_setNth :
    let s := ((setNth 0 9).run ((setNth 2 7).run ((setNth 0 5).run twoNames).2).2).2
    AssignsItems 8 "xs" .int twoNames [(0, .int 5), (2, .int 7), (0, .int 9)] s ∧
      (∃ c, s.Holds "xs" c [.int 9, .int 2, .int 7]) ∧
      s.Holds "ys" ⟨.int, false, false, 0⟩ [.int 5, .int 2] ∧
      (∃ e, ((setNth 7 1).run s).1 = .error e ∧ e.cause = .indexOutOfRange 7 3) ∧
      ((setNth 7 1).run s).2 = s := by
  intro s
  have hrun : AssignsItems 8 "xs" .int twoNames [(0, .int 5), (2, .int 7), (0, .int 9)] s :=
    .cons le_rfl (assignsItem_setNth rfl 0 5) (.cons le_rfl (assignsItem_setNth rfl 2 7)
      (.cons le_rfl (assignsItem_setNth rfl 0 9) (.nil s)))
  have hxs : twoNames.Holds "xs" ⟨.int, false, false, 0⟩ [.int 1, .int 2] := ⟨⟨_, rfl, rfl⟩, rfl⟩
  have hys : twoNames.Holds "ys" ⟨.int, false, false, 0⟩ [.int 1, .int 2] := ⟨⟨_, rfl, rfl⟩, rfl⟩
  obtain ⟨⟨c, hc, -⟩, hother, hnext⟩ :=
    array_variable_refines_list (by decide) hxs hys rfl rfl rfl hrun
  exact ⟨hrun, ⟨c, hc⟩, hother, hnext le_rfl (assignsItem_setNth rfl 7 1)⟩

end TenantScript
