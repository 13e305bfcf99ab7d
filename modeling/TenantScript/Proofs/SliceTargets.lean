import TenantScript.Proofs.Copies
import TenantScript.Proofs.Footprint
import TenantScript.Proofs.Origin

/-!
Assignments through slices. A slice is read as a copy, so that a store into an element of a slice
goes into the copy and is lost, while a store into what such an element refers to goes where it
would go without the slice. Main statement: an assignment to a target with a slice in its path that
succeeds has either stored its result into a slot, or its elements into a range, that was there
before, where every expression that is read from there sees it; or it has changed nothing that was
there before, and every expression keeps its value. On a path that starts at a name the second
happens only where the store is directly in a slice, and there it always does.
-/

open Relation TenantScript.Action

namespace TenantScript

variable {limit : Nat} {t q e : Expr} {v w r : Value} {st st' s : State}

/-! ### Outward targets -/

/-- Whether an assignment to `t` may pass a replacement on to `q`: `q` is the target or one of the
containers around it. -/
def Expr.Outward (t q : Expr) : Prop := ReflTransGen (fun e c => e.container? = some c) t q

namespace Expr.Outward

theorem isAssignFree (h : t.Outward q) (ht : t.isAssignFree = true) : q.isAssignFree = true := by
  induction h with
  | refl => exact ht
  | tail _ hc ih => exact isAssignFree_container hc ih

theorem isRooted (h : t.Outward q) (ht : t.isRooted = true) : q.isRooted = true := by
  induction h with
  | refl => exact ht
  | @tail e c _ hc ih => cases e <;> cases hc <;> exact ih

theorem hasSlice (h : t.Outward q) (ht : t.hasSlice = true) : q.hasSlice = true := by
  induction h with
  | refl => exact ht
  | @tail e c _ hc ih => cases e <;> cases hc <;> exact ih

end Expr.Outward

/-- Whether an assignment of `v` to `t`, from the state `st` on, is done by a store at `q`: all
links before the one to `q` pass a replacement on, and that one comes to the store. -/
inductive EndsAt (ev : Expr → Run Value) : Expr → Value → State → Expr → Store → Prop
  | last {t v st store st'} : (link ev t v).run st = (.ok (.last store), st') →
    EndsAt ev t v st t store
  | pass {t v st t' c st₁ q store} : (link ev t v).run st = (.ok (.pass t' c), st₁) →
    EndsAt ev t' c st₁ q store → EndsAt ev t v st q store

theorem EndsAt.outward {ev : Expr → Run Value} {store : Store} (h : EndsAt ev t v st q store) :
    t.Outward q := by
  induction h with
  | last _ => exact .refl
  | pass hl _ ih => exact .head (link_yields ev _ _ _ _ (congrArg Prod.fst hl) _ _ rfl) ih

/-- An assignment is done by one store at one target. -/
theorem EndsAt.eq {ev : Expr → Run Value} {q' : Expr} {store store' : Store}
    (h : EndsAt ev t v st q store) (h' : EndsAt ev t v st q' store') :
    q' = q ∧ store' = store := by
  induction h with
  | last hl =>
    cases h' with
    | last hl' =>
      cases hl.symm.trans hl'
      exact ⟨rfl, rfl⟩
    | pass hl' _ => cases hl.symm.trans hl'
  | pass hl _ ih =>
    cases h' with
    | last hl' => cases hl.symm.trans hl'
    | pass hl' hend =>
      cases hl.symm.trans hl'
      exact ih hend

/-- The links of an assignment lead to the target at which it is done, in a state that has grown. -/
theorem Chain.exists_end {ev : Expr → Run Value}
    (hev : ∀ e, e.isAssignFree = true → (ev e).Adds) {store : Store}
    (h : Chain ev t v st store st') (ht : t.isAssignFree = true) :
    ∃ q u s, EndsAt ev t v st q store ∧ st ≤ s ∧
      (link ev q u).run s = (.ok (.last store), st') := by
  induction h with
  | @last t v st store st' hl => exact ⟨t, v, st, .last hl, le_rfl, hl⟩
  | pass hl hc _ ih =>
    obtain ⟨q, u, s, hq, hle, hlast⟩ := ih (Expr.isAssignFree_container hc ht)
    exact ⟨q, u, s, .pass hl hq, ((link_adds hev _ _ ht).le_of_run hl).trans hle, hlast⟩

/-- A path through a slice does not end in a binding. -/
theorem not_bind_of_hasSlice {ev : Expr → Run Value} {name : Name} (hq : q.hasSlice = true) :
    (link ev q v).run s ≠ (.ok (.last (.bind name w)), st') := by
  intro h
  rcases write_of_link h with ⟨name, span, rfl⟩ | hslice | ⟨slot, w, hstore⟩
  · cases hq
  · obtain ⟨a, start, values, hl⟩ := link_slice ev hslice v s _ (congrArg Prod.fst h)
    cases hl
  · cases hstore

/-! ### Ranges that slices are read from -/

/-- Whether a range of an array is the one that a target is read from when it is evaluated in a
state. -/
inductive Expr.RangeFrom (limit : Nat) (st : State) : Expr → ArrayRef → Nat → Nat → Prop
  | slice {collection : Expr} {low high : Option Expr} {span : Span} {w : Value} {a : ArrayRef}
      {i j : Option Int} {room start stop : Nat} {s₁ s₂ s₃ : State}
      (hroom : limit - st.depth = room + 1)
      (hw : (evaluateWithin limit room collection).run { st with depth := st.depth + 1 } =
        (.ok w, s₁))
      (ha : w.unwrap = .array a)
      (hi : (bound? (evaluateWithin limit room) low).run s₁ = (.ok i, s₂))
      (hj : (bound? (evaluateWithin limit room) high).run s₂ = (.ok j, s₃))
      (hrange : checkedRange (i.getD 0) (j.getD (s₃.heap.items a).length)
        (s₃.heap.items a).length = .ok (start, stop)) :
      RangeFrom limit st (.slice collection low high span) a start stop

/-- A slice is a new array of what is in the range that it is read from. -/
theorem Expr.RangeFrom.run_evaluate {a : ArrayRef} {start stop : Nat} {items : List Value}
    (h : t.RangeFrom limit st a start stop) (ht : t.isAssignFree = true)
    (hitems : st.heap.get? a.address = some (.items items)) :
    ∃ fresh s, (evaluate limit t).run st = (.ok (.array fresh), s) ∧
      s.heap.get? fresh.address = some (.items ((items.drop start).take (stop - start))) := by
  cases h with
  | @slice collection low high span w a i j room start stop s₁ s₂ s₃ hroom hw ha hi hj hrange =>
    simp only [isAssignFree, Bool.and_eq_true, isAssignFreeBound_iff] at ht
    have hev (e : Expr) (he : e.isAssignFree = true) := evaluateWithin_adds limit room he
    have hle₁ := (hev collection ht.1.1).le_of_run hw
    have hle₂ := le_of_bounds hev ht.1.2 ht.2 hi hj
    have hsame : s₃.heap.items a = items := Heap.items_of_le (hle₁.2.2.trans hle₂.2.2) hitems
    have hpart : elementsIn (s₃.heap.items a) i j =
        .ok ((items.drop start).take (stop - start)) := by
      rw [elementsIn, hrange, hsame]
      rfl
    have hread : (readSlice w i j).run s₃.heap =
        (.ok (.array ⟨a.elem, false, false, s₃.heap.size⟩),
          s₃.heap.push (.items ((items.drop start).take (stop - start)))) := by
      simp only [readSlice, ha]
      rw [run_bind, run_get]
      simp only [hpart]
      rfl
    have hnode : (evaluateNode (evaluateWithin limit room) (.slice collection low high span)).run
        { st with depth := st.depth + 1 } = (.ok (.array ⟨a.elem, false, false, s₃.heap.size⟩),
          { s₃ with heap := s₃.heap.push (.items ((items.drop start).take (stop - start))) }) := by
      rw [evaluateNode, run_bind_ok _ hw, run_bind_ok _ hi, run_bind_ok _ hj, Run.run_onHeap, hread]
    exact ⟨_, _, run_evaluate_of_node hroom hnode, Heap.get?_push_self s₃.heap _⟩

/-! ### Stores into what was made meanwhile -/

/-- A store into what was made since leaves all that was there before. -/
theorem Store.le_apply {store : Store} {st₁ : State} {a : Address} (hle : st ≤ st₁)
    (ha : store.address? = some a) (hmade : st.heap.size ≤ a) : st ≤ store.apply st₁ := by
  have hheap : st.heap ≤ (store.apply st₁).heap := by
    intro b x hget
    have hlt := Heap.lt_size_of_get? hget
    have hne : store.address? ≠ some b := by
      rintro hb
      cases ha.symm.trans hb
      exact absurd hlt (Nat.not_lt.2 hmade)
    rw [Store.get?_apply_of_ne (Nat.lt_of_lt_of_le hlt (Heap.size_le_of_le hle.2.2)) hne]
    exact hle.2.2 b x hget
  cases store with
  | bind name v => cases ha
  | write slot v => exact ⟨hle.1, hle.2.1, hheap⟩
  | overwrite r start values => exact ⟨hle.1, hle.2.1, hheap⟩

/-- Where a state has grown, an expression has the value that it had, shifted. -/
theorem run_evaluate_of_le {D : Discipline} {Γ : Layout} (hst : st.Sound D Γ) (hle : st ≤ st')
    (he : e.isAssignFree = true) (hrun : (evaluate limit e).run st = (.ok w, s)) :
    ∃ s', (evaluate limit e).run st' =
      (.ok (w.shift ⟨st.heap.size, st'.heap.size - st.heap.size⟩), s') := by
  have hroom : limit - st.depth ≤ limit - st'.depth := Nat.le_of_eq (by rw [hle.2.1])
  obtain ⟨w', s', hrun', -, rfl⟩ := evaluate_follows hroom he _ _
    (State.shiftedAt_of_le hst hle st.depth) w s hrun
  exact ⟨s', hrun'⟩

theorem drop_take_overwrite {items values : List Value} {start : Nat}
    (hle : start ≤ items.length) :
    ((overwrite items start values).drop start).take (start + values.length - start) = values := by
  have htake : (items.take start).length = start := List.length_take_of_le hle
  rw [overwrite, List.append_assoc, List.drop_left' htake, Nat.add_sub_cancel_left, List.take_left]

/-! ### What becomes of an assignment -/

/-- What an assignment of `v` to `t` with the result `r`, from `st` to `st'`, has come to. -/
inductive Fate (limit : Nat) (t : Expr) (v r : Value) (st st' : State) : Prop
  /-- The result is in a slot that was there before and is seen by all that is read from it. Unless
  it is the cell of a pointer, it is the slot that the target at which the assignment was done had
  its value from. -/
  | kept {q : Expr} {slot : Slot} (ends : EndsAt (evaluate limit) t v st q (.write slot r))
      (apart : ¬ q.OfSlice)
      (old : slot.address < st.heap.size)
      (origin : slot.position ≠ .cell → ∀ w s, (evaluate limit q).run st = (.ok w, s) →
        q.ReadFrom limit st slot)
      (same : st.SameBut (· = .slot slot) st') (holds : st'.heap.value? slot = some r)
      (seen : ∀ e, e.isAssignFree = true → e.ReadFrom limit st' slot →
        ∃ s, (evaluate limit e).run st' = (.ok r, s))
  /-- The elements of the result are in a range of an array that was there before, and are seen by
  every slice that is read from it. -/
  | range {q : Expr} {a fresh : ArrayRef} {start : Nat} {values : List Value}
      (ends : EndsAt (evaluate limit) t v st q (.overwrite a start values))
      (apart : ¬ q.OfSlice) (slice : q.IsSlice)
      (old : a.address < st.heap.size) (same : st.SameBut (a.range start values) st')
      (holds : ∀ i < values.length,
        st'.heap.value? ⟨a.address, .item (start + i)⟩ = values[i]?)
      (result : r = .array fresh) (fresh_items : st'.heap.get? fresh.address = some (.items values))
      (seen : ∀ e, e.isAssignFree = true → e.RangeFrom limit st' a start (start + values.length) →
        ∃ copy s, (evaluate limit e).run st' = (.ok (.array copy), s) ∧
          s.heap.get? copy.address = some (.items values))
  /-- Nothing that was there before has changed, and every expression has the value that it had. On
  a path from a name the assignment was done directly in a slice, or nothing was to be written. -/
  | lost {q : Expr} {store : Store} (ends : EndsAt (evaluate limit) t v st q store)
      (slice : t.isRooted = true → q.OfSlice ∨
        ∃ fresh, r = .array fresh ∧ st'.heap.get? fresh.address = some (.items []))
      (le : st ≤ st')
      (unseen : ∀ e w s, e.isAssignFree = true → (evaluate limit e).run st = (.ok w, s) →
        ∃ s', (evaluate limit e).run st' =
          (.ok (w.shift ⟨st.heap.size, st'.heap.size - st.heap.size⟩), s'))

section Stores

variable {D : Discipline} {Γ : Layout} {st₁ : State} {u : Value}

theorem fate_of_write {slot : Slot} (hst : st.Sound D Γ)
    (hend : EndsAt (evaluate limit) t v st q (.write slot r)) (hq : q.isAssignFree = true)
    (hle : st ≤ s) (hle₁ : st ≤ st₁) (hroom : st₁.heap.HasRoom slot)
    (hlast : (link (evaluate limit) q u).run s = (.ok (.last (.write slot r)), st₁)) :
    Fate limit t v r st ((Store.write slot r).apply st₁) := by
  have hsize := Heap.size_le_of_le hle.2.2
  rcases Nat.lt_or_ge slot.address st.heap.size with hlt | hge
  -- a slot that was there before: had the target been in a slice, it would be in the copy
  · obtain ⟨hsame, hread⟩ := sameBut_write r hroom
    refine .kept hend (fun hslice => ?_) hlt (fun hposition w s' hw => ?_) (hsame.of_le hle₁) hread
      fun e he hfrom => hfrom.run_evaluate he hread
    · have hmade := size_le_of_write hq hslice hlast
      omega
    · obtain ⟨origin, hfrom, rfl⟩ := readFrom_of_write hst hle hq hw hlast hposition
      rwa [origin.shift_eq_of_lt hlt]
  -- a slot made since: what there was before has only grown
  · have hle' := Store.le_apply hle₁ (show (Store.write slot r).address? = _ from rfl) hge
    refine .lost hend (fun hroot => .inl ?_) hle' fun e w s he => run_evaluate_of_le hst hle' he
    have hlt_or := lt_size_of_write hst hle (hend.outward.isRooted hroot) hq hroom hlast
    exact hlt_or.resolve_left (Nat.not_lt.2 hge)

theorem fate_of_overwrite {a : ArrayRef} {start n : Nat} {values : List Value}
    {Δ : Layout} (hst : st.Sound D Γ)
    (hend : EndsAt (evaluate limit) t v st q (.overwrite a start values))
    (hq : q.isAssignFree = true) (hle : st ≤ s) (hle₁ : st ≤ st₁) (hst₁ : st₁.Sound D Δ)
    (ha : Δ.decl? a.address = some (.array a.elem a.fixed n)) (hn : start + values.length ≤ n)
    (hlast : (link (evaluate limit) q u).run s = (.ok (.last (.overwrite a start values)), st₁)) :
    Fate limit t v ((Store.overwrite a start values).result st₁) st
      ((Store.overwrite a start values).apply st₁) := by
  obtain ⟨hget, rfl, -⟩ := hst₁.heap.items ha
  obtain ⟨hsame, hread, hvalues⟩ := sameBut_overwrite hget hn
  have hsize := Heap.size_le_of_le hle.2.2
  rcases Nat.lt_or_ge a.address st.heap.size with hlt | hge
  · refine .range hend (fun hslice => ?_) (link_overwrite hlast) hlt (hsame.of_le hle₁) hread rfl
      hvalues fun e he hfrom => ?_
    · have hmade := size_le_of_overwrite hq hslice hlast
      omega
    · obtain ⟨copy, s', hrun, hcopy⟩ :=
        hfrom.run_evaluate he (get?_overwrite_self start values hget)
      rw [drop_take_overwrite (by omega)] at hcopy
      exact ⟨copy, s', hrun, hcopy⟩
  · have haddress : (Store.overwrite a start values).address? = some a.address := rfl
    have hle' := Store.le_apply hle₁ haddress hge
    refine .lost hend (fun hroot => ?_) hle' fun e w s he => run_evaluate_of_le hst hle' he
    rcases lt_size_of_overwrite hst hle (hend.outward.isRooted hroot) hq hlast hn with
      hlt | hslice | rfl
    · exact absurd hlt (Nat.not_lt.2 hge)
    · exact .inl hslice
    · exact .inr ⟨_, rfl, hvalues⟩

end Stores

/-- What becomes of an assignment through a slice. -/
theorem assign_through_slice (limit : Nat) (t : Expr) (v r : Value) (st st' : State) (Γ : Layout)
    (hst : st.Sound .untyped Γ) (hv : v.Fits Γ) (ht : t.isAssignFree = true)
    (hslice : t.hasSlice = true) (hrun : (assign (evaluate limit) t v).run st = (.ok r, st')) :
    Fate limit t v r st st' := by
  obtain ⟨store, st₁, hchain, rfl, rfl⟩ := exists_chain_of_assign hrun
  have hle₁ := hchain.le (fun _ h => evaluate_adds limit h) ht
  obtain ⟨Δ, -, hst₁, hfits⟩ := hchain.sound hst hv
  obtain ⟨q, u, s, hend, hle, hlast⟩ := hchain.exists_end (fun _ h => evaluate_adds limit h) ht
  have hq := hend.outward.isAssignFree ht
  cases store with
  | bind name w => exact (not_bind_of_hasSlice (hend.outward.hasSlice hslice) hlast).elim
  | write slot w => exact fate_of_write hst hend hq hle hle₁ (hst₁.heap.hasRoom hfits) hlast
  | overwrite a start values =>
    obtain ⟨n, ha, hn, -⟩ := hfits
    exact fate_of_overwrite hst hend hq hle hle₁ hst₁ ha hn hlast

/-- `xs[0:2]`. -/
def bothRows : Expr :=
  .slice (.ident "xs" .dummy) (some (.literal (.int 0) .dummy)) (some (.literal (.int 2) .dummy))
    .dummy

/-- `xs[0:2][0]`. -/
def firstOfBoth : Expr := .item bothRows (.literal (.int 0) .dummy) .dummy

/-- `xs[0:2][0][0] = 5` is seen in the first row. -/
theorem assign_through_slice_firstOfBoth :
    let target : Expr := .item firstOfBoth (.literal (.int 0) .dummy) .dummy
    let run := (assign (evaluate 8) target (.int 5)).run twoRows
    Fate 8 target (.int 5) (.int 5) twoRows run.2 := by
  intro target run
  have hrun : run.1 = .ok (.int 5) := by decide +kernel
  exact assign_through_slice 8 target (.int 5) _ twoRows run.2 _ twoRows_sound trivial (by decide)
    (by decide) (Prod.ext hrun rfl)

/-- `xs[0:2][xs[0][0]][0]`. -/
def countedOfBoth : Expr :=
  .item (.item bothRows (.item firstRow (.literal (.int 0) .dummy) .dummy) .dummy)
    (.literal (.int 0) .dummy) .dummy

/-- `xs[0:2][1][0][0]`. -/
def letterOfBoth : Expr :=
  .item (.item (.item bothRows (.literal (.int 1) .dummy) .dummy) (.literal (.int 0) .dummy) .dummy)
    (.literal (.int 0) .dummy) .dummy

/-- Targets that do not have what was assigned. After `xs[0:2][0] = 5` the target still has the
first row, which was replaced in a copy alone. After `xs[0:2][xs[0][0]][0] = 1` it has what is in
the second row, as its index was written. After `xs[0:2][1][0][0] = "xy"` it has the first letter of
what was spliced in. -/
theorem sliced_targets_unseen :
    let lost := (assign (evaluate 8) firstOfBoth (.int 5)).run twoRows
    let moved := (assign (evaluate 8) countedOfBoth (.int 1)).run twoRows
    let spliced := (assign (evaluate 8) letterOfBoth (.str "xy")).run twoRows
    lost.1 = .ok (.int 5) ∧
      ((evaluate 8 firstOfBoth).run lost.2).1 = .ok (.array ⟨.any, false, false, 0⟩) ∧
      moved.1 = .ok (.int 1) ∧ ((evaluate 8 countedOfBoth).run moved.2).1 = .ok (.str "ab") ∧
      spliced.1 = .ok (.str "xyb") ∧
      ((evaluate 8 letterOfBoth).run spliced.2).1 = .ok (.str "x") := by
  decide +kernel

end TenantScript
