import TenantScript.Proofs.Ranges

/-!
Write footprints. Main statement: an assignment to a target without inner assignments that succeeds
has changed one location, which then holds its result, and nothing else of what was there before.
The one exception is a range of an array: a slice as a target, or an array without elements that is
appended to a slice, rewrites the elements of the range, and the result is a new array of them.
-/

namespace TenantScript

/-- A place that holds a value: a binding in the scope at a level, or a slot of the heap. -/
inductive Location where
  | binding (level : Nat) (name : Name)
  | slot (slot : Slot)
  deriving DecidableEq

/-- What a location holds. -/
def State.read? (st : State) : Location → Option Value
  | .binding level name => st.env.scopes[level]?.bind (·.get? name)
  | .slot s => st.heap.value? s

/-- Whether a location was there in a heap of some size; every binding is. -/
def Location.IsBelow (size : Nat) : Location → Prop
  | binding .. => True
  | slot s => s.address < size

/-- Whether a storage is of the kind of another one, and an array or a struct of its length. -/
def Storage.SameShape : Storage → Storage → Prop
  | items vs, items ws => ws.length = vs.length
  | entries _, entries _ => True
  | fields vs, fields ws => ws.length = vs.length
  | cell _, cell _ => True
  | _, _ => False

/-- Whether the second state has all that the first one has, as it was but for locations of `L`. -/
structure State.SameBut (L : Location → Prop) (st st' : State) : Prop where
  depth : st'.depth = st.depth
  scopes : st'.env.scopes.length = st.env.scopes.length
  shape : ∀ a s, st.heap.get? a = some s → ∃ s', st'.heap.get? a = some s' ∧ s.SameShape s'
  read? : ∀ ℓ, ℓ.IsBelow st.heap.size → ¬ L ℓ → st'.read? ℓ = st.read? ℓ

theorem Storage.SameShape.refl (s : Storage) : s.SameShape s := by
  cases s <;> trivial

theorem Storage.sameShape_set (s : Storage) (p : Position) (v : Value) :
    s.SameShape (s.set p v) := by
  cases s <;> cases p <;> simp [SameShape, set]

/-- What is the same after a state has grown was the same before. -/
theorem State.SameBut.of_le {L : Location → Prop} {st st₁ st' : State} (hle : st ≤ st₁)
    (h : st₁.SameBut L st') : st.SameBut L st' := by
  obtain ⟨henv, hdepth, hheap⟩ := hle
  have hsize := Heap.size_le_of_le hheap
  refine ⟨h.depth.trans hdepth, by rw [h.scopes, henv], fun a s hs => ?_, fun ℓ hℓ hL => ?_⟩
  · exact h.shape a s (hheap a s hs)
  · cases ℓ with
    | binding level name =>
      rw [h.read? (.binding level name) trivial hL, State.read?, State.read?, henv]
    | slot s =>
      have hlt : s.address < st.heap.size := hℓ
      rw [h.read? (.slot s) (Nat.lt_of_lt_of_le hlt hsize) hL, State.read?, State.read?,
        Heap.value?, Heap.value?, Heap.get?_eq_of_le hheap hlt]

/-! ### Stores -/

theorem sameBut_bind (st : State) (name : Name) (v : Value) :
    ∃ ℓ, st.SameBut (· = ℓ) ((Store.bind name v).apply st) ∧
      ((Store.bind name v).apply st).read? ℓ = some v := by
  obtain ⟨level, scope, hscope, hscopes⟩ := st.env.exists_bindsAt name v
  have hlt : level < st.env.scopes.length := (List.getElem?_eq_some_iff.1 hscope).1
  refine ⟨.binding level name, ⟨rfl, ?_, fun a s hs => ⟨s, hs, .refl s⟩, fun ℓ _ hℓ => ?_⟩, ?_⟩
  · show (st.env.assign name v).scopes.length = _
    rw [hscopes, List.length_set]
  · cases ℓ with
    | slot s => rfl
    | binding level' name' =>
      show (st.env.assign name v).scopes[level']?.bind _ = st.env.scopes[level']?.bind _
      rw [hscopes]
      by_cases hl : level = level'
      · subst hl
        have hname : name' ≠ name := fun e => hℓ (by rw [e])
        rw [List.getElem?_set_self hlt, hscope]
        exact SortedMap.get?_insert_ne scope v hname
      · rw [List.getElem?_set_ne hl]
  · show (st.env.assign name v).scopes[level]?.bind _ = _
    rw [hscopes, List.getElem?_set_self hlt]
    exact SortedMap.get?_insert_self scope name v

theorem sameBut_write {st : State} {slot : Slot} (v : Value) (hroom : st.heap.HasRoom slot) :
    st.SameBut (· = .slot slot) ((Store.write slot v).apply st) ∧
      ((Store.write slot v).apply st).read? (.slot slot) = some v := by
  refine ⟨⟨rfl, rfl, fun a s hs => ?_, fun ℓ _ hℓ => ?_⟩, Heap.value?_store_self hroom⟩
  · obtain ⟨t, ht, hpos⟩ := hroom
    by_cases ha : a = slot.address
    · subst ha
      cases hs.symm.trans ht
      exact ⟨_, Heap.get?_store_self ht hpos, s.sameShape_set _ _⟩
    · exact ⟨s, (Heap.get?_store_ne _ _ _ ha).trans hs, .refl s⟩
  · cases ℓ with
    | binding level name => rfl
    | slot s => exact Heap.value?_store_ne hroom fun e => hℓ (by rw [e])

theorem getElem?_overwrite {items values : List Value} {start : Nat}
    (hle : start + values.length ≤ items.length) (i : Nat) :
    (overwrite items start values)[i]? =
      if i < start then items[i]?
      else if i < start + values.length then values[i - start]?
      else items[i]? := by
  have htake : (items.take start).length = start := by
    rw [List.length_take]
    omega
  unfold overwrite
  by_cases hlow : i < start
  · rw [if_pos hlow, List.append_assoc, List.getElem?_append_left (by omega),
      List.getElem?_take_of_lt hlow]
  · rw [if_neg hlow, List.append_assoc, List.getElem?_append_right (by omega), htake]
    by_cases hhigh : i < start + values.length
    · rw [if_pos hhigh, List.getElem?_append_left (by omega)]
    · rw [if_neg hhigh, List.getElem?_append_right (by omega), List.getElem?_drop]
      congr 1
      omega

/-- The elements of an array from one position on, as many as there are values. -/
def ArrayRef.range (a : ArrayRef) (start : Nat) (values : List Value) (ℓ : Location) : Prop :=
  ∃ i < values.length, ℓ = .slot ⟨a.address, .item (start + i)⟩

theorem get?_overwrite_self {st : State} {a : ArrayRef} {items : List Value} (start : Nat)
    (values : List Value) (hget : st.heap.get? a.address = some (.items items)) :
    ((Store.overwrite a start values).apply st).heap.get? a.address =
      some (.items (overwrite items start values)) := by
  refine (Heap.get?_push_write_self _ _ (Heap.lt_size_of_get? hget)).trans ?_
  rw [Heap.items_of_get? hget]

theorem sameBut_overwrite {st : State} {a : ArrayRef} {items values : List Value} {start : Nat}
    (hget : st.heap.get? a.address = some (.items items))
    (hle : start + values.length ≤ items.length) :
    let st' := (Store.overwrite a start values).apply st
    st.SameBut (a.range start values) st' ∧
      (∀ i < values.length, st'.read? (.slot ⟨a.address, .item (start + i)⟩) = values[i]?) ∧
      st'.heap.get? st.heap.size = some (.items values) := by
  intro st'
  have hself : st'.heap.get? a.address = some (.items (overwrite items start values)) :=
    get?_overwrite_self start values hget
  have hother {b : Address} (hb : b < st.heap.size) (hne : b ≠ a.address) :
      st'.heap.get? b = st.heap.get? b := Heap.get?_push_write_ne _ _ hb hne
  have hlen : (overwrite items start values).length = items.length := by
    simp only [overwrite, List.length_append, List.length_take, List.length_drop]
    omega
  refine ⟨⟨rfl, rfl, fun b s hs => ?_, fun ℓ hbelow hℓ => ?_⟩, fun i hi => ?_, ?_⟩
  · by_cases hb : b = a.address
    · subst hb
      cases hs.symm.trans hget
      exact ⟨_, hself, hlen⟩
    · exact ⟨s, (hother (Heap.lt_size_of_get? hs) hb).trans hs, .refl s⟩
  · cases ℓ with
    | binding level name => rfl
    | slot s =>
      obtain ⟨b, p⟩ := s
      show st'.heap.value? ⟨b, p⟩ = st.heap.value? ⟨b, p⟩
      by_cases hb : b = a.address
      · subst hb
        rw [Heap.value?, Heap.value?, hself, hget]
        cases p with
        | item i =>
          show (overwrite items start values)[i]? = items[i]?
          rw [getElem?_overwrite hle]
          by_cases hlow : i < start
          · rw [if_pos hlow]
          · have hhigh : ¬ i < start + values.length := by
              intro hhigh
              refine hℓ ⟨i - start, by omega, ?_⟩
              rw [Nat.add_sub_of_le (Nat.not_lt.1 hlow)]
            rw [if_neg hlow, if_neg hhigh]
        | _ => rfl
      · rw [Heap.value?, Heap.value?, hother hbelow hb]
  · show st'.heap.value? _ = _
    rw [Heap.value?, hself]
    show (overwrite items start values)[start + i]? = _
    rw [getElem?_overwrite hle, if_neg (by omega), if_pos (by omega), Nat.add_sub_cancel_left]
  · exact Heap.get?_push_write_size _ _ _ _

/-! ### The footprint of an assignment -/

/-- Whether an assignment of `v` rewrites a range: the target is a slice, or `v` is an array without
elements and the target an item of a slice. -/
def Expr.RewritesRange (t : Expr) (v : Value) (h : Heap) : Prop :=
  t.IsSlice ∨
    ∃ c low high span index ispan source, t = .item (.slice c low high span) index ispan ∧
      v.unwrap = .array source ∧ h.items source = []

/-- What an assignment of `v` to `t` with the result `r` may have changed. -/
inductive Footprint (t : Expr) (v r : Value) (st st' : State) : Prop
  /-- One location has changed and holds the result. -/
  | one (ℓ : Location) (hslice : ¬ t.IsSlice) (hsame : st.SameBut (· = ℓ) st')
    (hread : st'.read? ℓ = some r)
  /-- The elements in a range have changed, and the result is a new array of them. -/
  | range (a fresh : ArrayRef) (start : Nat) (values : List Value)
    (hrange : t.RewritesRange v st.heap) (hsame : st.SameBut (a.range start values) st')
    (hread : ∀ i < values.length,
      st'.read? (.slot ⟨a.address, .item (start + i)⟩) = values[i]?)
    (hr : r = .array fresh) (hfresh : st.heap.size ≤ fresh.address)
    (hne : fresh.address ≠ a.address) (hvalues : st'.heap.get? fresh.address = some (.items values))

/-- An assignment that succeeds has changed one location, which holds its result, or, where it
rewrites a range, the elements in that range. -/
theorem assign_footprint (limit : Nat) (t : Expr) (v r : Value) (st st' : State) (Γ : Layout)
    (hst : st.Sound .untyped Γ) (hv : v.Fits Γ) (ht : t.isAssignFree = true)
    (hrun : (assign (evaluate limit) t v).run st = (.ok r, st')) : Footprint t v r st st' := by
  obtain ⟨store, st₁, hchain, rfl, rfl⟩ := exists_chain_of_assign hrun
  have hle := hchain.le (fun _ h => evaluate_adds limit h) ht
  obtain ⟨Δ, -, hst₁, hfits⟩ := hchain.sound hst hv
  have hslice := hchain.overwrite_of_isSlice
  cases store with
  | bind name w =>
    obtain ⟨ℓ, hsame, hread⟩ := sameBut_bind st₁ name w
    refine .one ℓ (fun hs => ?_) (hsame.of_le hle) hread
    obtain ⟨_, _, _, h⟩ := hslice hs
    cases h
  | write slot w =>
    obtain ⟨hsame, hread⟩ := sameBut_write w (hst₁.heap.hasRoom hfits)
    refine .one (.slot slot) (fun hs => ?_) (hsame.of_le hle) hread
    obtain ⟨_, _, _, h⟩ := hslice hs
    cases h
  | overwrite a start values =>
    obtain ⟨n, hn, hlen, -⟩ := hfits
    obtain ⟨hget, hitems, -⟩ := hst₁.heap.items hn
    obtain ⟨hsame, hread, hvalues⟩ := sameBut_overwrite hget (hitems ▸ hlen)
    refine .range a _ start values (hchain.of_overwrite hst hv ht a start values rfl)
      (hsame.of_le hle) hread rfl (Heap.size_le_of_le hle.2.2) ?_ hvalues
    exact Nat.ne_of_gt (Heap.lt_size_of_get? hget)

/-- A state in which the array `xs` is declared with floating-point elements but holds integers, as
it was made without conversion; the array at address 1 is empty. -/
def unconverted : State :=
  { env := ⟨[], SortedMap.empty.insert "xs" (.array ⟨.float, false, false, 0⟩)⟩
    heap := (Heap.empty.push (.items [.int 1, .int 2])).push (.items [])
    depth := 0 }

/-- `xs[0:2][2]`. -/
def pastSlice : Expr :=
  .item (.slice (.ident "xs" .dummy) (some (.literal (.int 0) .dummy))
    (some (.literal (.int 2) .dummy)) .dummy) (.literal (.int 2) .dummy) .dummy

theorem unconverted_sound : unconverted.Sound .untyped
    (((Layout.mk []).push (.array .float false 2)).push (.array .any false 0)) := by
  have hitems : (Storage.items [.int 1, .int 2]).Fits .untyped ⟨[]⟩ (.array .float false 2) := by
    refine ⟨rfl, fun v hv => ⟨?_, trivial⟩⟩
    simp only [List.mem_cons, List.not_mem_nil, or_false] at hv
    rcases hv with rfl | rfl <;> trivial
  refine ⟨((Heap.Sound.empty .untyped).push hitems).push ⟨rfl, fun v hv => nomatch hv⟩, ?_⟩
  intro scope hscope e he
  obtain rfl := List.mem_singleton.1 hscope
  obtain rfl := List.mem_singleton.1 he
  exact ⟨2, rfl⟩

/-- An array without elements is appended to a slice of two elements. -/
theorem assign_footprint_pastSlice :
    let run := (assign (evaluate 8) pastSlice (.array ⟨.any, false, false, 1⟩)).run unconverted
    Footprint pastSlice (.array ⟨.any, false, false, 1⟩) (.array ⟨.float, false, false, 4⟩)
      unconverted run.2 := by
  intro run
  have hrun : run.1 = .ok (.array ⟨.float, false, false, 4⟩) := by decide +kernel
  exact assign_footprint 8 pastSlice _ _ unconverted run.2 _ unconverted_sound ⟨0, rfl⟩ (by decide)
    (Prod.ext hrun rfl)

/-- An assignment to an item that changes two elements of an array. -/
theorem pastSlice_changes_two :
    let run := (assign (evaluate 8) pastSlice (.array ⟨.any, false, false, 1⟩)).run unconverted
    run.1 = .ok (.array ⟨.float, false, false, 4⟩) ∧ ¬ pastSlice.IsSlice ∧
      ¬ ∃ ℓ, unconverted.SameBut (· = ℓ) run.2 := by
  intro run
  refine ⟨by decide +kernel, ?_, ?_⟩
  · rintro ⟨_, _, _, _, h⟩
    cases h
  · rintro ⟨ℓ, h⟩
    have hbelow : 0 < unconverted.heap.size := by decide
    have hfirst : run.2.read? (.slot ⟨0, .item 0⟩) ≠ unconverted.read? (.slot ⟨0, .item 0⟩) := by
      decide +kernel
    have hsecond : run.2.read? (.slot ⟨0, .item 1⟩) ≠ unconverted.read? (.slot ⟨0, .item 1⟩) := by
      decide +kernel
    by_cases hzero : Location.slot ⟨0, .item 0⟩ = ℓ
    · subst hzero
      exact hsecond (h.read? (.slot ⟨0, .item 1⟩) hbelow (by decide))
    · exact hfirst (h.read? (.slot ⟨0, .item 0⟩) hbelow hzero)

end TenantScript
