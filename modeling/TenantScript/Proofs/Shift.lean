import TenantScript.Proofs.Matching
import TenantScript.Proofs.Nesting
import TenantScript.Proofs.Reach

/-!
Evaluation that is repeated. Between two evaluations of one expression a heap may have grown, so
that what the second one makes lies further on. A gap says by how much: addresses from a base on
are shifted. Main statement: an expression without assignments that has a value in a state has the
shifted value in every state to which it was grown, with at least as many levels of nesting left.
-/

open TenantScript.Action

namespace TenantScript

/-- A number of addresses that lie in between, from a base on. -/
structure Gap where
  base : Nat
  size : Nat

/-! ### Shifted values -/

variable (g : Gap)

def Gap.address (a : Nat) : Nat := if a < g.base then a else a + g.size

def ArrayRef.shift (a : ArrayRef) : ArrayRef := { a with address := g.address a.address }

def MapRef.shift (m : MapRef) : MapRef := { m with address? := m.address?.map g.address }

def StructRef.shift (s : StructRef) : StructRef := { s with address := g.address s.address }

def PointerRef.shift (p : PointerRef) : PointerRef :=
  { p with address? := p.address?.map g.address }

/-- A value whose references lead to the shifted addresses. -/
def Value.shift : Value → Value
  | array a => array (a.shift g)
  | map m => map (m.shift g)
  | struct s => struct (s.shift g)
  | pointer p => pointer (p.shift g)
  | interface v => interface v.shift
  | v => v

namespace Value

@[simp] theorem unwrap_shift (v : Value) : (v.shift g).unwrap = v.unwrap.shift g := by
  cases v <;> rfl

@[simp] theorem kind_shift (v : Value) : (v.shift g).kind = v.kind := by
  cases v <;> rfl

theorem bare_shift : (v : Value) → (v.shift g).bare = v.bare.shift g
  | interface v => bare_shift v
  | nil | bool _ | int _ | float _ | str _ | array _ | map _ | struct _ | pointer _ => rfl

theorem toIndex_shift : (v : Value) → toIndex (v.shift g) = toIndex v
  | interface v => toIndex_shift v
  | nil | bool _ | int _ | float _ | str _ | array _ | map _ | struct _ | pointer _ => rfl

end Value

@[simp] theorem MapKey.ofValue?_shift (v : Value) :
    MapKey.ofValue? (v.shift g) = MapKey.ofValue? v := by
  rw [ofValue?, ofValue?, Value.unwrap_shift]
  cases v.unwrap <;> rfl

/-- A key does not depend on where storages lie. -/
theorem convertKey_shift (key : Ty) (v : Value) :
    convertKey key (v.shift g) = convertKey key v := by
  unfold convertKey keyVia
  cases key with
  | any => simp only [convert, pure_bind, MapKey.ofValue?_shift, Value.kind_shift]
  | bool | int | str =>
    simp only [convert, Value.bare_shift, Value.kind_shift]
    cases v.bare <;> rfl
  | _ => rfl

/-- A value that refers to nothing from the base on is not shifted. -/
theorem Value.shift_eq {g : Gap} : {v : Value} → (∀ a, v.ref? = some a → a < g.base) →
    v.shift g = v := by
  have hid {a : Address} (ha : a < g.base) : g.address a = a := if_pos ha
  intro v h
  induction v with
  | array a => simp only [shift, ArrayRef.shift, hid (h _ rfl)]
  | map m =>
    obtain ⟨key, value, _ | a⟩ := m
    · rfl
    · simp only [shift, MapRef.shift, Option.map_some, hid (h a rfl)]
  | struct s => simp only [shift, StructRef.shift, hid (h _ rfl)]
  | pointer p =>
    obtain ⟨elem, _ | a⟩ := p
    · rfl
    · simp only [shift, PointerRef.shift, Option.map_some, hid (h a rfl)]
  | interface v ih => rw [shift, ih h]
  | _ => rfl

/-! ### Shifted heaps -/

def Storage.shift : Storage → Storage
  | items vs => items (vs.map (Value.shift g))
  | entries m => entries (m.map (Value.shift g))
  | fields vs => fields (vs.map (Value.shift g))
  | cell v => cell (v.shift g)

/-- Whether a heap holds what another one does, shifted. -/
structure Heap.Shifted (h h' : Heap) : Prop where
  base : g.base ≤ h.size
  size : h'.size = h.size + g.size
  get? : ∀ a, h'.get? (g.address a) = (h.get? a).map (Storage.shift g)

/-- Whether the heap is shifted and the names mean the same, shifted. -/
structure State.Shifted (st st' : State) : Prop where
  heap : st.heap.Shifted g st'.heap
  env : ∀ name, st'.env.lookup? name = (st.env.lookup? name).map (Value.shift g)

variable {g}

namespace Heap.Shifted

variable {h h' : Heap}

theorem items (hs : h.Shifted g h') (a : ArrayRef) :
    h'.items (a.shift g) = (h.items a).map (Value.shift g) := by
  rw [Heap.items, itemsAt, ArrayRef.shift, hs.get?, Heap.items, itemsAt]
  cases h.get? a.address with
  | none => rfl
  | some s => cases s <;> rfl

theorem entries (hs : h.Shifted g h') (m : MapRef) :
    h'.entries (m.shift g) = (h.entries m).map (Value.shift g) := by
  rw [Heap.entries, MapRef.shift, Heap.entries]
  cases m.address? with
  | none => rfl
  | some a =>
    simp only [Option.map_some]
    rw [entriesAt, hs.get?, entriesAt]
    cases h.get? a with
    | none => rfl
    | some s => cases s <;> rfl

theorem fields (hs : h.Shifted g h') (s : StructRef) :
    h'.fields (s.shift g) = (h.fields s).map (Value.shift g) := by
  rw [Heap.fields, fieldsAt, StructRef.shift, hs.get?, Heap.fields, fieldsAt]
  cases h.get? s.address with
  | none => rfl
  | some t => cases t <;> rfl

theorem field? (hs : h.Shifted g h') (s : StructRef) (name : Name) :
    h'.field? (s.shift g) name = (h.field? s name).map (Value.shift g) := by
  rw [Heap.field?, Heap.field?, hs.fields]
  show (s.defn.field? name >>= _) = _
  cases s.defn.field? name with
  | none => rfl
  | some p => exact List.getElem?_map ..

theorem load? (hs : h.Shifted g h') (p : PointerRef) :
    h'.load? (p.shift g) = (h.load? p).map (Value.shift g) := by
  rw [Heap.load?, Heap.load?, PointerRef.shift]
  cases p.address? with
  | none => rfl
  | some a =>
    show h'.cellAt? (g.address a) = (h.cellAt? a).map _
    rw [cellAt?, hs.get?, cellAt?]
    cases h.get? a with
    | none => rfl
    | some s => cases s <;> rfl

/-- What is made next lies at the shifted address. -/
theorem push (hs : h.Shifted g h') (s : Storage) :
    g.address h.size = h'.size ∧ (h.push s).Shifted g (h'.push (s.shift g)) := by
  have hbase := hs.base
  have hnext : g.address h.size = h'.size := by
    rw [Gap.address, if_neg (Nat.not_lt.2 hbase), hs.size]
  refine ⟨hnext, by rw [size_push]; omega, by rw [size_push, size_push, hs.size]; omega, ?_⟩
  intro a
  rw [get?_push, get?_push, ← hnext]
  by_cases ha : a = h.size
  · rw [if_pos ha, if_pos (by rw [ha]), Option.map_some]
  · have hne : g.address a ≠ g.address h.size := by
      unfold Gap.address
      split <;> split <;> omega
    rw [if_neg ha, if_neg hne, hs.get?]

end Heap.Shifted

theorem Storage.shift_eq {s : Storage} (h : ∀ v ∈ s.values, ∀ a, v.ref? = some a → a < g.base) :
    s.shift g = s := by
  have hid (v : Value) (hv : v ∈ s.values) : v.shift g = v := Value.shift_eq (h v hv)
  cases s with
  | items vs => exact congrArg items ((List.map_congr_left hid).trans (List.map_id vs))
  | entries m =>
    refine congrArg entries (SortedMap.ext ?_)
    have hentry : ∀ e ∈ m.entries, (e.1, e.2.shift g) = e := fun e he => by
      rw [hid e.2 (List.mem_map.2 ⟨e, he, rfl⟩)]
    exact (List.map_congr_left hentry).trans (List.map_id _)
  | fields vs => exact congrArg fields ((List.map_congr_left hid).trans (List.map_id vs))
  | cell v => rw [shift, hid v List.mem_cons_self]

/-- A heap is shifted in every heap to which it grows, the gap being what was added. -/
theorem Heap.shifted_of_le {h h' : Heap} (hclosed : ∀ {a b}, h.Leads a b → b < h.size)
    (hle : h ≤ h') : h.Shifted ⟨h.size, h'.size - h.size⟩ h' := by
  have hsize := size_le_of_le hle
  refine ⟨Nat.le_refl _, (Nat.add_sub_of_le hsize).symm, fun a => ?_⟩
  by_cases ha : a < h.size
  · obtain ⟨s, hget⟩ := Option.isSome_iff_exists.1 (get?_isSome_iff.2 ha)
    have hfix : s.shift ⟨h.size, h'.size - h.size⟩ = s :=
      Storage.shift_eq fun v hv b hb => hclosed ⟨s, hget, v, hv, hb⟩
    rw [Gap.address, if_pos ha, get?_eq_some_of_le hle hget, hget, Option.map_some, hfix]
  · have hnone {k : Heap} {b : Nat} (hb : ¬ b < k.size) : k.get? b = none :=
      Option.not_isSome_iff_eq_none.1 fun e => hb (get?_isSome_iff.1 e)
    have hout : ¬ a + (h'.size - h.size) < h'.size := by omega
    rw [Gap.address, if_neg ha, hnone ha, hnone hout]
    rfl

theorem State.Closed.shifted_of_le {st st' : State} (hst : st.Closed) (hle : st ≤ st') :
    st.Shifted ⟨st.heap.size, st'.heap.size - st.heap.size⟩ st' := by
  refine ⟨Heap.shifted_of_le hst.heap hle.2.2, fun name => ?_⟩
  rw [hle.1]
  cases hv : st.env.lookup? name with
  | none => rfl
  | some v =>
    obtain ⟨scope, hscope, he⟩ := Environment.exists_entry_of_lookup? hv
    rw [Option.map_some, Value.shift_eq (hst.env scope hscope _ he)]

/-! ### Reads of shifted values -/

section Reads

/-- Whether a value is another one, shifted. -/
def Gap.Moves (g : Gap) (v v' : Value) : Prop := v' = v.shift g

variable {g : Gap}

theorem Heap.allocate_matches (s : Storage) :
    Matches (Heap.Shifted g) Eq (fun a a' => a' = g.address a) (allocate s)
      (allocate (s.shift g)) := by
  intro h h' hs
  obtain ⟨hnext, hpush⟩ := hs.push s
  exact ⟨.result hnext.symm, hpush⟩

theorem ArrayRef.make_matches (elem : Ty) (vs : List Value) :
    Matches (Heap.Shifted g) Eq (fun a a' => a' = a.shift g) (make elem vs)
      (make elem (vs.map (Value.shift g))) := by
  refine .bind (Heap.allocate_matches (.items vs)) fun a a' ha => .pure ?_
  rw [ha]
  rfl

theorem Value.zero_matches (ty : Ty) :
    Matches (Heap.Shifted g) Eq g.Moves (zero ty) (zero ty) := by
  cases ty with
  | array elem =>
    refine .bind (ArrayRef.make_matches elem []) fun a a' ha => .pure ?_
    rw [ha]
    rfl
  | _ => exact .pure rfl

theorem convertKey_matches (key : Ty) (v : Value) :
    Matches (Heap.Shifted g) Eq Eq (convertKey key v) (convertKey key v) := by
  obtain ⟨r, hr⟩ := exists_run_convertKey key v
  intro h h' hs
  rw [hr, hr]
  refine ⟨?_, hs⟩
  cases r with
  | ok k => exact .result rfl
  | error e => exact .failure rfl

theorem MapRef.read_matches (m : MapRef) (key : Value) :
    Matches (Heap.Shifted g) Eq g.Moves (m.read key) ((m.shift g).read (key.shift g)) := by
  unfold MapRef.read
  rw [convertKey_shift]
  refine .bind (R := Eq) (convertKey_matches m.key key) fun k k' hk => ?_
  subst hk
  refine .bind (R := fun entries entries' => entries' = entries.map (Value.shift g))
    (.get fun h h' hs => hs.entries m) fun entries entries' hentries => ?_
  rw [hentries, SortedMap.get?_map]
  cases entries.get? k with
  | some v => exact .pure rfl
  | none => exact Value.zero_matches m.value

theorem PointerRef.load_matches (p : PointerRef) (onNil : Cause) :
    Matches (Heap.Shifted g) Eq g.Moves (p.load onNil) ((p.shift g).load onNil) := by
  refine .bind (R := fun v? v?' => v?' = v?.map (Value.shift g)) (.get fun h h' hs => hs.load? p)
    fun v? v?' hv => ?_
  rw [hv]
  exact .require_map (Value.shift g) onNil v?

theorem memberSource_matches (object : Value) :
    Matches (Heap.Shifted g) Eq g.Moves (memberSource object) (memberSource (object.shift g)) := by
  unfold memberSource
  rw [Value.unwrap_shift]
  cases object.unwrap with
  | pointer p => exact PointerRef.load_matches p _
  | _ => exact .pure rfl

theorem memberOf_matches (container : Value) (field : Name) :
    Matches (Heap.Shifted g) Eq g.Moves (memberOf container field)
      (memberOf (container.shift g) field) := by
  cases container with
  | struct s =>
    refine .bind (R := fun v? v?' => v?' = v?.map (Value.shift g))
      (.get fun h h' hs => hs.field? s field) fun v? v?' hv => ?_
    rw [hv]
    exact .require_map (Value.shift g) _ v?
  | map m => exact MapRef.read_matches m (.str field)
  | _ => exact .fail_self

theorem readMember_matches (object : Value) (field : Name) :
    Matches (Heap.Shifted g) Eq g.Moves (readMember object field)
      (readMember (object.shift g) field) := by
  refine .bind (memberSource_matches object) fun v v' hv => ?_
  rw [hv]
  exact memberOf_matches v field

theorem elementAt_map {α β : Type} (f : α → β) (items : List α) (index : Int) :
    elementAt (items.map f) index = (elementAt items index).map f := by
  unfold elementAt
  rw [List.length_map]
  cases position? index with
  | none => rfl
  | some i =>
    simp only [Option.bind_some, List.getElem?_map]
    cases items[i]? <;> rfl

theorem readItem_matches (collection index : Value) :
    Matches (Heap.Shifted g) Eq g.Moves (readItem collection index)
      (readItem (collection.shift g) (index.shift g)) := by
  unfold readItem
  rw [Value.unwrap_shift, Value.toIndex_shift]
  cases collection.unwrap with
  | array a =>
    refine .bind (.ofExcept_self _) fun i i' hi => ?_
    subst hi
    refine .bind (R := fun items items' => items' = items.map (Value.shift g))
      (.get fun h h' hs => hs.items a) fun items items' hitems => ?_
    rw [hitems, elementAt_map]
    exact .ofExcept_map (Value.shift g) _
  | map m => exact MapRef.read_matches m index
  | str s =>
    refine .bind (.ofExcept_self _) fun i i' hi => ?_
    subst hi
    refine .bind (.ofExcept_self _) fun c c' hc => ?_
    subst hc
    exact .pure rfl
  | _ => exact .fail_self

theorem elementsIn_map {α β : Type} (f : α → β) (items : List α) (start stop : Option Int) :
    elementsIn (items.map f) start stop = (elementsIn items start stop).map (List.map f) := by
  unfold elementsIn
  rw [List.length_map]
  cases checkedRange (start.getD 0) (stop.getD items.length) items.length with
  | error cause => rfl
  | ok r =>
    refine congrArg Except.ok ?_
    rw [List.map_take, List.map_drop]

theorem readSlice_matches (collection : Value) (start stop : Option Int) :
    Matches (Heap.Shifted g) Eq g.Moves (readSlice collection start stop)
      (readSlice (collection.shift g) start stop) := by
  unfold readSlice
  rw [Value.unwrap_shift]
  cases collection.unwrap with
  | array a =>
    refine .bind (R := fun items items' => items' = items.map (Value.shift g))
      (.get fun h h' hs => hs.items a) fun items items' hitems => ?_
    rw [hitems, elementsIn_map]
    refine .bind (R := fun part part' => part' = part.map (Value.shift g))
      (.ofExcept_map (List.map (Value.shift g)) _) fun part part' hpart => ?_
    rw [hpart]
    refine .bind (ArrayRef.make_matches a.elem part) fun r r' hr => .pure ?_
    rw [hr]
    rfl
  | str s =>
    refine .bind (.ofExcept_self _) fun part part' hpart => ?_
    subst hpart
    exact .pure rfl
  | _ => exact .fail_self

theorem readPointee_matches (pointer : Value) :
    Matches (Heap.Shifted g) Eq g.Moves (readPointee pointer) (readPointee (pointer.shift g)) := by
  unfold readPointee
  rw [Value.unwrap_shift]
  cases pointer.unwrap with
  | pointer p => exact PointerRef.load_matches p _
  | _ => exact .fail_self

end Reads

/-! ### Evaluation in a grown state -/

section Eval

variable {g : Gap} {α β : Type} {R : α → β → Prop}

theorem Run.onHeap_matches {x : Action Heap α} {y : Action Heap β}
    (h : Matches (Heap.Shifted g) Eq R x y) :
    Matches (State.Shifted g) Eq R (Run.onHeap x) (Run.onHeap y) :=
  .onHeap (fun hst => hst.heap) (fun hst hs => ⟨hs, hst.env⟩) h

theorem bound?_matches {ev : Expr → Run Value} {bound : Option Expr}
    (h : ∀ e, bound = some e → Matches (State.Shifted g) Eq g.Moves (ev e) (ev e)) :
    Matches (State.Shifted g) Eq Eq (bound? ev bound) (bound? ev bound) := by
  cases bound with
  | none => exact .pure rfl
  | some e =>
    refine .bind (h e rfl) fun v v' hv => ?_
    rw [hv, Value.toIndex_shift]
    exact .bind (.ofExcept_self _) fun i i' hi => .pure (congrArg some hi)

theorem evaluateNode_matches {ev : Expr → Run Value}
    (hev : ∀ e, e.isAssignFree = true → Matches (State.Shifted g) Eq g.Moves (ev e) (ev e)) :
    (e : Expr) → e.isAssignFree = true →
      Matches (State.Shifted g) Eq g.Moves (evaluateNode ev e) (evaluateNode ev e)
  | .literal l _, _ => .pure (by cases l <;> rfl)
  | .array es _, he => by
    rw [Expr.isAssignFree, Expr.areAssignFree_iff] at he
    refine .bind (.mapM fun e hmem => hev e (he e hmem)) fun vs vs' hvs => ?_
    have hmap : vs' = vs.map (Value.shift g) := by
      induction hvs with
      | nil => rfl
      | cons h _ ih => rw [List.map_cons, h, ih]
    rw [hmap]
    refine .bind (Run.onHeap_matches (ArrayRef.make_matches .any vs)) fun r r' hr => .pure ?_
    rw [hr]
    rfl
  | .ident name _, _ => by
    refine .bind (R := fun v? v?' => v?' = v?.map (Value.shift g))
      (.get fun st st' hst => hst.env name) fun v? v?' hv => ?_
    rw [hv]
    exact .require_map (Value.shift g) _ v?
  | .member object field _, he => by
    refine .bind (hev object he) fun v v' hv => ?_
    rw [hv]
    exact Run.onHeap_matches (readMember_matches v field)
  | .item collection index _, he => by
    simp only [Expr.isAssignFree, Bool.and_eq_true] at he
    refine .bind (hev collection he.1) fun c c' hc => .bind (hev index he.2) fun i i' hi => ?_
    rw [hc, hi]
    exact Run.onHeap_matches (readItem_matches c i)
  | .slice collection start stop _, he => by
    simp only [Expr.isAssignFree, Bool.and_eq_true, Expr.isAssignFreeBound_iff] at he
    refine .bind (hev collection he.1.1) fun c c' hc => ?_
    refine .bind (bound?_matches fun e h => hev e (he.1.2 e h)) fun low low' hlow => ?_
    refine .bind (bound?_matches fun e h => hev e (he.2 e h)) fun high high' hhigh => ?_
    rw [hc, ← hlow, ← hhigh]
    exact Run.onHeap_matches (readSlice_matches c low high)
  | .deref pointer _, he => by
    refine .bind (hev pointer he) fun p p' hp => ?_
    rw [hp]
    exact Run.onHeap_matches (readPointee_matches p)

/-- With as many levels of nesting left, an expression without assignments ends alike. -/
theorem evaluateWithin_matches (limit : Nat) : (room : Nat) → (e : Expr) → e.isAssignFree = true →
    Matches (State.Shifted g) Eq g.Moves (evaluateWithin limit room e) (evaluateWithin limit room e)
  | 0, e, _ => .within (fun _ _ h => congrArg (EvalError.orAt · e.span) h) .fail_self
  | room + 1, e, he =>
    .within (fun _ _ h => congrArg (EvalError.orAt · e.span) h)
      (.nested (fun _ hst => ⟨hst.heap, hst.env⟩)
        (evaluateNode_matches (fun d hd => evaluateWithin_matches limit room d hd) e he))

end Eval

/-- Whether the second state holds what the first one does, shifted, and is at a depth of
nesting. -/
def State.ShiftedAt (g : Gap) (depth : Nat) (st st' : State) : Prop :=
  st.Shifted g st' ∧ st'.depth = depth

theorem State.shiftedAt_of_le {D : Discipline} {Γ : Layout} {st st' : State} (hs : st.Sound D Γ)
    (hle : st ≤ st') (depth : Nat) :
    State.ShiftedAt ⟨st.heap.size, st'.heap.size - st.heap.size⟩ st'.depth { st with depth } st' :=
  ⟨⟨(hs.closed.shifted_of_le hle).heap, (hs.closed.shifted_of_le hle).env⟩, rfl⟩

/-- Evaluation with no less room follows. -/
theorem evaluate_follows {g : Gap} {limit room depth : Nat} (hroom : room ≤ limit - depth)
    {e : Expr} (he : e.isAssignFree = true) :
    Follows (State.ShiftedAt g depth) g.Moves (evaluateWithin limit room e) (evaluate limit e) := by
  rintro st st' ⟨hst, rfl⟩ v st₁ hrun
  obtain ⟨v', st₁', hrun', hst₁, hv⟩ :=
    (evaluateWithin_matches limit room e he).follows st st' hst v st₁ hrun
  -- the second run has a value, so more levels make no difference to it
  obtain ⟨hback, hsame⟩ :=
    evaluateWithin_deeper limit limit hroom e st'.depth st'.depth st' rfl
  rw [hrun'] at hback hsame
  have hdepth : st₁'.atDepth st'.depth = st₁' := by
    rw [← show st₁'.depth = st'.depth from hback]
    rfl
  refine ⟨v', st₁', ?_, ⟨hst₁, hback⟩, hv⟩
  rw [hdepth] at hsame
  exact hsame rfl

end TenantScript
