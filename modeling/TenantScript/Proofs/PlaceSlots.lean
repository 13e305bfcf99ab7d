import TenantScript.Proofs.Puts
import TenantScript.Proofs.Shift

/-!
The slot that a place is. Reading a place finds what its slot holds, storing into it in place
writes that slot, and where a heap has grown meanwhile the place and its slot are shifted alike.
-/

open TenantScript.Action

namespace TenantScript

/-- Whether a place is a slot of the heap. A name is bound outside the heap, a nil map has no
entries, and a character of a string is not stored on its own. -/
inductive Place.At : Place → Slot → Prop
  | field {s : StructRef} {via : Option PointerRef} {name : Name} {i : Nat} {f : FieldDef}
      (hfield : s.defn.field? name = some (i, f)) :
      At (.member (.struct s) via name) ⟨s.address, .field i⟩
  | member {m : MapRef} {via : Option PointerRef} {name : Name} {a : Address} {k : MapKey}
      (ha : m.address? = some a)
      (hkey : ∀ h, (convertKey m.key (.str name)).run h = (.ok k, h)) :
      At (.member (.map m) via name) ⟨a, .entry k⟩
  | entry {collection index : Value} {m : MapRef} {a : Address} {k : MapKey}
      (hmap : collection.unwrap = .map m) (ha : m.address? = some a)
      (hkey : ∀ h, (convertKey m.key index).run h = (.ok k, h)) :
      At (.item collection index) ⟨a, .entry k⟩
  | item {collection index : Value} {a : ArrayRef} {n : Int} {i : Nat}
      (harray : collection.unwrap = .array a) (hindex : toIndex index = .ok n)
      (hposition : position? n = some i) : At (.item collection index) ⟨a.address, .item i⟩
  | cell {pointer : Value} {p : PointerRef} {a : Address} (hpointer : pointer.unwrap = .pointer p)
      (ha : p.address? = some a) : At (.pointee pointer) ⟨a, .cell⟩

namespace Place.At

variable {pl : Place} {slot : Slot} {w : Value} {s s' : State}

/-- The storage of the slot is what the place is read through. -/
theorem ref? (h : pl.At slot) : pl.base.ref? = some slot.address := by
  cases h with
  | field => rfl
  | member ha => exact ha
  | entry hmap ha =>
    rw [base, ← Value.ref?_unwrap, hmap]
    exact ha
  | item harray =>
    rw [base, ← Value.ref?_unwrap, harray]
    rfl
  | cell hpointer ha =>
    rw [base, ← Value.ref?_unwrap, hpointer]
    exact ha

/-- A place is at most one slot. -/
theorem eq {slot' : Slot} (h : pl.At slot) (h' : pl.At slot') : slot' = slot := by
  cases h with
  | field hfield =>
    cases h' with
    | field hfield' =>
      cases hfield.symm.trans hfield'
      rfl
  | member ha hkey =>
    cases h' with
    | member ha' hkey' =>
      cases ha.symm.trans ha'
      cases (hkey .empty).symm.trans (hkey' .empty)
      rfl
  | entry hmap ha hkey =>
    cases h' with
    | entry hmap' ha' hkey' =>
      cases hmap.symm.trans hmap'
      cases ha.symm.trans ha'
      cases (hkey .empty).symm.trans (hkey' .empty)
      rfl
    | item harray => cases hmap.symm.trans harray
  | item harray hindex hposition =>
    cases h' with
    | entry hmap => cases harray.symm.trans hmap
    | item harray' hindex' hposition' =>
      cases harray.symm.trans harray'
      cases hindex.symm.trans hindex'
      cases hposition.symm.trans hposition'
      rfl
  | cell hpointer ha =>
    cases h' with
    | cell hpointer' ha' =>
      cases hpointer.symm.trans hpointer'
      cases ha.symm.trans ha'
      rfl

/-- What the slot holds is read from the place. -/
theorem run_read (h : pl.At slot) (hw : s.heap.value? slot = some w) :
    pl.read.run s = (.ok w, s) := by
  have hread {x : Action Heap Value} {u : Value} (hfinds : Finds x s.heap u w) :
      (Run.onHeap x).run s = (.ok w, s) := by
    rw [Run.run_onHeap, hfinds s.heap fun _ _ => rfl]
  cases h with
  | field hfield => exact hread (memberOf_finds ((Heap.field?_eq _ hfield).trans hw))
  | member ha hkey =>
    exact hread (u := .map _) (MapRef.read_finds rfl hkey ((Heap.get?_entries _ ha _).trans hw))
  | @entry collection index m a k hmap ha hkey =>
    refine hread (u := .map m) ?_
    simp only [readItem, hmap]
    exact MapRef.read_finds rfl hkey ((Heap.get?_entries _ ha _).trans hw)
  | item harray hindex hposition =>
    exact hread (readItem_finds harray hindex ((elementAt_eq_ok_iff hposition).2 hw))
  | @cell pointer p a hpointer ha =>
    refine hread (u := .pointer p) ?_
    simp only [readPointee, hpointer]
    exact PointerRef.load_finds rfl ((Heap.load?_eq _ ha).trans hw)

end Place.At

/-! ### Plans -/

section Plans

variable {container u v : Value} {slot : Slot} {h h' : Heap}

theorem MapRef.entry_of_write {m : MapRef} {key : Value}
    (hrun : (m.planEntry key v).run h = (.ok (.write slot u), h')) :
    ∃ a k, m.address? = some a ∧ (∀ g, (convertKey m.key key).run g = (.ok k, g)) ∧
      slot = ⟨a, .entry k⟩ := by
  obtain ⟨k, w, h₁, hkey, -, ⟨a, ha, hplan, -⟩ | ⟨-, hplan, -⟩⟩ := cases_of_planEntry hrun
  · cases hplan
    exact ⟨a, k, ha, hkey, rfl⟩
  · cases hplan

theorem planMember_at {via : Option PointerRef} {field : Name}
    (hrun : (planMember container field v).run h = (.ok (.write slot u), h')) :
    (Place.member container via field).At slot := by
  cases container with
  | struct s =>
    obtain ⟨i, f, w, hfield, -, hplan⟩ := StructRef.cases_of_planField hrun
    cases hplan
    exact .field hfield
  | map m =>
    obtain ⟨a, k, ha, hkey, rfl⟩ := MapRef.entry_of_write hrun
    exact .member ha hkey
  | _ => cases hrun

theorem planItem_at {index : Value}
    (hrun : (planItem container index v).run h = (.ok (.write slot u), h')) :
    (Place.item container index).At slot := by
  unfold planItem at hrun
  split at hrun
  · next a harray =>
    obtain ⟨n, h₁, hn, hrun⟩ := exists_of_run_bind hrun
    obtain ⟨i, hi, ⟨-, w, -, hplan⟩ | ⟨-, extra, h₂, -, hplan, -⟩⟩ :=
      ArrayRef.cases_of_planIndex hrun
    · cases hplan
      exact .item harray (eq_of_run_ofExcept hn).1 hi
    · cases hplan
  · next m hmap =>
    obtain ⟨a, k, ha, hkey, rfl⟩ := MapRef.entry_of_write hrun
    exact .entry hmap ha hkey
  · next text hstr =>
    obtain ⟨n, h₁, -, hrun⟩ := exists_of_run_bind hrun
    obtain ⟨result, hplan⟩ := str_of_planCharacter hrun
    cases hplan
  · cases hrun

theorem pointeeSlot_at {pointer : Value} (hrun : (pointeeSlot pointer).run h = (.ok slot, h')) :
    (Place.pointee pointer).At slot := by
  unfold pointeeSlot at hrun
  split at hrun
  · next p hpointer =>
    obtain ⟨a, ha, rfl, -⟩ := PointerRef.eq_of_run_slot hrun
    exact .cell hpointer ha
  · cases hrun

end Plans

/-- What is stored by a plan is stored in place, or it is a replacement and goes into the cell of a
pointer. -/
theorem slot_of_linkPlan {c : Expr} {via : Option PointerRef} {plan : Plan} {u : Value}
    {slot : Slot} {s s' : State}
    (hrun : (linkPlan c via plan).run s = (.ok (.last (.write slot u)), s')) :
    s' = s ∧ (plan = .write slot u ∨
      ∃ p a, via = some p ∧ p.address? = some a ∧ slot = ⟨a, .cell⟩) := by
  cases plan with
  | write slot' w =>
    cases hrun
    exact ⟨rfl, .inl rfl⟩
  | replace container =>
    cases via with
    | none => cases hrun
    | some p =>
      obtain ⟨cell, heap, hcell, hrun⟩ := Run.exists_of_run_onHeap_bind hrun
      obtain ⟨a, ha, rfl, rfl⟩ := PointerRef.eq_of_run_slot hcell
      cases hrun
      exact ⟨rfl, .inr ⟨p, a, rfl, ha, rfl⟩⟩

/-- A store in place goes into the slot that the place is; what is stored into a cell instead is a
replacement for what a pointer leads to. -/
theorem Place.at_of_link {pl : Place} {c : Expr} {v u : Value} {slot : Slot} {s s' : State}
    (hrun : (pl.link c v).run s = (.ok (.last (.write slot u)), s'))
    (hposition : slot.position ≠ .cell) : pl.At slot := by
  have write_of_plan {via : Option PointerRef} {plan : Plan} {s : State}
      (hrun : (linkPlan c via plan).run s = (.ok (.last (.write slot u)), s')) :
      plan = .write slot u := by
    rcases (slot_of_linkPlan hrun).2 with hplan | ⟨p, a, -, -, rfl⟩
    · exact hplan
    · exact (hposition rfl).elim
  cases pl with
  | name n =>
    obtain ⟨env, s₁, -, hrun⟩ := exists_of_run_bind hrun
    split at hrun <;> cases hrun
  | member container via field =>
    obtain ⟨plan, heap, hplan, hrun⟩ := Run.exists_of_run_onHeap_bind hrun
    cases write_of_plan hrun
    exact planMember_at hplan
  | item collection index =>
    obtain ⟨plan, heap, hplan, hrun⟩ := Run.exists_of_run_onHeap_bind hrun
    cases write_of_plan hrun
    exact planItem_at hplan
  | pointee pointer =>
    obtain ⟨cell, heap, hcell, hrun⟩ := Run.exists_of_run_onHeap_bind hrun
    cases hrun
    exact pointeeSlot_at hcell

/-! ### Places in a grown state -/

variable {g : Gap}

def Place.shift (g : Gap) : Place → Place
  | name n => name n
  | member container via field => member (container.shift g) (via.map (PointerRef.shift g)) field
  | item collection index => item (collection.shift g) (index.shift g)
  | pointee pointer => pointee (pointer.shift g)

def Slot.shift (g : Gap) (slot : Slot) : Slot := { slot with address := g.address slot.address }

/-- A slot before the gap is not shifted. -/
theorem Slot.shift_eq_of_lt {slot : Slot} (h : (slot.shift g).address < g.base) :
    slot.shift g = slot := by
  have hlt : slot.address < g.base := by
    have haddress : g.address slot.address < g.base := h
    unfold Gap.address at haddress
    split at haddress <;> omega
  exact congrArg (Slot.mk · slot.position) (if_pos hlt)

/-- The slot that the shifted place is was one of the place, shifted. -/
theorem Place.At.of_shift {pl : Place} {slot : Slot} (h : (pl.shift g).At slot) :
    ∃ origin, pl.At origin ∧ slot = origin.shift g := by
  cases pl with
  | name n => cases h
  | member container via field =>
    cases container with
    | struct s =>
      cases h with
      | field hfield => exact ⟨_, .field hfield, rfl⟩
    | map m =>
      cases h with
      | member ha hkey =>
        obtain ⟨a, hm, rfl⟩ := Option.map_eq_some_iff.1 ha
        exact ⟨_, .member hm hkey, rfl⟩
    | _ => cases h
  | item collection index =>
    cases h with
    | entry hmap ha hkey =>
      rw [Value.unwrap_shift] at hmap
      cases hu : collection.unwrap with
      | map m =>
        rw [hu] at hmap
        cases hmap
        obtain ⟨a, hm, rfl⟩ := Option.map_eq_some_iff.1 ha
        refine ⟨_, .entry hu hm fun h => ?_, rfl⟩
        rw [← convertKey_shift g]
        exact hkey h
      | _ =>
        rw [hu] at hmap
        cases hmap
    | item harray hindex hposition =>
      rw [Value.unwrap_shift] at harray
      rw [Value.toIndex_shift] at hindex
      cases hu : collection.unwrap with
      | array a =>
        rw [hu] at harray
        cases harray
        exact ⟨_, .item hu hindex hposition, rfl⟩
      | _ =>
        rw [hu] at harray
        cases harray
  | pointee pointer =>
    cases h with
    | cell hpointer ha =>
      rw [Value.unwrap_shift] at hpointer
      cases hu : pointer.unwrap with
      | pointer p =>
        rw [hu] at hpointer
        cases hpointer
        obtain ⟨a, hp, rfl⟩ := Option.map_eq_some_iff.1 ha
        exact ⟨_, .cell hu hp, rfl⟩
      | _ =>
        rw [hu] at hpointer
        cases hpointer

theorem memberContainer_follows (object : Value) :
    Follows (Heap.Shifted g) (fun f f' => f' = (f.1.shift g, f.2.map (PointerRef.shift g)))
      (memberContainer object) (memberContainer (object.shift g)) := by
  intro h h' hs found h₁ hrun
  obtain ⟨rfl, hcontainer⟩ := run_memberContainer_iff.1 hrun
  refine ⟨_, h', run_memberContainer_iff.2 ⟨rfl, ?_⟩, hs, rfl⟩
  have hne {w : Value} (hnil : w ≠ .nil) : w.shift g ≠ .nil := by
    cases w with
    | nil => exact hnil
    | _ => exact fun e => by cases e
  cases hcontainer with
  | direct hnil hpointer =>
    have hu := Value.unwrap_shift g object
    rw [← hu]
    refine .direct (hu ▸ hne hnil) fun p hp => ?_
    rw [hu] at hp
    cases hw : object.unwrap with
    | pointer q => exact hpointer q hw
    | _ =>
      rw [hw] at hp
      cases hp
  | @through p pointee hp hload hnil =>
    refine .through (by rw [Value.unwrap_shift, hp]; rfl) ?_ (hne hnil)
    rw [hs.load?, hload]
    rfl

theorem Run.onHeap_followsAt {α β : Type} {R : α → β → Prop} {depth : Nat} {x : Action Heap α}
    {y : Action Heap β} (h : Follows (Heap.Shifted g) R x y) :
    Follows (State.ShiftedAt g depth) R (Run.onHeap x) (Run.onHeap y) := by
  rintro st st' ⟨hst, hdepth⟩ a st₁ hrun
  obtain ⟨heap, hx, rfl⟩ := Run.exists_of_run_onHeap hrun
  obtain ⟨b, heap', hy, hheap, hab⟩ := h st.heap st'.heap hst.heap a heap hx
  exact ⟨b, { st' with heap := heap' }, by rw [Run.run_onHeap, hy],
    ⟨⟨hheap, hst.env⟩, hdepth⟩, hab⟩

/-- A target that denotes a place denotes the shifted place in a grown state. -/
theorem place_follows {depth : Nat} {ev ev' : Expr → Run Value}
    (hev : ∀ e, e.isAssignFree = true →
      Follows (State.ShiftedAt g depth) g.Moves (ev e) (ev' e)) :
    (t : Expr) → t.isAssignFree = true →
      Follows (State.ShiftedAt g depth) (fun pl pl' => pl' = pl.shift g) (place ev t) (place ev' t)
  | .ident _ _, _ => .pure rfl
  | .member object field _, ht => by
    refine .bind (hev object ht) fun v v' hv => ?_
    rw [hv]
    refine .bind (Run.onHeap_followsAt (memberContainer_follows v)) fun found found' hfound => ?_
    rw [hfound]
    exact .pure rfl
  | .item collection index _, ht => by
    simp only [Expr.isAssignFree, Bool.and_eq_true] at ht
    refine .bind (hev collection ht.1) fun c c' hc => .bind (hev index ht.2) fun i i' hi => ?_
    rw [hc, hi]
    exact .pure rfl
  | .deref pointer _, ht => by
    refine .bind (hev pointer ht) fun p p' hp => ?_
    rw [hp]
    exact .pure rfl
  | .literal .., _ | .array .., _ | .slice .., _ | .assign .., _ => .fail _ _

/-! ### Targets that are read from a slot -/

theorem Heap.value?_of_le {g h : Heap} {slot : Slot} {v : Value} (hle : g ≤ h)
    (hv : g.value? slot = some v) : h.value? slot = some v := by
  obtain ⟨s, hget, hs⟩ := Option.bind_eq_some_iff.1 hv
  rw [value?, hle _ _ hget]
  exact hs

theorem Heap.value?_eq_of_le {g h : Heap} (hle : g ≤ h) {slot : Slot}
    (ha : slot.address < g.size) : h.value? slot = g.value? slot := by
  rw [value?, value?, get?_eq_of_le hle ha]

/-- What has a value at its outermost node, one level deeper, has it. -/
theorem run_evaluate_of_node {limit room : Nat} {e : Expr} {v : Value} {st s : State}
    (hroom : limit - st.depth = room + 1)
    (hnode : (evaluateNode (evaluateWithin limit room) e).run { st with depth := st.depth + 1 } =
      (.ok v, s)) : (evaluate limit e).run st = (.ok v, { s with depth := s.depth - 1 }) := by
  show (evaluateWithin limit (limit - st.depth) e).run st = _
  rw [hroom, evaluateWithin, run_within, Run.run_nested, hnode]
  rfl

theorem place_adds {ev : Expr → Run Value} (hev : ∀ e, e.isAssignFree = true → (ev e).Adds) :
    (t : Expr) → t.isAssignFree = true → (place ev t).Adds
  | .ident _ _, _ => .pure _
  | .member object _ _, ht => .bind (hev object ht) fun _ =>
    .bind (Run.onHeap_adds (memberContainer_adds _)) fun _ => .pure _
  | .item collection index _, ht => by
    simp only [Expr.isAssignFree, Bool.and_eq_true] at ht
    exact .bind (hev collection ht.1) fun _ => .bind (hev index ht.2) fun _ => .pure _
  | .deref pointer _, ht => .bind (hev pointer ht) fun _ => .pure _
  | .literal .., _ | .array .., _ | .slice .., _ => .fail _

/-- Whether a slot is the one that a target is read from when it is evaluated in a state. -/
def Expr.ReadFrom (limit : Nat) (st : State) (t : Expr) (slot : Slot) : Prop :=
  ∃ room pl s, limit - st.depth = room + 1 ∧
    (place (evaluateWithin limit room) t).run { st with depth := st.depth + 1 } = (.ok pl, s) ∧
      pl.At slot

namespace Expr.ReadFrom

variable {limit : Nat} {st : State} {t : Expr} {slot origin : Slot} {w : Value}

/-- A target is read from one slot at most. -/
theorem eq (h : t.ReadFrom limit st slot) (h' : t.ReadFrom limit st origin) : origin = slot := by
  obtain ⟨room, pl, s, hroom, hplace, hat⟩ := h
  obtain ⟨room', pl', s', hroom', hplace', hat'⟩ := h'
  cases hroom.symm.trans hroom'
  cases hplace.symm.trans hplace'
  exact hat.eq hat'

/-- A target has the value that is in the slot that it is read from. -/
theorem run_evaluate (h : t.ReadFrom limit st slot) (ht : t.isAssignFree = true)
    (hw : st.heap.value? slot = some w) : ∃ s, (evaluate limit t).run st = (.ok w, s) := by
  obtain ⟨room, pl, s, hroom, hplace, hat⟩ := h
  have hle := (place_adds (fun _ he => evaluateWithin_adds limit room he) t ht).le_of_run hplace
  have hread := hat.run_read (Heap.value?_of_le hle.2.2 hw)
  exact ⟨_, run_evaluate_of_node hroom ((evaluateNode_of_place hplace).trans hread)⟩

end Expr.ReadFrom

end TenantScript
