import TenantScript.Proofs.Place
import TenantScript.Proofs.Reach
import TenantScript.Proofs.Slot
import TenantScript.Proofs.ValueSteps

/-!
Reads of one storage. A read depends on nothing but the storage that it reads, and all that its
result refers to is what that storage leads to. It makes nothing, unless it reads a missing entry
of a map with array values.
-/

open TenantScript.Action

namespace TenantScript

namespace Heap

variable {g h : Heap}

theorem items_congr {a : ArrayRef} (e : g.get? a.address = h.get? a.address) :
    g.items a = h.items a := by
  rw [items, items, itemsAt, itemsAt, e]

theorem entries_congr {m : MapRef} (e : ∀ a, m.address? = some a → g.get? a = h.get? a) :
    g.entries m = h.entries m := by
  rw [Heap.entries, Heap.entries]
  cases ha : m.address? with
  | none => rfl
  | some a => simp only [entriesAt, e a ha]

theorem field?_congr {s : StructRef} (e : g.get? s.address = h.get? s.address) (name : Name) :
    g.field? s name = h.field? s name := by
  rw [field?, field?, Heap.fields, Heap.fields, fieldsAt, fieldsAt, e]

theorem load?_congr {p : PointerRef} (e : ∀ a, p.address? = some a → g.get? a = h.get? a) :
    g.load? p = h.load? p := by
  rw [load?, load?]
  cases ha : p.address? with
  | none => rfl
  | some a => simp only [Option.bind_some, cellAt?, e a ha]

/-- What a slot holds is one of the values of its storage. -/
theorem exists_storage_of_value? {slot : Slot} {v : Value} (hv : h.value? slot = some v) :
    ∃ s, h.get? slot.address = some s ∧ v ∈ s.values := by
  obtain ⟨s, hget, hs⟩ := Option.bind_eq_some_iff.1 hv
  refine ⟨s, hget, ?_⟩
  cases hpos : slot.position <;> rw [hpos] at hs <;> cases s <;>
    first
      | exact List.mem_of_getElem? hs
      | exact List.mem_map.2 ⟨_, SortedMap.get?_eq_some_iff.1 hs, rfl⟩
      | exact List.mem_singleton.2 (Option.some.inj hs).symm
      | cases hs

theorem leads_of_value? {slot : Slot} {v : Value} {b : Address} (hv : h.value? slot = some v)
    (hb : v.ref? = some b) : h.Leads slot.address b := by
  obtain ⟨s, hget, hmem⟩ := exists_storage_of_value? hv
  exact ⟨s, hget, v, hmem, hb⟩

theorem value?_of_mem_items {a : ArrayRef} {v : Value} (hv : v ∈ h.items a) :
    ∃ i, h.value? ⟨a.address, .item i⟩ = some v := by
  obtain ⟨i, hi⟩ := List.mem_iff_getElem?.1 hv
  exact ⟨i, (h.getElem?_items a i).symm.trans hi⟩

theorem value?_of_entry {m : MapRef} {k : MapKey} {v : Value}
    (hv : (h.entries m).get? k = some v) :
    ∃ a, m.address? = some a ∧ h.value? ⟨a, .entry k⟩ = some v := by
  cases ha : m.address? with
  | none =>
    rw [Heap.entries, ha] at hv
    cases hv
  | some a => exact ⟨a, rfl, (h.get?_entries ha k).symm.trans hv⟩

theorem value?_of_field {s : StructRef} {name : Name} {v : Value}
    (hv : h.field? s name = some v) :
    ∃ i f, s.defn.field? name = some (i, f) ∧ h.value? ⟨s.address, .field i⟩ = some v := by
  obtain ⟨⟨i, f⟩, hfield, -⟩ := Option.bind_eq_some_iff.1 hv
  exact ⟨i, f, hfield, (h.field?_eq hfield).symm.trans hv⟩

theorem value?_of_load {p : PointerRef} {v : Value} (hv : h.load? p = some v) :
    ∃ a, p.address? = some a ∧ h.value? ⟨a, .cell⟩ = some v := by
  obtain ⟨a, ha, -⟩ := Option.bind_eq_some_iff.1 hv
  exact ⟨a, ha, (h.load?_eq ha).symm.trans hv⟩

theorem leads_of_mem_items {a : ArrayRef} {v : Value} {b : Address} (hv : v ∈ h.items a)
    (hb : v.ref? = some b) : h.Leads a.address b := by
  obtain ⟨i, hi⟩ := value?_of_mem_items hv
  exact leads_of_value? hi hb

theorem leads_of_entry {m : MapRef} {k : MapKey} {v : Value} {b : Address}
    (hv : (h.entries m).get? k = some v) (hb : v.ref? = some b) :
    ∃ a, m.address? = some a ∧ h.Leads a b := by
  obtain ⟨a, ha, hslot⟩ := value?_of_entry hv
  exact ⟨a, ha, leads_of_value? hslot hb⟩

theorem leads_of_field {s : StructRef} {name : Name} {v : Value} {b : Address}
    (hv : h.field? s name = some v) (hb : v.ref? = some b) : h.Leads s.address b := by
  obtain ⟨i, f, -, hslot⟩ := value?_of_field hv
  exact leads_of_value? hslot hb

theorem leads_of_load {p : PointerRef} {v : Value} {b : Address} (hv : h.load? p = some v)
    (hb : v.ref? = some b) : ∃ a, p.address? = some a ∧ h.Leads a b := by
  obtain ⟨a, ha, hslot⟩ := value?_of_load hv
  exact ⟨a, ha, leads_of_value? hslot hb⟩

end Heap

/-! ### What reads come to -/

section Results

variable {h h' : Heap} {w : Value}

/-- A map is read at an entry, or there is none and the result is the zero value. -/
theorem MapRef.entry_of_read {m : MapRef} {key : Value} (hrun : (m.read key).run h = (.ok w, h')) :
    ∃ k, (∀ g, (convertKey m.key key).run g = (.ok k, g)) ∧
      ((h.entries m).get? k = some w ∧ h' = h ∨
        (h.entries m).get? k = none ∧ (Value.zero m.value).run h = (.ok w, h')) := by
  obtain ⟨k, h₁, hk, hread⟩ := exists_of_run_bind hrun
  obtain ⟨rfl, hkey⟩ := run_convertKey_of_run hk
  obtain ⟨entries, h₂, hentries, hread⟩ := exists_of_run_bind hread
  cases hentries
  refine ⟨k, hkey, ?_⟩
  cases hget : (h₁.entries m).get? k with
  | some v =>
    rw [hget] at hread
    cases hread
    exact .inl ⟨rfl, rfl⟩
  | none =>
    rw [hget] at hread
    exact .inr ⟨rfl, hread⟩

theorem field_of_memberOf {s : StructRef} {name : Name}
    (hrun : (memberOf (.struct s) name).run h = (.ok w, h')) :
    h.field? s name = some w ∧ h' = h := by
  obtain ⟨v?, h₁, hv, hrun⟩ := exists_of_run_bind hrun
  cases hv
  exact eq_of_run_require hrun

theorem element_of_readItem {collection index : Value} {a : ArrayRef}
    (hu : collection.unwrap = .array a) (hrun : (readItem collection index).run h = (.ok w, h')) :
    ∃ i, toIndex index = .ok i ∧ elementAt (h.items a) i = .ok w ∧ h' = h := by
  simp only [readItem, hu] at hrun
  obtain ⟨i, h₁, hi, hget⟩ := exists_of_run_bind hrun
  obtain ⟨hindex, rfl⟩ := eq_of_run_ofExcept hi
  obtain ⟨items, h₂, hitems, hlast⟩ := exists_of_run_bind hget
  cases hitems
  obtain ⟨helem, rfl⟩ := eq_of_run_ofExcept hlast
  exact ⟨i, hindex, helem, rfl⟩

theorem PointerRef.pointee_of_load {p : PointerRef} {onNil : Cause}
    (hrun : (p.load onNil).run h = (.ok w, h')) : h.load? p = some w ∧ h' = h := by
  obtain ⟨v?, h₁, hv, hrun⟩ := exists_of_run_bind hrun
  cases hv
  exact eq_of_run_require hrun

end Results

/-- Whether an action finds `w` in every heap that has what `h` has where `u` refers to. -/
def Finds (x : Action Heap Value) (h : Heap) (u w : Value) : Prop :=
  ∀ g : Heap, (∀ a, u.ref? = some a → g.get? a = h.get? a) → x.run g = (.ok w, g)

section Finds

variable {h : Heap} {u w : Value}

theorem Finds.congr {x : Action Heap Value} {h' : Heap} (hx : Finds x h u w)
    (hagree : ∀ a, u.ref? = some a → h'.get? a = h.get? a) : Finds x h' u w :=
  fun g hg => hx g fun a ha => (hg a ha).trans (hagree a ha)

theorem Finds.of_push {x : Action Heap Value} {g : Heap} {s : Storage}
    (hx : Finds x (h.push s) u w) (href : u.ref? = some h.size) (hget : g.get? h.size = some s) :
    Finds x g u w := by
  refine hx.congr fun a ha => ?_
  cases href.symm.trans ha
  rw [hget, Heap.get?_push_self]

theorem memberOf_finds {s : StructRef} {name : Name} (hfield : h.field? s name = some w) :
    Finds (memberOf (.struct s) name) h (.struct s) w := by
  intro g hg
  rw [memberOf, run_bind, run_get]
  simp only [Heap.field?_congr (hg s.address rfl), hfield]
  rfl

theorem MapRef.read_finds {m : MapRef} {key : Value} {k : MapKey} (hu : u.ref? = m.address?)
    (hkey : ∀ g, (convertKey m.key key).run g = (.ok k, g))
    (hentry : (h.entries m).get? k = some w) : Finds (m.read key) h u w := by
  intro g hg
  rw [MapRef.read, run_bind_ok _ (hkey g), run_bind, run_get]
  simp only [Heap.entries_congr fun a ha => hg a (hu.trans ha), hentry]
  rfl

theorem readItem_finds {a : ArrayRef} {index : Value} {i : Int} (hu : u.unwrap = .array a)
    (hindex : toIndex index = .ok i) (helem : elementAt (h.items a) i = .ok w) :
    Finds (readItem u index) h u w := by
  intro g hg
  have href : u.ref? = some a.address := by rw [← u.ref?_unwrap, hu]; rfl
  simp only [readItem, hu, hindex]
  show (ofExcept (elementAt (g.items a) i)).run g = _
  rw [Heap.items_congr (hg a.address href), helem]
  rfl

theorem PointerRef.load_finds {p : PointerRef} {onNil : Cause} (hu : u.ref? = p.address?)
    (hload : h.load? p = some w) : Finds (p.load onNil) h u w := by
  intro g hg
  rw [load, run_bind, run_get]
  simp only [Heap.load?_congr fun a ha => hg a (hu.trans ha), hload]
  rfl

end Finds

/-- What a read of the storage that `u` refers to comes to: it finds a value there, or it makes an
empty array. -/
inductive Peek (x : Action Heap Value) (h : Heap) (u : Value) : Value → Heap → Prop
  | found {w} (hfinds : Finds x h u w)
    (hleads : ∀ b, w.ref? = some b → ∃ a, u.ref? = some a ∧ h.Leads a b) : Peek x h u w h
  | made (elem : Ty) : Peek x h u (.array ⟨elem, false, false, h.size⟩) (h.push (.items []))

section Peek

variable {h h' : Heap} {u w : Value}

theorem Value.zero_peek {ty : Ty} (hrun : (zero ty).run h = (.ok w, h')) :
    Peek (zero ty) h u w h' := by
  cases ty <;> cases hrun <;>
    first
      | exact .found (fun g _ => rfl) fun b hb => nomatch hb
      | exact .made _

theorem MapRef.read_peek {m : MapRef} {key : Value} (hu : u.ref? = m.address?)
    (hrun : (m.read key).run h = (.ok w, h')) : Peek (m.read key) h u w h' := by
  obtain ⟨k, hkey, ⟨hget, rfl⟩ | ⟨hget, hzero⟩⟩ := MapRef.entry_of_read hrun
  · refine .found (MapRef.read_finds hu hkey hget) fun b hb => ?_
    rw [hu]
    exact Heap.leads_of_entry hget hb
  · have hpeek : Peek (Value.zero m.value) h u w h' := Value.zero_peek hzero
    cases hpeek with
    | found hfinds hleads =>
      refine .found (fun g hg => ?_) hleads
      rw [MapRef.read, run_bind_ok _ (hkey g), run_bind, run_get]
      simp only [Heap.entries_congr fun a ha => hg a (hu.trans ha), hget]
      exact hfinds g hg
    | made elem => exact .made elem

theorem PointerRef.load_peek {p : PointerRef} {onNil : Cause} (hu : u.ref? = p.address?)
    (hrun : (p.load onNil).run h = (.ok w, h')) : Peek (p.load onNil) h u w h' := by
  obtain ⟨hload, rfl⟩ := pointee_of_load hrun
  refine .found (load_finds hu hload) fun b hb => ?_
  rw [hu]
  exact Heap.leads_of_load hload hb

theorem memberOf_peek {container : Value} {field : Name}
    (hrun : (memberOf container field).run h = (.ok w, h')) :
    Peek (memberOf container field) h container w h' := by
  cases container with
  | struct s =>
    obtain ⟨hfield, rfl⟩ := field_of_memberOf hrun
    exact .found (memberOf_finds hfield) fun b hb => ⟨s.address, rfl, Heap.leads_of_field hfield hb⟩
  | map m => exact MapRef.read_peek rfl hrun
  | _ => cases hrun

theorem readItem_peek {collection index : Value}
    (hrun : (readItem collection index).run h = (.ok w, h')) :
    Peek (readItem collection index) h collection w h' := by
  have href := collection.ref?_unwrap
  cases hu : collection.unwrap with
  | array a =>
    rw [hu] at href
    obtain ⟨i, hindex, helem, rfl⟩ := element_of_readItem hu hrun
    exact .found (readItem_finds hu hindex helem) fun b hb =>
      ⟨a.address, href.symm, Heap.leads_of_mem_items (mem_of_elementAt helem) hb⟩
  | map m =>
    rw [hu] at href
    simp only [readItem, hu] at hrun ⊢
    exact MapRef.read_peek href.symm hrun
  | str s =>
    simp only [readItem, hu] at hrun ⊢
    obtain ⟨i, h₁, hi, hget⟩ := exists_of_run_bind hrun
    obtain ⟨hindex, rfl⟩ := eq_of_run_ofExcept hi
    obtain ⟨c, h₂, hc, hpure⟩ := exists_of_run_bind hget
    obtain ⟨hchar, rfl⟩ := eq_of_run_ofExcept hc
    cases hpure
    refine .found (fun g hg => ?_) fun b hb => nomatch hb
    rw [hindex]
    show (Action.ofExcept (elementAt s.toList i) >>=
      fun c => pure (Value.str (String.singleton c))).run g = _
    rw [hchar]
    rfl
  | _ =>
    simp only [readItem, hu] at hrun
    cases hrun

theorem readPointee_peek {pointer : Value} (hrun : (readPointee pointer).run h = (.ok w, h')) :
    Peek (readPointee pointer) h pointer w h' := by
  have href := pointer.ref?_unwrap
  unfold readPointee at hrun ⊢
  cases hu : pointer.unwrap with
  | pointer p =>
    rw [hu] at href
    simp only [hu] at hrun ⊢
    exact PointerRef.load_peek href.symm hrun
  | _ =>
    simp only [hu] at hrun
    cases hrun

end Peek

end TenantScript
