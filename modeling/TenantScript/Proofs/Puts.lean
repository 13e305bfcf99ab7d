import TenantScript.Proofs.Reads
import TenantScript.Proofs.WellTyped

/-!
What a store leaves to be read. The plan for a store puts the converted value where a read of the
same member or item finds it: into the container itself, or into a new container that is declared
like the old one and can take its place.
-/

open TenantScript.Action

namespace TenantScript

/-- The element at an index is what its slot holds. -/
theorem elementAt_eq_ok_iff {h : Heap} {v : Value} {a : ArrayRef} {index : Int} {i : Nat}
    (hi : position? index = some i) :
    elementAt (h.items a) index = .ok v ↔ h.value? ⟨a.address, .item i⟩ = some v := by
  rw [elementAt, hi, Option.bind_some, h.getElem?_items]
  cases h.value? ⟨a.address, .item i⟩ <;> simp

/-! ### Replacements take the place of what they replace -/

theorem convert_map_of_conforms {w : Value} {m n : MapRef} {ty : Ty} (hw : w.unwrap = .map m)
    (hconf : w.conforms ty = true) (hkey : n.key = m.key) (hvalue : n.value = m.value) :
    convert ty (.map n) = pure (.map n) := by
  apply convert_of_conforms
  rw [Value.conforms_map_congr hkey hvalue, ← hw]
  exact Value.conforms_unwrap hconf

theorem convert_array_of_conforms {w : Value} {a b : ArrayRef} {ty : Ty} (hw : w.unwrap = .array a)
    (hconf : w.conforms ty = true) (helem : b.elem = a.elem) :
    convert ty (.array b) = pure (.array b) := by
  apply convert_of_conforms
  rw [Value.conforms_array_congr helem, ← hw]
  exact Value.conforms_unwrap hconf

/-! ### Plans -/

/-- Whether a plan puts `c` where a read of the container finds it, or where a read of the
replacement finds it that the plan made beside what the conversion to `c` had left. -/
inductive Plan.Puts (read : Value → Action Heap Value) (container c : Value) (h : Heap) :
    Plan → Heap → Prop
  | write {slot : Slot} (href : container.ref? = some slot.address)
      (hfinds : ∀ g : Heap, g.HasRoom slot → Finds (read container) (g.store slot c) container c) :
      Puts read container c h (.write slot c) h
  | replace {r : Value} {s : Storage} (href : r.ref? = some h.size)
      (hself : memberContainer r = pure (r, none)) (hchar : ∀ text, container ≠ .str text)
      (hkept : ∀ ty, container.conforms ty = true → convert ty r = pure r)
      (hfinds : Finds (read r) (h.push s) r c) : Puts read container c h (.replace r) (h.push s)

section Plans

variable {h h₁ h' : Heap} {v c container : Value} {plan : Plan}

theorem StructRef.planField_puts {s : StructRef} {name : Name} {i : Nat} {f : FieldDef}
    (hfield : s.defn.field? name = some (i, f)) (hconv : (convert f.ty v).run h = (.ok c, h₁))
    (hplan : (s.planField name v).run h = (.ok plan, h')) :
    Plan.Puts (memberOf · name) (.struct s) c h₁ plan h' := by
  obtain ⟨j, g, w, hj, hw, rfl⟩ := cases_of_planField hplan
  cases hfield.symm.trans hj
  cases hconv.symm.trans hw
  refine .write rfl fun g hroom => memberOf_finds ?_
  exact (Heap.field?_eq _ hfield).trans (Heap.value?_store_self hroom)

theorem MapRef.planEntry_puts {read : Value → Action Heap Value} {m : MapRef} {key : Value}
    (hu : container.unwrap = .map m) (hread : read container = m.read key)
    (hmap : ∀ n : MapRef, read (.map n) = n.read key)
    (hconv : (convert m.value v).run h = (.ok c, h₁))
    (hplan : (m.planEntry key v).run h = (.ok plan, h')) :
    Plan.Puts read container c h₁ plan h' := by
  have href : container.ref? = m.address? := by rw [← container.ref?_unwrap, hu]; rfl
  obtain ⟨k, w, h₂, hkey, hw, ⟨a, ha, rfl, rfl⟩ | ⟨ha, rfl, rfl⟩⟩ := cases_of_planEntry hplan
  · cases hconv.symm.trans hw
    refine .write (href.trans ha) fun g hroom => ?_
    rw [hread]
    exact MapRef.read_finds href hkey
      ((Heap.get?_entries _ ha k).trans (Heap.value?_store_self hroom))
  · cases hconv.symm.trans hw
    refine .replace rfl rfl (fun text e => ?_) (fun ty hty => ?_) ?_
    · rw [e] at hu
      cases hu
    · exact convert_map_of_conforms hu hty rfl rfl
    · rw [hmap]
      refine MapRef.read_finds rfl hkey ((Heap.get?_entries _ rfl k).trans ?_)
      rw [Heap.value?, Heap.get?_push_self]
      exact SortedMap.get?_insert_self _ _ _

theorem planMember_puts {via : Option PointerRef} {field : Name} {ty : Ty}
    (hty : (Place.member container via field).type? = some ty)
    (hconv : (convert ty v).run h = (.ok c, h₁))
    (hplan : (planMember container field v).run h = (.ok plan, h')) :
    Plan.Puts (memberOf · field) container c h₁ plan h' := by
  cases container with
  | struct s =>
    obtain ⟨⟨i, f⟩, hfield, rfl⟩ := Option.map_eq_some_iff.1 hty
    exact StructRef.planField_puts hfield hconv hplan
  | map m =>
    cases hty
    exact MapRef.planEntry_puts rfl rfl (fun _ => rfl) hconv hplan
  | _ => cases hty

/-- Where a value converts to the type of the elements, appending it adds what it converts to. -/
theorem run_additions {elem : Ty} (hconv : (convert elem v).run h = (.ok c, h₁)) :
    (additions elem v).run h = (.ok [c], h₁) := by
  rw [additions, run_recover, run_bind_ok _ hconv]
  rfl

theorem ArrayRef.planIndex_puts {a : ArrayRef} {index : Value} {n : Int}
    (hu : container.unwrap = .array a) (hlt : a.address < h.size) (hindex : toIndex index = .ok n)
    (hconv : (convert a.elem v).run h = (.ok c, h₁))
    (hplan : (a.planIndex n v).run h = (.ok plan, h')) :
    Plan.Puts (readItem · index) container c h₁ plan h' := by
  obtain ⟨i, hi, ⟨-, w, hw, rfl⟩ | ⟨rfl, extra, h₂, hextra, rfl, rfl⟩⟩ := cases_of_planIndex hplan
  · cases hconv.symm.trans hw
    have href : container.ref? = some a.address := by
      rw [← container.ref?_unwrap, hu]
      rfl
    refine .write href fun g hroom => readItem_finds hu hindex ?_
    exact (elementAt_eq_ok_iff hi).2 (Heap.value?_store_self hroom)
  · cases (run_additions hconv).symm.trans hextra
    have hitems : h₁.items a = h.items a :=
      Heap.items_congr (Heap.get?_eq_of_le ((convert_adds _ _).le_of_run hconv) hlt)
    refine .replace rfl rfl (fun text e => ?_) (fun ty hty => ?_) ?_
    · rw [e] at hu
      cases hu
    · exact convert_array_of_conforms hu hty rfl
    · refine readItem_finds rfl hindex ((elementAt_eq_ok_iff hi).2 ?_)
      rw [Heap.value?, Heap.get?_push_self]
      show (h₁.items a ++ [c])[(h.items a).length]? = some c
      rw [hitems, List.getElem?_concat_length]

theorem planItem_puts {index : Value} {ty : Ty}
    (hty : (Place.item container index).type? = some ty)
    (hlt : ∀ a, container.ref? = some a → a < h.size)
    (hconv : (convert ty v).run h = (.ok c, h₁))
    (hplan : (planItem container index v).run h = (.ok plan, h')) :
    Plan.Puts (readItem · index) container c h₁ plan h' := by
  have href := container.ref?_unwrap
  unfold planItem at hplan
  cases hu : container.unwrap with
  | array a =>
    rw [hu] at href
    simp only [Place.type?, hu, Option.some.injEq] at hty hplan
    subst hty
    obtain ⟨n, h₂, hn, hindexed⟩ := exists_of_run_bind hplan
    obtain ⟨hindex, rfl⟩ := eq_of_run_ofExcept hn
    exact a.planIndex_puts hu (hlt a.address href.symm) hindex hconv hindexed
  | map m =>
    simp only [Place.type?, hu, Option.some.injEq] at hty hplan
    subst hty
    refine MapRef.planEntry_puts hu ?_ (fun n => rfl) hconv hplan
    simp only [readItem, hu]
  | _ =>
    simp only [Place.type?, hu] at hty
    cases hty

/-- What is stored at a pointer is read there. -/
theorem pointeeSlot_finds {pointer : Value} {slot : Slot}
    (hrun : (pointeeSlot pointer).run h = (.ok slot, h')) :
    h' = h ∧ pointer.ref? = some slot.address ∧ ∀ g : Heap, g.HasRoom slot →
      Finds (readPointee pointer) (g.store slot v) pointer v := by
  have href := pointer.ref?_unwrap
  unfold pointeeSlot at hrun
  cases hu : pointer.unwrap with
  | pointer p =>
    rw [hu] at href
    simp only [hu] at hrun
    obtain ⟨a, ha, rfl, rfl⟩ := PointerRef.eq_of_run_slot hrun
    refine ⟨rfl, href.symm.trans ha, fun g hroom => ?_⟩
    simp only [readPointee, hu]
    exact PointerRef.load_finds href.symm
      ((Heap.load?_eq _ ha).trans (Heap.value?_store_self hroom))
  | _ =>
    simp only [hu] at hrun
    cases hrun

end Plans

end TenantScript
