import TenantScript.Proofs.PlaceSlots
import TenantScript.Proofs.PutGet

/-!
What places hold. The value that is read from a place is bound to a name, is a character of a
string, or is in the slot that the place is, unless it stands for a missing entry of a map. A value
that is put where it is already takes the same way back: a slot takes it in place, and a string is
replaced by itself.
-/

open TenantScript.Action

namespace TenantScript

variable {s s' : State} {h h' : Heap} {u w : Value} {slot : Slot} {pl : Place} {g : Gap}

/-! ### Reads that hit -/

/-- Whether a map has an entry under what a value is as a key. -/
def MapRef.Hits (h : Heap) (m : MapRef) (key : Value) : Prop :=
  ∃ k, ((convertKey m.key key).run h).1 = .ok k ∧ (h.entries m).contains k = true

/-- Whether a place is not a missing entry of a map. -/
def Place.Hits (h : Heap) : Place → Prop
  | member (.map m) _ field => m.Hits h (.str field)
  | item collection index => ∀ m, collection.unwrap = .map m → m.Hits h index
  | _ => True

/-- Where the value of a place is. -/
inductive Place.Holds (s : State) (w : Value) : Place → Prop
  | name {name : Name} (hbound : s.env.lookup? name = some w) : Holds s w (.name name)
  | character {c key : Value} {text : String} {n : Int} {ch : Char} (htext : c.unwrap = .str text)
      (hindex : toIndex key = .ok n) (hchar : elementAt text.toList n = .ok ch)
      (hw : w = .str (String.singleton ch)) : Holds s w (.item c key)
  | slot {pl : Place} {slot : Slot} (hat : pl.At slot) (hvalue : s.heap.value? slot = some w) :
      Holds s w pl

/-- A map is read at the entry that it hits. -/
theorem MapRef.entry_of_hits {m : MapRef} {key : Value} (hhits : m.Hits h key)
    (hrun : (m.read key).run h = (.ok w, h')) :
    ∃ a k, m.address? = some a ∧ (∀ g, (convertKey m.key key).run g = (.ok k, g)) ∧
      h.value? ⟨a, .entry k⟩ = some w := by
  obtain ⟨k, hkey, ⟨hget, -⟩ | ⟨hget, -⟩⟩ := entry_of_read hrun
  · obtain ⟨a, ha, hvalue⟩ := Heap.value?_of_entry hget
    exact ⟨a, k, ha, hkey, hvalue⟩
  · obtain ⟨k', hk', hcontains⟩ := hhits
    rw [hkey] at hk'
    cases hk'
    rw [SortedMap.contains, hget] at hcontains
    cases hcontains

theorem Place.holds_of_read (hhits : pl.Hits s.heap) (hread : pl.read.run s = (.ok w, s')) :
    pl.Holds s w := by
  cases pl with
  | name n =>
    obtain ⟨v?, s₁, hv, hread⟩ := exists_of_run_bind hread
    cases hv
    exact .name (eq_of_run_require hread).1
  | member container via field =>
    obtain ⟨heap, hmember, -⟩ := Run.exists_of_run_onHeap hread
    cases container with
    | struct r =>
      obtain ⟨i, f, hfield, hvalue⟩ := Heap.value?_of_field (field_of_memberOf hmember).1
      exact .slot (.field hfield) hvalue
    | map m =>
      obtain ⟨a, k, ha, hkey, hvalue⟩ := MapRef.entry_of_hits hhits hmember
      exact .slot (.member ha hkey) hvalue
    | _ => cases hmember
  | item collection index =>
    obtain ⟨heap, hitem, -⟩ := Run.exists_of_run_onHeap hread
    cases hc : collection.unwrap with
    | array a =>
      obtain ⟨n, hindex, helem, -⟩ := element_of_readItem hc hitem
      obtain ⟨i, hi⟩ : ∃ i, position? n = some i := by
        cases hp : position? n with
        | none =>
          rw [elementAt, hp] at helem
          cases helem
        | some i => exact ⟨i, rfl⟩
      exact .slot (.item hc hindex hi) ((elementAt_eq_ok_iff hi).1 helem)
    | map m =>
      simp only [readItem, hc] at hitem
      obtain ⟨a, k, ha, hkey, hvalue⟩ := MapRef.entry_of_hits (hhits m hc) hitem
      exact .slot (.entry hc ha hkey) hvalue
    | str text =>
      simp only [readItem, hc] at hitem
      obtain ⟨n, h₁, hn, hitem⟩ := exists_of_run_bind hitem
      obtain ⟨ch, h₂, hch, hitem⟩ := exists_of_run_bind hitem
      cases hitem
      exact .character hc (eq_of_run_ofExcept hn).1 (eq_of_run_ofExcept hch).1 rfl
    | _ =>
      simp only [readItem, hc] at hitem
      cases hitem
  | pointee pointer =>
    obtain ⟨heap, hpointee, -⟩ := Run.exists_of_run_onHeap hread
    unfold readPointee at hpointee
    split at hpointee
    · next p hp =>
      obtain ⟨a, ha, hvalue⟩ := Heap.value?_of_load (PointerRef.pointee_of_load hpointee).1
      exact .slot (.cell hp ha) hvalue
    · cases hpointee

/-! ### Slots in a grown heap -/

theorem Place.type?_shift (g : Gap) (pl : Place) : (pl.shift g).type? = pl.type? := by
  cases pl with
  | member container via field => cases container <;> rfl
  | item collection index =>
    simp only [shift, type?, Value.unwrap_shift]
    cases collection.unwrap <;> rfl
  | _ => rfl

theorem Place.At.shift (h : pl.At slot) : (pl.shift g).At (slot.shift g) := by
  cases h with
  | field hfield => exact .field (s := StructRef.shift g _) hfield
  | member ha hkey =>
    exact .member (m := MapRef.shift g _) (congrArg (Option.map g.address) ha) hkey
  | entry hmap ha hkey =>
    refine .entry (m := MapRef.shift g _) ?_ (congrArg (Option.map g.address) ha) fun h => ?_
    · rw [Value.unwrap_shift, hmap]
      rfl
    · rw [convertKey_shift]
      exact hkey h
  | item harray hindex hposition =>
    refine .item (a := ArrayRef.shift g _) ?_ ?_ hposition
    · rw [Value.unwrap_shift, harray]
      rfl
    · rw [Value.toIndex_shift, hindex]
  | cell hpointer ha =>
    refine .cell (p := PointerRef.shift g _) ?_ (congrArg (Option.map g.address) ha)
    rw [Value.unwrap_shift, hpointer]
    rfl

theorem Heap.Shifted.value? (hs : h.Shifted g h') (slot : Slot) :
    h'.value? (slot.shift g) = (h.value? slot).map (Value.shift g) := by
  rw [Heap.value?, Slot.shift, hs.get?, Heap.value?]
  cases h.get? slot.address with
  | none => rfl
  | some x =>
    cases x <;> cases slot.position <;>
      first | rfl | exact List.getElem?_map .. | exact SortedMap.get?_map ..

theorem Place.At.base_ne_str (hat : pl.At slot) (text : String) : pl.base.unwrap ≠ .str text := by
  intro htext
  cases hat with
  | field | member => cases htext
  | entry hmap => cases hmap.symm.trans htext
  | item harray => cases harray.symm.trans htext
  | cell hpointer => cases hpointer.symm.trans htext

/-! ### Values that are put back -/

theorem MapRef.planEntry_of_conforms {m : MapRef} {key : Value} {a : Address} {k : MapKey}
    {plan : Plan} (ha : m.address? = some a) (hkey : ∀ g, (convertKey m.key key).run g = (.ok k, g))
    (hu : u.conforms m.value = true) (hrun : (m.planEntry key u).run h = (.ok plan, h')) :
    plan = .write ⟨a, .entry k⟩ u := by
  obtain ⟨k', w, h₁, hkey', hw, ⟨a', ha', rfl, -⟩ | ⟨hnil, -, -⟩⟩ := cases_of_planEntry hrun
  · rw [convert_of_conforms hu] at hw
    cases hw
    cases ha.symm.trans ha'
    cases (hkey .empty).symm.trans (hkey' .empty)
    rfl
  · cases ha.symm.trans hnil

theorem eq_of_linkPlan_write {c : Expr} {via : Option PointerRef} {l : Link}
    (hrun : (linkPlan c via (.write slot u)).run s = (.ok l, s')) : l = .last (.write slot u) := by
  cases hrun
  rfl

/-- Where a slot holds a value, what is linked to it with a value that conforms is a store in
place. -/
theorem Place.link_of_at {c : Expr} {ty : Ty} {l : Link} (hat : pl.At slot)
    (hw : s.heap.value? slot = some w) (hty : pl.type? = some ty) (hu : u.conforms ty = true)
    (hl : (pl.link c u).run s = (.ok l, s')) : l = .last (.write slot u) := by
  cases hat with
  | field hfield =>
    obtain ⟨plan, heap, hplan, hl⟩ := Run.exists_of_run_onHeap_bind hl
    obtain ⟨i, f, x, hfield', hx, rfl⟩ := StructRef.cases_of_planField hplan
    cases hfield.symm.trans hfield'
    rw [type?, hfield] at hty
    cases hty
    rw [convert_of_conforms hu] at hx
    cases hx
    exact eq_of_linkPlan_write hl
  | member ha hkey =>
    obtain ⟨plan, heap, hplan, hl⟩ := Run.exists_of_run_onHeap_bind hl
    cases hty
    obtain rfl := MapRef.planEntry_of_conforms ha hkey hu hplan
    exact eq_of_linkPlan_write hl
  | entry hmap ha hkey =>
    obtain ⟨plan, heap, hplan, hl⟩ := Run.exists_of_run_onHeap_bind hl
    simp only [type?, hmap, Option.some.injEq] at hty
    subst hty
    simp only [planItem, hmap] at hplan
    obtain rfl := MapRef.planEntry_of_conforms ha hkey hu hplan
    exact eq_of_linkPlan_write hl
  | @item collection index a n i harray hindex hposition =>
    obtain ⟨plan, heap, hplan, hl⟩ := Run.exists_of_run_onHeap_bind hl
    simp only [type?, harray, Option.some.injEq] at hty
    subst hty
    simp only [planItem, harray] at hplan
    obtain ⟨n', h₁, hn, hplan⟩ := exists_of_run_bind hplan
    obtain ⟨hindex', rfl⟩ := eq_of_run_ofExcept hn
    cases hindex.symm.trans hindex'
    obtain ⟨i', hi', ⟨-, x, hx, rfl⟩ | ⟨hend, -⟩⟩ := ArrayRef.cases_of_planIndex hplan
    · cases hposition.symm.trans hi'
      rw [convert_of_conforms hu] at hx
      cases hx
      exact eq_of_linkPlan_write hl
    · -- the index after the last one holds nothing
      cases hposition.symm.trans hi'
      rw [← Heap.getElem?_items, hend, List.getElem?_eq_none (Nat.le_refl _)] at hw
      cases hw
  | cell hpointer ha =>
    obtain ⟨slot, heap, hslot, hl⟩ := Run.exists_of_run_onHeap_bind hl
    simp only [pointeeSlot, hpointer] at hslot
    obtain ⟨a', ha', rfl, -⟩ := PointerRef.eq_of_run_slot hslot
    cases ha.symm.trans ha'
    cases hl
    rfl

/-- A character that is spliced in where it is leaves the text as it is. -/
theorem spliceAt_of_getElem? {cs : List Char} {i : Nat} {c : Char} (hc : cs[i]? = some c) :
    spliceAt cs i [c] = cs := by
  obtain ⟨hlt, rfl⟩ := List.getElem?_eq_some_iff.1 hc
  rw [spliceAt, List.append_assoc, List.singleton_append, List.getElem_cons_drop,
    List.take_append_drop]

/-- What is linked to a character with the same character is the same string. -/
theorem Place.link_of_character {e : Expr} {c key : Value} {text : String} {n : Int} {ch : Char}
    {l : Link} (htext : c.unwrap = .str text) (hindex : toIndex key = .ok n)
    (hchar : elementAt text.toList n = .ok ch)
    (hl : ((item c key).link e (.str (String.singleton ch))).run s = (.ok l, s')) :
    l = .pass e (.str text) := by
  obtain ⟨plan, heap, hplan, hl⟩ := Run.exists_of_run_onHeap_bind hl
  simp only [planItem, htext] at hplan
  obtain ⟨n', h₁, hn, hplan⟩ := exists_of_run_bind hplan
  obtain ⟨hindex', rfl⟩ := eq_of_run_ofExcept hn
  cases hindex.symm.trans hindex'
  unfold elementAt at hchar
  split at hchar
  · next b hb =>
    cases hchar
    obtain ⟨i, hi, hget⟩ := Option.bind_eq_some_iff.1 hb
    have hle : i ≤ text.toList.length := Nat.le_of_lt (List.getElem?_eq_some_iff.1 hget).1
    have hspliced : String.ofList (spliceAt text.toList i (String.singleton ch).toList) = text := by
      rw [String.toList_singleton, spliceAt_of_getElem? hget, String.ofList_toList]
    simp only [planCharacter, Value.unwrap, hi, Option.filter_some, hle, decide_true, if_true,
      hspliced] at hplan
    cases hplan
    cases hl
    rfl
  · cases hchar

end TenantScript
