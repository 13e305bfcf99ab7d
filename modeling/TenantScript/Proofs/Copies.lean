import TenantScript.Proofs.PlaceSlots
import TenantScript.Proofs.Ranges

/-!
What a path leads to. The value of an access path that starts at a name refers to a storage that
was there before, or to a copy: the array that the evaluation of a slice makes, or the empty array
that stands for a missing entry. A copy leads only to storages that were there before, so that
every further access comes back to these.
-/

open TenantScript.Action

namespace TenantScript

variable {D : Discipline} {Γ : Layout} {limit : Nat} {st : State}

/-! ### Access paths -/

namespace Expr

/-- What an access is of. -/
def base? : Expr → Option Expr
  | member object _ _ => some object
  | item collection _ _ => some collection
  | slice collection _ _ _ => some collection
  | deref pointer _ => some pointer
  | _ => none

/-- Whether an access path starts at a name. -/
def isRooted : Expr → Bool
  | ident _ _ => true
  | member object _ _ => object.isRooted
  | item collection _ _ => collection.isRooted
  | slice collection _ _ _ => collection.isRooted
  | deref pointer _ => pointer.isRooted
  | _ => false

/-- Whether an access path goes through a slice. -/
def hasSlice : Expr → Bool
  | member object _ _ => object.hasSlice
  | item collection _ _ => collection.hasSlice
  | slice _ _ _ _ => true
  | deref pointer _ => pointer.hasSlice
  | _ => false

end Expr

/-! ### Copies -/

/-- Whether a storage was made when there were `n` storages or more, and leads only to the first
`n`. -/
structure Heap.IsCopy (h : Heap) (n : Nat) (a : Address) : Prop where
  le : n ≤ a
  lt : a < h.size
  leads : ∀ b, h.Leads a b → b < n

/-- Whether a value refers to one of the first `n` storages or to a copy, which is empty unless the
value is that of a slice. -/
def Value.Lent (n : Nat) (h : Heap) (sliced : Prop) (w : Value) : Prop :=
  ∀ a, w.ref? = some a → a < n ∨ h.IsCopy n a ∧ (sliced ∨ h.get? a = some (.items []))

namespace Value.Lent

variable {n : Nat} {h h' : Heap} {sliced : Prop} {u w : Value} {a b : Address}

theorem mono (hle : h ≤ h') (hw : w.Lent n h sliced) : w.Lent n h' sliced := by
  intro a ha
  rcases hw a ha with hlt | ⟨hcopy, hempty⟩
  · exact .inl hlt
  · refine .inr ⟨⟨hcopy.le, Nat.lt_of_lt_of_le hcopy.lt (Heap.size_le_of_le hle),
      fun b hb => ?_⟩, hempty.imp_right (hle a _)⟩
    exact hcopy.leads b ((Heap.leads_iff_of_le hle hcopy.lt).1 hb)

theorem imp {sliced' : Prop} (himp : sliced → sliced') (hw : w.Lent n h sliced) :
    w.Lent n h sliced' := by
  intro a ha
  exact (hw a ha).imp_right fun hcopy => ⟨hcopy.1, hcopy.2.imp_left himp⟩

/-- What is referred to by what a lent value refers to was there before. -/
theorem lt_of_leads (hst : st.Sound D Γ) (hle : st.heap ≤ h) (hu : u.Lent st.heap.size h sliced)
    (ha : u.ref? = some a) (hab : h.Leads a b) : b < st.heap.size := by
  rcases hu a ha with hlt | ⟨hcopy, -⟩
  · exact hst.heap.leads_lt ((Heap.leads_iff_of_le hle hlt).1 hab)
  · exact hcopy.leads b hab

theorem of_lt (hlt : ∀ a, w.ref? = some a → a < n) : w.Lent n h sliced :=
  fun a ha => .inl (hlt a ha)

/-- A read of what a lent value refers to gives a lent value. -/
theorem of_peek {x : Action Heap Value} (hst : st.Sound D Γ) (hle : st.heap ≤ h)
    (hu : u.Lent st.heap.size h sliced) (hpeek : Peek x h u w h') :
    w.Lent st.heap.size h' False := by
  cases hpeek with
  | found _ hleads =>
    refine of_lt fun b hb => ?_
    obtain ⟨a, ha, hab⟩ := hleads b hb
    exact hu.lt_of_leads hst hle ha hab
  | made elem =>
    intro a ha
    cases ha
    have hget := Heap.get?_push_self h (.items [])
    refine .inr ⟨⟨Heap.size_le_of_le hle, Heap.lt_size_of_get? hget, fun b hb => ?_⟩, .inr hget⟩
    obtain ⟨s, hs, v, hv, -⟩ := hb
    cases hget.symm.trans hs
    cases hv

theorem of_readMember {field : Name} (hst : st.Sound D Γ) (hle : st.heap ≤ h)
    (hu : u.Lent st.heap.size h sliced) (hrun : (readMember u field).run h = (.ok w, h')) :
    w.Lent st.heap.size h' False := by
  obtain ⟨container, h₁, hsource, hmember⟩ := exists_of_run_bind hrun
  unfold memberSource at hsource
  split at hsource
  · next p hp =>
    obtain ⟨hload, rfl⟩ := PointerRef.pointee_of_load hsource
    have hcontainer : container.Lent st.heap.size h₁ False := of_lt fun b hb => by
      obtain ⟨a, ha, hab⟩ := Heap.leads_of_load hload hb
      refine hu.lt_of_leads hst hle ?_ hab
      rw [← u.ref?_unwrap, hp]
      exact ha
    exact hcontainer.of_peek hst hle (memberOf_peek hmember)
  · cases hsource
    have hcontainer : u.unwrap.Lent st.heap.size h sliced := fun a ha =>
      hu a ((u.ref?_unwrap).symm.trans ha)
    exact hcontainer.of_peek hst hle (memberOf_peek hmember)

theorem of_readSlice {i j : Option Int} (hst : st.Sound D Γ) (hle : st.heap ≤ h)
    (hu : u.Lent st.heap.size h sliced) (hrun : (readSlice u i j).run h = (.ok w, h')) :
    w.Lent st.heap.size h' True := by
  cases hc : u.unwrap with
  | array a =>
    obtain ⟨part, hpart, rfl, rfl⟩ := array_of_readSlice hc hrun
    have href : u.ref? = some a.address := by rw [← u.ref?_unwrap, hc]; rfl
    intro b hb
    cases hb
    have hget := Heap.get?_push_self h (.items part)
    refine .inr ⟨⟨Heap.size_le_of_le hle, Heap.lt_size_of_get? hget, fun c hcopy => ?_⟩,
      .inl trivial⟩
    obtain ⟨s, hs, v, hv, hvc⟩ := hcopy
    cases hget.symm.trans hs
    exact hu.lt_of_leads hst hle href
      (Heap.leads_of_mem_items (mem_of_elementsIn hpart hv) hvc)
  | str text =>
    simp only [readSlice, hc] at hrun
    obtain ⟨cs, h₁, -, hrun⟩ := exists_of_run_bind hrun
    cases hrun
    exact fun a ha => nomatch ha
  | _ =>
    simp only [readSlice, hc] at hrun
    cases hrun

end Value.Lent

/-- The value of an access path that starts at a name is lent. -/
theorem lent_of_run (hst : st.Sound D Γ) : (e : Expr) → e.isRooted = true →
    e.isAssignFree = true → {room : Nat} → {w : Value} → {s s' : State} →
      (evaluateWithin limit room e).run s = (.ok w, s') → s.env = st.env → st.heap ≤ s.heap →
        w.Lent st.heap.size s'.heap e.IsSlice
  | .ident name span, _, _, room, w, s, s', hrun, henv, hle => by
    obtain ⟨room, s₁, rfl, hnode, rfl⟩ := node_of_evaluateWithin hrun
    obtain ⟨v?, s₂, hv, hnode⟩ := exists_of_run_bind hnode
    cases hv
    obtain ⟨hlookup, rfl⟩ := eq_of_run_require hnode
    have hbound : st.env.lookup? name = some w := henv ▸ hlookup
    exact .of_lt fun a ha => hst.reaches_lt (State.reaches_of_lookup? hbound ha)
  | .member object field span, hroot, hfree, room, w, s, s', hrun, henv, hle => by
    obtain ⟨room, s₁, rfl, hnode, rfl⟩ := node_of_evaluateWithin hrun
    obtain ⟨o, s₂, ho, hnode⟩ := exists_of_run_bind hnode
    obtain ⟨heap, hread, rfl⟩ := Run.exists_of_run_onHeap hnode
    have hle₂ := (evaluateWithin_adds limit room (e := object) hfree).le_of_run ho
    have hlent := lent_of_run hst object hroot hfree ho henv hle
    exact (hlent.of_readMember hst (hle.trans hle₂.2.2) hread).imp False.elim
  | .item collection index span, hroot, hfree, room, w, s, s', hrun, henv, hle => by
    obtain ⟨room, s₁, rfl, hnode, rfl⟩ := node_of_evaluateWithin hrun
    rw [Expr.isAssignFree, Bool.and_eq_true] at hfree
    obtain ⟨c, s₂, hc, hnode⟩ := exists_of_run_bind hnode
    obtain ⟨i, s₃, hi, hnode⟩ := exists_of_run_bind hnode
    obtain ⟨heap, hread, rfl⟩ := Run.exists_of_run_onHeap hnode
    have hle₂ := (evaluateWithin_adds limit room hfree.1).le_of_run hc
    have hle₃ := (evaluateWithin_adds limit room hfree.2).le_of_run hi
    -- the index is evaluated after the collection, and may make storages in between
    have hlent := (lent_of_run hst collection hroot hfree.1 hc henv hle).mono hle₃.2.2
    have hle' := hle.trans (hle₂.2.2.trans hle₃.2.2)
    exact (hlent.of_peek hst hle' (readItem_peek hread)).imp False.elim
  | .slice collection low high span, hroot, hfree, room, w, s, s', hrun, henv, hle => by
    obtain ⟨room, s₁, rfl, hnode, rfl⟩ := node_of_evaluateWithin hrun
    simp only [Expr.isAssignFree, Bool.and_eq_true, Expr.isAssignFreeBound_iff] at hfree
    obtain ⟨c, s₂, i, s₃, j, s₄, heap, hc, hi, hj, hread, rfl⟩ := parts_of_slice hnode
    have hev (e : Expr) (he : e.isAssignFree = true) := evaluateWithin_adds limit room he
    have hle₂ := (hev collection hfree.1.1).le_of_run hc
    have hle₃ := le_of_bounds hev hfree.1.2 hfree.2 hi hj
    have hlent := (lent_of_run hst collection hroot hfree.1.1 hc henv hle).mono hle₃.2.2
    have hle' := hle.trans (hle₂.2.2.trans hle₃.2.2)
    exact (hlent.of_readSlice hst hle' hread).imp fun _ => ⟨_, _, _, _, rfl⟩
  | .deref pointer span, hroot, hfree, room, w, s, s', hrun, henv, hle => by
    obtain ⟨room, s₁, rfl, hnode, rfl⟩ := node_of_evaluateWithin hrun
    obtain ⟨p, s₂, hp, hnode⟩ := exists_of_run_bind hnode
    obtain ⟨heap, hread, rfl⟩ := Run.exists_of_run_onHeap hnode
    have hle₂ := (evaluateWithin_adds limit room (e := pointer) hfree).le_of_run hp
    have hlent := lent_of_run hst pointer hroot hfree hp henv hle
    exact (hlent.of_peek hst (hle.trans hle₂.2.2) (readPointee_peek hread)).imp False.elim

/-! ### Stores into copies -/

section Stores

variable {q b : Expr} {v u w : Value} {slot : Slot} {s s' : State}

/-- A store goes into the storage that the base of the target refers to, or into one that lies
behind the pointer that it is. -/
theorem base_of_write {ev : Expr → Run Value} (hev : ∀ e, e.isAssignFree = true → (ev e).Adds)
    (hq : q.isAssignFree = true)
    (h : (link ev q v).run s = (.ok (.last (.write slot u)), s')) :
    ∃ b w s₁, q.base? = some b ∧ (ev b).run s = (.ok w, s₁) ∧ s₁ ≤ s' ∧
      (w.ref? = some slot.address ∨
        ∃ p a, w.unwrap = .pointer p ∧ w.ref? = some a ∧ s₁.heap.Leads a slot.address) := by
  cases q with
  | ident name span =>
    obtain ⟨env, s₁, -, h⟩ := exists_of_run_bind h
    split at h <;> cases h
  | slice collection low high span =>
    obtain ⟨a, start, values, hl⟩ := link_slice ev ⟨_, _, _, _, rfl⟩ v s _ (congrArg Prod.fst h)
    cases hl
  | deref pointer span =>
    obtain ⟨w, s₁, hw, h⟩ := exists_of_run_bind h
    obtain ⟨cell, heap, hcell, h⟩ := Run.exists_of_run_onHeap_bind h
    cases h
    have hle := (Run.onHeap_adds (pointeeSlot_adds w)).le s₁
    rw [Run.run_onHeap, hcell] at hle
    exact ⟨pointer, w, s₁, rfl, hw, hle, .inl (pointeeSlot_at hcell).ref?⟩
  | member object field span =>
    obtain ⟨o, s₁, ho, h⟩ := exists_of_run_bind h
    obtain ⟨found, heap, hfound, h⟩ := Run.exists_of_run_onHeap_bind h
    obtain ⟨rfl, hcontainer⟩ := run_memberContainer_iff.1 hfound
    obtain ⟨plan, heap, hplan, h⟩ := Run.exists_of_run_onHeap_bind h
    obtain ⟨rfl, hslot⟩ := slot_of_linkPlan h
    have hle : s₁ ≤ { s₁ with heap } := ⟨rfl, rfl, (planMember_adds _ _ _).le_of_run hplan⟩
    refine ⟨object, o, s₁, rfl, ho, hle, ?_⟩
    have href := o.ref?_unwrap
    rcases hslot with rfl | ⟨p, a, hvia, ha, rfl⟩
    -- in place: the container is the object, or it is what the object points to
    · have hat : (Place.member found.1 found.2 field).At slot := planMember_at hplan
      have hfound := hat.ref?
      cases hcontainer with
      | direct hnil hpointer => exact .inl (href.symm.trans hfound)
      | @through p pointee hp hload hnil =>
        obtain ⟨a, ha, hleads⟩ := Heap.leads_of_load hload hfound
        rw [hp] at href
        exact .inr ⟨p, a, hp, href.symm.trans ha, hleads⟩
    -- a replacement for what the object points to, into the cell that it points to
    · cases hcontainer with
      | direct hnil hpointer => cases hvia
      | through hp hload hnil =>
        cases hvia
        rw [hp] at href
        exact .inl (href.symm.trans ha)
  | item collection index span =>
    rw [Expr.isAssignFree, Bool.and_eq_true] at hq
    obtain ⟨c, s₁, hc, h⟩ := exists_of_run_bind h
    obtain ⟨key, s₂, hkey, h⟩ := exists_of_run_bind h
    obtain ⟨plan, heap, hplan, h⟩ := Run.exists_of_run_onHeap_bind h
    obtain ⟨rfl, hslot⟩ := slot_of_linkPlan h
    have hle : s₂ ≤ { s₂ with heap } := ⟨rfl, rfl, (planItem_adds _ _ _).le_of_run hplan⟩
    refine ⟨collection, c, s₁, rfl, hc, ((hev index hq.2).le_of_run hkey).trans hle, .inl ?_⟩
    rcases hslot with rfl | ⟨p, a, hvia, -, -⟩
    · exact (planItem_at hplan).ref?
    · cases hvia
  | _ => cases h

/-- The value of a slice refers to nothing that was there before. -/
theorem ref_of_slice {limit room : Nat} (hb : b.IsSlice) (hfree : b.isAssignFree = true)
    (hrun : (evaluateWithin limit room b).run s = (.ok w, s')) :
    (∀ a, w.ref? = some a → s.heap.size ≤ a) ∧ ∀ p, w.unwrap ≠ .pointer p := by
  obtain ⟨collection, low, high, span, rfl⟩ := hb
  obtain ⟨room, s₁, rfl, hnode, rfl⟩ := node_of_evaluateWithin hrun
  simp only [Expr.isAssignFree, Bool.and_eq_true, Expr.isAssignFreeBound_iff] at hfree
  obtain ⟨c, s₂, i, s₃, j, s₄, heap, hc, hi, hj, hread, rfl⟩ := parts_of_slice hnode
  have hev (e : Expr) (he : e.isAssignFree = true) := evaluateWithin_adds limit room he
  have hle₂ := (hev collection hfree.1.1).le_of_run hc
  have hle₃ := le_of_bounds hev hfree.1.2 hfree.2 hi hj
  have hsize := Heap.size_le_of_le (hle₂.2.2.trans hle₃.2.2)
  cases hu : c.unwrap with
  | array a =>
    obtain ⟨part, -, rfl, -⟩ := array_of_readSlice hu hread
    refine ⟨fun a ha => ?_, fun p hp => by cases hp⟩
    cases ha
    exact hsize
  | str text =>
    simp only [readSlice, hu] at hread
    obtain ⟨cs, h₁, -, hread⟩ := exists_of_run_bind hread
    cases hread
    exact ⟨fun a ha => (by cases ha), fun p hp => (by cases hp)⟩
  | _ =>
    simp only [readSlice, hu] at hread
    cases hread

theorem Expr.isRooted_base (hb : q.base? = some b) (hq : q.isRooted = true) :
    b.isRooted = true := by
  cases q <;> cases hb <;> exact hq

theorem Expr.isAssignFree_base (hb : q.base? = some b) (hq : q.isAssignFree = true) :
    b.isAssignFree = true := by
  cases q <;> simp_all [base?, isAssignFree]

/-- Whether a target is an access of a slice. -/
def Expr.OfSlice (q : Expr) : Prop := ∃ b, q.base? = some b ∧ b.IsSlice

/-- A store into what is directly in a slice goes into a copy. -/
theorem size_le_of_write (hq : q.isAssignFree = true) (hslice : q.OfSlice)
    (h : (link (evaluate limit) q v).run s = (.ok (.last (.write slot u)), s')) :
    s.heap.size ≤ slot.address := by
  obtain ⟨b, hb, hslice⟩ := hslice
  obtain ⟨b', w, s₁, hb', hw, -, href⟩ := base_of_write (fun _ he => evaluate_adds limit he) hq h
  cases hb.symm.trans hb'
  obtain ⟨hfresh, hpointer⟩ := ref_of_slice hslice (Expr.isAssignFree_base hb hq) hw
  rcases href with href | ⟨p, -, hp, -⟩
  · exact hfresh _ href
  · exact (hpointer p hp).elim

/-- A store that goes into a copy, on a path that starts at a name, is directly in a slice. -/
theorem lt_size_of_write (hst : st.Sound D Γ) (hle : st ≤ s) (hroot : q.isRooted = true)
    (hq : q.isAssignFree = true) (hroom : s'.heap.HasRoom slot)
    (h : (link (evaluate limit) q v).run s = (.ok (.last (.write slot u)), s')) :
    slot.address < st.heap.size ∨ q.OfSlice := by
  obtain ⟨b, w, s₁, hb, hw, hle₁, href⟩ := base_of_write (fun _ he => evaluate_adds limit he) hq h
  have hbfree := Expr.isAssignFree_base hb hq
  have hlent := lent_of_run hst b (Expr.isRooted_base hb hroot) hbfree hw hle.1 hle.2.2
  have hle' := hle.2.2.trans ((evaluate_adds limit hbfree).le_of_run hw).2.2
  rcases href with href | ⟨p, a, -, ha, hleads⟩
  · rcases hlent _ href with hlt | ⟨-, hsliced | hempty⟩
    · exact .inl hlt
    · exact .inr ⟨b, hb, hsliced⟩
    · -- nothing can be stored into an empty array
      exact (Heap.not_hasRoom_of_empty (hle₁.2.2 _ _ hempty) hroom).elim
  · exact .inl (hlent.lt_of_leads hst hle' ha hleads)

section Ranges

variable {a : ArrayRef} {start : Nat} {values : List Value}

/-- A store over a range of what is directly in a slice goes into a copy. -/
theorem size_le_of_overwrite (hq : q.isAssignFree = true) (hslice : q.OfSlice)
    (h : (link (evaluate limit) q v).run s = (.ok (.last (.overwrite a start values)), s')) :
    s.heap.size ≤ a.address := by
  obtain ⟨b, hb, hslice⟩ := hslice
  obtain ⟨collection, low, high, span, rfl⟩ := link_overwrite h
  cases hb
  obtain ⟨w, s₁, i, s₂, j, s₃, heap, hw, ha, -⟩ := range_of_overwrite h
  have hfree : b.isAssignFree = true := Expr.isAssignFree_base rfl hq
  refine (ref_of_slice hslice hfree hw).1 a.address ?_
  rw [← w.ref?_unwrap, ha]
  rfl

/-- A store over a range that goes into a copy, on a path that starts at a name, is directly in a
slice, or it stores nothing. -/
theorem lt_size_of_overwrite (hst : st.Sound D Γ) (hle : st ≤ s) (hroot : q.isRooted = true)
    (hq : q.isAssignFree = true)
    (h : (link (evaluate limit) q v).run s = (.ok (.last (.overwrite a start values)), s'))
    (hrange : start + values.length ≤ (s'.heap.items a).length) :
    a.address < st.heap.size ∨ q.OfSlice ∨ values = [] := by
  obtain ⟨collection, low, high, span, rfl⟩ := link_overwrite h
  obtain ⟨w, s₁, i, s₂, j, s₃, heap, hw, ha, hi, hj, hplan, rfl⟩ := range_of_overwrite h
  have hlent := lent_of_run hst collection hroot (Expr.isAssignFree_base rfl hq) hw hle.1 hle.2.2
  have href : w.ref? = some a.address := by rw [← w.ref?_unwrap, ha]; rfl
  rcases hlent _ href with hlt | ⟨-, hsliced | hempty⟩
  · exact .inl hlt
  · exact .inr (.inl ⟨collection, rfl, hsliced⟩)
  · simp only [Expr.isAssignFree, Bool.and_eq_true, Expr.isAssignFreeBound_iff] at hq
    have hle₂ := le_of_boundsOr (fun e he => evaluate_adds limit he) hq.1.2 hq.2 hi hj
    have hle₃ := (a.planRange_adds _ _ _).le_of_run hplan
    have hitems : heap.items a = [] := Heap.items_of_le (hle₂.2.2.trans hle₃) hempty
    rw [hitems, List.length_nil] at hrange
    exact .inr (.inr (List.length_eq_zero_iff.1 (by omega)))

end Ranges

end Stores

end TenantScript
