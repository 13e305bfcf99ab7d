import TenantScript.Proofs.Mutations
import TenantScript.Proofs.Session

/-!
Frozen fields. A field that is declared not settable, or that bears the name of an earlier one,
cannot be assigned. Main statement: however a session goes on, such a field of a struct holds what
it held, and a store into a member that names no field, or first one that is not settable, fails
for that reason and changes nothing.
-/

open Relation TenantScript.Action

namespace TenantScript

/-! ### Fields that cannot be assigned -/

namespace StructDef

/-- Whether the field at a position is declared not settable or bears the name of an earlier
field. -/
def Frozen (d : StructDef) (i : Nat) : Prop :=
  ∃ f, d.fields[i]? = some f ∧ (f.settable = false ∨ ∃ g ∈ d.fields.take i, g.name = f.name)

/-- Why a name cannot be assigned: no field bears it, or the first one that does is not
settable. -/
inductive Refuses (d : StructDef) (name : Name) : Cause → Prop
  | unknown (h : ∀ f ∈ d.fields, f.name ≠ name) :
      Refuses d name (.noSuchMember name s!"struct {d.name}")
  | unsettable {i : Nat} {f : FieldDef} (hf : d.fields[i]? = some f) (hname : f.name = name)
      (hfirst : ∀ g ∈ d.fields.take i, g.name ≠ name) (hset : f.settable = false) :
      Refuses d name (.notSettable s!"struct member '{name}'")

/-- The field that a name stands for is not frozen if it is settable. -/
theorem not_frozen {d : StructDef} {name : Name} {i : Nat} {f : FieldDef}
    (hfield : d.field? name = some (i, f)) (hset : f.settable = true) : ¬ d.Frozen i := by
  obtain ⟨hf, hname, hfirst⟩ := FieldDef.find?_eq_some_iff.1 hfield
  rintro ⟨g, hg, hfrozen⟩
  cases hf.symm.trans hg
  rcases hfrozen with hfixed | ⟨g, hmem, hsame⟩
  · exact absurd (hfixed.symm.trans hset) (by decide)
  · exact hfirst g hmem (hsame.trans hname)

end StructDef

/-! ### What steps keep -/

theorem Heap.Sound.value?_field {D : Discipline} {Γ : Layout} {h : Heap} (hs : h.Sound D Γ)
    {r : StructRef} (hr : (Value.struct r).Fits Γ) (i : Nat) :
    h.value? ⟨r.address, .field i⟩ = (h.fields r)[i]? := by
  obtain ⟨s, hget, hdescribes⟩ := hr.storedIn hs r.address rfl
  rw [value?, hget]
  exact (hdescribes.shown? hget (.field i) rfl).symm

namespace Holding

variable {D : Discipline} {w w' : Holding D} {a : Address} {d : StructDef} {i : Nat} {v : Value}

/-- A slot that can be written is not that of a frozen field. -/
theorem Grants.ne_frozen {slot : Slot} (hslot : w.Grants slot v)
    (hd : w.layout.decl? a = some (.struct d)) (hfrozen : d.Frozen i) :
    (⟨a, .field i⟩ : Slot) ≠ slot := by
  rintro rfl
  cases hslot with
  | field hs hfield hset =>
    cases hd.symm.trans hs.fits
    exact StructDef.not_frozen hfield hset hfrozen

/-- No step changes a frozen field. -/
theorem Step.frozen (hstep : w.Step w') (hd : w.layout.decl? a = some (.struct d))
    (hfrozen : d.Frozen i) :
    w'.heap.value? ⟨a, .field i⟩ = w.heap.value? ⟨a, .field i⟩ := by
  cases hstep with
  | look => rfl
  | @make _ made _ hmade =>
    obtain ⟨s, hs, -⟩ := w.sound.exists_storage hd
    have hkept := Heap.get?_push_of_lt made (Heap.lt_size_of_get? hs)
    exact congrArg (·.bind (·.value? (.field i))) hkept
  | write hslot =>
    exact Heap.value?_store_ne (w.sound.hasRoom hslot.takes) (hslot.ne_frozen hd hfrozen)

/-- No run changes a frozen field. -/
theorem frozen_of_le (hle : w ≤ w') (hd : w.layout.decl? a = some (.struct d))
    (hfrozen : d.Frozen i) :
    w'.heap.value? ⟨a, .field i⟩ = w.heap.value? ⟨a, .field i⟩ := by
  refine (induction_on_le (P := fun u => u.layout.decl? a = some (.struct d) ∧
    u.heap.value? ⟨a, .field i⟩ = w.heap.value? ⟨a, .field i⟩) hle (fun hstep ⟨hu, ih⟩ => ?_)
    ⟨hd, rfl⟩).2
  exact ⟨Layout.decl?_eq_some_of_le (layout_le (le_of_step hstep)) hu,
    (hstep.frozen hu hfrozen).trans ih⟩

end Holding

/-! ### Stores that are refused -/

theorem StructRef.run_setField_of_refuses {s : StructRef} {name : Name} {cause : Cause}
    (h : s.defn.Refuses name cause) (v : Value) (heap : Heap) :
    (s.setField name v).run heap = (.error (.ofCause cause), heap) := by
  unfold setField
  cases h with
  | unknown hnone =>
    rw [show s.defn.field? name = none from FieldDef.find?_eq_none_iff.2 hnone]
    rfl
  | @unsettable i f hf hname hfirst hset =>
    rw [show s.defn.field? name = some (i, f) from
      FieldDef.find?_eq_some_iff.2 ⟨hf, hname, hfirst⟩]
    simp only [hset]
    rfl

/-- An assignment to a member that is refused fails once its object has been evaluated. -/
theorem run_assign_of_refuses {ev : Expr → Run Value} {object : Expr} {field : Name} {span : Span}
    {u : Value} {s : StructRef} {via : Option PointerRef} {cause : Cause} {st st' : State}
    (hu : (ev object).run st = (.ok u, st')) (hs : ContainerOf st'.heap u (.struct s, via))
    (h : s.defn.Refuses field cause) (v : Value) :
    (assign ev (.member object field span) v).run st =
      (.error ((EvalError.ofCause cause).orAt span), st') := by
  have hcontainer : (inHeap (memberContainer u) : Run _).run st' = (.ok (.struct s, via), st') := by
    rw [inHeap_eq, Run.run_onHeap, run_memberContainer_iff.2 ⟨rfl, hs⟩]
  have hset : (inHeap (setMember (.struct s) field v) : Run _).run st' =
      (.error (.ofCause cause), st') := by
    rw [inHeap_eq, Run.run_onHeap, setMember, StructRef.run_setField_of_refuses h]
  rw [assign, run_within, run_bind_ok _ hu, run_bind_ok _ hcontainer, run_bind_error _ hset]
  rfl

/-! ### Sessions -/

/-- However a session goes on that was started, a frozen field of a struct holds what it held; and a
field that is refused cannot be stored into, neither through a reference nor by an assignment to a
member, which fail for the reason and leave the heap and the state as they are, whatever is to be
stored. -/
theorem Session.frozen_fields {s s' : Session} (hs : ReflTransGen Session.Step .start s)
    (hsteps : ReflTransGen Session.Step s s') :
    (∀ (r : StructRef) (i : Nat), s.Handles (.struct r) ∨ s'.Handles (.struct r) →
      r.address < s.state.heap.size → r.defn.Frozen i →
        ∃ v, (s.state.heap.fields r)[i]? = some v ∧ (s'.state.heap.fields r)[i]? = some v) ∧
    (∀ (r : StructRef) (name : Name) (cause : Cause) (v : Value) (h : Heap),
      r.defn.Refuses name cause → (r.setField name v).run h = (.error (.ofCause cause), h)) ∧
    ∀ (ev : Expr → Run Value) (object : Expr) (field : Name) (span : Span) (u v : Value)
      (r : StructRef) (via : Option PointerRef) (cause : Cause) (st st' : State),
      (ev object).run st = (.ok u, st') → ContainerOf st'.heap u (.struct r, via) →
        r.defn.Refuses field cause →
          (assign ev (.member object field span) v).run st =
            (.error ((EvalError.ofCause cause).orAt span), st') := by
  obtain ⟨w, hw⟩ := exists_held hs
  obtain ⟨w', hle, hw'⟩ := exists_held_of_steps hsteps hw
  have hheap : s.state.heap = w.heap := hw.meets.heap.symm
  have hheap' : s'.state.heap = w'.heap := hw'.meets.heap.symm
  refine ⟨fun r i hr hlt hfrozen => ?_, fun r name cause v h hrefuses => ?_,
    fun ev object field span u v r via cause st st' hu hcontainer hrefuses => ?_⟩
  · have hfits' : (Value.struct r).Fits w'.layout := hr.elim
      (fun h => (hw.fits_of_handles h).mono (Holding.layout_le hle)) hw'.fits_of_handles
    rw [hheap] at hlt
    rw [hheap, hheap']
    have hfits : (Value.struct r).Fits w.layout := by
      obtain ⟨t, ht⟩ := Option.isSome_iff_exists.1 (Heap.get?_isSome_iff.2 hlt)
      obtain ⟨d, hd, -⟩ := w.sound.exists_decl ht
      cases (Layout.decl?_eq_some_of_le (Holding.layout_le hle) hd).symm.trans hfits'
      exact hd
    have hi : i < (w.heap.fields r).length := by
      obtain ⟨f, hf, -⟩ := hfrozen
      rw [← (w.sound.fields hfits).length_eq]
      exact (List.getElem?_eq_some_iff.1 hf).1
    refine ⟨_, List.getElem?_eq_getElem hi, ?_⟩
    rw [← w'.sound.value?_field hfits', Holding.frozen_of_le hle hfits hfrozen,
      w.sound.value?_field hfits, List.getElem?_eq_getElem hi]
  · exact StructRef.run_setField_of_refuses hrefuses v h
  · exact run_assign_of_refuses hu hcontainer hrefuses v

namespace Session

/-- A struct with a field that is not settable and one that repeats a name. -/
def quota : StructDef :=
  ⟨"Quota", [⟨"owner", .int, false⟩, ⟨"limit", .int, true⟩, ⟨"limit", .int, true⟩]⟩

/-- A struct has been made of ones. -/
def madeQuota : Session :=
  let one := start.learn (.int 1)
  let made := (Command.makeStruct quota [.int 1, .int 1, .int 1]).run.run one.state
  ⟨made.2, fun u => one.known u ∨ made.1 = .ok u⟩

/-- A pointer to the struct is bound to a name. -/
def boundQuota : Session :=
  let made := (madeQuota.push (.cell (.struct ⟨quota, 0⟩))).learn (.pointer ⟨.any, some 1⟩)
  made.withEnv (made.state.env.define "q" (.pointer ⟨.any, some 1⟩))

theorem madeQuota_knows : madeQuota.known (.struct ⟨quota, 0⟩) := .inr (by decide +kernel)

theorem boundQuota_started : ReflTransGen Step start boundQuota := by
  have hone : Step start (start.learn (.int 1)) := .plain rfl
  have hmade : Step (start.learn (.int 1)) madeQuota :=
    .command (.makeStruct quota [.int 1, .int 1, .int 1]) fun v hv => .inr (by
      simpa [Command.values] using hv)
  have hpointed : Step madeQuota _ := .pointer .any madeQuota_knows
  exact (((ReflTransGen.single hone).tail hmade).tail hpointed).tail (.define "q" (.inr rfl))

/-- `q.limit = 7`. -/
def setLimit : Command :=
  .assign 8 (.member (.ident "q" .dummy) "limit" .dummy) (.int 7)

/-- Of two fields of one name the first is assigned, and the others of the struct hold what they
held. -/
theorem frozen_fields_setLimit :
    ∃ s', ReflTransGen Step boundQuota s' ∧
      s'.state.heap.fieldsAt 0 = [.int 1, .int 7, .int 1] ∧
      (∀ i, quota.Frozen i → ∃ v, (boundQuota.state.heap.fieldsAt 0)[i]? = some v ∧
        (s'.state.heap.fieldsAt 0)[i]? = some v) ∧
      quota.Frozen 0 ∧ quota.Frozen 2 ∧
      (StructRef.setField ⟨quota, 0⟩ "owner" (.int 7)).run s'.state.heap =
        (.error (.ofCause (.notSettable "struct member 'owner'")), s'.state.heap) ∧
      (assign (evaluate 8) (.member (.ident "q" .dummy) "burst" .dummy) (.int 7)).run s'.state =
        (.error (.ofCause (.noSuchMember "burst" "struct Quota")), s'.state) := by
  have hseven : Step boundQuota (boundQuota.learn (.int 7)) := .plain rfl
  have hset : Step (boundQuota.learn (.int 7)) _ :=
    .command setLimit fun v hv => .inr (List.mem_singleton.1 hv)
  have hsteps := (ReflTransGen.single hseven).tail hset
  obtain ⟨hkept, hfield, hmember⟩ := frozen_fields boundQuota_started hsteps
  refine ⟨_, hsteps, by decide +kernel, fun i hi => ?_, ⟨_, rfl, .inl rfl⟩,
    ⟨_, rfl, .inr ⟨⟨"limit", .int, true⟩, ?_, rfl⟩⟩, ?_, ?_⟩
  · have hhandles : boundQuota.Handles (.struct ⟨quota, 0⟩) :=
      ⟨.struct ⟨quota, 0⟩, rfl, .inl (.inl madeQuota_knows)⟩
    exact hkept ⟨quota, 0⟩ i (.inl hhandles) (by decide +kernel) hi
  · simp [quota]
  · exact hfield ⟨quota, 0⟩ "owner" _ _ _ (.unsettable (i := 0) rfl rfl (by simp) rfl)
  · refine hmember (evaluate 8) (.ident "q" .dummy) "burst" .dummy (.pointer ⟨.any, some 1⟩)
      (.int 7) ⟨quota, 0⟩ (some ⟨.any, some 1⟩) _ _ _ ?_ ?_ ?_
    · rfl
    · exact .through rfl rfl (by decide)
    · exact .unknown (by decide)

end Session

end TenantScript
