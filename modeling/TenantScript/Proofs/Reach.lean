import Mathlib.Logic.Relation
import TenantScript.Proofs.Growth
import TenantScript.Proofs.Layout

/-!
What can be reached. A storage leads to another one if it holds a value that refers to it. In a
sound state all that can be reached from the bindings was there when they were made, so that it
stays the same while the state grows, and nothing that is made meanwhile can be reached.
-/

namespace TenantScript

open Relation

/-- The storage that a value refers to. -/
def Value.ref? : Value → Option Address
  | array a => some a.address
  | map m => m.address?
  | struct s => some s.address
  | pointer p => p.address?
  | interface v => v.ref?
  | _ => none

/-- A scalar refers to no storage. -/
theorem Value.ref?_of_isScalar {v : Value} (h : v.dynamicType.isScalar = true) :
    v.ref? = none := by
  cases v with
  | nil | bool | int | float | str => rfl
  | array | map | struct | pointer | interface => cases h

@[simp] theorem Value.ref?_unwrap (v : Value) : v.unwrap.ref? = v.ref? := by
  cases v <;> rfl

/-- The values that a storage holds, beside keys, which refer to nothing. -/
def Storage.values : Storage → List Value
  | items vs => vs
  | entries m => m.entries.map (·.2)
  | fields vs => vs
  | cell v => [v]

/-- Whether the storage at `a` holds a value that refers to `b`. -/
def Heap.Leads (h : Heap) (a b : Address) : Prop :=
  ∃ s, h.get? a = some s ∧ ∃ v ∈ s.values, v.ref? = some b

/-- Whether a storage can be reached from a binding. -/
def State.Reaches (st : State) (a : Address) : Prop :=
  ∃ scope ∈ st.env.scopes, ∃ e ∈ scope.entries, ∃ b, e.2.ref? = some b ∧
    ReflTransGen st.heap.Leads b a

/-- Whether what is referred to, in a storage or in a binding, has been made. -/
structure State.Closed (st : State) : Prop where
  heap : ∀ {a b}, st.heap.Leads a b → b < st.heap.size
  env : ∀ scope ∈ st.env.scopes, ∀ e ∈ scope.entries, ∀ a, e.2.ref? = some a → a < st.heap.size

/-- Whether a value refers to nothing from address `n` on. -/
def Value.refersBelow (n : Nat) (v : Value) : Bool := v.ref?.all (· < n)

theorem Value.refersBelow_iff {n : Nat} {v : Value} :
    v.refersBelow n = true ↔ ∀ a, v.ref? = some a → a < n := by
  simp [refersBelow, Option.all_eq_true]

/-- Closedness is a finite check. -/
theorem State.closed_iff {st : State} : st.Closed ↔
    (∀ s ∈ st.heap.storages.toList, ∀ v ∈ s.values, v.refersBelow st.heap.size = true) ∧
      ∀ scope ∈ st.env.scopes, ∀ e ∈ scope.entries, e.2.refersBelow st.heap.size = true := by
  simp only [Value.refersBelow_iff]
  constructor
  · rintro ⟨hheap, henv⟩
    refine ⟨fun s hs v hv a ha => ?_, henv⟩
    obtain ⟨b, hb⟩ := List.mem_iff_getElem?.1 hs
    exact hheap ⟨s, (Array.getElem?_toList ..).symm.trans hb, v, hv, ha⟩
  · rintro ⟨hheap, henv⟩
    refine ⟨?_, henv⟩
    rintro a b ⟨s, hs, v, hv, hb⟩
    exact hheap s (Array.mem_toList_iff.2 (Array.mem_of_getElem? hs)) v hv b hb

instance {st : State} : Decidable st.Closed := decidable_of_iff _ State.closed_iff.symm

/-- No storage that can be reached from a binding leads to itself. -/
def State.Acyclic (st : State) : Prop := ∀ a, st.Reaches a → ¬ TransGen st.heap.Leads a a

variable {D : Discipline} {Γ : Layout}

theorem Value.Fits.ref_lt : {v : Value} → v.Fits Γ → {a : Address} → v.ref? = some a →
    a < Γ.decls.length
  | array a, ⟨n, h⟩, _, e => by
    cases e
    exact (List.getElem?_eq_some_iff.1 h).1
  | map m, h, a, e => (List.getElem?_eq_some_iff.1 (h a e)).1
  | struct s, h, _, e => by
    cases e
    exact (List.getElem?_eq_some_iff.1 h).1
  | pointer p, h, a, e => (List.getElem?_eq_some_iff.1 (h a e)).1
  | interface v, h, _, e => Fits.ref_lt (v := v) h e

theorem Storage.Fits.values {d : Decl} {s : Storage} (h : s.Fits D Γ d) :
    ∀ v ∈ s.values, v.Fits Γ := by
  intro v hv
  cases s with
  | items vs =>
    cases d with
    | array elem fixed n => exact (h.2 v hv).1
    | _ => exact h.elim
  | entries m =>
    cases d with
    | map key value =>
      obtain ⟨e, he, rfl⟩ := List.mem_map.1 hv
      exact (h e he).2.1
    | _ => exact h.elim
  | fields vs =>
    cases d with
    | struct defn =>
      obtain ⟨i, hi, rfl⟩ := List.getElem_of_mem hv
      have hall : List.Forall₂ (fun f v => Value.Suits D Γ f.ty v) defn.fields vs := h
      exact ((List.forall₂_iff_get.1 hall).2 i (hall.length_eq ▸ hi) hi).1
    | _ => exact h.elim
  | cell w =>
    cases d with
    | cell =>
      obtain rfl := List.mem_singleton.1 hv
      exact h
    | _ => exact h.elim

theorem Heap.Sound.exists_decl {h : Heap} (hs : h.Sound D Γ) {a : Address} {s : Storage}
    (hget : h.get? a = some s) : ∃ d, Γ.decl? a = some d ∧ s.Fits D Γ d := by
  have hlt : a < Γ.decls.length := hs.size ▸ lt_size_of_get? hget
  obtain ⟨d, hd⟩ : ∃ d, Γ.decl? a = some d := ⟨_, List.getElem?_eq_getElem hlt⟩
  exact ⟨d, hd, hs.fits hd hget⟩

theorem Heap.Sound.leads_lt {h : Heap} (hs : h.Sound D Γ) {a b : Address} (hab : h.Leads a b) :
    b < h.size := by
  obtain ⟨s, hget, v, hv, href⟩ := hab
  obtain ⟨d, -, hfits⟩ := hs.exists_decl hget
  exact hs.size ▸ (hfits.values v hv).ref_lt href

theorem State.Sound.closed {st : State} (hst : st.Sound D Γ) : st.Closed where
  heap := hst.heap.leads_lt
  env scope hscope e he _ ha := hst.heap.size ▸ (hst.env scope hscope e he).ref_lt ha

theorem Heap.leads_iff_of_le {h h' : Heap} (hle : h ≤ h') {a b : Address} (ha : a < h.size) :
    h'.Leads a b ↔ h.Leads a b := by
  rw [Leads, Leads, get?_eq_of_le hle ha]

theorem State.Sound.reaches_lt {st : State} (hst : st.Sound D Γ) {a : Address}
    (ha : st.Reaches a) : a < st.heap.size := by
  obtain ⟨scope, hscope, e, he, b, hb, hba⟩ := ha
  induction hba with
  | refl => exact hst.heap.size ▸ (hst.env scope hscope e he).ref_lt hb
  | tail _ hstep _ => exact hst.heap.leads_lt hstep

/-- What a binding refers to can be reached. -/
theorem State.reaches_of_lookup? {st : State} {name : Name} {v : Value} {a : Address}
    (hv : st.env.lookup? name = some v) (ha : v.ref? = some a) : st.Reaches a := by
  obtain ⟨scope, hscope, he⟩ := Environment.exists_entry_of_lookup? hv
  exact ⟨scope, hscope, (name, v), he, a, ha, .refl⟩

theorem State.Reaches.tail {st : State} {a b : Address} (ha : st.Reaches a)
    (hab : st.heap.Leads a b) : st.Reaches b := by
  obtain ⟨scope, hscope, e, he, c, hc, hca⟩ := ha
  exact ⟨scope, hscope, e, he, c, hc, hca.tail hab⟩

/-- A state reaches, also after it has grown, what it reached before. -/
theorem State.Sound.reaches_of_le {st st' : State} (hst : st.Sound D Γ) (hle : st ≤ st')
    {a : Address} (ha : st'.Reaches a) : st.Reaches a := by
  obtain ⟨scope, hscope, e, he, b, hb, hba⟩ := ha
  rw [hle.1] at hscope
  induction hba with
  | refl => exact ⟨scope, hscope, e, he, b, hb, .refl⟩
  | tail _ hstep ih =>
    exact ih.tail ((Heap.leads_iff_of_le hle.2.2 (hst.reaches_lt ih)).1 hstep)

/-- A path from a storage that can be reached is one in the state before it grew. -/
theorem State.Sound.transGen_of_le {st st' : State} (hst : st.Sound D Γ) (hle : st ≤ st')
    {a b : Address} (ha : st.Reaches a) (hab : TransGen st'.heap.Leads a b) :
    TransGen st.heap.Leads a b ∧ st.Reaches b := by
  induction hab with
  | single hstep =>
    have hstep := (Heap.leads_iff_of_le hle.2.2 (hst.reaches_lt ha)).1 hstep
    exact ⟨.single hstep, ha.tail hstep⟩
  | tail _ hstep ih =>
    have hstep := (Heap.leads_iff_of_le hle.2.2 (hst.reaches_lt ih.2)).1 hstep
    exact ⟨ih.1.tail hstep, ih.2.tail hstep⟩

theorem State.Acyclic.of_le {st st' : State} (hst : st.Sound D Γ) (hle : st ≤ st')
    (h : st.Acyclic) : st'.Acyclic := by
  intro a ha hcycle
  have ha := hst.reaches_of_le hle ha
  exact h a ha (hst.transGen_of_le hle ha hcycle).1

end TenantScript
