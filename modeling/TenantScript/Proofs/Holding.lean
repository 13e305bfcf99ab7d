import TenantScript.Proofs.Reach

/-!
What is held. A holding is a sound heap with the references to it that a script and its host hold.
It goes on in steps: a reference that is held gives what its storage holds, a storage can be made of
what is held, and a slot can be written that a reference grants. Nothing else is to be had, so that
what every step keeps is kept by every run.
-/

namespace TenantScript

open Relation

/-- A heap, how its storages are declared, and the values that are held of it. -/
structure Holding (D : Discipline) where
  layout : Layout
  heap : Heap
  held : Value → Prop
  sound : heap.Sound D layout
  fits : ∀ v, held v → v.Fits layout

@[simp] theorem Value.bare_unwrap (v : Value) : v.unwrap.bare = v.bare := by
  cases v <;> rfl

@[simp] theorem Value.bare_bare : (v : Value) → v.bare.bare = v.bare
  | interface v => bare_bare v
  | nil | bool _ | int _ | float _ | str _ | array _ | map _ | struct _ | pointer _ => rfl

@[simp] theorem Value.ref?_bare : (v : Value) → v.bare.ref? = v.ref?
  | interface v => ref?_bare v
  | nil | bool _ | int _ | float _ | str _ | array _ | map _ | struct _ | pointer _ => rfl

@[simp] theorem MapKey.ref?_toValue (k : MapKey) : k.toValue.ref? = none := by
  cases k <;> rfl

theorem Value.Fits.of_bare {Γ : Layout} : {v : Value} → v.bare.Fits Γ → v.Fits Γ
  | interface v, h => Fits.of_bare (v := v) h
  | array _, h | map _, h | struct _, h | pointer _, h => h
  | nil, _ | bool _, _ | int _, _ | float _, _ | str _, _ => trivial

theorem Value.fits_of_ref? {Γ : Layout} : {v : Value} → v.ref? = none → v.Fits Γ
  | interface v, h => fits_of_ref? (v := v) h
  | map _, h => fun _ ha => nomatch h.symm.trans ha
  | pointer _, h => fun _ ha => nomatch h.symm.trans ha
  | nil, _ | bool _, _ | int _, _ | float _, _ | str _, _ => trivial

namespace Holding

variable {D : Discipline} {w w' : Holding D} {v : Value}

/-- Whether a value is at hand: it refers to nothing, or it is held behind its interfaces. -/
def Has (w : Holding D) (v : Value) : Prop := ∀ a, v.ref? = some a → w.held v.bare

/-- Whether a value is at hand and is one that a type admits. -/
def Supplies (w : Holding D) (ty : Ty) (v : Value) : Prop := w.Has v ∧ D.Admits ty v

theorem has_of_ref? (h : v.ref? = none) : w.Has v := fun _ e => nomatch h.symm.trans e

theorem has_nil : w.Has .nil := has_of_ref? rfl

theorem has_key (k : MapKey) : w.Has k.toValue := has_of_ref? k.ref?_toValue

theorem has_interface : w.Has (.interface v) ↔ w.Has v := Iff.rfl

theorem Has.unwrap (h : w.Has v) : w.Has v.unwrap := by
  intro a ha
  rw [Value.bare_unwrap]
  exact h a (v.ref?_unwrap ▸ ha)

theorem Has.bare (h : w.Has v) : w.Has v.bare := by
  intro a ha
  rw [Value.bare_bare]
  exact h a (v.ref?_bare ▸ ha)

theorem Has.fits (h : w.Has v) : v.Fits w.layout := by
  cases ha : v.ref? with
  | none => exact Value.fits_of_ref? ha
  | some a => exact .of_bare (w.fits _ (h a ha))

theorem Supplies.suits {ty : Ty} (h : w.Supplies ty v) : v.Suits D w.layout ty := ⟨h.1.fits, h.2⟩

/-! ### Steps -/

/-- The values that the storages hold to which values at hand refer, and read-only references in
place of others. -/
inductive Offers (w : Holding D) : Value → Prop
  | stored {u v : Value} {a : Address} {s : Storage} (hu : w.Has u) (ha : u.ref? = some a)
    (hs : w.heap.get? a = some s) (hv : v ∈ s.values) : Offers w v
  | readOnly {a : ArrayRef} (ha : w.Has (.array a)) : Offers w (.array a.asReadOnly)

theorem Offers.fits (h : w.Offers v) : v.Fits w.layout := by
  cases h with
  | stored _ _ hs hv =>
    obtain ⟨d, -, hfits⟩ := w.sound.exists_decl hs
    exact hfits.values v hv
  | readOnly ha => exact ha.fits

/-- The storages that can be made of values at hand, with the references to them. -/
inductive Makes (w : Holding D) : Decl → Storage → Value → Prop
  | array {vs : List Value} (elem : Ty) (fixed : Bool) (h : ∀ v ∈ vs, w.Supplies elem v) :
    Makes w (.array elem fixed vs.length) (.items vs) (.array ⟨elem, fixed, false, w.heap.size⟩)
  | map {m : SortedMap MapKey Value} (key value : Ty)
    (h : ∀ e ∈ m.entries, D.Admits key e.1.toValue ∧ w.Supplies value e.2) :
    Makes w (.map key value) (.entries m) (.map ⟨key, value, some w.heap.size⟩)
  | struct {vs : List Value} (defn : StructDef)
    (h : List.Forall₂ (fun f v => w.Supplies (FieldDef.ty f) v) defn.fields vs) :
    Makes w (.struct defn) (.fields vs) (.struct ⟨defn, w.heap.size⟩)
  | pointer {v : Value} (elem : Ty) (h : w.Has v) :
    Makes w .cell (.cell v) (.pointer ⟨elem, some w.heap.size⟩)

theorem Makes.storage_fits {d : Decl} {s : Storage} (h : w.Makes d s v) :
    s.Fits D w.layout d := by
  cases h with
  | array elem fixed h => exact ⟨rfl, fun v hv => (h v hv).suits⟩
  | map key value h => exact fun e he => ⟨(h e he).1, (h e he).2.suits⟩
  | struct defn h => exact h.imp fun _ _ hv => hv.suits
  | pointer elem h => exact h.fits

theorem Makes.ref? {d : Decl} {s : Storage} (h : w.Makes d s v) : v.ref? = some w.heap.size := by
  cases h <;> rfl

theorem Makes.bare {d : Decl} {s : Storage} (h : w.Makes d s v) : v.bare = v := by
  cases h <;> rfl

/-- All that a new storage holds was at hand. -/
theorem Makes.has {d : Decl} {s : Storage} (h : w.Makes d s v) : ∀ u ∈ s.values, w.Has u := by
  intro u hu
  cases h with
  | array elem fixed h => exact (h u hu).1
  | map key value h =>
    obtain ⟨e, he, rfl⟩ := List.mem_map.1 hu
    exact (h e he).2.1
  | struct defn h =>
    obtain ⟨i, hi, rfl⟩ := List.getElem_of_mem hu
    exact ((List.forall₂_iff_get.1 h).2 i (h.length_eq ▸ hi) hi).1
  | pointer elem h =>
    obtain rfl := List.mem_singleton.1 hu
    exact h

theorem Makes.fits {d : Decl} {s : Storage} (h : w.Makes d s v) :
    v.Fits (w.layout.push d) := by
  have hd : (w.layout.push d).decl? w.heap.size = some d := by
    rw [← w.sound.size]
    exact w.layout.decl?_push_self d
  cases h with
  | array elem fixed h => exact ⟨_, hd⟩
  | struct defn h => exact hd
  | map key value h =>
    intro a ha
    cases ha
    exact hd
  | pointer elem h =>
    intro a ha
    cases ha
    exact hd

/-- The slots that can be written through references at hand, and the values that can be written
there. -/
inductive Grants (w : Holding D) : Slot → Value → Prop
  | item {a : ArrayRef} {i : Nat} {v : Value} (ha : w.Has (.array a))
    (hwritable : a.readOnly = false) (hi : i < (w.heap.items a).length)
    (hv : w.Supplies a.elem v) : Grants w ⟨a.address, .item i⟩ v
  | entry {m : MapRef} {a : Address} {k : MapKey} {v : Value} (hm : w.Has (.map m))
    (ha : m.address? = some a) (hk : D.Admits m.key k.toValue) (hv : w.Supplies m.value v) :
    Grants w ⟨a, .entry k⟩ v
  | field {s : StructRef} {name : Name} {i : Nat} {f : FieldDef} {v : Value}
    (hs : w.Has (.struct s)) (hfield : s.defn.field? name = some (i, f))
    (hset : f.settable = true) (hv : w.Supplies f.ty v) : Grants w ⟨s.address, .field i⟩ v
  | cell {p : PointerRef} {a : Address} {v : Value} (hp : w.Has (.pointer p))
    (ha : p.address? = some a) (hv : w.Has v) : Grants w ⟨a, .cell⟩ v

theorem Grants.takes {slot : Slot} (h : w.Grants slot v) : slot.Takes D w.layout v := by
  cases h with
  | item ha _ hi hv =>
    obtain ⟨n, hn⟩ := ha.fits
    exact ⟨_, hn, (w.sound.items hn).2.1 ▸ hi, hv.suits⟩
  | entry hm ha hk hv => exact ⟨_, hm.fits _ ha, hk, hv.suits⟩
  | field hs hfield _ hv => exact ⟨_, hs.fits, _, FieldDef.getElem?_of_find? hfield, hv.suits⟩
  | cell hp ha hv => exact ⟨_, hp.fits _ ha, hv.fits⟩

theorem Grants.has {slot : Slot} (h : w.Grants slot v) : w.Has v := by
  cases h with
  | item _ _ _ hv => exact hv.1
  | entry _ _ _ hv => exact hv.1
  | field _ _ _ hv => exact hv.1
  | cell _ _ hv => exact hv

/-- The holding in which all that is offered is held too. -/
def look (w : Holding D) : Holding D where
  layout := w.layout
  heap := w.heap
  held u := w.held u ∨ ∃ v, w.Offers v ∧ v.bare = u
  sound := w.sound
  fits := by
    rintro u (hu | ⟨v, hv, rfl⟩)
    · exact w.fits u hu
    · exact hv.fits.bare

/-- The holding in which a storage has been made. -/
def make {d : Decl} {s : Storage} (h : w.Makes d s v) : Holding D where
  layout := w.layout.push d
  heap := w.heap.push s
  held u := w.held u ∨ u = v
  sound := w.sound.push h.storage_fits
  fits := by
    rintro u (hu | rfl)
    · exact (w.fits u hu).mono (w.layout.le_push d)
    · exact h.fits

/-- The holding in which a slot has been written. -/
def write {slot : Slot} (h : w.Grants slot v) : Holding D where
  layout := w.layout
  heap := w.heap.store slot v
  held := w.held
  sound := w.sound.store h.takes
  fits := w.fits

/-- One step of a holding. -/
inductive Step : Holding D → Holding D → Prop
  | look (w : Holding D) : Step w w.look
  | make {w : Holding D} {d : Decl} {s : Storage} {v : Value} (h : w.Makes d s v) : Step w (make h)
  | write {w : Holding D} {slot : Slot} {v : Value} (h : w.Grants slot v) : Step w (write h)

/-- A holding comes before another one if steps lead from it to the other. -/
instance : Preorder (Holding D) where
  le := ReflTransGen Step
  le_refl _ := .refl
  le_trans _ _ _ := .trans

theorem le_of_step (h : w.Step w') : w ≤ w' := .single h

/-- What every step keeps is kept by every sequence of steps. -/
theorem induction_on_le {P : Holding D → Prop} (hle : w ≤ w')
    (hstep : ∀ {u u' : Holding D}, u.Step u' → P u → P u') (h : P w) : P w' := by
  induction hle with
  | refl => exact h
  | tail _ hs ih => exact hstep hs ih

theorem layout_le (hle : w ≤ w') : w.layout ≤ w'.layout := by
  refine induction_on_le (P := fun u => w.layout ≤ u.layout) hle (fun hs h => h.trans ?_) le_rfl
  cases hs with
  | look => exact le_rfl
  | make => exact Layout.le_push _ _
  | write => exact le_rfl

theorem Has.mono (hle : w ≤ w') (h : w.Has v) : w'.Has v := by
  refine induction_on_le (P := fun u => u.Has v) hle (fun hs h a ha => ?_) h
  cases hs with
  | look => exact .inl (h a ha)
  | make => exact .inl (h a ha)
  | write => exact h a ha

theorem Supplies.mono {ty : Ty} (hle : w ≤ w') (h : w.Supplies ty v) : w'.Supplies ty v :=
  ⟨h.1.mono hle, h.2⟩

theorem Offers.has (h : w.Offers v) : w.look.Has v := fun _ _ => .inr ⟨v, h, rfl⟩

theorem Makes.has_made {d : Decl} {s : Storage} (h : w.Makes d s v) : (make h).Has v :=
  fun _ _ => .inr h.bare

end Holding

end TenantScript
