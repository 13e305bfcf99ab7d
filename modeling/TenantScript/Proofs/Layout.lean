import Mathlib.Data.List.Forall2
import TenantScript.Proofs.Invariant
import TenantScript.Proofs.Scopes
import TenantScript.Proofs.Slot
import TenantScript.Value.Convert

/-!
Layouts: how each storage of a heap was declared when it was made. A heap is sound for a layout if
every reference says of its storage what the layout says, and if the values in each storage are
ones that the declared types admit, under a discipline that says what a type admits. One discipline
admits everything, so that soundness is then about references alone; the other one asks a value to
conform to the type.
-/

namespace TenantScript

/-- The declaration of a storage. -/
inductive Decl where
  | array (elem : Ty) (fixed : Bool) (length : Nat)
  | map (key value : Ty)
  | struct (defn : StructDef)
  | cell
  deriving DecidableEq

/-- The declarations of all storages, by address. -/
structure Layout where
  decls : List Decl
  deriving DecidableEq

namespace Layout

/-- The declaration of the storage at an address. -/
def decl? (Γ : Layout) (a : Address) : Option Decl := Γ.decls[a]?

/-- The layout with one more storage. -/
def push (Γ : Layout) (d : Decl) : Layout := ⟨Γ.decls ++ [d]⟩

instance : Preorder Layout where
  le Γ Δ := Γ.decls <+: Δ.decls
  le_refl Γ := List.prefix_refl Γ.decls
  le_trans _ _ _ := List.IsPrefix.trans

variable {Γ Δ : Layout}

theorem le_push (Γ : Layout) (d : Decl) : Γ ≤ Γ.push d := List.prefix_append _ _

theorem decl?_eq_some_of_le (hle : Γ ≤ Δ) {a : Address} {d : Decl} (h : Γ.decl? a = some d) :
    Δ.decl? a = some d := by
  obtain ⟨rest, hrest⟩ := hle
  have hlt : a < Γ.decls.length := (List.getElem?_eq_some_iff.1 h).1
  rw [decl?, ← hrest, List.getElem?_append_left hlt]
  exact h

theorem decl?_push_self (Γ : Layout) (d : Decl) : (Γ.push d).decl? Γ.decls.length = some d := by
  simp [decl?, push]

theorem decl?_push_of_lt {a : Address} (d : Decl) (ha : a < Γ.decls.length) :
    (Γ.push d).decl? a = Γ.decl? a := by
  rw [decl?, push, List.getElem?_append_left ha]
  rfl

end Layout

/-! ### Values that a type admits -/

/-- Whether a value conforms to a declared type. -/
def Value.conforms : Ty → Value → Bool
  | .any, _ => true
  | .bool, .bool _ => true
  | .int, .int _ => true
  | .float, .float _ => true
  | .str, .str _ => true
  | .array elem, .array a => a.elem = elem
  | .map key value, .map m => m.key = key ∧ m.value = value
  | .struct name, .struct s => s.defn.name = name
  | .struct _, .nil => true
  | .pointer elem, .pointer p => elem.isAny ∨ p.elem.isAny ∨ p.elem = elem
  | _, _ => false

theorem Value.conforms_unwrap {w : Value} {ty : Ty} (h : w.conforms ty = true) :
    w.unwrap.conforms ty = true := by
  cases w with
  | interface inner =>
    cases ty with
    | any => rfl
    | _ => cases h
  | _ => exact h

/-- What the declared types of slots ask of the values in them. -/
structure Discipline where
  Admits : Ty → Value → Prop
  convert (target : Ty) (v : Value) : (convert target v).Yields (Admits target)
  zero (ty : Ty) : (Value.zero ty).Yields (Admits ty)
  any (v : Value) : Admits .any v
  key {key : Ty} {v : Value} {k : MapKey} :
    key.isHashable → Admits key v → MapKey.ofValue? v = some k → Admits key k.toValue

/-- A value is of its type whatever it is. -/
def Discipline.untyped : Discipline where
  Admits _ _ := True
  convert _ _ _ _ _ := trivial
  zero _ _ _ _ := trivial
  any _ := trivial
  key _ _ _ := trivial

/-! ### References that say what the layout says -/

/-- Whether the reference that a value is, if it is one, says of its storage what the layout
says. -/
def Value.Fits (Γ : Layout) : Value → Prop
  | array a => ∃ n, Γ.decl? a.address = some (.array a.elem a.fixed n)
  | map m => ∀ a, m.address? = some a → Γ.decl? a = some (.map m.key m.value)
  | struct s => Γ.decl? s.address = some (.struct s.defn)
  | pointer p => ∀ a, p.address? = some a → Γ.decl? a = some .cell
  | interface v => v.Fits Γ
  | _ => True

theorem Value.Fits.mono {Γ Δ : Layout} (hle : Γ ≤ Δ) : {v : Value} → v.Fits Γ → v.Fits Δ
  | array _, ⟨n, h⟩ => ⟨n, Layout.decl?_eq_some_of_le hle h⟩
  | map _, h => fun a e => Layout.decl?_eq_some_of_le hle (h a e)
  | struct _, h => Layout.decl?_eq_some_of_le hle h
  | pointer _, h => fun a e => Layout.decl?_eq_some_of_le hle (h a e)
  | interface v, h => Fits.mono (v := v) hle h
  | nil, _ | bool _, _ | int _, _ | float _, _ | str _, _ => trivial

theorem Value.Fits.unwrap {Γ : Layout} {v : Value} (h : v.Fits Γ) : v.unwrap.Fits Γ := by
  cases v <;> exact h

theorem Value.Fits.bare {Γ : Layout} : {v : Value} → v.Fits Γ → v.bare.Fits Γ
  | interface v, h => Fits.bare (v := v) h
  | array _, h | map _, h | struct _, h | pointer _, h => h
  | nil, _ | bool _, _ | int _, _ | float _, _ | str _, _ => trivial

variable {D : Discipline} {Γ Δ : Layout}

/-- Whether a value fits and is one that a type admits. -/
def Value.Suits (D : Discipline) (Γ : Layout) (ty : Ty) (v : Value) : Prop :=
  v.Fits Γ ∧ D.Admits ty v

theorem Value.Suits.mono {ty : Ty} {v : Value} (hle : Γ ≤ Δ) (h : v.Suits D Γ ty) :
    v.Suits D Δ ty := ⟨h.1.mono hle, h.2⟩

/-- Whether what a storage holds is as it was declared. -/
def Storage.Fits (D : Discipline) (Γ : Layout) : Decl → Storage → Prop
  | .array elem _ n, .items vs => vs.length = n ∧ ∀ v ∈ vs, v.Suits D Γ elem
  | .map key value, .entries m =>
    ∀ e ∈ m.entries, D.Admits key e.1.toValue ∧ e.2.Suits D Γ value
  | .struct defn, .fields vs =>
    List.Forall₂ (fun f v => Value.Suits D Γ f.ty v) defn.fields vs
  | .cell, .cell v => v.Fits Γ
  | _, _ => False

theorem Storage.Fits.mono (hle : Γ ≤ Δ) : {d : Decl} → {s : Storage} → s.Fits D Γ d → s.Fits D Δ d
  | .array .., .items _, h => ⟨h.1, fun v hv => (h.2 v hv).mono hle⟩
  | .map .., .entries _, h => fun e he => ⟨(h e he).1, (h e he).2.mono hle⟩
  | .struct _, .fields _, h => h.imp fun _ _ hv => hv.mono hle
  | .cell, .cell _, h => Value.Fits.mono hle h

/-- Every storage of the heap is as the layout declares it. -/
structure Heap.Sound (D : Discipline) (Γ : Layout) (h : Heap) : Prop where
  size : Γ.decls.length = h.size
  fits : ∀ {a d s}, Γ.decl? a = some d → h.get? a = some s → s.Fits D Γ d

/-- The heap is sound and every bound value fits. -/
structure State.Sound (D : Discipline) (Γ : Layout) (st : State) : Prop where
  heap : st.heap.Sound D Γ
  env : ∀ scope ∈ st.env.scopes, ∀ e ∈ scope.entries, e.2.Fits Γ

/-- What a name stands for is the first field that bears it. -/
theorem FieldDef.find?_eq_some_iff {name : Name} {fs : List FieldDef} {i : Nat} {f : FieldDef} :
    find? name fs = some (i, f) ↔
      fs[i]? = some f ∧ f.name = name ∧ ∀ g ∈ fs.take i, g.name ≠ name := by
  induction fs generalizing i with
  | nil => simp [find?]
  | cons g fs ih =>
    by_cases hg : g.name = name
    · cases i with
      | zero => simp +contextual [find?, hg, eq_comm]
      | succ i => simp [find?, hg]
    · cases i with
      | zero =>
        simp only [find?, if_neg hg, Option.map_eq_some_iff]
        constructor
        · rintro ⟨p, -, ⟨⟩⟩
        · rintro ⟨⟨⟩, hname, -⟩
          exact (hg hname).elim
      | succ i => simp [find?, hg, ← ih]

theorem FieldDef.find?_eq_none_iff {name : Name} {fs : List FieldDef} :
    find? name fs = none ↔ ∀ f ∈ fs, f.name ≠ name := by
  induction fs with
  | nil => simp [find?]
  | cons g fs ih => by_cases hg : g.name = name <;> simp [find?, hg, ih]

theorem FieldDef.getElem?_of_find? {name : Name} {fs : List FieldDef} {i : Nat} {f : FieldDef}
    (h : find? name fs = some (i, f)) : fs[i]? = some f :=
  (find?_eq_some_iff.1 h).1

/-! ### What sound heaps hold -/

namespace Heap.Sound

variable {h : Heap}

theorem exists_storage (hs : h.Sound D Γ) {a : Address} {d : Decl} (ha : Γ.decl? a = some d) :
    ∃ s, h.get? a = some s ∧ s.Fits D Γ d := by
  have hlt : a < h.size := hs.size ▸ (List.getElem?_eq_some_iff.1 ha).1
  obtain ⟨s, hget⟩ := Option.isSome_iff_exists.1 (get?_isSome_iff.2 hlt)
  exact ⟨s, hget, hs.fits ha hget⟩

theorem items (hs : h.Sound D Γ) {a : ArrayRef} {n : Nat}
    (ha : Γ.decl? a.address = some (.array a.elem a.fixed n)) :
    h.get? a.address = some (.items (h.items a)) ∧ (h.items a).length = n ∧
      ∀ v ∈ h.items a, v.Suits D Γ a.elem := by
  obtain ⟨s, hget, hfits⟩ := hs.exists_storage ha
  cases s with
  | items vs =>
    have hvs : h.items a = vs := by simp [Heap.items, itemsAt, hget]
    rw [hvs]
    exact ⟨hget, hfits⟩
  | _ => exact hfits.elim

theorem entries (hs : h.Sound D Γ) {m : MapRef} (hm : (Value.map m).Fits Γ) :
    ∀ e ∈ (h.entries m).entries, D.Admits m.key e.1.toValue ∧ e.2.Suits D Γ m.value := by
  unfold Heap.entries
  cases ha : m.address? with
  | none => intro e he; cases he
  | some a =>
    obtain ⟨s, hget, hfits⟩ := hs.exists_storage (hm a ha)
    cases s with
    | entries es =>
      have hes : h.entriesAt a = es := by simp [entriesAt, hget]
      simp only [hes]
      exact hfits
    | _ => exact hfits.elim

theorem fields (hs : h.Sound D Γ) {s : StructRef} (hf : (Value.struct s).Fits Γ) :
    List.Forall₂ (fun f v => Value.Suits D Γ f.ty v) s.defn.fields (h.fields s) := by
  obtain ⟨t, hget, hfits⟩ := hs.exists_storage hf
  cases t with
  | fields vs =>
    have hvs : h.fields s = vs := by simp [Heap.fields, fieldsAt, hget]
    rw [hvs]
    exact hfits
  | _ => exact hfits.elim

theorem suits_field (hs : h.Sound D Γ) {s : StructRef}
    (hf : (Value.struct s).Fits Γ) {name : Name} {i : Nat} {f : FieldDef} {v : Value}
    (hfield : s.defn.field? name = some (i, f)) (hv : h.field? s name = some v) :
    v.Suits D Γ f.ty := by
  have hi := FieldDef.getElem?_of_find? hfield
  have hfields := hs.fields hf
  simp only [Heap.field?, hfield] at hv
  obtain ⟨hlt, rfl⟩ := List.getElem?_eq_some_iff.1 hi
  obtain ⟨hlt', rfl⟩ := List.getElem?_eq_some_iff.1 hv
  exact (List.forall₂_iff_get.1 hfields).2 i hlt hlt'

theorem empty (D : Discipline) : Heap.empty.Sound D ⟨[]⟩ := ⟨rfl, fun h => nomatch h⟩

theorem push (hs : h.Sound D Γ) {d : Decl} {s : Storage} (hfits : s.Fits D Γ d) :
    (h.push s).Sound D (Γ.push d) := by
  have hle := Γ.le_push d
  refine ⟨by simp [Layout.push, hs.size], fun {a d' s'} hd hget => ?_⟩
  rw [get?_push] at hget
  by_cases ha : a = h.size
  · rw [ha, ← hs.size, Layout.decl?_push_self] at hd
    rw [if_pos ha] at hget
    cases hd
    cases hget
    exact hfits.mono hle
  · rw [if_neg ha] at hget
    rw [Layout.decl?_push_of_lt d (hs.size ▸ lt_size_of_get? hget)] at hd
    exact (hs.fits hd hget).mono hle

end Heap.Sound

/-! ### Slots that take a value -/

/-- Whether a storage declared like this takes a value at a position. -/
def Decl.Takes (D : Discipline) (Γ : Layout) : Decl → Position → Value → Prop
  | .array elem _ n, .item i, v => i < n ∧ v.Suits D Γ elem
  | .map key value, .entry k, v => D.Admits key k.toValue ∧ v.Suits D Γ value
  | .struct defn, .field i, v => ∃ f, defn.fields[i]? = some f ∧ v.Suits D Γ f.ty
  | .cell, .cell, v => v.Fits Γ
  | _, _, _ => False

/-- Whether a slot is one of the layout and takes a value. -/
def Slot.Takes (D : Discipline) (Γ : Layout) (slot : Slot) (v : Value) : Prop :=
  ∃ d, Γ.decl? slot.address = some d ∧ d.Takes D Γ slot.position v

/-- A storage that is as declared has room for what its declaration takes. -/
theorem Storage.Fits.hasRoom {v : Value} : {d : Decl} → {s : Storage} → {p : Position} →
    s.Fits D Γ d → d.Takes D Γ p v → s.HasRoom p
  | .array .., .items _, .item _, hs, h => by
    rw [HasRoom, hs.1]
    exact h.1
  | .map .., .entries _, .entry _, _, _ => trivial
  | .struct _, .fields _, .field _, hs, ⟨_, hf, _⟩ => by
    rw [HasRoom, ← hs.length_eq]
    exact (List.getElem?_eq_some_iff.1 hf).1
  | .cell, .cell _, .cell, _, _ => trivial

theorem forall₂_set {α β : Type} {R : α → β → Prop} {b : β} : {as : List α} → {bs : List β} →
    {i : Nat} → {a : α} → List.Forall₂ R as bs → as[i]? = some a → R a b →
      List.Forall₂ R as (bs.set i b)
  | _, _, 0, _, .cons _ hs, ha, hab => by
    cases ha
    exact .cons hab hs
  | _, _, _ + 1, _, .cons h hs, ha, hab => .cons h (forall₂_set hs ha hab)

/-- A storage stays as declared when a value that the declaration takes is stored. -/
theorem Storage.Fits.set {v : Value} : {d : Decl} → {s : Storage} → {p : Position} →
    s.Fits D Γ d → d.Takes D Γ p v → (s.set p v).Fits D Γ d
  | .array .., .items vs, .item i, hs, h => by
    refine ⟨(List.length_set ..).trans hs.1, fun w hw => ?_⟩
    rcases List.mem_or_eq_of_mem_set hw with hw | rfl
    · exact hs.2 w hw
    · exact h.2
  | .map .., .entries _, .entry _, hs, h => by
    intro e he
    rcases SortedMap.mem_insert he with rfl | he
    · exact h
    · exact hs e he
  | .struct _, .fields _, .field _, hs, ⟨_, hf, hv⟩ => forall₂_set hs hf hv
  | .cell, .cell _, .cell, _, h => h

namespace Heap.Sound

variable {h : Heap} {slot : Slot} {v : Value}

theorem hasRoom (hs : h.Sound D Γ) (hslot : slot.Takes D Γ v) : h.HasRoom slot := by
  obtain ⟨d, hd, hv⟩ := hslot
  obtain ⟨s, hget, hfits⟩ := hs.exists_storage hd
  exact ⟨s, hget, hfits.hasRoom hv⟩

theorem write (hs : h.Sound D Γ) {a : Address} {d : Decl} {s : Storage}
    (hd : Γ.decl? a = some d) (hfits : s.Fits D Γ d) : (h.write a s).Sound D Γ := by
  refine ⟨by rw [size_write, hs.size], fun {b d' s'} hd' hget => ?_⟩
  by_cases hb : b = a
  · subst hb
    have hlt : b < h.size := hs.size ▸ (List.getElem?_eq_some_iff.1 hd).1
    rw [get?_write_self s hlt] at hget
    cases hget
    cases hd.symm.trans hd'
    exact hfits
  · rw [get?_write_ne h s hb] at hget
    exact hs.fits hd' hget

/-- A heap stays sound when a value is stored into a slot that takes it. -/
theorem store (hs : h.Sound D Γ) (hslot : slot.Takes D Γ v) : (h.store slot v).Sound D Γ := by
  obtain ⟨d, hd, hv⟩ := hslot
  obtain ⟨s, hget, hfits⟩ := hs.exists_storage hd
  rw [store_eq_write hget (hfits.hasRoom hv)]
  exact hs.write hd (hfits.set hv)

end Heap.Sound

end TenantScript
