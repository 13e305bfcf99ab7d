import TenantScript.Proofs.Conversion
import TenantScript.Proofs.Growth
import TenantScript.Proofs.Reads

/-!
Conversion rebuilds all or nothing. Main statement: a conversion ends whatever leads to whatever in
the heap, since nothing that it does depends on conversions nested deeper than some depth; it writes
no storage that was there; it fails just where a value, or a key or value in it, has no entry in the
table of conversions; and an array or map that it rebuilds is a new one, in which each element or
entry is that of the source, converted.
-/

open TenantScript.Action

namespace TenantScript

/-! ### Actions that have a result -/

namespace Action

variable {σ α β : Type}

/-- Whether an action has a result in a state. -/
def Succeeds (x : Action σ α) (s : σ) : Prop := ∃ a s', x.run s = (.ok a, s')

theorem not_succeeds_iff {x : Action σ α} {s : σ} :
    ¬ x.Succeeds s ↔ ∃ e, (x.run s).1 = .error e := by
  unfold Succeeds
  rcases x.run s with ⟨e | a, s'⟩ <;> simp

theorem succeeds_bind_iff {x : Action σ α} {f : α → Action σ β} {s : σ} :
    (x >>= f).Succeeds s ↔ ∃ a s', x.run s = (.ok a, s') ∧ (f a).Succeeds s' := by
  constructor
  · rintro ⟨b, s'', hrun⟩
    obtain ⟨a, s', hx, hf⟩ := exists_of_run_bind hrun
    exact ⟨a, s', hx, b, s'', hf⟩
  · rintro ⟨a, s', hx, b, s'', hf⟩
    exact ⟨b, s'', (run_bind_ok f hx).trans hf⟩

/-- What cannot fail afterwards does not count. -/
theorem succeeds_bind_iff_left {x : Action σ α} {f : α → Action σ β} {s : σ}
    (hf : ∀ a s', (f a).Succeeds s') : (x >>= f).Succeeds s ↔ x.Succeeds s := by
  rw [succeeds_bind_iff]
  constructor
  · rintro ⟨a, s', hx, -⟩
    exact ⟨a, s', hx⟩
  · rintro ⟨a, s', hx⟩
    exact ⟨a, s', hx, hf a s'⟩

theorem succeeds_get_bind_iff {f : σ → α} {k : α → Action σ β} {s : σ} :
    (get f >>= k).Succeeds s ↔ (k (f s)).Succeeds s := Iff.rfl

section Extensions

variable [Preorder σ] {f : α → Action σ β}

/-- Whether an action that was run between two states had a result. -/
def Gives (x : Action σ α) (s s' : σ) (a : α) : Prop :=
  ∃ t t', s ≤ t ∧ x.run t = (.ok a, t') ∧ t' ≤ s'

theorem Gives.mono {x : Action σ α} {s t s' t' : σ} {a : α} (h : x.Gives t t' a) (hs : s ≤ t)
    (hs' : t' ≤ s') : x.Gives s s' a := by
  obtain ⟨u, u', hu, hrun, hu'⟩ := h
  exact ⟨u, u', hs.trans hu, hrun, hu'.trans hs'⟩

/-- Each item of a list is treated in an extension of the first state. -/
theorem gives_of_run_mapM (hf : ∀ a, (f a).Adds) : {as : List α} → {bs : List β} → {s s' : σ} →
    (as.mapM f).run s = (.ok bs, s') → List.Forall₂ (fun a b => (f a).Gives s s' b) as bs
  | [], bs, s, s', hrun => by
    rw [List.mapM_nil] at hrun
    cases hrun
    exact .nil
  | a :: as, bs, s, s', hrun => by
    rw [List.mapM_cons] at hrun
    obtain ⟨b, s₁, hb, hrun⟩ := exists_of_run_bind hrun
    obtain ⟨bs', s₂, hbs, hrun⟩ := exists_of_run_bind hrun
    cases hrun
    have hfirst : s ≤ s₁ := (hf a).le_of_run hb
    have hrest : s₁ ≤ s' := (Adds.mapM fun a _ => hf a).le_of_run hbs
    refine .cons ⟨s, s₁, le_rfl, hb, hrest⟩ ?_
    exact (gives_of_run_mapM hf hbs).imp fun _ _ h => h.mono hfirst le_rfl

/-- A list has a result if each item does, where that does not depend on what is added. -/
theorem succeeds_mapM_iff (hf : ∀ a, (f a).Adds) {P : α → Prop} : {as : List α} → {s : σ} →
    (∀ a ∈ as, ∀ t, s ≤ t → ((f a).Succeeds t ↔ P a)) →
      ((as.mapM f).Succeeds s ↔ ∀ a ∈ as, P a)
  | [], s, _ => by
    rw [List.mapM_nil]
    exact ⟨fun _ _ ha => (nomatch ha), fun _ => ⟨[], s, rfl⟩⟩
  | a :: as, s, h => by
    have hrest {b : β} {t : σ} (hb : (f a).run s = (.ok b, t)) :
        (as.mapM f).Succeeds t ↔ ∀ a ∈ as, P a :=
      succeeds_mapM_iff hf fun a' ha' t' ht' =>
        h a' (List.mem_cons_of_mem _ ha') t' (((hf a).le_of_run hb).trans ht')
    rw [List.mapM_cons, succeeds_bind_iff, List.forall_mem_cons,
      ← h a List.mem_cons_self s le_rfl]
    constructor
    · rintro ⟨b, t, hb, hbs⟩
      exact ⟨⟨b, t, hb⟩, (hrest hb).1 ((succeeds_bind_iff_left fun bs u => ⟨_, u, rfl⟩).1 hbs)⟩
    · rintro ⟨⟨b, t, hb⟩, has⟩
      exact ⟨b, t, hb, (succeeds_bind_iff_left fun bs u => ⟨_, u, rfl⟩).2 ((hrest hb).2 has)⟩

end Extensions

end Action

/-! ### The depth of conversions -/

/-- One level of a conversion: an interface is taken off, and what is in a container converted, by
`rec`. -/
def convertStep (rec : Ty → Value → Action Heap Value) : Ty → Value → Action Heap Value
  | .any, v => return v
  | ty, .interface v => rec ty v
  | .bool, .bool b => return .bool b
  | .int, .int n => return .int n
  | .float, .float x => return .float x
  | .float, .int n => return .float (.ofInt n.toInt)
  | .str, .str s => return .str s
  | .array elem, .nil => return .array (← ArrayRef.make elem [])
  | .array elem, .array a =>
    if a.elem = elem then return .array a
    else do
      let items ← .get (·.items a)
      return .array (← ArrayRef.make elem (← items.mapM (rec elem)))
  | .map key value, .nil => return .map ⟨key, value, none⟩
  | .map key value, .map m =>
    if m.key = key ∧ m.value = value then return .map m
    else if m.isNil then return .map ⟨key, value, none⟩
    else do
      let entries ← .get (·.entries m)
      let converted ← entries.entries.mapM fun e => do
        let k ← keyVia (rec key) key e.1.toValue
        let w ← rec value e.2
        return (k, w)
      return .map (← MapRef.make key value (.ofList converted))
  | .struct _, .nil => return .nil
  | .struct name, .struct s =>
    if s.defn.name = name then return .struct s else mismatched (.struct s) (.struct name)
  | .pointer elem, .nil => return .pointer ⟨elem, none⟩
  | .pointer elem, .pointer p =>
    if elem.isAny ∨ p.elem.isAny ∨ p.elem = elem then return .pointer p
    else mismatched (.pointer p) (.pointer elem)
  | ty, v => mismatched v ty

/-- A conversion is one level of conversions. -/
theorem convertStep_convert (ty : Ty) (v : Value) : convertStep convert ty v = convert ty v := by
  cases ty <;> cases v <;> rfl

/-- Conversions at most `depth` levels deep, with `beyond` in place of deeper ones. -/
def convertWithin (beyond : Ty → Value → Action Heap Value) :
    Nat → Ty → Value → Action Heap Value
  | 0 => beyond
  | depth + 1 => convertStep (convertWithin beyond depth)

theorem convertWithin_add (beyond : Ty → Value → Action Heap Value) (depth more : Nat) :
    convertWithin beyond (depth + more) = convertWithin (convertWithin beyond more) depth := by
  induction depth with
  | zero => rw [Nat.zero_add, convertWithin]
  | succ depth ih => rw [Nat.succ_add, convertWithin, convertWithin, ih]

/-- Whether there is a depth such that an action is the same whatever conversions do that are nested
deeper. -/
def Settles {α : Type} (x : (Ty → Value → Action Heap Value) → Action Heap α) (h : Heap) : Prop :=
  ∃ depth, ∀ beyond, (x (convertWithin beyond depth)).run h = (x convert).run h

namespace Settles

variable {α β : Type} {h : Heap}

theorem const (x : Action Heap α) (h : Heap) : Settles (fun _ => x) h := ⟨0, fun _ => rfl⟩

theorem bind {x : (Ty → Value → Action Heap Value) → Action Heap α}
    {f : (Ty → Value → Action Heap Value) → α → Action Heap β} (hx : Settles x h)
    (hf : ∀ a h', Settles (fun conv => f conv a) h') :
    Settles (fun conv => x conv >>= f conv) h := by
  obtain ⟨depth, hdepth⟩ := hx
  rcases hrun : (x convert).run h with ⟨e | a, h'⟩
  · refine ⟨depth, fun beyond => ?_⟩
    rw [run_bind_error _ ((hdepth beyond).trans hrun), run_bind_error _ hrun]
  · obtain ⟨more, hmore⟩ := hf a h'
    refine ⟨depth + more, fun beyond => ?_⟩
    have hfirst := (hdepth (convertWithin beyond more)).trans hrun
    rw [← convertWithin_add] at hfirst
    rw [run_bind_ok _ hfirst, run_bind_ok _ hrun, Nat.add_comm, convertWithin_add]
    exact hmore _

theorem mapM {f : (Ty → Value → Action Heap Value) → α → Action Heap β} (as : List α)
    (hf : ∀ a h', Settles (fun conv => f conv a) h') (h : Heap) :
    Settles (fun conv => as.mapM (f conv)) h := by
  induction as generalizing h with
  | nil => simpa only [List.mapM_nil] using const (pure []) h
  | cons a as ih =>
    simp only [List.mapM_cons]
    exact bind (hf a h) fun b h₁ => bind (ih h₁) fun bs h₂ => const _ h₂

/-- What a level does settles one level deeper. -/
theorem step {ty : Ty} {v : Value} (hx : Settles (fun conv => convertStep conv ty v) h) :
    Settles (fun conv => conv ty v) h := by
  obtain ⟨depth, hdepth⟩ := hx
  refine ⟨depth + 1, fun beyond => (hdepth beyond).trans ?_⟩
  exact congrArg (fun x => x.run h) (convertStep_convert ty v)

theorem keyVia {key : Ty} {v : Value} (hv : Settles (fun conv => conv key v) h) :
    Settles (fun conv => keyVia (conv key) key v) h := by
  unfold TenantScript.keyVia
  split
  · exact const _ h
  · exact bind hv fun w h' => const _ h'

end Settles

/-- Each level of a conversion is at a smaller type, or of a value behind fewer interfaces at the
same type. -/
theorem convert_settles (ty : Ty) (v : Value) (h : Heap) : Settles (fun conv => conv ty v) h := by
  induction ty generalizing v h with
  | any => exact .step (.const _ h)
  | array elem ih =>
    induction v with
    | interface v ihv => exact .step ihv
    | array a =>
      refine .step ?_
      simp only [convertStep]
      split
      · exact .const _ h
      · exact .bind (.const _ h) fun items h₁ => .bind (.mapM items ih h₁) fun ws h₂ => .const _ h₂
    | _ => exact .step (.const _ h)
  | map key value ihkey ihvalue =>
    induction v with
    | interface v ihv => exact .step ihv
    | map m =>
      refine .step ?_
      simp only [convertStep]
      split
      · exact .const _ h
      · split
        · exact .const _ h
        · refine .bind (.const _ h) fun entries h₁ => .bind (.mapM _ (fun e h₂ => ?_) h₁)
            fun rs h₃ => .const _ h₃
          exact .bind (.keyVia (ihkey _ h₂)) fun k h₃ =>
            .bind (ihvalue _ h₃) fun w h₄ => .const _ h₄
    | _ => exact .step (.const _ h)
  | _ =>
    induction v with
    | interface v ihv => exact .step ihv
    | _ => exact .step (.const _ h)

/-! ### Keys -/

/-- Whether a key can be one of a map with keys of a type. -/
def Ty.TakesKey (key : Ty) (k : MapKey) : Prop :=
  key.isHashable = true ∧ k.toValue.conforms key = true

/-- The key of one map is the same key of another one, if it can be one. -/
theorem convertKey_toValue {key : Ty} {k : MapKey} (hk : key.TakesKey k) :
    convertKey key k.toValue = pure k := by
  unfold convertKey keyVia
  rw [hk.1, convert_of_conforms hk.2, pure_bind, MapKey.ofValue?_toValue]
  rfl

theorem takesKey_of_run {key : Ty} {k k' : MapKey} {g g' : Heap}
    (hrun : (convertKey key k.toValue).run g = (.ok k', g')) :
    key.TakesKey k ∧ k' = k ∧ g' = g := by
  have hk : key.TakesKey k := by
    cases key <;> cases k <;> first | exact ⟨rfl, rfl⟩ | cases hrun
  rw [convertKey_toValue hk] at hrun
  cases hrun
  exact ⟨hk, rfl, rfl⟩

/-! ### What can be converted -/

/-- The table of conversions: which values can be converted to which types. -/
inductive Convertible (h : Heap) : Ty → Value → Prop
  /-- A value that conforms to the type is kept. -/
  | kept {ty : Ty} {v : Value} (hv : v.conforms ty = true) : Convertible h ty v
  | interface {ty : Ty} {v : Value} (hv : Convertible h ty v) : Convertible h ty (.interface v)
  | widened (n : Int64) : Convertible h .float (.int n)
  | nilArray (elem : Ty) : Convertible h (.array elem) .nil
  | nilMap (key value : Ty) : Convertible h (.map key value) .nil
  | nilPointer (elem : Ty) : Convertible h (.pointer elem) .nil
  | array {elem : Ty} {a : ArrayRef} (hitems : ∀ v ∈ h.items a, Convertible h elem v) :
      Convertible h (.array elem) (.array a)
  /-- A nil map has no entries. -/
  | map {key value : Ty} {m : MapRef} (hkeys : ∀ e ∈ (h.entries m).entries, key.TakesKey e.1)
      (hvalues : ∀ e ∈ (h.entries m).entries, Convertible h value e.2) :
      Convertible h (.map key value) (.map m)

namespace Convertible

variable {h : Heap} {ty : Ty} {v : Value}

theorem interface_iff : Convertible h ty (.interface v) ↔ Convertible h ty v := by
  refine ⟨fun hv => ?_, .interface⟩
  cases hv with
  | kept hv =>
    cases ty with
    | any => exact .kept rfl
    | _ => cases hv
  | interface hv => exact hv

theorem array_iff {elem : Ty} {a : ArrayRef} :
    Convertible h (.array elem) (.array a) ↔
      a.elem = elem ∨ ∀ v ∈ h.items a, Convertible h elem v := by
  constructor
  · intro ha
    cases ha with
    | kept ha => exact .inl (Value.conforms_array.1 ha)
    | array hitems => exact .inr hitems
  · rintro (ha | hitems)
    · exact .kept (Value.conforms_array.2 ha)
    · exact .array hitems

theorem map_iff {key value : Ty} {m : MapRef} :
    Convertible h (.map key value) (.map m) ↔ m.key = key ∧ m.value = value ∨
      ∀ e ∈ (h.entries m).entries, key.TakesKey e.1 ∧ Convertible h value e.2 := by
  constructor
  · intro hm
    cases hm with
    | kept hm => exact .inl (Value.conforms_map.1 hm)
    | map hkeys hvalues => exact .inr fun e he => ⟨hkeys e he, hvalues e he⟩
  · rintro (hm | hentries)
    · exact .kept (Value.conforms_map.2 hm)
    · exact .map (fun e he => (hentries e he).1) fun e he => (hentries e he).2

theorem struct_iff {name : Name} {s : StructRef} :
    Convertible h (.struct name) (.struct s) ↔ s.defn.name = name := by
  rw [← Value.conforms_struct]
  refine ⟨fun hs => ?_, .kept⟩
  cases hs with
  | kept hs => exact hs

theorem pointer_iff {elem : Ty} {p : PointerRef} :
    Convertible h (.pointer elem) (.pointer p) ↔ elem.isAny ∨ p.elem.isAny ∨ p.elem = elem := by
  rw [← Value.conforms_pointer]
  refine ⟨fun hp => ?_, .kept⟩
  cases hp with
  | kept hp => exact hp

end Convertible

/-! ### Containers that are rebuilt -/

theorem convert_array_of_ne {elem : Ty} {a : ArrayRef} (hne : a.elem ≠ elem) :
    convert (.array elem) (.array a) = (do
      let items ← .get (·.items a)
      return .array (← ArrayRef.make elem (← items.mapM (convert elem)))) :=
  if_neg hne

/-- An entry of a map, converted. -/
def convertEntry (key value : Ty) (e : MapKey × Value) : Action Heap (MapKey × Value) := do
  let k ← convertKey key e.1.toValue
  let w ← convert value e.2
  return (k, w)

theorem convert_map_of_ne {key value : Ty} {m : MapRef} (hne : ¬(m.key = key ∧ m.value = value))
    (hlive : m.isNil = false) : convert (.map key value) (.map m) = (do
      let entries ← .get (·.entries m)
      return .map (← MapRef.make key value
        (.ofList (← entries.entries.mapM (convertEntry key value))))) := by
  simp only [convert, Value.bare]
  rw [if_neg hne, hlive]
  rfl

theorem convert_nilMap_of_ne {key value : Ty} {m : MapRef}
    (hne : ¬(m.key = key ∧ m.value = value)) (hnil : m.isNil = true) :
    convert (.map key value) (.map m) = pure (.map ⟨key, value, none⟩) := by
  simp only [convert, Value.bare]
  rw [if_neg hne, if_pos hnil]

theorem convertEntry_adds (key value : Ty) (e : MapKey × Value) :
    (convertEntry key value e).Adds :=
  .bind (convertKey_adds _ _) fun _ => .bind (convert_adds _ _) fun _ => .pure _

theorem convertEntry_succeeds_iff {key value : Ty} {e : MapKey × Value} {g : Heap} :
    (convertEntry key value e).Succeeds g ↔
      key.TakesKey e.1 ∧ (convert value e.2).Succeeds g := by
  unfold convertEntry
  rw [succeeds_bind_iff]
  constructor
  · rintro ⟨k, g', hk, hw⟩
    obtain ⟨hkey, -, rfl⟩ := takesKey_of_run hk
    exact ⟨hkey, (succeeds_bind_iff_left fun w t => ⟨_, t, rfl⟩).1 hw⟩
  · rintro ⟨hkey, hw⟩
    refine ⟨e.1, g, ?_, (succeeds_bind_iff_left fun w t => ⟨_, t, rfl⟩).2 hw⟩
    rw [convertKey_toValue hkey, run_pure]

/-- An entry keeps its key. -/
theorem convertEntry_gives {key value : Ty} {e e' : MapKey × Value} {g g' : Heap}
    (he : (convertEntry key value e).Gives g g' e') :
    e'.1 = e.1 ∧ (convert value e.2).Gives g g' e'.2 := by
  obtain ⟨t, t', hgt, hrun, ht'g'⟩ := he
  obtain ⟨k, t₁, hk, hvalue⟩ := exists_of_run_bind hrun
  obtain ⟨w, t₂, hw, hpair⟩ := exists_of_run_bind hvalue
  obtain ⟨-, rfl, rfl⟩ := takesKey_of_run hk
  cases hpair
  exact ⟨rfl, t₁, t', hgt, hw, ht'g'⟩

/-! ### When conversion succeeds -/

section Entries

variable {D : Discipline} {Γ : Layout} {g h : Heap} {m : MapRef}

theorem Heap.entries_of_isNil (hnil : m.isNil = true) : h.entries m = .empty := by
  rw [Heap.entries, Option.isNone_iff_eq_none.1 hnil]

theorem Heap.Sound.entries_of_le (hs : h.Sound D Γ) (hm : (Value.map m).Fits Γ) (hle : h ≤ g) :
    g.entries m = h.entries m := by
  refine Heap.entries_congr fun a ha => ?_
  obtain ⟨s, hget, -⟩ := hs.exists_storage (hm a ha)
  rw [hget, hle a s hget]

end Entries

section Succeeds

variable {g : Heap}

theorem convert_interface_succeeds_iff {ty : Ty} {v : Value} :
    (convert ty (.interface v)).Succeeds g ↔ (convert ty v).Succeeds g := by
  cases ty with
  | any => exact ⟨fun _ => ⟨v, g, rfl⟩, fun _ => ⟨.interface v, g, rfl⟩⟩
  | _ => exact Iff.rfl

theorem convert_succeeds_of_conforms {ty : Ty} {v : Value} (hv : v.conforms ty = true) :
    (convert ty v).Succeeds g := by
  rw [convert_of_conforms hv]
  exact ⟨v, g, rfl⟩

theorem convert_struct_succeeds_iff {name : Name} {s : StructRef} :
    (convert (.struct name) (.struct s)).Succeeds g ↔ s.defn.name = name := by
  refine ⟨fun ⟨w, g', hrun⟩ => ?_, fun hs => convert_succeeds_of_conforms (by simpa using hs)⟩
  by_contra hne
  simp only [convert, Value.bare, if_neg hne] at hrun
  cases hrun

theorem convert_pointer_succeeds_iff {elem : Ty} {p : PointerRef} :
    (convert (.pointer elem) (.pointer p)).Succeeds g ↔
      elem.isAny ∨ p.elem.isAny ∨ p.elem = elem := by
  refine ⟨fun ⟨w, g', hrun⟩ => ?_, fun hp => convert_succeeds_of_conforms (by simpa using hp)⟩
  by_contra hne
  simp only [convert, Value.bare, if_neg hne] at hrun
  cases hrun

theorem convert_array_succeeds_iff {elem : Ty} {a : ArrayRef} :
    (convert (.array elem) (.array a)).Succeeds g ↔
      a.elem = elem ∨ ((g.items a).mapM (convert elem)).Succeeds g := by
  by_cases helem : a.elem = elem
  · exact iff_of_true (convert_succeeds_of_conforms (by simpa using helem)) (.inl helem)
  · rw [or_iff_right helem, convert_array_of_ne helem, succeeds_get_bind_iff,
      succeeds_bind_iff_left fun ws t => ⟨_, _, rfl⟩]

theorem convert_map_succeeds_iff {key value : Ty} {m : MapRef} :
    (convert (.map key value) (.map m)).Succeeds g ↔ m.key = key ∧ m.value = value ∨
      ((g.entries m).entries.mapM (convertEntry key value)).Succeeds g := by
  by_cases htypes : m.key = key ∧ m.value = value
  · exact iff_of_true (convert_succeeds_of_conforms (by simpa using htypes)) (.inl htypes)
  · rw [or_iff_right htypes]
    cases hnil : m.isNil with
    | true =>
      rw [convert_nilMap_of_ne htypes hnil, Heap.entries_of_isNil hnil]
      exact iff_of_true ⟨_, g, rfl⟩ ⟨[], g, rfl⟩
    | false =>
      rw [convert_map_of_ne htypes hnil, succeeds_get_bind_iff,
        succeeds_bind_iff_left fun ws t => ⟨_, _, rfl⟩]

end Succeeds

variable {D : Discipline} {Γ : Layout} {h : Heap}

theorem convert_succeeds_iff_interface {ty : Ty} {v : Value} {g : Heap}
    (hv : (convert ty v).Succeeds g ↔ Convertible h ty v) :
    (convert ty (.interface v)).Succeeds g ↔ Convertible h ty (.interface v) :=
  convert_interface_succeeds_iff.trans (hv.trans Convertible.interface_iff.symm)

/-- Conversion succeeds for just the values of the table, also after storages have been added. -/
theorem convert_succeeds_iff (hs : h.Sound D Γ) {ty : Ty} {v : Value} (hv : v.Fits Γ) {g : Heap}
    (hle : h ≤ g) : (convert ty v).Succeeds g ↔ Convertible h ty v := by
  induction ty generalizing v g with
  | any => exact iff_of_true ⟨v, g, rfl⟩ (.kept rfl)
  | array elem ih =>
    induction v with
    | interface v ihv => exact convert_succeeds_iff_interface (ihv hv)
    | nil => exact iff_of_true ⟨_, _, rfl⟩ (.nilArray elem)
    | array a =>
      obtain ⟨n, hdecl⟩ := hv
      obtain ⟨hget, -, hitems⟩ := hs.items hdecl
      rw [convert_array_succeeds_iff, Convertible.array_iff, Heap.items_of_le hle hget]
      refine or_congr_right (succeeds_mapM_iff (convert_adds elem) fun u hu t ht => ?_)
      exact ih (hitems u hu).1 (hle.trans ht)
    | _ =>
      exact iff_of_false (fun ⟨_, _, hrun⟩ => nomatch hrun) fun hv => by cases hv; contradiction
  | map key value ihkey ihvalue =>
    induction v with
    | interface v ihv => exact convert_succeeds_iff_interface (ihv hv)
    | nil => exact iff_of_true ⟨_, _, rfl⟩ (.nilMap key value)
    | map m =>
      have hentries := hs.entries hv
      rw [convert_map_succeeds_iff, Convertible.map_iff, hs.entries_of_le hv hle]
      refine or_congr_right (succeeds_mapM_iff (convertEntry_adds key value) fun e he t ht => ?_)
      rw [convertEntry_succeeds_iff, ihvalue (hentries e he).2.1 (hle.trans ht)]
    | _ =>
      exact iff_of_false (fun ⟨_, _, hrun⟩ => nomatch hrun) fun hv => by cases hv; contradiction
  | struct name =>
    induction v with
    | interface v ihv => exact convert_succeeds_iff_interface (ihv hv)
    | nil => exact iff_of_true ⟨_, _, rfl⟩ (.kept rfl)
    | struct s => exact convert_struct_succeeds_iff.trans Convertible.struct_iff.symm
    | _ =>
      exact iff_of_false (fun ⟨_, _, hrun⟩ => nomatch hrun) fun hv => by cases hv; contradiction
  | pointer elem =>
    induction v with
    | interface v ihv => exact convert_succeeds_iff_interface (ihv hv)
    | nil => exact iff_of_true ⟨_, _, rfl⟩ (.nilPointer elem)
    | pointer p => exact convert_pointer_succeeds_iff.trans Convertible.pointer_iff.symm
    | _ =>
      exact iff_of_false (fun ⟨_, _, hrun⟩ => nomatch hrun) fun hv => by cases hv; contradiction
  | bool | int | float | str =>
    induction v with
    | interface v ihv => exact convert_succeeds_iff_interface (ihv hv)
    | _ =>
      first
      | exact iff_of_true ⟨_, _, rfl⟩ (.kept rfl)
      | exact iff_of_true ⟨_, _, rfl⟩ (.widened _)
      | exact iff_of_false (fun ⟨_, _, hrun⟩ => nomatch hrun) fun hv => by cases hv; contradiction

/-- Whether a value can be converted does not depend on what is added. -/
theorem convert_succeeds_iff_of_le (hs : h.Sound D Γ) {ty : Ty} {v : Value} (hv : v.Fits Γ)
    {g : Heap} (hle : h ≤ g) : (convert ty v).Succeeds g ↔ (convert ty v).Succeeds h :=
  (convert_succeeds_iff hs hv hle).trans (convert_succeeds_iff hs hv le_rfl).symm

theorem mapM_convert_succeeds_iff (hs : h.Sound D Γ) {ty : Ty} {vs : List Value}
    (hvs : ∀ v ∈ vs, v.Fits Γ) {g : Heap} (hle : h ≤ g) :
    (vs.mapM (convert ty)).Succeeds g ↔ ∀ v ∈ vs, (convert ty v).Succeeds h :=
  succeeds_mapM_iff (convert_adds ty) fun v hv _ ht =>
    convert_succeeds_iff_of_le hs (hvs v hv) (hle.trans ht)

/-! ### What conversion gives -/

/-- How a value that is converted to a type between two heaps is related to the result. -/
inductive Rebuilt (h h' : Heap) : Ty → Value → Value → Prop
  | kept {ty : Ty} {v : Value} (hv : v.conforms ty = true) : Rebuilt h h' ty v v
  | interface {ty : Ty} {v w : Value} (hty : ty ≠ .any) (hv : Rebuilt h h' ty v w) :
      Rebuilt h h' ty (.interface v) w
  | widened (n : Int64) : Rebuilt h h' .float (.int n) (.float (.ofInt n.toInt))
  | nilArray {elem : Ty} {b : Address} (hfresh : h.size ≤ b) (hget : h'.get? b = some (.items [])) :
      Rebuilt h h' (.array elem) .nil (.array ⟨elem, false, false, b⟩)
  | nilMap (key value : Ty) : Rebuilt h h' (.map key value) .nil (.map ⟨key, value, none⟩)
  | nilPointer (elem : Ty) : Rebuilt h h' (.pointer elem) .nil (.pointer ⟨elem, none⟩)
  /-- Of an array of other elements a new one is made, to which elements can be added. -/
  | array {elem : Ty} {a : ArrayRef} {b : Address} {ws : List Value} (helem : a.elem ≠ elem)
      (hfresh : h.size ≤ b) (hget : h'.get? b = some (.items ws))
      (hitems : List.Forall₂ (fun v w => (convert elem v).Gives h h' w) (h.items a) ws) :
      Rebuilt h h' (.array elem) (.array a) (.array ⟨elem, false, false, b⟩)
  /-- A nil map of other keys or values becomes another nil map. -/
  | deadMap {key value : Ty} {m : MapRef} (htypes : ¬(m.key = key ∧ m.value = value))
      (hnil : m.isNil = true) : Rebuilt h h' (.map key value) (.map m) (.map ⟨key, value, none⟩)
  /-- Of a map of other keys or values a new one is made, with the same keys. -/
  | map {key value : Ty} {m : MapRef} {b : Address} {es : SortedMap MapKey Value}
      (htypes : ¬(m.key = key ∧ m.value = value)) (hlive : m.isNil = false)
      (hfresh : h.size ≤ b) (hget : h'.get? b = some (.entries es))
      (hentries : List.Forall₂
        (fun e e' => e'.1 = e.1 ∧ (convert value e.2).Gives h h' e'.2)
        (h.entries m).entries es.entries) :
      Rebuilt h h' (.map key value) (.map m) (.map ⟨key, value, some b⟩)

/-- Entries with the keys of a map, in their order, are those of the map that is made of them. -/
theorem SortedMap.entries_ofList_of_keys {es : SortedMap MapKey Value}
    {es' : List (MapKey × Value)} (h : es'.map (·.1) = es.keys) :
    (SortedMap.ofList es').entries = es' :=
  SortedMap.entries_ofList (List.pairwise_map.1 (h ▸ es.keys_increasing))

theorem map_fst_of_forall₂ {P : MapKey × Value → MapKey × Value → Prop}
    {es es' : List (MapKey × Value)} (h : List.Forall₂ (fun e e' => e'.1 = e.1 ∧ P e e') es es') :
    es'.map (·.1) = es.map (·.1) := by
  induction h with
  | nil => rfl
  | cons he _ ih => rw [List.map_cons, List.map_cons, he.1, ih]

namespace Rebuilt

variable {h' : Heap} {w : Value}

theorem of_run_array {elem : Ty} {a : ArrayRef} (helem : a.elem ≠ elem)
    (hrun : (convert (.array elem) (.array a)).run h = (.ok w, h')) :
    Rebuilt h h' (.array elem) (.array a) w := by
  rw [convert_array_of_ne helem] at hrun
  obtain ⟨items, h₀, hget, hitems⟩ := exists_of_run_bind hrun
  cases hget
  obtain ⟨ws, h₁, hws, hmake⟩ := exists_of_run_bind hitems
  cases hmake
  have hle : h ≤ h₁ := (Adds.mapM fun v _ => convert_adds elem v).le_of_run hws
  refine .array helem (Heap.size_le_of_le hle) (Heap.get?_push_self h₁ _) ?_
  exact (gives_of_run_mapM (convert_adds elem) hws).imp fun _ _ hw => hw.mono le_rfl (h₁.le_push _)

theorem of_run_map {key value : Ty} {m : MapRef} (htypes : ¬(m.key = key ∧ m.value = value))
    (hrun : (convert (.map key value) (.map m)).run h = (.ok w, h')) :
    Rebuilt h h' (.map key value) (.map m) w := by
  cases hnil : m.isNil with
  | true =>
    rw [convert_nilMap_of_ne htypes hnil] at hrun
    cases hrun
    exact .deadMap htypes hnil
  | false =>
    rw [convert_map_of_ne htypes hnil] at hrun
    obtain ⟨entries, h₀, hget, hentries⟩ := exists_of_run_bind hrun
    cases hget
    obtain ⟨es, h₁, hes, hmake⟩ := exists_of_run_bind hentries
    cases hmake
    have hle : h ≤ h₁ := (Adds.mapM fun e _ => convertEntry_adds key value e).le_of_run hes
    have hgives := (gives_of_run_mapM (convertEntry_adds key value) hes).imp fun _ _ he =>
      convertEntry_gives (he.mono le_rfl (h₁.le_push (.entries (.ofList es))))
    refine .map htypes hnil (Heap.size_le_of_le hle) (Heap.get?_push_self h₁ _) ?_
    rw [SortedMap.entries_ofList_of_keys (map_fst_of_forall₂ hgives)]
    exact hgives

theorem of_conforms {ty : Ty} {v : Value} (hv : v.conforms ty = true)
    (hrun : (convert ty v).run h = (.ok w, h')) : Rebuilt h h' ty v w := by
  rw [convert_of_conforms hv] at hrun
  cases hrun
  exact .kept hv

/-- What conversion gives is the value itself, or a container that has been rebuilt. -/
theorem of_run {ty : Ty} {v : Value} (hrun : (convert ty v).run h = (.ok w, h')) :
    Rebuilt h h' ty v w := by
  induction v with
  | interface v ih =>
    cases ty with
    | any => exact of_conforms rfl hrun
    | _ => exact .interface nofun (ih hrun)
  | array a =>
    by_cases ha : (Value.array a).conforms ty = true
    · exact of_conforms ha hrun
    · cases ty with
      | array elem => exact of_run_array (fun helem => ha (Value.conforms_array.2 helem)) hrun
      | any => exact (ha rfl).elim
      | _ => cases hrun
  | map m =>
    by_cases hm : (Value.map m).conforms ty = true
    · exact of_conforms hm hrun
    · cases ty with
      | map key value => exact of_run_map (fun htypes => hm (Value.conforms_map.2 htypes)) hrun
      | any => exact (hm rfl).elim
      | _ => cases hrun
  | nil =>
    cases ty with
    | any | struct => exact of_conforms rfl hrun
    | array elem =>
      cases hrun
      exact .nilArray (Nat.le_refl _) (Heap.get?_push_self h _)
    | map key value =>
      cases hrun
      exact .nilMap key value
    | pointer elem =>
      cases hrun
      exact .nilPointer elem
    | _ => cases hrun
  | struct s =>
    by_cases hs : (Value.struct s).conforms ty = true
    · exact of_conforms hs hrun
    · cases ty with
      | struct name =>
        exact (hs (Value.conforms_struct.2 (convert_struct_succeeds_iff.1 ⟨w, h', hrun⟩))).elim
      | any => exact (hs rfl).elim
      | _ => cases hrun
  | pointer p =>
    by_cases hp : (Value.pointer p).conforms ty = true
    · exact of_conforms hp hrun
    · cases ty with
      | pointer elem =>
        exact (hp (Value.conforms_pointer.2 (convert_pointer_succeeds_iff.1 ⟨w, h', hrun⟩))).elim
      | any => exact (hp rfl).elim
      | _ => cases hrun
  | int n =>
    cases ty with
    | any | int => exact of_conforms rfl hrun
    | float =>
      cases hrun
      exact .widened n
    | _ => cases hrun
  | _ =>
    cases ty with
    | any => exact of_conforms rfl hrun
    | _ => first | exact of_conforms rfl hrun | cases hrun

end Rebuilt

/-! ### The main result -/

/-- Conversion ends, whatever it meets in the heap: what it does is settled by the conversions that
are nested at most so deep. It writes no storage that was there. It fails for just the values that
are not in the table of conversions, or hold a value or key that is not, and else gives the value
itself or one that has been rebuilt. -/
theorem convert_rebuilds (hs : h.Sound D Γ) (ty : Ty) {v : Value} (hv : v.Fits Γ) :
    (∃ depth, ∀ beyond, (convertWithin beyond depth ty v).run h = (convert ty v).run h) ∧
    h ≤ ((convert ty v).run h).2 ∧
    ((∃ e, ((convert ty v).run h).1 = .error e) ↔ ¬ Convertible h ty v) ∧
    ∀ w h', (convert ty v).run h = (.ok w, h') → Rebuilt h h' ty v w := by
  refine ⟨convert_settles ty v h, (convert_adds ty v).le h, ?_, fun w h' => Rebuilt.of_run⟩
  rw [← not_succeeds_iff, convert_succeeds_iff hs hv le_rfl]

/-- An array of any values that holds itself and nothing else. -/
def selfHolder : Heap := ⟨#[.items [.array ⟨.any, false, false, 0⟩]]⟩

theorem selfHolder_sound : selfHolder.Sound .untyped ⟨[.array .any false 1]⟩ where
  size := rfl
  fits := by
    rintro (_ | a) d s hd hs <;> cases hd
    cases hs
    refine ⟨rfl, fun v hv => ?_⟩
    obtain rfl := List.mem_singleton.1 hv
    exact ⟨⟨1, rfl⟩, trivial⟩

/-- It is rebuilt as an array of arrays of any values, but cannot become one of arrays of
integers. -/
theorem convert_rebuilds_selfHolder :
    ∃ h', (convert (.array (.array .any)) (.array ⟨.any, false, true, 0⟩)).run selfHolder =
        (.ok (.array ⟨.array .any, false, false, 1⟩), h') ∧ selfHolder ≤ h' ∧
      Rebuilt selfHolder h' (.array (.array .any)) (.array ⟨.any, false, true, 0⟩)
        (.array ⟨.array .any, false, false, 1⟩) ∧
      ¬ Convertible selfHolder (.array (.array .int)) (.array ⟨.any, false, true, 0⟩) := by
  have hfits : (Value.array ⟨.any, false, true, 0⟩).Fits ⟨[.array .any false 1]⟩ := ⟨1, rfl⟩
  obtain ⟨-, hle, -, hrebuilt⟩ := convert_rebuilds selfHolder_sound (.array (.array .any)) hfits
  obtain ⟨-, -, hfails, -⟩ := convert_rebuilds selfHolder_sound (.array (.array .int)) hfits
  have hrun : (convert (.array (.array .any)) (.array ⟨.any, false, true, 0⟩)).run selfHolder =
      (.ok (.array ⟨.array .any, false, false, 1⟩),
        ⟨#[.items [.array ⟨.any, false, false, 0⟩], .items [.array ⟨.any, false, false, 0⟩]]⟩) := by
    decide +kernel
  rw [hrun] at hle
  refine ⟨_, hrun, hle, hrebuilt _ _ hrun, hfails.1 ?_⟩
  exact ⟨.ofCause (.typeConversion (.array .any) .int), by decide +kernel⟩

end TenantScript
