import TenantScript.Proofs.Layout

/-!
Conversion settles on a value. Main statement: what a value is converted to conforms to the type,
a value that conforms to a type is converted to itself without any new storage, so that a second
conversion changes nothing, and the zero value of each type conforms to it.
-/

open TenantScript.Action

namespace TenantScript

/-! ### What conforms to a type -/

namespace Value

@[simp] theorem conforms_array {elem : Ty} {a : ArrayRef} :
    (array a).conforms (.array elem) = true ↔ a.elem = elem :=
  decide_eq_true_iff

@[simp] theorem conforms_map {key value : Ty} {m : MapRef} :
    (map m).conforms (.map key value) = true ↔ m.key = key ∧ m.value = value :=
  decide_eq_true_iff

@[simp] theorem conforms_struct {name : Name} {s : StructRef} :
    (struct s).conforms (.struct name) = true ↔ s.defn.name = name :=
  decide_eq_true_iff

@[simp] theorem conforms_pointer {elem : Ty} {p : PointerRef} :
    (pointer p).conforms (.pointer elem) = true ↔
      elem.isAny ∨ p.elem.isAny ∨ p.elem = elem :=
  decide_eq_true_iff

/-- Of an array, a type sees the elements' type alone. -/
theorem conforms_array_congr {a b : ArrayRef} (helem : b.elem = a.elem) (ty : Ty) :
    (array b).conforms ty = (array a).conforms ty := by
  cases ty with
  | array elem => exact congrArg (fun t => decide (t = elem)) helem
  | _ => rfl

/-- Of a map, a type sees the types of keys and values alone. -/
theorem conforms_map_congr {m n : MapRef} (hkey : n.key = m.key) (hvalue : n.value = m.value)
    (ty : Ty) : (map n).conforms ty = (map m).conforms ty := by
  cases ty with
  | map key value =>
    exact congrArg₂ (fun k v => decide (k = key ∧ v = value)) hkey hvalue
  | _ => rfl

end Value

/-! ### Results conform -/

theorem ArrayRef.make_yields (elem : Ty) (vs : List Value) :
    (make elem vs).Yields fun a => a.elem = elem :=
  .bind fun _ => .pure rfl

theorem MapRef.make_yields (key value : Ty) (m : SortedMap MapKey Value) :
    (make key value m).Yields fun r => r.key = key ∧ r.value = value :=
  .bind fun _ => .pure ⟨rfl, rfl⟩

theorem convert_conforms (ty : Ty) (v : Value) :
    (convert ty v).Yields fun w => w.conforms ty = true := by
  cases ty with
  | any => exact .pure rfl
  | bool | int | float | str =>
    unfold convert
    cases v.bare <;> first | exact .pure rfl | exact .fail _
  | array elem =>
    unfold convert
    cases v.bare with
    | nil =>
      exact .bind_of (ArrayRef.make_yields elem []) fun a ha => .pure (Value.conforms_array.2 ha)
    | array a =>
      simp only
      by_cases he : a.elem = elem
      · rw [if_pos he]
        exact .pure (Value.conforms_array.2 he)
      · rw [if_neg he]
        exact .bind fun items => .bind fun ws => .bind_of (ArrayRef.make_yields elem ws)
          fun r hr => .pure (Value.conforms_array.2 hr)
    | _ => exact .fail _
  | map key value =>
    unfold convert
    cases v.bare with
    | nil => exact .pure (Value.conforms_map.2 ⟨rfl, rfl⟩)
    | map m =>
      simp only
      by_cases he : m.key = key ∧ m.value = value
      · rw [if_pos he]
        exact .pure (Value.conforms_map.2 he)
      · rw [if_neg he]
        by_cases hnil : m.isNil = true
        · rw [if_pos hnil]
          exact .pure (Value.conforms_map.2 ⟨rfl, rfl⟩)
        · rw [if_neg hnil]
          exact .bind fun entries => .bind fun rs => .bind_of (MapRef.make_yields key value _)
            fun r hr => .pure (Value.conforms_map.2 hr)
    | _ => exact .fail _
  | struct name =>
    unfold convert
    cases v.bare with
    | nil => exact .pure rfl
    | struct s =>
      simp only
      by_cases hn : s.defn.name = name
      · rw [if_pos hn]
        exact .pure (Value.conforms_struct.2 hn)
      · rw [if_neg hn]
        exact .fail _
    | _ => exact .fail _
  | pointer elem =>
    unfold convert
    cases v.bare with
    | nil => exact .pure (by simp)
    | pointer p =>
      simp only
      by_cases hp : elem.isAny ∨ p.elem.isAny ∨ p.elem = elem
      · rw [if_pos hp]
        exact .pure (Value.conforms_pointer.2 hp)
      · rw [if_neg hp]
        exact .fail _
    | _ => exact .fail _

/-- There is a zero value of each type, and it conforms to the type. -/
theorem exists_zero (ty : Ty) (h : Heap) :
    ∃ z h', (Value.zero ty).run h = (.ok z, h') ∧ z.conforms ty = true := by
  cases ty with
  | array elem => exact ⟨_, _, rfl, Value.conforms_array.2 rfl⟩
  | map key value => exact ⟨_, _, rfl, Value.conforms_map.2 ⟨rfl, rfl⟩⟩
  | pointer elem => exact ⟨_, _, rfl, by simp⟩
  | _ => exact ⟨_, _, rfl, rfl⟩

theorem zero_conforms (ty : Ty) : (Value.zero ty).Yields fun w => w.conforms ty = true := by
  intro h w hw
  obtain ⟨z, h', hrun, hz⟩ := exists_zero ty h
  rw [hrun] at hw
  cases hw
  exact hz

/-! ### What conforms is kept -/

/-- A value that conforms to a type is converted to itself, and no storage is made for it. -/
theorem convert_of_conforms {ty : Ty} {v : Value} (hv : v.conforms ty = true) :
    convert ty v = pure v := by
  cases ty with
  | any => rfl
  | bool | int | float | str => cases v <;> first | rfl | cases hv
  | array elem =>
    cases v with
    | array a =>
      have helem : a.elem = elem := Value.conforms_array.1 hv
      simp only [convert, Value.bare, if_pos helem]
    | _ => cases hv
  | map key value =>
    cases v with
    | map m =>
      have htypes : m.key = key ∧ m.value = value := Value.conforms_map.1 hv
      simp only [convert, Value.bare, if_pos htypes]
    | _ => cases hv
  | struct name =>
    cases v with
    | nil => rfl
    | struct s =>
      have hname : s.defn.name = name := Value.conforms_struct.1 hv
      simp only [convert, Value.bare, if_pos hname]
    | _ => cases hv
  | pointer elem =>
    cases v with
    | pointer p =>
      have helem : elem.isAny ∨ p.elem.isAny ∨ p.elem = elem := Value.conforms_pointer.1 hv
      simp only [convert, Value.bare, if_pos helem]
    | _ => cases hv

/-- Values that conform to a type are all converted to themselves. -/
theorem mapM_convert_of_conforms {ty : Ty} : {vs : List Value} →
    (∀ v ∈ vs, v.conforms ty = true) → vs.mapM (convert ty) = pure vs
  | [], _ => List.mapM_nil
  | v :: vs, h => by
    rw [List.mapM_cons, convert_of_conforms (h v List.mem_cons_self), pure_bind,
      mapM_convert_of_conforms fun w hw => h w (List.mem_cons_of_mem v hw), pure_bind]

/-- What a value is converted to conforms to the type and, in every heap, is converted to itself
without a change of the heap. A value that conforms to the type is converted to itself right away.
The zero value of the type, which there always is, conforms to it. -/
theorem convert_stable (ty : Ty) (v : Value) (h : Heap) :
    (∀ w h', (convert ty v).run h = (.ok w, h') →
      w.conforms ty = true ∧ ∀ g, (convert ty w).run g = (.ok w, g)) ∧
    (v.conforms ty = true → (convert ty v).run h = (.ok v, h)) ∧
    ∃ z h', (Value.zero ty).run h = (.ok z, h') ∧ z.conforms ty = true := by
  refine ⟨fun w h' hrun => ?_, fun hv => ?_, exists_zero ty h⟩
  · have hw : w.conforms ty = true := convert_conforms ty v h w (congrArg Prod.fst hrun)
    refine ⟨hw, fun g => ?_⟩
    rw [convert_of_conforms hw]
    rfl
  · rw [convert_of_conforms hv]
    rfl

/-- Two integers and an array of them, of any values, behind an interface: as an array of arrays of
floating-point numbers it is rebuilt at both levels, and then kept. -/
def nestedIntegers : Heap :=
  ⟨#[.items [.int 1, .int 2], .items [.interface (.array ⟨.any, false, false, 0⟩)]]⟩

theorem convert_stable_nestedIntegers :
    ∃ h', (convert (.array (.array .float)) (.interface (.array ⟨.any, true, true, 1⟩))).run
        nestedIntegers = (.ok (.array ⟨.array .float, false, false, 3⟩), h') ∧
      h'.get? 3 = some (.items [.array ⟨.float, false, false, 2⟩]) ∧
      (convert (.array (.array .float)) (.array ⟨.array .float, false, false, 3⟩)).run h' =
        (.ok (.array ⟨.array .float, false, false, 3⟩), h') := by
  let result := (convert (.array (.array .float)) (.interface (.array ⟨.any, true, true, 1⟩))).run
    nestedIntegers
  have hrun : result = (.ok (.array ⟨.array .float, false, false, 3⟩), result.2) := by
    decide +kernel
  obtain ⟨-, hkept⟩ := (convert_stable _ _ nestedIntegers).1 _ _ hrun
  exact ⟨result.2, hrun, by decide +kernel, hkept result.2⟩

end TenantScript
