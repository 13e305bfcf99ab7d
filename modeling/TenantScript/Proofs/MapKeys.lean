import TenantScript.Proofs.Link
import TenantScript.Proofs.Nesting
import TenantScript.Proofs.Place
import TenantScript.Proofs.Rebuilding

/-!
Keys of maps. A value is a key of a map just where it is a boolean, an integer or a text that the
declared type of the keys takes, and which key it is does not depend on the interfaces that it is
held behind. Keys of different kinds are different, booleans come before integers and integers
before texts. A map with keys of any other type cannot be read or stored into.
-/

open TenantScript.Action

namespace TenantScript

/-! ### Which key a value is -/

namespace MapKey

theorem toValue_injective : Function.Injective toValue := by
  intro k k' heq
  exact Option.some.inj ((ofValue?_toValue k).symm.trans (heq ▸ ofValue?_toValue k'))

theorem ofValue?_eq_some_iff {v : Value} {k : MapKey} :
    ofValue? v = some k ↔ v.unwrap = k.toValue := by
  unfold ofValue?
  cases v.unwrap <;> cases k <;> simp [toValue]

/-- Booleans come before integers, and integers before texts. -/
theorem compare_kinds (b : Bool) (n : Int64) (s : String) :
    compare (bool b) (int n) = .lt ∧ compare (int n) (str s) = .lt ∧
      compare (bool b) (str s) = .lt := ⟨rfl, rfl, rfl⟩

end MapKey

/-- What a value is as a key: any interfaces around it do not count, or, where the keys of a map can
be of any kind, one. -/
def Ty.keyPart (key : Ty) (v : Value) : Value := if key.isAny then v.unwrap else v.bare

/-- Whether a value is a key of a map with keys of a type. -/
def Ty.KeyOf (key : Ty) (v : Value) (k : MapKey) : Prop :=
  key.TakesKey k ∧ key.keyPart v = k.toValue

section Keys

variable {key : Ty} {v v' : Value} {k k' : MapKey} {h h' : Heap}

/-- What a value is converted to for a key is what it is as a key. -/
theorem unwrap_of_run_convert {w : Value} (hkey : key.isHashable = true)
    (hrun : (convert key v).run h = (.ok w, h')) : w.unwrap = key.keyPart v := by
  cases key with
  | any =>
    cases hrun
    rfl
  | bool | int | str =>
    rw [convert] at hrun
    show w.unwrap = v.bare
    split at hrun
    · next hbare =>
      cases hrun
      exact hbare.symm
    · cases hrun
  | _ => cases hkey

/-- A value is converted to the key that it is. -/
theorem run_convertKey_iff : (convertKey key v).run h = (.ok k, h') ↔ h' = h ∧ key.KeyOf v k := by
  constructor
  · intro hrun
    obtain ⟨rfl, -⟩ := run_convertKey_of_run hrun
    refine ⟨rfl, ?_⟩
    unfold convertKey keyVia at hrun
    split at hrun
    · cases hrun
    · next hhashable =>
      have hkey : key.isHashable = true := by simpa using hhashable
      obtain ⟨w, h₁, hw, hrequire⟩ := exists_of_run_bind hrun
      have hunwrap := MapKey.ofValue?_eq_some_iff.1 (eq_of_run_require hrequire).1
      have hconforms := Value.conforms_unwrap (convert_conforms key v _ w (congrArg Prod.fst hw))
      exact ⟨⟨hkey, hunwrap ▸ hconforms⟩, (unwrap_of_run_convert hkey hw).symm.trans hunwrap⟩
  · rintro ⟨rfl, htakes, hpart⟩
    -- no type of a key has values that are converted into new storages
    have hconvert : ∃ w, convert key v = pure w ∧ MapKey.ofValue? w = some k := by
      cases key with
      | any => exact ⟨v, rfl, MapKey.ofValue?_eq_some_iff.2 hpart⟩
      | bool | int | str =>
        have hbare : v.bare = k.toValue := hpart
        refine ⟨k.toValue, ?_, MapKey.ofValue?_toValue k⟩
        rw [convert, hbare]
        cases k <;> first | rfl | cases htakes.2
      | _ => cases htakes.1
    obtain ⟨w, hw, hk⟩ := hconvert
    unfold convertKey keyVia
    rw [htakes.1, hw, pure_bind, hk]
    rfl

/-- Two keys are the same just where the values are the same boolean, integer or text. -/
theorem Ty.KeyOf.eq_iff (hk : key.KeyOf v k) (hk' : key.KeyOf v' k') :
    k = k' ↔ key.keyPart v = key.keyPart v' := by
  rw [hk.2, hk'.2, MapKey.toValue_injective.eq_iff]

theorem Ty.isHashable_iff : key.isHashable = true ↔
    key = .any ∨ key = .bool ∨ key = .int ∨ key = .str := by
  cases key <;> simp [Ty.isHashable]

end Keys

/-! ### Maps with keys of other types -/

section Unhashable

variable {m : MapRef} (hm : m.key.isHashable = false)

include hm

theorem exists_run_convertKey_error (v : Value) :
    ∃ e, ∀ h, (convertKey m.key v).run h = (.error e, h) := by
  unfold convertKey keyVia
  rw [hm]
  exact ⟨_, fun h => rfl⟩

/-- Such a map cannot be stored into. -/
theorem MapRef.run_insert_unhashable (key v : Value) (h : Heap) :
    ∃ e, (m.insert key v).run h = (.error e, h) := by
  obtain ⟨e, he⟩ := exists_run_convertKey_error hm key
  exact ⟨e, run_bind_error _ (he h)⟩

/-- Nor can it be read. -/
theorem MapRef.not_succeeds_read (key : Value) (h : Heap) : ¬ (m.read key).Succeeds h := by
  obtain ⟨e, he⟩ := exists_run_convertKey_error hm key
  exact not_succeeds_iff.2 ⟨e, congrArg Prod.fst (run_bind_error _ (he h))⟩

variable {limit : Nat} {collection object index : Expr} {span : Span} {field : Name} {u : Value}
  {st s : State}

/-- A script cannot read an item of it. -/
theorem not_succeeds_item (hu : (evaluate limit collection).run st = (.ok u, s))
    (hmap : u.unwrap = .map m) : ¬ (evaluate limit (.item collection index span)).Succeeds st := by
  rintro ⟨w, st', hrun⟩
  obtain ⟨u', s', hu', hindex⟩ := exists_of_run_bind (node_of_evaluate hrun)
  cases hu.symm.trans hu'
  obtain ⟨k, s₁, -, hread⟩ := exists_of_run_bind hindex
  obtain ⟨heap, hread, -⟩ := Run.exists_of_run_onHeap hread
  unfold readItem at hread
  rw [hmap] at hread
  exact m.not_succeeds_read hm k s₁.heap ⟨w, heap, hread⟩

/-- Nor can a script read a member of it, also through a pointer. -/
theorem not_succeeds_member {via : Option PointerRef}
    (hu : (evaluate limit object).run st = (.ok u, s))
    (hmap : ContainerOf s.heap u (.map m, via)) :
    ¬ (evaluate limit (.member object field span)).Succeeds st := by
  rintro ⟨w, st', hrun⟩
  obtain ⟨u', s', hu', hread⟩ := exists_of_run_bind (node_of_evaluate hrun)
  cases hu.symm.trans hu'
  obtain ⟨heap, hread, -⟩ := Run.exists_of_run_onHeap hread
  obtain ⟨c, heap', hc, hmember⟩ := exists_of_run_bind hread
  cases (memberSource_of_container hmap).symm.trans hc
  exact m.not_succeeds_read hm _ s.heap ⟨w, heap, hmember⟩

end Unhashable

end TenantScript
