import TenantScript.Proofs.Commands
import TenantScript.Proofs.Conversion

/-!
Declared types are never violated. Main statement: from a state in which every element, entry and
field conforms to its declared type, each operation on values and each run of a script, whether it
succeeds or fails, leads to such a state again, in which the storages made meanwhile are declared
too.
-/

open TenantScript.Action

namespace TenantScript

theorem MapKey.conforms_toValue {key : Ty} {v : Value} {k : MapKey} (hkey : key.isHashable)
    (hv : v.conforms key = true) (hk : MapKey.ofValue? v = some k) :
    k.toValue.conforms key = true := by
  cases key <;> cases v <;> simp [Ty.isHashable, Value.conforms, ofValue?, Value.unwrap] at * <;>
    subst hk <;> rfl

/-- A value is of a type if it conforms to it. -/
def Discipline.typed : Discipline where
  Admits ty v := v.conforms ty = true
  convert := convert_conforms
  zero := zero_conforms
  any _ := rfl
  key := MapKey.conforms_toValue

/-! ### Commands -/

namespace Command

variable {Γ : Layout}

/-- In a state in which all that is stored conforms to how it was declared, given values that fit,
a command that succeeds or fails keeps every declaration, declares the storages that it makes, and
leaves a state in which all that is stored conforms. -/
theorem run_wellTyped (c : Command) (st : State) (hst : st.Sound .typed Γ)
    (hc : ∀ v ∈ c.values, v.Fits Γ) :
    ∃ Δ, Γ ≤ Δ ∧ (c.run.run st).2.Sound .typed Δ ∧ ∀ v, (c.run.run st).1 = .ok v → v.Fits Δ :=
  c.run_sound hc st hst

/-- A tenant with a list of limits for each resource. -/
def tenantDef : StructDef := ⟨"Tenant", [⟨"limits", .map .str (.array .float), true⟩]⟩

/-- The limits of a tenant are a nil map; the array at address 0 is of any values. -/
def tenantState : State :=
  { env := ⟨[], SortedMap.empty.insert "tenant" (.struct ⟨tenantDef, 1⟩)⟩
    heap := (Heap.empty.push (.items [.int 1, .int 2])).push
      (.fields [.map ⟨.str, .array .float, none⟩])
    depth := 0 }

def tenantLayout : Layout := ((Layout.mk []).push (.array .any false 2)).push (.struct tenantDef)

/-- `tenant.limits["cpu"] = [1, 2]`. -/
def setCpuLimits : Command :=
  .assign 8 (.item (.member (.ident "tenant" .dummy) "limits" .dummy)
    (.literal (.str "cpu") .dummy) .dummy) (.array ⟨.any, false, false, 0⟩)

theorem tenantState_sound : tenantState.Sound .typed tenantLayout := by
  have hitems : (Storage.items [.int 1, .int 2]).Fits .typed ⟨[]⟩ (.array .any false 2) := by
    refine ⟨rfl, fun v hv => ⟨?_, rfl⟩⟩
    simp only [List.mem_cons, List.not_mem_nil, or_false] at hv
    rcases hv with rfl | rfl <;> trivial
  have hfields : (Storage.fields [.map ⟨.str, .array .float, none⟩]).Fits .typed
      ((Layout.mk []).push (.array .any false 2)) (.struct tenantDef) :=
    .cons ⟨(fun a ha => nomatch ha), rfl⟩ .nil
  refine ⟨((Heap.Sound.empty .typed).push hitems).push hfields, fun scope hscope e he => ?_⟩
  obtain rfl := List.mem_singleton.1 hscope
  obtain rfl := List.mem_singleton.1 he
  rfl

/-- The nil map is replaced by one with a new array of floating-point numbers. -/
theorem run_wellTyped_setCpuLimits :
    (setCpuLimits.run.run tenantState).1 = .ok (.map ⟨.str, .array .float, some 3⟩) ∧
      ∃ Δ, tenantLayout ≤ Δ ∧ (setCpuLimits.run.run tenantState).2.Sound .typed Δ ∧
        ∀ v, (setCpuLimits.run.run tenantState).1 = .ok v → v.Fits Δ := by
  refine ⟨by decide +kernel, run_wellTyped setCpuLimits tenantState tenantState_sound ?_⟩
  intro v hv
  obtain rfl := List.mem_singleton.1 hv
  exact ⟨2, rfl⟩

end Command

end TenantScript
