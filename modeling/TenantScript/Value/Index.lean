import TenantScript.Text.Numeral
import TenantScript.Error

/-!
Positions: how a value is read as an index, and which ranges fit a length.
-/

namespace TenantScript

/-- The integer that a value denotes as an index or a bound. A finite number is cut toward zero,
a string is read as a decimal numeral, and `true` is one. -/
def toIndex : Value → Except Cause Int
  | .int n => .ok n.toInt
  | .float x => if x.isFinite then .ok x.truncate else .error (.indexNotNumeric .float)
  | .str s =>
    match Text.readInt64? s with
    | some n => .ok n
    | none => .error (.indexNotNumeric .str)
  | .bool b => .ok (if b then 1 else 0)
  | .interface inner => toIndex inner
  | v => .error (.indexNotNumeric v.kind)

/-- The position that an index stands for, if it is not negative. -/
def position? (index : Int) : Option Nat := if 0 ≤ index then some index.toNat else none

theorem position?_eq_some_iff {index : Int} {i : Nat} : position? index = some i ↔ index = i := by
  unfold position?
  split
  · simp only [Option.some.injEq]
    omega
  · simp only [reduceCtorEq, false_iff]
    omega

theorem position?_eq_none_iff {index : Int} : position? index = none ↔ index < 0 := by
  unfold position?
  split
  · simp only [reduceCtorEq, false_iff]
    omega
  · simp only [true_iff]
    omega

/-- The two ends of a half-open range of positions, if it fits a length. -/
def checkedRange (start stop : Int) (length : Nat) : Except Cause (Nat × Nat) :=
  if 0 ≤ start ∧ start ≤ stop ∧ stop ≤ length then .ok (start.toNat, stop.toNat)
  else .error (.invalidRange start stop length)

theorem checkedRange_eq_ok_iff {start stop : Int} {length : Nat} {r : Nat × Nat} :
    checkedRange start stop length = .ok r ↔
      start = r.1 ∧ stop = r.2 ∧ r.1 ≤ r.2 ∧ r.2 ≤ length := by
  unfold checkedRange
  split
  · next h =>
    constructor
    · intro e; cases e; simp only; omega
    · rintro ⟨h₁, h₂, _, _⟩
      cases r
      simp only at h₁ h₂
      subst h₁ h₂
      rfl
  · next h =>
    constructor
    · intro e; cases e
    · rintro ⟨h₁, h₂, h₃, h₄⟩
      exact absurd ⟨by omega, by omega, by omega⟩ h

end TenantScript
