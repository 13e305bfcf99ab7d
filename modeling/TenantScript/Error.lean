import TenantScript.Syntax.Span
import TenantScript.Value.Basic

/-!
Errors of evaluation: why it failed, and where in the script. The place is that of the innermost
node that has one: `orAt` never replaces a place that an error already has.
-/

namespace TenantScript

/-- What was tried on a value that does not support it. -/
inductive Operation where
  | memberAccess
  | indexAccess
  | sliceAccess
  | memberAssignment
  | indexAssignment
  | sliceAssignment
  | iteration
  deriving DecidableEq, Inhabited

/-- The operation in a message. -/
def Operation.text : Operation → String
  | memberAccess => "member access"
  | indexAccess => "index access"
  | sliceAccess => "slice access"
  | memberAssignment => "member assignment"
  | indexAssignment => "index assignment"
  | sliceAssignment => "slice assignment"
  | iteration => "iteration"

/-- Why evaluation failed. -/
inductive Cause where
  | undefinedSymbol (name : Name)
  | noSuchMember (field : Name) (typeName : String)
  /-- The place rejects stores. -/
  | notSettable (target : String)
  | typeConversion (source target : Ty)
  | indexNotNumeric (kind : Kind)
  | indexOutOfRange (index : Int) (length : Nat)
  | invalidRange (start stop : Int) (length : Nat)
  /-- As many values as `sourceLength` were given for the range from `start` to `stop`. -/
  | rangeMismatch (start stop : Int) (length sourceLength : Nat)
  | unsupported (operation : Operation) (kind : Kind)
  | typeInvalid (detail : String)
  | invalidOperation (detail : String)
  | depthLimitExceeded (limit : Nat)
  /-- A failure that the host reports in its own words. -/
  | custom (message : String)
  deriving DecidableEq, Inhabited

namespace Cause

/-- The largest position that an error reports. -/
def maxPosition : Nat := Int64.maxValue.toNatClampNeg

/-- The failure to store `sourceLength` values into the range from `start` to `stop`. -/
def mismatch (start stop length sourceLength : Nat) : Cause :=
  rangeMismatch (min start maxPosition : Nat) (min stop maxPosition : Nat) length sourceLength

/-- The kind of failure in words. -/
def summary : Cause → String
  | undefinedSymbol name => s!"undefined symbol '{name}'"
  | noSuchMember field typeName => s!"no member named '{field}' for {typeName}"
  | notSettable target => s!"{target} cannot be assigned"
  | typeConversion source target =>
    s!"type {source.text} cannot be assigned to type {target.text}"
  | indexNotNumeric kind => s!"index must be a number, got {kind.text}"
  | indexOutOfRange index length => s!"index {index} out of range for length {length}"
  | invalidRange start stop length | rangeMismatch start stop length _ =>
    s!"invalid slice index [{start}:{stop}] for length {length}"
  | unsupported operation kind => s!"{operation.text} is not supported on {kind.text}"
  | typeInvalid detail => s!"type invalid: {detail}"
  | invalidOperation detail => s!"invalid operation: {detail}"
  | depthLimitExceeded limit => s!"maximum nesting depth exceeded (limit: {limit})"
  | custom message => message

/-- The message of the failure, which is its kind in words except that a range given too few or
too many values says how many. -/
def message : Cause → String
  | rangeMismatch start stop _ sourceLength =>
    let room := stop - start
    s!"invalid slice index [{start}:{stop}]: range holds {room} elements, value has {sourceLength}"
  | cause => cause.summary

end Cause

/-- A failed evaluation. -/
structure EvalError where
  cause : Cause
  span? : Option Span
  deriving DecidableEq, Inhabited

namespace EvalError

/-- A failure that is not placed yet. -/
def ofCause (cause : Cause) : EvalError := ⟨cause, none⟩

/-- What went wrong, in words. -/
def message (e : EvalError) : String := e.cause.message

/-- The failure, placed at `s`. -/
def placedAt (e : EvalError) (s : Span) : EvalError := { e with span? := some s }

/-- The failure, placed at `s` if it has no place and `s` is one. -/
def orAt (e : EvalError) (s : Span) : EvalError :=
  if e.span?.isNone && !s.isDummy then e.placedAt s else e

/-- The message, with the place if there is one. -/
def text (e : EvalError) : String :=
  match e.span? with
  | some s => s!"{e.message} at {s.text}"
  | none => e.message

@[simp] theorem cause_orAt (e : EvalError) (s : Span) : (e.orAt s).cause = e.cause := by
  unfold orAt placedAt; split <;> rfl

theorem orAt_of_isSome {e : EvalError} (s : Span) (h : e.span?.isSome) : e.orAt s = e := by
  unfold orAt
  rw [if_neg]
  simp [Option.isNone_eq_false_iff.2 h]

theorem span?_orAt {e : EvalError} {s : Span} (h : e.span? = none) (hs : s.isDummy = false) :
    (e.orAt s).span? = some s := by
  simp [orAt, placedAt, h, hs]

end EvalError

end TenantScript
