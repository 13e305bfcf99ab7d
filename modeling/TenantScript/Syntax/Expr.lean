import TenantScript.Number.Binary64
import TenantScript.Syntax.Name
import TenantScript.Syntax.Span

/-!
Expressions. Those that denote a place to store into (`isLvalue`) are also the targets of
assignments. Equality of expressions is decidable; it compares spans, and floating-point literals
by their bits.
-/

namespace TenantScript

/-- A literal other than an array. -/
inductive Literal where
  | nil
  | bool (b : Bool)
  | int (n : Int64)
  | float (x : Binary64)
  | str (s : String)
  deriving DecidableEq, Inhabited

/-- An expression, every node of which has its span. -/
inductive Expr where
  | literal (value : Literal) (span : Span)
  /-- An array literal, as in `[a, b]`. -/
  | array (items : List Expr) (span : Span)
  | ident (name : Name) (span : Span)
  /-- Access to a member, as in `object.field`. -/
  | member (object : Expr) (field : Name) (span : Span)
  /-- Access by an index, as in `collection[index]`. -/
  | item (collection index : Expr) (span : Span)
  /-- Access to a range, as in `collection[start:stop]`, either bound of which may be missing. -/
  | slice (collection : Expr) (start stop : Option Expr) (span : Span)
  /-- What a pointer points to, as in `*pointer`. -/
  | deref (pointer : Expr) (span : Span)
  /-- An assignment, which has the stored value as its value. -/
  | assign (target value : Expr) (span : Span)
  deriving Inhabited

namespace Expr

/-- The span of the outermost node. -/
def span : Expr → Span
  | literal _ s | array _ s | ident _ s | member _ _ s | item _ _ s | slice _ _ _ s | deref _ s
  | assign _ _ s => s

/-- The expression with another span at its outermost node. -/
def withSpan : Expr → Span → Expr
  | literal v _, s => literal v s
  | array xs _, s => array xs s
  | ident n _, s => ident n s
  | member o f _, s => member o f s
  | item c i _, s => item c i s
  | slice c a b _, s => slice c a b s
  | deref p _, s => deref p s
  | assign t v _, s => assign t v s

@[simp] theorem span_withSpan (e : Expr) (s : Span) : (e.withSpan s).span = s := by
  cases e <;> rfl

@[simp] theorem withSpan_span (e : Expr) : e.withSpan e.span = e := by
  cases e <;> rfl

/-- Whether the expression denotes a place to store into. -/
def isLvalue : Expr → Bool
  | ident .. | member .. | item .. | slice .. | deref .. => true
  | literal .. | array .. | assign .. => false

/-- What the expression is, for a message. -/
def describe : Expr → String
  | literal .nil _ => "nil literal"
  | literal (.bool _) _ => "bool literal"
  | literal (.int _) _ => "int literal"
  | literal (.float _) _ => "float literal"
  | literal (.str _) _ => "string literal"
  | array .. => "array literal"
  | ident .. => "identifier"
  | member .. => "member access"
  | item .. => "index access"
  | slice .. => "slice access"
  | deref .. => "dereference"
  | assign .. => "assignment"

/-! ### Equality -/

mutual
/-- Whether two expressions are the same tree. -/
def same : Expr → Expr → Bool
  | literal v s, literal v' s' => v == v' && s == s'
  | array xs s, array xs' s' => sameAll xs xs' && s == s'
  | ident n s, ident n' s' => n == n' && s == s'
  | member o f s, member o' f' s' => o.same o' && f == f' && s == s'
  | item c i s, item c' i' s' => c.same c' && i.same i' && s == s'
  | slice c a b s, slice c' a' b' s' => c.same c' && sameBound a a' && sameBound b b' && s == s'
  | deref p s, deref p' s' => p.same p' && s == s'
  | assign t v s, assign t' v' s' => t.same t' && v.same v' && s == s'
  | _, _ => false
termination_by structural e => e

/-- Whether two lists hold the same trees. -/
def sameAll : List Expr → List Expr → Bool
  | [], [] => true
  | x :: xs, y :: ys => x.same y && sameAll xs ys
  | _, _ => false
termination_by structural es => es

/-- Whether two bounds are the same tree, or both missing. -/
def sameBound : Option Expr → Option Expr → Bool
  | none, none => true
  | some x, some y => x.same y
  | _, _ => false
termination_by structural bound => bound
end

mutual
theorem same_iff : (d e : Expr) → (d.same e = true ↔ d = e)
  | literal v s, e => by cases e <;> simp [same]
  | array xs s, e => by cases e <;> simp [same, sameAll_iff xs]
  | ident n s, e => by cases e <;> simp [same]
  | member o f s, e => by cases e <;> simp [same, same_iff o, and_assoc]
  | item c i s, e => by cases e <;> simp [same, same_iff c, same_iff i, and_assoc]
  | slice c a b s, e => by
    cases e <;> simp [same, same_iff c, sameBound_iff a, sameBound_iff b, and_assoc]
  | deref p s, e => by cases e <;> simp [same, same_iff p]
  | assign t v s, e => by cases e <;> simp [same, same_iff t, same_iff v, and_assoc]

theorem sameAll_iff : (ds es : List Expr) → (sameAll ds es = true ↔ ds = es)
  | [], es => by cases es <;> simp [sameAll]
  | d :: ds, es => by cases es <;> simp [sameAll, same_iff d, sameAll_iff ds]

theorem sameBound_iff : (a b : Option Expr) → (sameBound a b = true ↔ a = b)
  | none, b => by cases b <;> simp [sameBound]
  | some e, b => by cases b <;> simp [sameBound, same_iff e]
end

instance : DecidableEq Expr := fun d e => decidable_of_iff _ (same_iff d e)

end Expr

end TenantScript
