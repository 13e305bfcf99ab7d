import TenantScript.Syntax.Expr

/-!
Statements, with decidable equality.
-/

namespace TenantScript

/-- A statement, every node of which has its span. -/
inductive Stmt where
  | expr (e : Expr) (span : Span)
  /-- Assignment of several values to several targets, as in `a, b = x, y`. -/
  | assign (targets values : List Expr) (span : Span)
  /-- A loop over the items of an array, the keys of a map or the characters of a string, each
  assigned to the target `var` in a scope of its own. -/
  | forIn (var iterable : Expr) (body : List Stmt) (span : Span)
  | ret (value : Option Expr) (span : Span)
  deriving Inhabited

namespace Stmt

/-- The span of the outermost node. -/
def span : Stmt → Span
  | expr _ s | assign _ _ s | forIn _ _ _ s | ret _ s => s

/-- The statement with another span at its outermost node. -/
def withSpan : Stmt → Span → Stmt
  | expr e _, s => expr e s
  | assign ts vs _, s => assign ts vs s
  | forIn v i b _, s => forIn v i b s
  | ret v _, s => ret v s

/-- An expression as a statement, in the same place. -/
def ofExpr (e : Expr) : Stmt := expr e e.span

/-- Whether the statement is an expression, which gives a block its value. -/
def isExpr : Stmt → Bool
  | expr .. => true
  | _ => false

mutual
/-- Whether two statements are the same tree. -/
def same : Stmt → Stmt → Bool
  | expr e s, expr e' s' => e == e' && s == s'
  | assign ts vs s, assign ts' vs' s' => ts == ts' && vs == vs' && s == s'
  | forIn v i b s, forIn v' i' b' s' => v == v' && i == i' && sameAll b b' && s == s'
  | ret v s, ret v' s' => v == v' && s == s'
  | _, _ => false
termination_by structural s => s

/-- Whether two lists hold the same trees. -/
def sameAll : List Stmt → List Stmt → Bool
  | [], [] => true
  | x :: xs, y :: ys => x.same y && sameAll xs ys
  | _, _ => false
termination_by structural ss => ss
end

mutual
theorem same_iff : (a b : Stmt) → (a.same b = true ↔ a = b)
  | expr e s, b => by cases b <;> simp [same]
  | assign ts vs s, b => by cases b <;> simp [same, and_assoc]
  | forIn v i body s, b => by cases b <;> simp [same, sameAll_iff body, and_assoc]
  | ret v s, b => by cases b <;> simp [same]

theorem sameAll_iff : (as bs : List Stmt) → (sameAll as bs = true ↔ as = bs)
  | [], bs => by cases bs <;> simp [sameAll]
  | a :: as, bs => by cases bs <;> simp [sameAll, same_iff a, sameAll_iff as]
end

instance : DecidableEq Stmt := fun a b => decidable_of_iff _ (same_iff a b)

end Stmt

end TenantScript
