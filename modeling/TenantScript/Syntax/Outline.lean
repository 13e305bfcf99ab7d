import TenantScript.Syntax.Stmt

/-!
Outlines of syntax trees: each node as the name of its kind, its parts between brackets and its
span, as in `Deref(Ident("p") @ 1..2) @ 0..2`.
-/

namespace TenantScript

namespace Outline

/-- Items between square brackets, separated by commas. -/
def bracketed (items : List String) : String := "[" ++ ", ".intercalate items ++ "]"

/-- The name of a node followed by its parts with their names, between braces. -/
def record (name : String) (parts : List (String × String)) : String :=
  name ++ " \x7b " ++ ", ".intercalate (parts.map fun p => p.1 ++ ": " ++ p.2) ++ " \x7d"

/-- The outline of a node of kind `kind` at `span`. -/
def node (kind : String) (span : Span) : String := kind ++ " @ " ++ span.text

end Outline

open Outline

/-- The outline of a literal; a floating-point number shows its bits. -/
def Literal.outline : Literal → String
  | nil => "Nil"
  | bool b => s!"Bool({b})"
  | int n => s!"Int({n.toInt})"
  | float x => s!"Float({x.bits.toNat})"
  | str s => s!"Str({Text.quoted s})"

mutual
/-- The outline of an expression. -/
def Expr.outline : Expr → String
  | .literal v s => node v.outline s
  | .array xs s => node ("Array(" ++ bracketed (Expr.outlines xs) ++ ")") s
  | .ident n s => node ("Ident(" ++ Text.quoted n ++ ")") s
  | .member o f s =>
    node (record "Member" [("object", o.outline), ("field", Text.quoted f)]) s
  | .item c i s => node (record "Item" [("collection", c.outline), ("index", i.outline)]) s
  | .slice c a b s =>
    node (record "Slice" [("collection", c.outline), ("begin", Expr.boundOutline a),
      ("end", Expr.boundOutline b)]) s
  | .deref p s => node ("Deref(" ++ p.outline ++ ")") s
  | .assign t v s => node (record "Assign" [("target", t.outline), ("value", v.outline)]) s
termination_by structural e => e

/-- The outlines of a list of expressions. -/
def Expr.outlines : List Expr → List String
  | [] => []
  | e :: es => e.outline :: Expr.outlines es
termination_by structural es => es

/-- The outline of a part that may be missing. -/
def Expr.boundOutline : Option Expr → String
  | none => "None"
  | some e => "Some(" ++ e.outline ++ ")"
termination_by structural bound => bound
end

mutual
/-- The outline of a statement. -/
def Stmt.outline : Stmt → String
  | .expr e s => node ("Expr(" ++ e.outline ++ ")") s
  | .assign ts vs s =>
    node (record "Assign" [("targets", bracketed (Expr.outlines ts)),
      ("values", bracketed (Expr.outlines vs))]) s
  | .forIn v i b s =>
    node (record "For" [("var", v.outline), ("iterable", i.outline),
      ("body", bracketed (Stmt.outlines b))]) s
  | .ret v s => node ("Return(" ++ Expr.boundOutline v ++ ")") s
termination_by structural s => s

/-- The outlines of a list of statements. -/
def Stmt.outlines : List Stmt → List String
  | [] => []
  | s :: ss => s.outline :: Stmt.outlines ss
termination_by structural ss => ss
end

end TenantScript
