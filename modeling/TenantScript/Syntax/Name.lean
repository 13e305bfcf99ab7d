import TenantScript.Text.Quoted

/-!
Identifiers, which are texts. A dotted one is qualified: it refers to a binding that the host
provides, and a script can assign to it but never declare it.
-/

namespace TenantScript

/-- An identifier. -/
abbrev Name := String

namespace Name

/-- Whether the identifier contains a dot. -/
def isQualified (n : Name) : Bool := n.toList.contains '.'

/-- The order of identifiers, by code points. -/
def order (m n : Name) : Ordering := compare m n

end Name

end TenantScript
