import TenantScript.Text.CodePoint

/-!
Decimal numerals of integers inside a text: blanks around, an optional sign, and ASCII digits.
-/

namespace TenantScript.Text

/-- The characters of a text without the blanks at both ends. -/
def trimmed (cs : List Char) : List Char :=
  ((cs.dropWhile isBlank).reverse.dropWhile isBlank).reverse

/-- Whether `cs` is a non-empty run of ASCII digits. -/
def isDigits (cs : List Char) : Bool := !cs.isEmpty && cs.all Char.isDigit

/-- The number that a run of digits denotes, the most significant digit first. -/
def magnitude (cs : List Char) : Nat := cs.foldl (fun n c => 10 * n + (c.toNat - '0'.toNat)) 0

/-- The integer that a numeral denotes: digits after at most one sign. -/
def signed? : List Char → Option Int
  | '-' :: cs => if isDigits cs then some (-(magnitude cs : Int)) else none
  | '+' :: cs => if isDigits cs then some (magnitude cs : Int) else none
  | cs => if isDigits cs then some (magnitude cs : Int) else none

/-- Whether `n` is a 64-bit signed integer. -/
def fitsInt64 (n : Int) : Bool := Int64.minValue.toInt ≤ n && n ≤ Int64.maxValue.toInt

/-- The 64-bit integer whose numeral `s` holds, with blanks around it. -/
def readInt64? (s : String) : Option Int := (signed? (trimmed s.toList)).filter fitsInt64

end TenantScript.Text
