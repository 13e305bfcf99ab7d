import TenantScript.Value.Heap

/-!
Equality of values by what they hold. Containers are compared by contents, pointers by the cell,
and an interface is looked through, one at each level. Storages can hold themselves, so the
comparison is given a bound on its depth and says so when it does not get to an answer.
-/

namespace TenantScript

/-- Whether `eq` holds between the values of two lists, pairwise, as far as both reach. The first
difference decides. -/
def pairwiseEqual (eq : Value → Value → Option Bool) : List Value → List Value → Option Bool
  | v :: vs, w :: ws =>
    match eq v w with
    | some true => pairwiseEqual eq vs ws
    | answer => answer
  | _, _ => some true

/-- Whether two lists of entries have equal keys and `eq` values, pairwise, as far as both
reach. -/
def entriesEqual (eq : Value → Value → Option Bool) :
    List (MapKey × Value) → List (MapKey × Value) → Option Bool
  | (j, v) :: vs, (k, w) :: ws =>
    if j = k then
      match eq v w with
      | some true => entriesEqual eq vs ws
      | answer => answer
    else some false
  | _, _ => some true

/-- Equality of two values in the heap `h`, down to `depth` containers inside one another; none
if that is not deep enough for an answer. -/
def equalWithin (h : Heap) : Nat → Value → Value → Option Bool
  | 0, _, _ => none
  | depth + 1, v, w =>
    match v.unwrap, w.unwrap with
    | .nil, .nil => some true
    | .bool a, .bool b => some (a == b)
    | .int a, .int b => some (a == b)
    | .float a, .float b => some (a.same b)
    | .str a, .str b => some (a == b)
    | .array a, .array b =>
      if a.address = b.address then some true
      else if (h.items a).length = (h.items b).length then
        pairwiseEqual (equalWithin h depth) (h.items a) (h.items b)
      else some false
    | .map a, .map b =>
      if a.sharesWith b then some true
      else if (h.entries a).size = (h.entries b).size then
        entriesEqual (equalWithin h depth) (h.entries a).entries (h.entries b).entries
      else some false
    | .struct a, .struct b =>
      if a.address = b.address then some true
      else if a.defn.name = b.defn.name then
        pairwiseEqual (equalWithin h depth) ((h.namedFields a).map (·.2))
          ((h.namedFields b).map (·.2))
      else some false
    | .pointer a, .pointer b => some (a.address? == b.address?)
    | _, _ => some false

/-- Equality of two values; none if comparing them never ends. Below the given depth a pair of
storages comes up inside itself, and then it does so for ever. -/
def Heap.equal (h : Heap) (v w : Value) : Option Bool := equalWithin h (h.size * h.size + 1) v w

end TenantScript
