import TenantScript.Text.Quoted

/-!
The keys of maps: booleans, then integers, then strings by code points. The order is total and
agrees with equality, which is what a sorted map asks of its keys.
-/

namespace TenantScript

/-- A key of a map. -/
inductive MapKey where
  | bool (b : Bool)
  | int (n : Int64)
  | str (s : String)
  deriving DecidableEq, Inhabited

namespace MapKey

/-- The order of keys: first by kind, then by value. -/
def order : MapKey → MapKey → Ordering
  | bool a, bool b => compare a b
  | bool _, _ => .lt
  | int _, bool _ => .gt
  | int a, int b => compare a.toInt b.toInt
  | int _, str _ => .lt
  | str a, str b => compare a b
  | str _, _ => .gt

instance : Ord MapKey := ⟨order⟩

theorem compare_eq_order (a b : MapKey) : compare a b = order a b := rfl

instance : Std.TransOrd MapKey where
  eq_swap {a b} := by
    cases a <;> cases b <;>
      simp only [compare_eq_order, order, Ordering.swap_lt, Ordering.swap_gt] <;>
      exact Std.OrientedCmp.eq_swap
  isLE_trans {a b c} := by
    cases a <;> cases b <;> cases c <;>
      simp only [compare_eq_order, order, Ordering.isLE, false_implies, implies_true,
        Bool.false_eq_true] <;>
      exact Std.TransCmp.isLE_trans

instance : Std.LawfulEqOrd MapKey where
  compare_self {a} := by
    cases a <;> simp only [compare_eq_order, order] <;> exact Std.ReflCmp.compare_self
  eq_of_compare {a b} := by
    cases a <;> cases b <;> simp [compare_eq_order, order, Int64.toInt_inj]

/-- The text of a key; a string is quoted. -/
def text : MapKey → String
  | bool b => toString b
  | int n => toString n.toInt
  | str s => Text.quoted s

end MapKey

end TenantScript
