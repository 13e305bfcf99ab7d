import TenantScript.Proofs.Course
import TenantScript.Proofs.LiveMaps
import TenantScript.Proofs.Numerals

/-!
Texts as indices. Main statement: a text is an index just where it is a numeral of a 64-bit integer;
an array or a text is then read and stored into as by the integer itself; and a map takes the text
as it stands.
-/

open TenantScript.Action

namespace TenantScript

/-! ### Which index a text is -/

theorem toIndex_str (s : String) :
    toIndex (.str s) = (Text.readInt64? s).elim (.error (.indexNotNumeric .str)) .ok := by
  rw [toIndex]
  cases Text.readInt64? s <;> rfl

theorem toIndex_str_eq_ok_iff {s : String} {n : Int} :
    toIndex (.str s) = .ok n ↔ Text.Denotes s n := by
  rw [← Text.readInt64?_eq_some_iff, toIndex_str]
  cases Text.readInt64? s <;> simp

theorem toIndex_str_eq_error_iff {s : String} :
    toIndex (.str s) = .error (.indexNotNumeric .str) ↔ ∀ n, ¬Text.Denotes s n := by
  simp only [← Text.readInt64?_eq_some_iff, toIndex_str]
  cases Text.readInt64? s <;> simp

/-! ### Arrays and texts -/

/-- Whether a value is an array or a text, behind at most one interface. -/
inductive Value.IsIndexed (u : Value) : Prop
  | array {a : ArrayRef} (h : u.unwrap = .array a)
  | str {t : String} (h : u.unwrap = .str t)

section Indexed

variable {u k k' v : Value} {limit : Nat} {collection index index' : Expr} {span : Span}
  {st s₁ s₂ : State}

theorem readItem_congr (hu : u.IsIndexed) (hk : toIndex k = toIndex k') :
    readItem u k = readItem u k' := by
  cases hu <;> next h => rw [readItem, readItem, h]; simp only [hk]

theorem setItem_congr (hu : u.IsIndexed) (hk : toIndex k = toIndex k') (v : Value) :
    setItem u k v = setItem u k' v := by
  cases hu <;> next h => rw [setItem, setItem, h]; simp only [hk]

/-- An item is read alike by two expressions that denote the same index. -/
theorem run_evaluate_item_congr
    (hu : (evaluate limit collection).run (st.atDepth (st.depth + 1)) = (.ok u, s₁))
    (hindexed : u.IsIndexed) (hk : (evaluate limit index).run s₁ = (.ok k, s₂))
    (hk' : (evaluate limit index').run s₁ = (.ok k', s₂)) (hsame : toIndex k = toIndex k') :
    (evaluate limit (.item collection index span)).run st =
      (evaluate limit (.item collection index' span)).run st := by
  have hlt : st.depth < limit := Nat.lt_of_succ_lt (depth_lt_of_run_evaluate hu)
  have henter : ({ st with depth := st.depth + 1 } : State) = st.atDepth (st.depth + 1) := rfl
  rw [evaluate_eq, evaluate_eq limit (.item collection index' span), run_within, run_within,
    Run.run_below, Run.run_below, if_pos hlt, if_pos hlt, Run.run_nested, Run.run_nested, henter,
    evaluateNode, evaluateNode, run_bind_ok _ hu, run_bind_ok _ hu, run_bind_ok _ hk,
    run_bind_ok _ hk', readItem_congr hindexed hsame]
  rfl

/-- It is assigned alike. -/
theorem run_assign_item_congr (hu : (evaluate limit collection).run st = (.ok u, s₁))
    (hindexed : u.IsIndexed) (hk : (evaluate limit index).run s₁ = (.ok k, s₂))
    (hk' : (evaluate limit index').run s₁ = (.ok k', s₂)) (hsame : toIndex k = toIndex k')
    (v : Value) : (assign (evaluate limit) (.item collection index span) v).run st =
      (assign (evaluate limit) (.item collection index' span) v).run st := by
  rw [assign, assign, run_within, run_within, run_bind_ok _ hu, run_bind_ok _ hu,
    run_bind_ok _ hk, run_bind_ok _ hk', setItem_congr hindexed hsame]

end Indexed

/-! ### Maps -/

section Maps

variable {key : Ty} {k : MapKey} {h h' : Heap} {u v : Value} {m : MapRef} {s : String}

/-- Whether a text can be a key of a map with keys of a type. -/
def Ty.TakesText (key : Ty) : Prop := key = .any ∨ key = .str

theorem Ty.keyOf_str_iff : key.KeyOf (.str s) k ↔ k = .str s ∧ key.TakesText := by
  have hpart : key.keyPart (.str s) = .str s := by
    unfold Ty.keyPart
    split <;> rfl
  rw [Ty.KeyOf, hpart]
  constructor
  · rintro ⟨⟨hhashable, hconforms⟩, hk⟩
    obtain rfl : k = .str s := MapKey.toValue_injective hk.symm
    refine ⟨rfl, ?_⟩
    rcases Ty.isHashable_iff.1 hhashable with rfl | rfl | rfl | rfl
    · exact .inl rfl
    · cases hconforms
    · cases hconforms
    · exact .inr rfl
  · rintro ⟨rfl, rfl | rfl⟩ <;> exact ⟨⟨rfl, rfl⟩, rfl⟩

/-- A text is the key that it is, whether or not it is a numeral. -/
theorem run_convertKey_str_iff :
    (convertKey key (.str s)).run h = (.ok k, h') ↔ h' = h ∧ k = .str s ∧ key.TakesText := by
  rw [run_convertKey_iff, Ty.keyOf_str_iff]

theorem run_readItem_str (hmap : u.unwrap = .map m) (hkey : m.key.TakesText) :
    (readItem u (.str s)).run h = match (h.entries m).get? (.str s) with
      | some v => (.ok v, h)
      | none => (Value.zero m.value).run h := by
  have hk : (convertKey m.key (.str s)).run h = (.ok (.str s), h) :=
    run_convertKey_str_iff.2 ⟨rfl, rfl, hkey⟩
  rw [readItem, hmap]
  simp only [MapRef.read]
  rw [run_bind_ok _ hk, run_bind, run_get]
  cases hentry : (h.entries m).get? (.str s) with
  | none => simp only [hentry]
  | some v =>
    simp only [hentry]
    rfl

/-- A map whose keys are no texts cannot be read or stored into at a text. -/
theorem exists_run_item_str_error (hmap : u.unwrap = .map m) (hkey : ¬m.key.TakesText)
    (s : String) : ∃ e, ∀ h, (readItem u (.str s)).run h = (.error e, h) ∧
      ∀ v, (setItem u (.str s) v).run h = (.error e, h) := by
  obtain ⟨e | k, hr⟩ := exists_run_convertKey m.key (.str s)
  · refine ⟨e, fun h => ⟨?_, fun v => ?_⟩⟩
    · rw [readItem, hmap]
      exact run_bind_error _ (hr h)
    · rw [setItem, hmap]
      exact run_bind_error _ (hr h)
  · exact absurd (run_convertKey_str_iff.1 (hr .empty)).2.2 hkey

/-- A store at a text makes the entry of that text. -/
theorem get?_setItem_str {a : Address} {es : SortedMap MapKey Value} {r : Mutation}
    (hmap : u.unwrap = .map m) (ha : m.address? = some a) (hget : h.get? a = some (.entries es))
    (hrun : (setItem u (.str s) v).run h = (.ok r, h')) :
    ∃ w, h'.get? a = some (.entries (es.insert (.str s) w)) := by
  let i : Insertion := ⟨m, .str s, v⟩
  have hi : i.run.run h = (.ok r, h') := by
    rw [setItem, hmap] at hrun
    exact hrun
  have hstep : i.Step h := Insertion.step ha hget
  obtain ⟨⟨k, w⟩, hentry⟩ := Option.isSome_iff_exists.1 (hstep.succeeds.1 ⟨r, h', hi⟩)
  obtain rfl : k = .str s := (Ty.keyOf_str_iff.1 (hstep.stored k w hentry).1).1
  have hafter := Insertion.get?_run (i := i) ha hget
  rw [hi, hentry] at hafter
  exact ⟨w, hafter⟩

end Maps

/-! ### Main statement -/

/-- Whether arrays and texts are indexed by the text `s` as by the integer `n`. -/
structure IndexesAs (s : String) (n : Int64) : Prop where
  index : toIndex (.str s) = .ok n.toInt
  read : ∀ {u}, Value.IsIndexed u → readItem u (.str s) = readItem u (.int n)
  store : ∀ {u}, Value.IsIndexed u → ∀ v, setItem u (.str s) v = setItem u (.int n) v
  evaluated : ∀ {limit collection index index' span u st s₁ s₂},
    (evaluate limit collection).run (st.atDepth (st.depth + 1)) = (.ok u, s₁) → u.IsIndexed →
    (evaluate limit index).run s₁ = (.ok (.str s), s₂) →
    (evaluate limit index').run s₁ = (.ok (.int n), s₂) →
    (evaluate limit (.item collection index span)).run st =
      (evaluate limit (.item collection index' span)).run st
  assigned : ∀ {limit collection index index' span u st s₁ s₂},
    (evaluate limit collection).run st = (.ok u, s₁) → u.IsIndexed →
    (evaluate limit index).run s₁ = (.ok (.str s), s₂) →
    (evaluate limit index').run s₁ = (.ok (.int n), s₂) →
    ∀ v, (assign (evaluate limit) (.item collection index span) v).run st =
      (assign (evaluate limit) (.item collection index' span) v).run st

theorem indexesAs {s : String} {n : Int64} (h : toIndex (.str s) = .ok n.toInt) :
    IndexesAs s n where
  index := h
  read hu := readItem_congr hu h
  store hu := setItem_congr hu h
  evaluated hu hindexed hk hk' := run_evaluate_item_congr hu hindexed hk hk' h
  assigned hu hindexed hk hk' := run_assign_item_congr hu hindexed hk hk' h

/-- What a text is as a key of a map: itself, if the keys can be texts, and otherwise nothing. -/
structure KeysAsText (s : String) : Prop where
  key_iff : ∀ {key k h h'}, (convertKey key (.str s)).run h = (.ok k, h') ↔
    h' = h ∧ k = .str s ∧ key.TakesText
  read : ∀ {u m}, u.unwrap = .map m → m.key.TakesText → ∀ h,
    (readItem u (.str s)).run h = match (h.entries m).get? (.str s) with
      | some v => (.ok v, h)
      | none => (Value.zero m.value).run h
  store : ∀ {u m v a es r h h'}, u.unwrap = .map m → m.address? = some a →
    h.get? a = some (.entries es) → (setItem u (.str s) v).run h = (.ok r, h') →
    ∃ w, h'.get? a = some (.entries (es.insert (.str s) w))
  refused : ∀ {u m}, u.unwrap = .map m → ¬m.key.TakesText → ∃ e, ∀ h,
    (readItem u (.str s)).run h = (.error e, h) ∧
      ∀ v, (setItem u (.str s) v).run h = (.error e, h)

/-- What a text is as an index. -/
structure StringIndex (s : String) : Prop where
  ok_iff : ∀ n, toIndex (.str s) = .ok n ↔ Text.Denotes s n
  error_iff : toIndex (.str s) = .error (.indexNotNumeric .str) ↔ ∀ n, ¬Text.Denotes s n
  /-- The decimal text of an integer is that integer. -/
  decimal : ∀ n : Int64, Text.IsDecimalOf s n.toInt → IndexesAs s n
  key : KeysAsText s

/-- A text is an index if it is a numeral, and a key as it stands. -/
theorem string_index (s : String) : StringIndex s where
  ok_iff _ := toIndex_str_eq_ok_iff
  error_iff := toIndex_str_eq_error_iff
  decimal _ hn := indexesAs (toIndex_str_eq_ok_iff.2 hn.denotes)
  key := ⟨run_convertKey_str_iff, fun hmap hkey _ => run_readItem_str hmap hkey, get?_setItem_str,
    fun hmap hkey => exists_run_item_str_error hmap hkey s⟩

example : toIndex (.str "\u2003-09223372036854775808\t") = .ok (-9223372036854775808) := by
  decide +kernel

example : toIndex (.str "9223372036854775808") = .error (.indexNotNumeric .str) := by
  decide +kernel

end TenantScript
