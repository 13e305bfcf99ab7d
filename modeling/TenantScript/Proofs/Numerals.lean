import Mathlib.Algebra.Group.Int.Defs
import Mathlib.Data.List.DropRight
import TenantScript.Text.Numeral

/-!
The grammar of numerals: at most one sign before one or more ASCII digits, with blanks around. Main
statement: a text is read as a 64-bit integer just where it is a numeral of that integer, so that
the decimal text of an integer is read as that integer.
-/

namespace TenantScript.Text

variable {cs core : List Char} {c : Char} {m : Nat} {n : Int}

/-! ### Blanks at the ends -/

/-- Whether `core` is what is left of a text without the blanks at both ends. -/
def TrimsTo (cs core : List Char) : Prop :=
  ∃ before after, cs = before ++ (core ++ after) ∧ (∀ c ∈ before, isBlank c = true) ∧
    (∀ c ∈ after, isBlank c = true) ∧
      ∀ c, core.head? = some c ∨ core.getLast? = some c → isBlank c = false

theorem dropWhile_isBlank (h : ∀ c, cs.head? = some c → isBlank c = false) :
    cs.dropWhile isBlank = cs := by
  cases cs with
  | nil => rfl
  | cons c cs => exact List.dropWhile_cons_of_neg (by simp [h c rfl])

theorem rdropWhile_isBlank (h : ∀ c, cs.getLast? = some c → isBlank c = false) :
    cs.rdropWhile isBlank = cs := by
  rw [List.rdropWhile, dropWhile_isBlank (by simpa using h), List.reverse_reverse]

theorem rdropWhile_append_isBlank {after : List Char} (h : ∀ c ∈ after, isBlank c = true) :
    (cs ++ after).rdropWhile isBlank = cs.rdropWhile isBlank := by
  rw [List.rdropWhile, List.reverse_append,
    List.dropWhile_append_of_pos fun c hc => h c (List.mem_reverse.1 hc)]
  rfl

theorem head?_dropWhile_isBlank (h : (cs.dropWhile isBlank).head? = some c) :
    isBlank c = false := by
  simpa [h] using List.head?_dropWhile_not isBlank cs

theorem trimmed_eq (cs : List Char) :
    trimmed cs = (cs.dropWhile isBlank).rdropWhile isBlank := rfl

theorem isBlank_of_ends (h : (trimmed cs).head? = some c ∨ (trimmed cs).getLast? = some c) :
    isBlank c = false := by
  rcases h with h | h
  · obtain ⟨rest, hrest⟩ := List.rdropWhile_prefix isBlank (l := cs.dropWhile isBlank)
    have hhead : (cs.dropWhile isBlank).head? = some c := by
      rw [← hrest, List.head?_append, ← trimmed_eq, h]
      rfl
    exact head?_dropWhile_isBlank hhead
  · rw [trimmed, List.getLast?_reverse] at h
    exact head?_dropWhile_isBlank h

/-- Nothing but blanks is taken off, and no blank is left at an end. -/
theorem trimsTo_iff : TrimsTo cs core ↔ trimmed cs = core := by
  constructor
  · rintro ⟨before, after, rfl, hbefore, hafter, hends⟩
    rw [trimmed_eq, List.dropWhile_append_of_pos hbefore]
    cases core with
    | nil => rw [List.nil_append, List.dropWhile_eq_nil_iff.2 hafter, List.rdropWhile_nil]
    | cons c core =>
      have hhead : ∀ d, (c :: core ++ after).head? = some d → isBlank d = false :=
        fun d hd => hends d (.inl hd)
      rw [dropWhile_isBlank hhead, rdropWhile_append_isBlank hafter,
        rdropWhile_isBlank fun d hd => hends d (.inr hd)]
  · rintro rfl
    refine ⟨cs.takeWhile isBlank, (cs.dropWhile isBlank).rtakeWhile isBlank, ?_,
      fun c hc => List.mem_takeWhile_imp hc, fun c hc => List.mem_rtakeWhile_imp hc,
      fun c => isBlank_of_ends⟩
    rw [trimmed_eq, List.rdropWhile_append_rtakeWhile, List.takeWhile_append_dropWhile]

/-! ### Digits -/

/-- The digits that denote a number, of which all but the last count ten times. -/
inductive Decimal : List Char → Nat → Prop
  | one {d : Nat} (hd : d < 10) : Decimal [d.digitChar] d
  | snoc {cs : List Char} {m d : Nat} (hcs : Decimal cs m) (hd : d < 10) :
    Decimal (cs ++ [d.digitChar]) (10 * m + d)

/-- The texts that denote an integer: digits after at most one sign. -/
inductive Numeral : List Char → Int → Prop
  | plain {cs : List Char} {m : Nat} (h : Decimal cs m) : Numeral cs m
  | plus {cs : List Char} {m : Nat} (h : Decimal cs m) : Numeral ('+' :: cs) m
  | minus {cs : List Char} {m : Nat} (h : Decimal cs m) : Numeral ('-' :: cs) (-m)

theorem isDigit_iff : c.isDigit = true ↔ 48 ≤ c.toNat ∧ c.toNat ≤ 57 := by
  simp only [Char.isDigit, Bool.and_eq_true, decide_eq_true_eq, UInt32.le_iff_toNat_le, ge_iff_le]
  rfl

theorem exists_digitChar (h : c.isDigit = true) : ∃ d < 10, c = d.digitChar := by
  rw [isDigit_iff] at h
  refine ⟨c.toNat - 48, by omega, Char.toNat_inj.1 ?_⟩
  rw [Nat.toNat_digitChar_of_lt_ten (by omega)]
  omega

theorem isDigits_iff : isDigits cs = true ↔ cs ≠ [] ∧ ∀ c ∈ cs, c.isDigit = true := by
  simp [isDigits]

theorem magnitude_concat (cs : List Char) (c : Char) :
    magnitude (cs ++ [c]) = 10 * magnitude cs + (c.toNat - 48) := by
  rw [magnitude, List.foldl_append]
  rfl

theorem magnitude_concat_digitChar (cs : List Char) {d : Nat} (hd : d < 10) :
    magnitude (cs ++ [d.digitChar]) = 10 * magnitude cs + d := by
  rw [magnitude_concat, Nat.toNat_digitChar_of_lt_ten hd, Nat.add_sub_cancel_left]

theorem Decimal.isDigits (h : Decimal cs m) : isDigits cs = true := by
  induction h with
  | one hd => simp [isDigits_iff, Nat.isDigit_digitChar, hd]
  | snoc _ hd ih =>
    rw [isDigits_iff] at ih ⊢
    refine ⟨by simp, fun c hc => ?_⟩
    rcases List.mem_append.1 hc with hc | hc
    · exact ih.2 c hc
    · rw [List.mem_singleton.1 hc, Nat.isDigit_digitChar]
      exact decide_eq_true hd

theorem Decimal.magnitude (h : Decimal cs m) : magnitude cs = m := by
  induction h with
  | one hd => simpa [Text.magnitude] using magnitude_concat_digitChar [] hd
  | snoc _ hd ih => rw [magnitude_concat_digitChar _ hd, ih]

/-- A run of digits denotes the number that it is read as. -/
theorem decimal_of_isDigits (h : isDigits cs = true) : Decimal cs (Text.magnitude cs) := by
  obtain ⟨hne, hdigits⟩ := isDigits_iff.1 h
  induction cs using List.reverseRecOn with
  | nil => exact absurd rfl hne
  | append_singleton cs c ih =>
    obtain ⟨d, hd, rfl⟩ := exists_digitChar (hdigits c (by simp))
    rw [magnitude_concat_digitChar cs hd]
    rcases eq_or_ne cs [] with rfl | hcs
    · simpa [Text.magnitude] using Decimal.one hd
    · have hrest : ∀ c ∈ cs, c.isDigit = true := fun c hc => hdigits c (List.mem_append_left _ hc)
      exact .snoc (ih (isDigits_iff.2 ⟨hcs, hrest⟩) hcs hrest) hd

theorem decimal_iff : Decimal cs m ↔ isDigits cs = true ∧ Text.magnitude cs = m :=
  ⟨fun h => ⟨h.isDigits, h.magnitude⟩, fun h => h.2 ▸ decimal_of_isDigits h.1⟩

/-! ### Signs -/

/-- A sign is not a digit. -/
theorem Decimal.not_cons (h : Decimal (c :: cs) m) : c ≠ '-' ∧ c ≠ '+' := by
  have hc := (isDigits_iff.1 h.isDigits).2 c List.mem_cons_self
  constructor <;> rintro rfl <;> cases hc

theorem signed?_of_decimal (h : Decimal cs m) : signed? cs = some (m : Int) := by
  obtain ⟨hdigits, hm⟩ := decimal_iff.1 h
  unfold signed?
  split
  · exact absurd rfl h.not_cons.1
  · exact absurd rfl h.not_cons.2
  · rw [if_pos hdigits, hm]

theorem signed?_eq_some_iff : signed? cs = some n ↔ Numeral cs n := by
  constructor
  · intro h
    unfold signed? at h
    split at h <;> obtain ⟨hdigits, hn⟩ := Option.ite_none_right_eq_some.1 h <;> cases hn
    · exact .minus (decimal_of_isDigits hdigits)
    · exact .plus (decimal_of_isDigits hdigits)
    · exact .plain (decimal_of_isDigits hdigits)
  · intro h
    cases h with
    | plain h => exact signed?_of_decimal h
    | plus h =>
      obtain ⟨hdigits, hm⟩ := decimal_iff.1 h
      rw [signed?, if_pos hdigits, hm]
    | minus h =>
      obtain ⟨hdigits, hm⟩ := decimal_iff.1 h
      rw [signed?, if_pos hdigits, hm]

theorem fitsInt64_iff : fitsInt64 n = true ↔ -2 ^ 63 ≤ n ∧ n < 2 ^ 63 := by
  simp only [fitsInt64, Bool.and_eq_true, decide_eq_true_eq]
  rw [Int64.toInt_minValue, Int64.toInt_maxValue]
  omega

/-- Whether a text is a numeral of a 64-bit integer, with any blanks around. -/
def Denotes (s : String) (n : Int) : Prop :=
  ∃ core, TrimsTo s.toList core ∧ Numeral core n ∧ -2 ^ 63 ≤ n ∧ n < 2 ^ 63

/-- A text is read as the integer of which it is a numeral. -/
theorem readInt64?_eq_some_iff {s : String} : readInt64? s = some n ↔ Denotes s n := by
  simp only [readInt64?, Denotes, Option.filter_eq_some_iff, signed?_eq_some_iff, fitsInt64_iff,
    trimsTo_iff, exists_eq_left']

/-! ### The decimal text of an integer -/

theorem decimal_toDigits (m : Nat) : Decimal (Nat.toDigits 10 m) m := by
  induction m using Nat.strong_induction_on with
  | _ m ih =>
    rw [Nat.toDigits_eq_if (by decide)]
    split
    · next hm => exact .one hm
    · next hm =>
      have hdivide : 10 * (m / 10) + m % 10 = m := Nat.div_add_mod m 10
      have hsnoc := Decimal.snoc (ih (m / 10) (by omega)) (Nat.mod_lt m (by decide : 10 > 0))
      rwa [hdivide] at hsnoc

theorem numeral_toString (n : Int) : Numeral (toString n).toList n := by
  rw [Int.toString_eq_repr, Int.repr_eq_if]
  split
  · next hn =>
    rw [Nat.repr_eq_ofList_toDigits, String.toList_ofList]
    have := Numeral.plain (decimal_toDigits n.toNat)
    rwa [Int.toNat_of_nonneg hn] at this
  · next hn =>
    rw [Nat.repr_eq_ofList_toDigits, String.toList_append,
      String.toList_ofList (l := Nat.toDigits 10 _)]
    have := Numeral.minus (decimal_toDigits (-n).toNat)
    rwa [Int.toNat_of_nonneg (by omega), Int.neg_neg] at this

theorem isBlank_of_isDigit (h : c.isDigit = true) : isBlank c = false := by
  have hranges : ∀ r ∈ blankRanges, r.2 ≤ 32 ∨ 133 ≤ r.1 := by decide
  rw [isDigit_iff] at h
  rw [Bool.eq_false_iff, isBlank, Ne, inRanges_iff]
  rintro ⟨r, hr, hc⟩
  have := hranges r hr
  omega

/-- There is no blank in a numeral. -/
theorem Numeral.isBlank_eq_false (h : Numeral cs n) (hc : c ∈ cs) : isBlank c = false := by
  have hdigits {cs : List Char} {m : Nat} (h : Decimal cs m) (hc : c ∈ cs) : isBlank c = false :=
    isBlank_of_isDigit ((isDigits_iff.1 h.isDigits).2 c hc)
  cases h with
  | plain h => exact hdigits h hc
  | plus h | minus h =>
    rcases List.mem_cons.1 hc with rfl | hc
    · decide
    · exact hdigits h hc

/-- Whether a text is the decimal text of an integer, with any blanks around. -/
def IsDecimalOf (s : String) (n : Int) : Prop :=
  ∃ before after : String, s = before ++ toString n ++ after ∧
    (∀ c ∈ before.toList, isBlank c = true) ∧ ∀ c ∈ after.toList, isBlank c = true

theorem IsDecimalOf.denotes {s : String} {n : Int64} (h : IsDecimalOf s n.toInt) :
    Denotes s n.toInt := by
  obtain ⟨before, after, rfl, hbefore, hafter⟩ := h
  have hnumeral := numeral_toString n.toInt
  refine ⟨_, ⟨before.toList, after.toList, ?_, hbefore, hafter, fun c hc => ?_⟩, hnumeral,
    n.le_toInt, n.toInt_lt⟩
  · rw [String.toList_append, String.toList_append, List.append_assoc]
  · refine hnumeral.isBlank_eq_false ?_
    rcases hc with hc | hc
    · exact List.mem_of_head? hc
    · exact List.mem_of_getLast? hc

end TenantScript.Text
