import TenantScript.Proofs.ArrayVariable
import TenantScript.Proofs.Balance
import TenantScript.Proofs.SliceReads

/-!
Stores at a character of a text. Main statement: a piece can be put at each character of a text and
after the last one, and the text that this makes is what is read before the character, the piece,
and what is read after the character; a piece of one character is read back where it was put, and
all other characters where they were. An assignment to a character of a variable binds the variable
to that text, and wherever else the text was, it still is.
-/

open TenantScript.Action

namespace TenantScript

variable {s p : String} {n : Nat} {i : Int} {v : Value} {h h' : Heap}

/-! ### The text with a piece in it -/

/-- A text with a piece in place of its character at `n`, or after its end. -/
def withPiece (s : String) (n : Nat) (p : String) : String :=
  String.ofList (spliceAt s.toList n p.toList)

/-- What comes before the character and what comes after it stay. -/
theorem withPiece_eq_append (s : String) (n : Nat) (p : String) :
    withPiece s n p = String.ofList (s.toList.extract 0 n) ++ p ++
      String.ofList (s.toList.extract (min (n + 1) s.toList.length) s.toList.length) := by
  refine String.toList_inj.1 ?_
  simp only [withPiece, spliceAt, String.toList_append, String.toList_ofList,
    List.extract_eq_take_drop, Nat.sub_zero, List.drop_zero]
  congr 1
  rcases Nat.le_total (n + 1) s.toList.length with hle | hle
  · rw [Nat.min_eq_left hle, List.take_of_length_le (by simp)]
  · rw [Nat.min_eq_right hle, List.drop_eq_nil_of_le hle]
    simp

/-- A piece of one character replaces the one that was there, or is the last one. -/
theorem getElem?_withPiece (hn : n ≤ s.length) (c : Char) (j : Nat) :
    (withPiece s n (String.singleton c)).toList[j]? = if j = n then some c else s.toList[j]? := by
  have htake : (s.toList.take n).length = n := by
    rw [List.length_take, String.length_toList]
    exact Nat.min_eq_left hn
  have hsplit : (withPiece s n (String.singleton c)).toList =
      s.toList.take n ++ c :: s.toList.drop (n + 1) := by
    simp [withPiece, spliceAt]
  rw [hsplit]
  rcases Nat.lt_trichotomy j n with hlt | rfl | hgt
  · rw [if_neg (Nat.ne_of_lt hlt), List.getElem?_append_left (by omega),
      List.getElem?_take_of_lt hlt]
  · rw [if_pos rfl, List.getElem?_append_right (by omega), htake, Nat.sub_self,
      List.getElem?_cons_zero]
  · rw [if_neg (Nat.ne_of_gt hgt), List.getElem?_append_right (by omega), htake,
      show j - n = j - (n + 1) + 1 by omega, List.getElem?_cons_succ, List.getElem?_drop,
      Nat.add_sub_cancel' hgt]

theorem getElem?_characters (s : String) (j : Nat) :
    (characters s)[j]? = s.toList[j]?.map fun c => .str (String.singleton c) :=
  List.getElem?_map ..

/-- Whether `t` is `s` with `p` in place of its character at `i`, or after its end, as far as can
be read. -/
structure IsEdit (s : String) (i : Int) (p t : String) : Prop where
  parts : ∃ head tail, t = head ++ p ++ tail ∧ ∀ h,
    (readSlice (.str s) (some 0) (some i)).run h = (.ok (.str head), h) ∧
    (readSlice (.str s) (some (min (i + 1) s.length)) none).run h = (.ok (.str tail), h)
  here : ∀ c, p = String.singleton c → ∀ k, toIndex k = .ok i → ∀ h,
    (readItem (.str t) k).run h = (.ok (.str p), h)
  elsewhere : ∀ c, p = String.singleton c → ∀ k j, toIndex k = .ok j → 0 ≤ j → j < s.length →
    j ≠ i → ∃ w, ∀ h, (readItem (.str s) k).run h = (.ok w, h) ∧
      (readItem (.str t) k).run h = (.ok w, h)

theorem isEdit_withPiece (hn : n ≤ s.length) (p : String) : IsEdit s n p (withPiece s n p) := by
  have hsequence (t : String) (h : Heap) : h.Sequence (.str t) (characters t) := .text rfl
  have hlength : s.toList.length = s.length := String.length_toList
  refine ⟨⟨_, _, withPiece_eq_append s n p, fun h => ⟨?_, ?_⟩⟩, ?_, ?_⟩
  · refine (hsequence s h).run_readSlice_iff.2 ⟨0, n, rfl, rfl, n.zero_le, ?_, .text rfl⟩
    rwa [length_characters, hlength]
  · refine (hsequence s h).run_readSlice_iff.2
      ⟨min (n + 1) s.toList.length, s.toList.length, ?_, ?_, Nat.min_le_right _ _, ?_, .text rfl⟩
    · show min ((n : Int) + 1) s.length = ((min (n + 1) s.toList.length : Nat) : Int)
      omega
    · rw [length_characters]
      rfl
    · exact Nat.le_of_eq (length_characters s).symm
  · rintro c rfl k hk h
    refine (hsequence _ h).run_readItem hk ?_
    rw [getElem?_characters, getElem?_withPiece hn, if_pos rfl]
    rfl
  · rintro c rfl k j hk hlow hhigh hne
    obtain ⟨j, rfl⟩ := Int.eq_ofNat_of_zero_le hlow
    have hj : j < s.toList.length := by omega
    have hold : (characters s)[j]? = some (.str (String.singleton s.toList[j])) := by
      rw [getElem?_characters, List.getElem?_eq_getElem hj]
      rfl
    refine ⟨_, fun h => ⟨(hsequence s h).run_readItem hk hold, (hsequence _ h).run_readItem hk ?_⟩⟩
    rw [← hold, getElem?_characters, getElem?_characters, getElem?_withPiece hn,
      if_neg fun e => hne (congrArg _ e)]

/-! ### Stores -/

/-- A store at a character makes the text with the piece in it, or fails. -/
theorem run_planCharacter (s : String) (i : Int) (v : Value) (h : Heap) :
    (∃ p n, v.unwrap = .str p ∧ i = (n : Nat) ∧ n ≤ s.length ∧
      (planCharacter s i v).run h = (.ok (.replace (.str (withPiece s n p))), h)) ∨
    ¬((∃ p, v.unwrap = .str p) ∧ 0 ≤ i ∧ i ≤ s.length) ∧
      ∃ e, (planCharacter s i v).run h = (.error e, h) := by
  have hlength : s.toList.length = s.length := String.length_toList
  unfold planCharacter
  cases hv : v.unwrap with
  | str p =>
    simp only
    cases hposition : (position? i).filter (· ≤ s.toList.length) with
    | some n =>
      obtain ⟨hi, hn⟩ := Option.filter_eq_some_iff.1 hposition
      have hle : n ≤ s.toList.length := of_decide_eq_true hn
      exact .inl ⟨p, n, rfl, position?_eq_some_iff.1 hi, hlength ▸ hle, rfl⟩
    | none =>
      refine .inr ⟨fun ⟨_, hlow, hhigh⟩ => ?_, _, rfl⟩
      obtain ⟨n, rfl⟩ := Int.eq_ofNat_of_zero_le hlow
      have hsome : (position? n).filter (· ≤ s.toList.length) = some n := by
        rw [position?_eq_some_iff.2 rfl, Option.filter_eq_some_iff]
        exact ⟨rfl, decide_eq_true (by omega)⟩
      cases hposition.symm.trans hsome
  | _ =>
    refine .inr ⟨fun ⟨⟨p, hp⟩, _⟩ => ?_, _, rfl⟩
    cases hp

theorem setCharacter_succeeds_iff : (setCharacter s i v).Succeeds h ↔
    (∃ p, v.unwrap = .str p) ∧ 0 ≤ i ∧ i ≤ s.length := by
  rw [setCharacter_eq]
  rcases run_planCharacter s i v h with ⟨p, n, hp, rfl, hn, hrun⟩ | ⟨hout, e, hrun⟩
  · exact ⟨fun _ => ⟨⟨p, hp⟩, by omega, by omega⟩, fun _ => ⟨_, _, run_bind_ok _ hrun⟩⟩
  · refine ⟨fun ⟨m, h', hok⟩ => ?_, fun hin => (hout hin).elim⟩
    cases (run_bind_error _ hrun).symm.trans hok

theorem edit_of_run_setCharacter {m : Mutation} (hrun : (setCharacter s i v).run h = (.ok m, h')) :
    h' = h ∧ ∃ p t, v.unwrap = .str p ∧ m = .replaced (.str t) ∧ IsEdit s i p t := by
  rw [setCharacter_eq] at hrun
  rcases run_planCharacter s i v h with ⟨p, n, hp, rfl, hn, hplan⟩ | ⟨-, e, hplan⟩
  · cases (run_bind_ok _ hplan).symm.trans hrun
    exact ⟨rfl, p, _, hp, rfl, isEdit_withPiece hn p⟩
  · cases (run_bind_error _ hplan).symm.trans hrun

/-! ### Assignments to characters of a variable -/

/-- A name that some scope binds means something. -/
theorem Environment.lookup?_isSome_iff {env : Environment} {name : Name} :
    (env.lookup? name).isSome ↔ ∃ level, env.binds level name = true := by
  have hfind (scopes : List Scope) : (find? name scopes).isSome ↔
      ∃ level : Nat, (scopes[level]?.any fun scope : Scope => scope.contains name) = true := by
    induction scopes with
    | nil => simp [find?]
    | cons scope outer ih =>
      rw [find?, Option.isSome_or, Bool.or_eq_true, ih]
      constructor
      · rintro (h | ⟨level, h⟩)
        · exact ⟨0, h⟩
        · exact ⟨level + 1, h⟩
      · rintro ⟨_ | level, h⟩
        · exact .inl h
        · exact .inr ⟨level, h⟩
  rw [lookup?, hfind]
  refine exists_congr fun level => ?_
  unfold binds scopes
  cases (env.locals ++ [env.globals])[level]? <;> rfl

section Assignment

variable {limit : Nat} {x : Name} {index : Expr} {u k : Value} {st st₁ : State}

/-- What the assignment of `v` to a character of a variable leaves. -/
theorem run_assign_character (hx : st.env.lookup? x = some u) (hu : u.unwrap = .str s)
    (hindex : (evaluate limit index).run st = (.ok k, st₁)) (hi : toIndex k = .ok i)
    (xspan span : Span) (v : Value) :
    (∃ p n, v.unwrap = .str p ∧ i = (n : Nat) ∧ n ≤ s.length ∧
      (assign (evaluate limit) (.item (.ident x xspan) index span) v).run st =
        (.ok (.str (withPiece s n p)), (Store.bind x (.str (withPiece s n p))).apply st₁)) ∨
    ¬((∃ p, v.unwrap = .str p) ∧ 0 ≤ i ∧ i ≤ s.length) ∧
      ∃ e, (assign (evaluate limit) (.item (.ident x xspan) index span) v).run st =
        (.error e, st₁) := by
  have hlink : (link (evaluate limit) (.item (.ident x xspan) index span) v).run st =
      (Run.onHeap (planCharacter s i v) >>= linkPlan (.ident x xspan) none).run st₁ := by
    rw [link, run_bind_ok _ (run_evaluate_ident hindex hx), run_bind_ok _ hindex, planItem,
      hu, hi]
    rfl
  rw [run_bind, Run.run_onHeap] at hlink
  rcases run_planCharacter s i v st₁.heap with ⟨p, n, hp, hin, hn, hplan⟩ | ⟨hout, e, hplan⟩
  · rw [hplan] at hlink
    -- the index may bind names, but it unbinds none
    have hbound : (st₁.env.lookup? x).isSome := by
      have hbalanced := (balancing_relates limit).rel (e := index) trivial st
      rw [hindex] at hbalanced
      obtain ⟨level, hlevel⟩ := Environment.lookup?_isSome_iff.1 (Option.isSome_of_mem hx)
      exact Environment.lookup?_isSome_iff.2 ⟨level, hbalanced.kept level x hlevel⟩
    obtain ⟨w, hw⟩ := Option.isSome_iff_exists.1 hbound
    exact .inl ⟨p, n, hp, hin, hn, (Chain.pass hlink rfl (.last (run_link_ident hw))).run_assign⟩
  · rw [hplan] at hlink
    refine .inr ⟨hout, e.orAt span, ?_⟩
    rw [assign_eq, run_within, run_bind_error _ hlink]
    rfl

end Assignment

/-- A store into a text succeeds just where it is given a text, behind at most one interface, and an
index that is not negative and not above the number of characters. The result is what is read before
the index, the piece, and what is read after the character at the index. Of an assignment to an item
of a variable the same is true, and it changes nothing but the variable. -/
theorem string_edit_law (s : String) (v : Value) :
    (∀ (i : Int) (h : Heap),
      ((setCharacter s i v).Succeeds h ↔ (∃ p, v.unwrap = .str p) ∧ 0 ≤ i ∧ i ≤ s.length) ∧
      ∀ m h', (setCharacter s i v).run h = (.ok m, h') →
        h' = h ∧ ∃ p t, v.unwrap = .str p ∧ m = .replaced (.str t) ∧ IsEdit s i p t) ∧
    ∀ {limit : Nat} {x : Name} {xspan span : Span} {index : Expr} {u k : Value} {st st₁ : State}
      {i : Int}, st.env.lookup? x = some u → u.unwrap = .str s →
      (evaluate limit index).run st = (.ok k, st₁) → toIndex k = .ok i →
      ∃ r st', (assign (evaluate limit) (.item (.ident x xspan) index span) v).run st = (r, st') ∧
        (∀ p, v.unwrap = .str p → 0 ≤ i → i ≤ s.length → ∃ t level, IsEdit s i p t ∧
          r = .ok (.str t) ∧ st'.env.lookup? x = some (.str t) ∧
          st₁.env.BindsAt level x (.str t) st'.env ∧ st'.heap = st₁.heap) ∧
        (¬((∃ p, v.unwrap = .str p) ∧ 0 ≤ i ∧ i ≤ s.length) → st' = st₁ ∧ ∃ e, r = .error e) := by
  refine ⟨fun i h => ⟨setCharacter_succeeds_iff, fun m h' => edit_of_run_setCharacter⟩, ?_⟩
  intro limit x xspan span index u k st st₁ i hx hu hindex hi
  rcases run_assign_character hx hu hindex hi xspan span v with
    ⟨p, n, hp, rfl, hn, hrun⟩ | ⟨hout, e, hrun⟩
  · refine ⟨_, _, hrun, fun p' hp' _ _ => ?_, fun hout => ?_⟩
    · cases hp.symm.trans hp'
      obtain ⟨level, hbinds⟩ := st₁.env.exists_bindsAt x (.str (withPiece s n p))
      have hlookup := st₁.env.lookup?_assign x x (.str (withPiece s n p))
      rw [if_pos rfl] at hlookup
      exact ⟨_, level, isEdit_withPiece hn p, rfl, hlookup, hbinds, rfl⟩
    · exact (hout ⟨⟨p, hp⟩, by omega, by omega⟩).elim
  · exact ⟨_, _, hrun, fun p hp hlow hhigh => (hout ⟨⟨p, hp⟩, hlow, hhigh⟩).elim,
      fun _ => ⟨rfl, e, rfl⟩⟩

/-- Two names of a text with characters of one, two and three bytes, of which one is held behind an
interface. -/
def twoTexts : State :=
  ⟨(Environment.empty.define "s" (.interface (.str "aé→"))).define "t" (.str "aé→"), .empty, 0⟩

/-- `s[1] = "ñ"` puts a character of two bytes in place of the second one. -/
theorem string_edit_law_twoTexts :
    ∃ st', (assign (evaluate 8) (.item (.ident "s" .dummy) (.literal (.int 1) .dummy) .dummy)
        (.str "ñ")).run twoTexts = (.ok (.str "añ→"), st') ∧
      IsEdit "aé→" 1 "ñ" "añ→" ∧ st'.env.lookup? "s" = some (.str "añ→") ∧
      st'.env.lookup? "t" = some (.str "aé→") := by
  have hresult : ((assign (evaluate 8) (.item (.ident "s" .dummy)
      (.literal (.int 1) .dummy) .dummy) (.str "ñ")).run twoTexts).1 = .ok (.str "añ→") := by
    decide +kernel
  have hother : ((assign (evaluate 8) (.item (.ident "s" .dummy)
      (.literal (.int 1) .dummy) .dummy) (.str "ñ")).run twoTexts).2.env.lookup? "t" =
        some (.str "aé→") := by decide +kernel
  have hs : twoTexts.env.lookup? "s" = some (.interface (.str "aé→")) := by decide +kernel
  have hindex : (evaluate 8 (.literal (.int 1) .dummy)).run twoTexts = (.ok (.int 1), twoTexts) :=
    rfl
  obtain ⟨r, st', hrun, hok, -⟩ := (string_edit_law "aé→" (.str "ñ")).2 hs rfl hindex rfl
  obtain ⟨t, level, hedit, rfl, hlookup, -, -⟩ := hok "ñ" rfl (by decide) (by decide)
  rw [hrun] at hresult hother
  cases hresult
  exact ⟨st', hrun, hedit, hlookup, hother⟩

end TenantScript
