import TenantScript.Host.Function

/-!
Records of functions. Ids and names are measured and checked on their bytes. Main statement: that
comes to the rules for characters, also where characters take several bytes, and of the rules that
are broken the first is reported, in the order of id, name and body.
-/

namespace TenantScript

/-! ### Letters and digits -/

/-- Whether a character is an ASCII letter or digit. -/
def IsLetterOrDigit (c : Char) : Prop :=
  'a' ≤ c ∧ c ≤ 'z' ∨ 'A' ≤ c ∧ c ≤ 'Z' ∨ '0' ≤ c ∧ c ≤ '9'

theorem isLetterOrDigit_iff {c : Char} : IsLetterOrDigit c ↔
    97 ≤ c.toNat ∧ c.toNat ≤ 122 ∨ 65 ≤ c.toNat ∧ c.toNat ≤ 90 ∨
      48 ≤ c.toNat ∧ c.toNat ≤ 57 := by
  simp only [IsLetterOrDigit, Char.le_def, UInt32.le_iff_toNat_le]
  rfl

theorem isAlphanumericByte_iff {b : UInt8} : isAlphanumericByte b = true ↔
    97 ≤ b.toNat ∧ b.toNat ≤ 122 ∨ 65 ≤ b.toNat ∧ b.toNat ≤ 90 ∨
      48 ≤ b.toNat ∧ b.toNat ≤ 57 := by
  simp only [isAlphanumericByte, Bool.or_eq_true, Bool.and_eq_true, decide_eq_true_eq,
    UInt8.le_iff_toNat_le, UInt8.reduceToNat]
  omega

/-! ### Characters and their bytes -/

/-- The first of several bytes of a character is not ASCII. -/
theorem exists_utf8EncodeChar_eq_cons {c : Char} (h : 127 < c.toNat) :
    ∃ b rest, String.utf8EncodeChar c = b :: rest ∧ 128 ≤ b.toNat := by
  have hc : ¬ c.val.toNat ≤ 127 := Nat.not_le.2 h
  unfold String.utf8EncodeChar
  simp only [if_neg hc]
  split
  · refine ⟨_, _, rfl, ?_⟩
    simp only [UInt8.toNat_ofNat']
    omega
  · split
    · refine ⟨_, _, rfl, ?_⟩
      simp only [UInt8.toNat_ofNat']
      omega
    · refine ⟨_, _, rfl, ?_⟩
      simp only [UInt8.toNat_ofNat']
      omega

/-- The only byte of an ASCII character is its code point. -/
theorem utf8EncodeChar_of_le {c : Char} (h : c.toNat ≤ 127) :
    String.utf8EncodeChar c = [UInt8.ofNat c.toNat] := if_pos h

/-- The bytes of a character are letters and digits if and only if the character is one. -/
theorem all_utf8EncodeChar_iff {c : Char} :
    (∀ b ∈ String.utf8EncodeChar c, isAlphanumericByte b = true) ↔ IsLetterOrDigit c := by
  rw [isLetterOrDigit_iff]
  rcases Nat.lt_or_ge 127 c.toNat with h | h
  · obtain ⟨b, rest, hbytes, hb⟩ := exists_utf8EncodeChar_eq_cons h
    constructor
    · intro hall
      have := isAlphanumericByte_iff.1 (hall b (hbytes ▸ List.mem_cons_self))
      omega
    · intro hc
      omega
  · have hbyte : (UInt8.ofNat c.toNat).toNat = c.toNat := by
      rw [UInt8.toNat_ofNat']
      omega
    simp only [utf8EncodeChar_of_le h, List.mem_singleton, forall_eq, isAlphanumericByte_iff, hbyte]

theorem length_utf8EncodeChar_of_isLetterOrDigit {c : Char} (h : IsLetterOrDigit c) :
    (String.utf8EncodeChar c).length = 1 := by
  rw [isLetterOrDigit_iff] at h
  rw [utf8EncodeChar_of_le (by omega), List.length_singleton]

theorem toList_data_toUTF8 (s : String) :
    s.toUTF8.data.toList = s.toList.flatMap String.utf8EncodeChar := by
  conv => lhs; rw [← String.ofList_toList (s := s)]
  rw [String.toUTF8_eq_toByteArray, String.toByteArray_ofList]
  simp [List.utf8Encode]

/-! ### Words -/

/-- Whether a text consists of `least` to `most` characters, all of them ASCII letters or digits. -/
structure IsWord (least most : Nat) (s : String) : Prop where
  least_le : least ≤ s.length
  le_most : s.length ≤ most
  letters : ∀ c ∈ s.toList, IsLetterOrDigit c

theorem length_flatMap_utf8EncodeChar : {cs : List Char} → (∀ c ∈ cs, IsLetterOrDigit c) →
    (cs.flatMap String.utf8EncodeChar).length = cs.length
  | [], _ => rfl
  | c :: cs, h => by
    have ih := length_flatMap_utf8EncodeChar fun d hd => h d (List.mem_cons_of_mem c hd)
    rw [List.flatMap_cons, List.length_append, ih,
      length_utf8EncodeChar_of_isLetterOrDigit (h c List.mem_cons_self), List.length_cons,
      Nat.add_comm]

/-- A text of letters and digits has as many bytes as characters. -/
theorem size_toUTF8_of_letters {s : String} (h : ∀ c ∈ s.toList, IsLetterOrDigit c) :
    s.toUTF8.size = s.length :=
  calc s.toUTF8.size = s.toUTF8.data.toList.length := Array.length_toList.symm
    _ = s.toList.length := by rw [toList_data_toUTF8, length_flatMap_utf8EncodeChar h]
    _ = s.length := String.length_toList

/-- What is checked on bytes is what the rule says of characters. -/
theorem isAlphanumeric_iff {s : String} {least most : Nat} :
    isAlphanumeric s least most = true ↔ IsWord least most s := by
  have hall : s.toUTF8.data.all isAlphanumericByte = true ↔
      ∀ c ∈ s.toList, IsLetterOrDigit c := by
    rw [← Array.all_toList, toList_data_toUTF8, List.all_eq_true]
    simp only [List.mem_flatMap, forall_exists_index, and_imp]
    exact ⟨fun h c hc => all_utf8EncodeChar_iff.1 fun b hb => h b c hc hb,
      fun h b c hc hb => all_utf8EncodeChar_iff.2 (h c hc) b hb⟩
  simp only [isAlphanumeric, Bool.and_eq_true, decide_eq_true_eq, hall]
  constructor
  · rintro ⟨⟨hleast, hmost⟩, hletters⟩
    rw [size_toUTF8_of_letters hletters] at hleast hmost
    exact ⟨hleast, hmost, hletters⟩
  · rintro ⟨hleast, hmost, hletters⟩
    rw [size_toUTF8_of_letters hletters]
    exact ⟨⟨hleast, hmost⟩, hletters⟩

/-- Twenty bytes are not twenty characters. -/
example : isAlphanumeric "éééééééééé" 20 20 = false := by decide +kernel

/-! ### Main statement -/

namespace Function

/-- The rule for ids. -/
def IsId (id : String) : Prop := IsWord 20 20 id

/-- The rule for names. -/
def IsName (name : Name) : Prop := IsWord 2 32 name

variable {id : String} {name : Name} {body : List Stmt}

theorem create_of_not_isId (hid : ¬IsId id) : create id name body = .error (.invalidId id) := by
  have h : isAlphanumeric id idLength idLength = false :=
    Bool.eq_false_iff.2 fun h => hid (isAlphanumeric_iff.1 h)
  simp [create, h]

theorem create_of_not_isName (hid : IsId id) (hname : ¬IsName name) :
    create id name body = .error (.invalidName name) := by
  have h : isAlphanumeric id idLength idLength = true := isAlphanumeric_iff.2 hid
  have h' : isAlphanumeric name nameMin nameMax = false :=
    Bool.eq_false_iff.2 fun h => hname (isAlphanumeric_iff.1 h)
  simp [create, h, h']

theorem create_of_isName (hid : IsId id) (hname : IsName name) : create id name body =
    if body.isEmpty then .error .emptyBody else .ok ⟨id, name, false, none, body⟩ := by
  have h : isAlphanumeric id idLength idLength = true := isAlphanumeric_iff.2 hid
  have h' : isAlphanumeric name nameMin nameMax = true := isAlphanumeric_iff.2 hname
  simp [create, h, h']

theorem create_eq_ok_iff {f : Function} : create id name body = .ok f ↔
    IsId id ∧ IsName name ∧ body ≠ [] ∧
      f = { id, name, api := false, runAs? := none, body } := by
  by_cases hid : IsId id
  · by_cases hname : IsName name
    · rw [create_of_isName hid hname]
      cases body <;> simp [hid, hname, eq_comm]
    · simp [create_of_not_isName hid hname, hname]
  · simp [create_of_not_isId hid, hid]

/-- What comes of a record: a function if it keeps the rules, or else the first rule that it
breaks. -/
structure Judged (id : String) (name : Name) (body : List Stmt) : Prop where
  accepted_iff : (∃ f, create id name body = .ok f) ↔ IsId id ∧ IsName name ∧ body ≠ []
  /-- The function is that of the record, neither public nor run under another user. -/
  accepted : ∀ f, create id name body = .ok f →
    f = { id, name, api := false, runAs? := none, body }
  invalidId : ¬IsId id → create id name body = .error (.invalidId id)
  invalidName : IsId id → ¬IsName name → create id name body = .error (.invalidName name)
  emptyBody : IsId id → IsName name → body = [] → create id name body = .error .emptyBody

/-- A record is judged by the characters of its id and of its name, whatever bytes they have. -/
theorem create_judged (id : String) (name : Name) (body : List Stmt) : Judged id name body where
  accepted_iff := by simp only [create_eq_ok_iff, exists_and_left, exists_eq, and_true]
  accepted f hf := (create_eq_ok_iff.1 hf).2.2.2
  invalidId := create_of_not_isId
  invalidName := create_of_not_isName
  emptyBody hid hname hbody := by
    rw [create_of_isName hid hname, hbody]
    rfl

end Function

end TenantScript
