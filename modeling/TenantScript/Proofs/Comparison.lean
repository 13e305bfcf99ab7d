import TenantScript.Proofs.Reads
import TenantScript.Value.Equality

/-!
Comparison in steps. To compare two values is either to answer at once or to ask whether the values
that they hold are equal, pair after pair, until one pair is not. What is asked depends on nothing
but where two containers lie, their form and what they hold, so that arrays, maps and structs are
one case, and the comparison the other way round asks the same the other way round.
-/

namespace TenantScript

/-! ### Containers as they are compared -/

/-- What has to agree of two containers before what they hold is compared. -/
inductive Form where
  | array (length : Nat)
  | map (size : Nat)
  | struct (name : Name)
  deriving DecidableEq

def Form.kind : Form → Kind
  | array _ => .array
  | map _ => .map
  | struct _ => .struct

/-- A container as it is compared: where it lies, its form, and its values, which in a map are
labelled by their keys. -/
structure Contents where
  address? : Option Address
  form : Form
  held : List (Option MapKey × Value)

def Heap.contents? (h : Heap) : Value → Option Contents
  | .array a => some ⟨some a.address, .array (h.items a).length, (h.items a).map (none, ·)⟩
  | .map m => some ⟨m.address?, .map (h.entries m).size,
      (h.entries m).entries.map fun e => (some e.1, e.2)⟩
  | .struct s => some ⟨some s.address, .struct s.defn.name,
      (h.namedFields s).map fun f => (none, f.2)⟩
  | _ => none

/-- Whether two containers are one. -/
def Contents.SharesWith (P Q : Contents) : Prop :=
  P.form.kind = Q.form.kind ∧ P.address?.isSome ∧ P.address? = Q.address?

instance (P Q : Contents) : Decidable (P.SharesWith Q) :=
  inferInstanceAs (Decidable (_ ∧ _ ∧ _))

/-! ### Steps of a comparison -/

/-- The values of two lists, pairwise, as far as both reach and the labels are equal. -/
def pairsOf : List (Option MapKey × Value) → List (Option MapKey × Value) → List (Value × Value)
  | (j, v) :: vs, (k, w) :: ws => if j = k then (v, w) :: pairsOf vs ws else []
  | _, _ => []

/-- Whether the labels of two lists are equal as far as both reach. -/
def sameLabels : List (Option MapKey × Value) → List (Option MapKey × Value) → Bool
  | (j, _) :: vs, (k, _) :: ws => j = k && sameLabels vs ws
  | _, _ => true

/-- What a comparison comes to: the pairs that have to be equal, in order, and the answer if they
are. -/
structure Comparison where
  pairs : List (Value × Value)
  answer : Bool

def Contents.compare (P Q : Contents) : Comparison :=
  if P.SharesWith Q then ⟨[], true⟩
  else if P.form = Q.form then ⟨pairsOf P.held Q.held, sameLabels P.held Q.held⟩
  else ⟨[], false⟩

/-- Equality of values that hold no others, or none that are compared. -/
def Value.sameScalar : Value → Value → Bool
  | nil, nil => true
  | bool a, bool b => a == b
  | int a, int b => a == b
  | float a, float b => a.same b
  | str a, str b => a == b
  | pointer a, pointer b => a.address? == b.address?
  | _, _ => false

def Heap.comparison (h : Heap) (v w : Value) : Comparison :=
  match h.contents? v.unwrap, h.contents? w.unwrap with
  | some P, some Q => P.compare Q
  | _, _ => ⟨[], v.unwrap.sameScalar w.unwrap⟩

theorem mem_of_mem_pairsOf {p : Value × Value} : {vs ws : List (Option MapKey × Value)} →
    p ∈ pairsOf vs ws → (∃ e ∈ vs, e.2 = p.1) ∧ ∃ e ∈ ws, e.2 = p.2
  | [], _, h => by
    rw [pairsOf] at h
    cases h
    nofun
  | _ :: _, [], h => by
    rw [pairsOf] at h
    cases h
    nofun
  | (j, v) :: vs, (k, w) :: ws, h => by
    rw [pairsOf] at h
    split at h
    · rcases List.mem_cons.1 h with rfl | h
      · exact ⟨⟨_, List.mem_cons_self, rfl⟩, _, List.mem_cons_self, rfl⟩
      · obtain ⟨⟨e, he, hv⟩, f, hf, hw⟩ := mem_of_mem_pairsOf h
        exact ⟨⟨e, List.mem_cons_of_mem _ he, hv⟩, f, List.mem_cons_of_mem _ hf, hw⟩
    · cases h

/-- The answer of a comparison whose pairs are compared by `eq`: the first pair that is not equal
decides. -/
def settle (eq : Value → Value → Option Bool) (answer : Bool) : List (Value × Value) → Option Bool
  | [] => some answer
  | p :: ps =>
    match eq p.1 p.2 with
    | some true => settle eq answer ps
    | r => r

theorem pairwiseEqual_eq (eq : Value → Value → Option Bool) : (vs ws : List Value) →
    pairwiseEqual eq vs ws = settle eq (sameLabels (vs.map (none, ·)) (ws.map (none, ·)))
      (pairsOf (vs.map (none, ·)) (ws.map (none, ·)))
  | [], _ | _ :: _, [] => by simp [pairwiseEqual, settle, pairsOf, sameLabels]
  | v :: vs, w :: ws => by
    have ih := pairwiseEqual_eq eq vs ws
    rcases hvw : eq v w with _ | _ | _ <;>
      simp [pairwiseEqual, settle, pairsOf, sameLabels, hvw, ih]

theorem entriesEqual_eq (eq : Value → Value → Option Bool) : (vs ws : List (MapKey × Value)) →
    entriesEqual eq vs ws =
      settle eq (sameLabels (vs.map fun e => (some e.1, e.2)) (ws.map fun e => (some e.1, e.2)))
        (pairsOf (vs.map fun e => (some e.1, e.2)) (ws.map fun e => (some e.1, e.2)))
  | [], _ | _ :: _, [] => by simp [entriesEqual, settle, pairsOf, sameLabels]
  | (j, v) :: vs, (k, w) :: ws => by
    have ih := entriesEqual_eq eq vs ws
    by_cases hjk : j = k
    · rcases hvw : eq v w with _ | _ | _ <;>
        simp [entriesEqual, settle, pairsOf, sameLabels, hjk, hvw, ih]
    · simp [entriesEqual, settle, pairsOf, sameLabels, hjk]

/-- One level of equality is one step of the comparison. -/
theorem equalWithin_succ (h : Heap) (depth : Nat) (v w : Value) :
    equalWithin h (depth + 1) v w =
      settle (equalWithin h depth) (h.comparison v w).answer (h.comparison v w).pairs := by
  unfold equalWithin Heap.comparison
  generalize v.unwrap = x
  generalize w.unwrap = y
  cases x with
  | array a =>
    cases y with
    | array b =>
      by_cases hab : a.address = b.address
      · simp [Heap.contents?, Contents.compare, Contents.SharesWith, Form.kind, hab, settle]
      · by_cases hlen : (h.items a).length = (h.items b).length <;>
          simp [Heap.contents?, Contents.compare, Contents.SharesWith, hab, hlen, settle,
            pairwiseEqual_eq]
    | _ => rfl
  | map m =>
    cases y with
    | map n =>
      by_cases hmn : m.sharesWith n = true
      · obtain ⟨hsome, haddress⟩ : m.address?.isSome = true ∧ m.address? = n.address? := by
          simpa [MapRef.sharesWith] using hmn
        rw [haddress] at hsome
        simp [Heap.contents?, Contents.compare, Contents.SharesWith, Form.kind, hmn, haddress,
          hsome, settle]
      · have hshares : ¬ (m.address?.isSome = true ∧ m.address? = n.address?) := by
          simpa [MapRef.sharesWith] using hmn
        by_cases hsize : (h.entries m).size = (h.entries n).size <;>
          simp [Heap.contents?, Contents.compare, Contents.SharesWith, Form.kind, hmn, hshares,
            hsize, settle, entriesEqual_eq]
    | _ => rfl
  | struct s =>
    cases y with
    | struct t =>
      by_cases hst : s.address = t.address
      · simp [Heap.contents?, Contents.compare, Contents.SharesWith, Form.kind, hst, settle]
      · by_cases hname : s.defn.name = t.defn.name <;>
          simp [Heap.contents?, Contents.compare, Contents.SharesWith, hst, hname, settle,
            pairwiseEqual_eq, Function.comp_def]
    | _ => rfl
  | _ => cases y <;> rfl

/-! ### The pairs in order -/

section Settle

variable {eq eq' : Value → Value → Option Bool} {answer b : Bool} {ps : List (Value × Value)}

theorem settle_eq_true_iff :
    settle eq answer ps = some true ↔ answer = true ∧ ∀ p ∈ ps, eq p.1 p.2 = some true := by
  induction ps with
  | nil => simp [settle]
  | cons p ps ih =>
    rw [settle, List.forall_mem_cons]
    rcases eq p.1 p.2 with _ | _ | _
    · simp
    · simp
    · simp [ih]

/-- There is no answer because of a pair without one, before which all pairs are equal. -/
theorem exists_of_settle_eq_none (h : settle eq answer ps = none) :
    ∃ before p after, ps = before ++ p :: after ∧ (∀ q ∈ before, eq q.1 q.2 = some true) ∧
      eq p.1 p.2 = none := by
  induction ps with
  | nil => cases h
  | cons p ps ih =>
    rw [settle] at h
    rcases heq : eq p.1 p.2 with _ | _ | _
    · exact ⟨[], p, ps, rfl, List.forall_mem_nil _, heq⟩
    · rw [heq] at h
      cases h
    · rw [heq] at h
      obtain ⟨before, q, after, rfl, hbefore, hq⟩ := ih h
      exact ⟨p :: before, q, after, rfl, List.forall_mem_cons.2 ⟨heq, hbefore⟩, hq⟩

theorem settle_eq_none {before after : List (Value × Value)} {p : Value × Value}
    (hbefore : ∀ q ∈ before, eq q.1 q.2 ≠ some false) (hp : eq p.1 p.2 = none) :
    settle eq answer (before ++ p :: after) = none := by
  induction before with
  | nil =>
    rw [List.nil_append, settle, hp]
  | cons q before ih =>
    rw [List.forall_mem_cons] at hbefore
    rw [List.cons_append, settle]
    rcases heq : eq q.1 q.2 with _ | _ | _
    · rfl
    · exact (hbefore.1 heq).elim
    · exact ih hbefore.2

theorem settle_mono (h : ∀ v w b, eq v w = some b → eq' v w = some b)
    (hsettle : settle eq answer ps = some b) : settle eq' answer ps = some b := by
  induction ps with
  | nil => exact hsettle
  | cons p ps ih =>
    rw [settle] at hsettle ⊢
    rcases heq : eq p.1 p.2 with _ | _ | _
    · rw [heq] at hsettle
      cases hsettle
    · rw [heq] at hsettle
      rw [h _ _ _ heq]
      exact hsettle
    · rw [heq] at hsettle
      rw [h _ _ _ heq]
      exact ih hsettle

end Settle

/-! ### Contents in a sound heap -/

section Contents

variable {D : Discipline} {Γ : Layout} {h : Heap} {x y : Value} {P Q : Contents}

theorem address?_of_contents? (hP : h.contents? x = some P) : P.address? = x.ref? := by
  cases x <;> cases hP <;> rfl

theorem exists_storage_of_held (hP : h.contents? x = some P) {e : Option MapKey × Value}
    (he : e ∈ P.held) : ∃ a s, P.address? = some a ∧ h.get? a = some s ∧ e.2 ∈ s.values := by
  cases x with
  | array a =>
    cases hP
    obtain ⟨v, hv, rfl⟩ := List.mem_map.1 he
    obtain ⟨i, hi⟩ := Heap.value?_of_mem_items hv
    obtain ⟨s, hget, hmem⟩ := Heap.exists_storage_of_value? hi
    exact ⟨_, s, rfl, hget, hmem⟩
  | map m =>
    cases hP
    obtain ⟨⟨k, v⟩, hv, rfl⟩ := List.mem_map.1 he
    obtain ⟨a, ha, hslot⟩ := Heap.value?_of_entry (SortedMap.get?_eq_some_iff.2 hv)
    obtain ⟨s, hget, hmem⟩ := Heap.exists_storage_of_value? hslot
    exact ⟨a, s, ha, hget, hmem⟩
  | struct r =>
    cases hP
    obtain ⟨⟨name, v⟩, hv, rfl⟩ := List.mem_map.1 he
    have hmem : v ∈ h.fieldsAt r.address := (List.of_mem_zip hv).2
    unfold Heap.fieldsAt at hmem
    split at hmem
    · next vs hget => exact ⟨_, _, rfl, hget, hmem⟩
    · cases hmem
  | _ => cases hP

theorem fits_of_held (hs : h.Sound D Γ) (hP : h.contents? x = some P)
    {e : Option MapKey × Value} (he : e ∈ P.held) : e.2.Fits Γ := by
  obtain ⟨a, s, -, hget, hmem⟩ := exists_storage_of_held hP he
  obtain ⟨d, -, hfits⟩ := hs.exists_decl hget
  exact hfits.values _ hmem

/-- Where there are pairs to be compared, two containers hold them. -/
theorem held_of_mem_pairs {v w : Value} {p : Value × Value}
    (hp : p ∈ (h.comparison v w).pairs) :
    ∃ P Q, h.contents? v.unwrap = some P ∧ h.contents? w.unwrap = some Q ∧
      (∃ e ∈ P.held, e.2 = p.1) ∧ ∃ e ∈ Q.held, e.2 = p.2 := by
  unfold Heap.comparison at hp
  split at hp
  · next P Q hP hQ =>
    refine ⟨P, Q, hP, hQ, mem_of_mem_pairsOf ?_⟩
    unfold Contents.compare at hp
    split at hp
    · cases hp
    · split at hp
      · exact hp
      · cases hp
  · cases hp

/-- What is declared at an address determines, with the heap, the container that lies there. -/
def Heap.contentsAt (h : Heap) (a : Address) : Decl → Option Contents
  | .array .. => some ⟨some a, .array (h.itemsAt a).length, (h.itemsAt a).map (none, ·)⟩
  | .map .. => some ⟨some a, .map (h.entriesAt a).size,
      (h.entriesAt a).entries.map fun e => (some e.1, e.2)⟩
  | .struct d => some ⟨some a, .struct d.name,
      ((d.fields.map (·.name)).zip (h.fieldsAt a)).map fun f => (none, f.2)⟩
  | .cell => none

theorem contents?_of_fits (hx : x.Fits Γ) (hP : h.contents? x = some P) {a : Address}
    (ha : P.address? = some a) : ∃ d, Γ.decl? a = some d ∧ h.contentsAt a d = some P := by
  cases x with
  | array r =>
    cases hP
    cases ha
    obtain ⟨n, hn⟩ := hx
    exact ⟨_, hn, rfl⟩
  | map m =>
    cases hP
    refine ⟨_, hx a ha, ?_⟩
    rw [Heap.entries, show m.address? = some a from ha]
    rfl
  | struct r =>
    cases hP
    cases ha
    exact ⟨_, hx, rfl⟩
  | _ => cases hP

theorem contents_eq_of_address? (hx : x.Fits Γ) (hy : y.Fits Γ) (hP : h.contents? x = some P)
    (hQ : h.contents? y = some Q) {a : Address} (hPa : P.address? = some a)
    (hQa : Q.address? = some a) : P = Q := by
  obtain ⟨d, hd, hdP⟩ := contents?_of_fits hx hP hPa
  obtain ⟨e, he, heQ⟩ := contents?_of_fits hy hQ hQa
  cases hd.symm.trans he
  exact Option.some.inj (hdP.symm.trans heQ)

end Contents

end TenantScript
