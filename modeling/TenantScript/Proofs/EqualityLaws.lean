import TenantScript.Proofs.Comparison
import TenantScript.Proofs.Session

/-!
Laws of equality. It takes one interface off either side, so that values that differ in interfaces
only are equal just if at most one is around each. It is symmetric in every heap, and it is
transitive if structs of one name have equally many fields.
-/

namespace TenantScript

open Relation

/-! ### Interfaces -/

/-- The number of interfaces around a value. -/
def Value.layers : Value → Nat
  | interface inner => inner.layers + 1
  | _ => 0

namespace Value

theorem unwrap_of_layers_le {v : Value} (hv : v.layers ≤ 1) : v.unwrap = v.bare := by
  cases v with
  | interface u =>
    cases u with
    | interface u =>
      simp only [layers] at hv
      omega
    | _ => rfl
  | _ => rfl

theorem exists_unwrap_of_layers {v : Value} (hv : ¬ v.layers ≤ 1) :
    ∃ u, v.unwrap = interface u := by
  cases v with
  | interface u =>
    cases u with
    | interface u => exact ⟨u, rfl⟩
    | _ => simp [layers] at hv
  | _ => simp [layers] at hv

theorem bare_ne_interface (v u : Value) : v.bare ≠ interface u := by
  induction v with
  | interface v ih => exact ih
  | _ => simp [bare]

theorem unwrap_bare (v : Value) : v.bare.unwrap = v.bare := by
  induction v with
  | interface v ih => exact ih
  | _ => rfl

end Value

namespace Binary64

theorem same_iff {x y : Binary64} : x.same y = true ↔ x = y ∨ x.isZero ∧ y.isZero := by
  have hzero {z : Binary64} (hz : z.isZero = true) : z.isNaN = false := by
    simp only [isZero, Bool.and_eq_true, beq_iff_eq] at hz
    simp [isNaN, hz.1]
  simp only [same, ieeeEq, Bool.or_eq_true, Bool.and_eq_true, beq_iff_eq, Bool.not_eq_true']
  constructor
  · rintro (h | ⟨-, h⟩)
    · exact .inl h
    · exact h
  · rintro (h | ⟨hx, hy⟩)
    · exact .inl h
    · exact .inr ⟨⟨hzero hx, hzero hy⟩, .inr ⟨hx, hy⟩⟩

theorem same_comm (x y : Binary64) : x.same y = y.same x := by
  rw [Bool.eq_iff_iff, same_iff, same_iff, eq_comm, and_comm]

theorem same_trans {x y z : Binary64} (hxy : x.same y = true) (hyz : y.same z = true) :
    x.same z = true := by
  rw [same_iff] at *
  rcases hxy with rfl | ⟨hx, hy⟩
  · exact hyz
  · rcases hyz with rfl | ⟨-, hz⟩
    · exact .inr ⟨hx, hy⟩
    · exact .inr ⟨hx, hz⟩

end Binary64

/-! ### A value and itself -/

theorem pairsOf_self (vs : List (Option MapKey × Value)) :
    pairsOf vs vs = vs.map fun e => (e.2, e.2) := by
  induction vs with
  | nil => rfl
  | cons e vs ih => simp [pairsOf, ih]

theorem sameLabels_self (vs : List (Option MapKey × Value)) : sameLabels vs vs = true := by
  induction vs with
  | nil => rfl
  | cons e vs ih => simp [sameLabels, ih]

theorem settle_map_self {eq : Value → Value → Option Bool} {f : Value → Bool} {vs : List Value}
    (h : ∀ v ∈ vs, eq v v = some (f v)) :
    settle eq true (vs.map fun v => (v, v)) = some (vs.all f) := by
  induction vs with
  | nil => rfl
  | cons v vs ih =>
    rw [List.forall_mem_cons] at h
    rw [List.map_cons, settle, h.1, List.all_cons]
    cases f v with
    | false => rfl
    | true => exact ih h.2

namespace Heap

variable {h : Heap} {v w x : Value} {P Q : Contents}

/-- The values that a container holds. -/
def heldBy (h : Heap) : Value → List Value
  | .array a => h.items a
  | .map m => (h.entries m).entries.map (·.2)
  | .struct s => (h.namedFields s).map (·.2)
  | _ => []

theorem map_held (hP : h.contents? x = some P) : P.held.map (·.2) = h.heldBy x := by
  cases x <;> cases hP <;> simp [heldBy, Function.comp_def]

/-- Whether one container has been copied into another, value by value. -/
inductive Copies (h : Heap) : Value → Value → Prop
  | array {a b : ArrayRef} (hne : a.address ≠ b.address) (hitems : h.items b = h.items a) :
    Copies h (.array a) (.array b)
  | map {m n : MapRef} (hne : ¬ m.sharesWith n) (hentries : h.entries n = h.entries m) :
    Copies h (.map m) (.map n)
  | struct {s t : StructRef} (hne : s.address ≠ t.address) (hdefn : t.defn = s.defn)
    (hfields : h.fields t = h.fields s) : Copies h (.struct s) (.struct t)

theorem Copies.contents (hvw : h.Copies v w) : ∃ P Q, h.contents? v.unwrap = some P ∧
    h.contents? w.unwrap = some Q ∧ ¬ P.SharesWith Q ∧ P.form = Q.form ∧ P.held = Q.held := by
  cases hvw with
  | array hne hitems =>
    refine ⟨_, _, rfl, rfl, ?_, ?_, ?_⟩
    · simp [Contents.SharesWith, hne]
    · simp [hitems]
    · simp [hitems]
  | map hne hentries =>
    refine ⟨_, _, rfl, rfl, ?_, ?_, ?_⟩
    · simpa [Contents.SharesWith, Form.kind, MapRef.sharesWith] using hne
    · simp [hentries]
    · simp [hentries]
  | struct hne hdefn hfields =>
    refine ⟨_, _, rfl, rfl, ?_, ?_, ?_⟩
    · simp [Contents.SharesWith, hne]
    · simp [hdefn]
    · simp [namedFields, hdefn, hfields]

theorem comparison_bare (h : Heap) (v : Value) : h.comparison v.bare v.bare = ⟨[], true⟩ := by
  have hbare := v.bare_ne_interface
  generalize v.bare = x at hbare
  cases x with
  | interface u => exact (hbare u rfl).elim
  | map m =>
    rcases m with ⟨key, value, _ | a⟩
    · rfl
    · simp [comparison, Value.unwrap, contents?, Contents.compare, Contents.SharesWith]
  | float x => simp [comparison, Value.unwrap, contents?, Value.sameScalar, Binary64.same_iff]
  | _ =>
    simp [comparison, Value.unwrap, contents?, Contents.compare, Contents.SharesWith,
      Value.sameScalar]

theorem comparison_of_bare_eq (hvw : v.bare = w.bare) :
    h.comparison v w = ⟨[], decide (v.layers ≤ 1 ∧ w.layers ≤ 1)⟩ := by
  by_cases hv : v.layers ≤ 1
  · by_cases hw : w.layers ≤ 1
    · have hself := h.comparison_bare v
      rw [comparison, v.unwrap_bare] at hself
      rw [comparison, Value.unwrap_of_layers_le hv, Value.unwrap_of_layers_le hw, ← hvw, hself]
      simp [hv, hw]
    · obtain ⟨u, hu⟩ := Value.exists_unwrap_of_layers hw
      rw [comparison, hu, decide_eq_false (fun hand => hw hand.2)]
      cases v.unwrap <;> rfl
  · obtain ⟨u, hu⟩ := Value.exists_unwrap_of_layers hv
    rw [comparison, hu, decide_eq_false (fun hand => hv hand.1)]
    rfl

theorem equalWithin_of_bare_eq (depth : Nat) (hvw : v.bare = w.bare) :
    equalWithin h (depth + 1) v w = some (decide (v.layers ≤ 1 ∧ w.layers ≤ 1)) := by
  rw [equalWithin_succ, comparison_of_bare_eq hvw]
  rfl

theorem equal_of_copies (hvw : h.Copies v w) :
    h.equal v w = some ((h.heldBy v).all fun u => u.layers ≤ 1) := by
  obtain ⟨P, Q, hP, hQ, hne, hform, hheld⟩ := hvw.contents
  have hv : h.heldBy v = P.held.map (·.2) := by
    rw [map_held hP]
    cases hvw <;> rfl
  have hcomparison : h.comparison v w = ⟨(h.heldBy v).map fun u => (u, u), true⟩ := by
    simp only [comparison, hP, hQ, Contents.compare, if_neg hne, if_pos hform]
    rw [← hheld, pairsOf_self, sameLabels_self, hv, List.map_map]
    rfl
  rw [equal, equalWithin_succ, hcomparison]
  cases hnil : P.held with
  | nil =>
    rw [hv, hnil]
    rfl
  | cons e es =>
    -- There is a value, and so a storage that holds it: the depth is at least two.
    obtain ⟨a, s, -, hs, -⟩ := exists_storage_of_held hP (hnil ▸ List.mem_cons_self : e ∈ P.held)
    have hsize : h.size ≠ 0 := Nat.ne_of_gt (Nat.zero_lt_of_lt (lt_size_of_get? hs))
    obtain ⟨n, hn⟩ := Nat.exists_eq_succ_of_ne_zero (Nat.mul_ne_zero hsize hsize)
    rw [hn]
    refine settle_map_self fun u _ => ?_
    simp [equalWithin_of_bare_eq n rfl]

/-- Two values that are one behind their interfaces are equal just if each has at most one around
it. So a value equals itself unless there are more, and it equals itself behind one more unless
there is one. A copy of a container equals it just if all that it holds equals itself. -/
theorem equal_behind_interfaces (h : Heap) :
    (∀ v w, v.bare = w.bare → h.equal v w = some (decide (v.layers ≤ 1 ∧ w.layers ≤ 1))) ∧
    (∀ v, (h.equal v v = some true ↔ v.layers ≤ 1) ∧
      (h.equal (.interface v) v = some true ↔ v.layers = 0) ∧
      (h.equal v (.interface v) = some true ↔ v.layers = 0)) ∧
    ∀ v w, h.Copies v w →
      h.equal v w = some ((h.heldBy v).all fun u => h.equal u u == some true) := by
  have hbare (v w : Value) (hvw : v.bare = w.bare) :
      h.equal v w = some (decide (v.layers ≤ 1 ∧ w.layers ≤ 1)) := equalWithin_of_bare_eq _ hvw
  refine ⟨hbare, fun v => ⟨?_, ?_, ?_⟩, fun v w hvw => ?_⟩
  · simp [hbare v v rfl]
  · rw [hbare (.interface v) v rfl, Option.some.injEq, decide_eq_true_iff, Value.layers]
    omega
  · rw [hbare v (.interface v) rfl, Option.some.injEq, decide_eq_true_iff, Value.layers]
    omega
  · rw [equal_of_copies hvw]
    congr 2
    funext u
    simp [hbare u u rfl]

/-- An array of a number that is none, a nil map and a number behind an interface, and a copy. -/
def twoMixed : Heap :=
  let items : List Value := [.float ⟨0x7ff8000000000000⟩, .map ⟨.str, .int, none⟩,
    .interface (.int 1)]
  ⟨#[.items items, .items items]⟩

theorem equal_behind_interfaces_twoMixed :
    twoMixed.Copies (.array ⟨.any, false, false, 0⟩) (.array ⟨.any, true, false, 1⟩) ∧
    twoMixed.equal (.array ⟨.any, false, false, 0⟩) (.array ⟨.any, true, false, 1⟩) = some true ∧
    twoMixed.equal (.interface (.array ⟨.any, false, false, 0⟩)) (.array ⟨.any, false, false, 0⟩) =
      some true := by
  have hcopies : twoMixed.Copies (.array ⟨.any, false, false, 0⟩) (.array ⟨.any, true, false, 1⟩) :=
    .array (by decide) rfl
  obtain ⟨hbare, -, hcopy⟩ := equal_behind_interfaces twoMixed
  exact ⟨hcopies, (hcopy _ _ hcopies).trans (by decide +kernel), hbare _ _ rfl⟩

/-- A number behind two interfaces equals neither itself nor the number behind one, and an array of
it does not equal a copy. -/
theorem twice_wrapped_unequal :
    let v : Value := .interface (.interface (.int 1))
    let h : Heap := ⟨#[.items [v], .items [v]]⟩
    (∀ a b, ¬ h.Leads a b) ∧ h.equal v v = some false ∧
    h.equal v (.interface (.int 1)) = some false ∧ h.equal (.interface (.int 1)) v = some false ∧
    h.Copies (.array ⟨.any, false, false, 0⟩) (.array ⟨.any, false, false, 1⟩) ∧
    h.equal (.array ⟨.any, false, false, 0⟩) (.array ⟨.any, false, false, 1⟩) = some false := by
  refine ⟨?_, rfl, rfl, rfl, .array (by decide) rfl, rfl⟩
  rintro (_ | _ | a) b ⟨s, hs, u, hu, hb⟩ <;> cases hs <;> cases List.mem_singleton.1 hu <;>
    cases hb

end Heap

/-! ### Symmetry -/

theorem Contents.sharesWith_comm {P Q : Contents} : P.SharesWith Q ↔ Q.SharesWith P := by
  constructor <;>
  · rintro ⟨hkind, hsome, haddress⟩
    exact ⟨hkind.symm, haddress ▸ hsome, haddress.symm⟩

theorem pairsOf_comm (vs ws : List (Option MapKey × Value)) :
    pairsOf ws vs = (pairsOf vs ws).map Prod.swap := by
  induction vs generalizing ws with
  | nil => cases ws <;> rfl
  | cons e vs ih =>
    cases ws with
    | nil => rfl
    | cons f ws =>
      by_cases hef : e.1 = f.1
      · simp [pairsOf, hef, ih]
      · simp [pairsOf, hef, Ne.symm hef]

theorem sameLabels_comm (vs ws : List (Option MapKey × Value)) :
    sameLabels ws vs = sameLabels vs ws := by
  induction vs generalizing ws with
  | nil => cases ws <;> rfl
  | cons e vs ih =>
    cases ws with
    | nil => rfl
    | cons f ws => simp [sameLabels, ih, eq_comm]

def Comparison.swap (c : Comparison) : Comparison := ⟨c.pairs.map Prod.swap, c.answer⟩

theorem Contents.compare_comm (P Q : Contents) : Q.compare P = (P.compare Q).swap := by
  unfold Contents.compare
  by_cases hshares : P.SharesWith Q
  · rw [if_pos hshares, if_pos (sharesWith_comm.1 hshares)]
    rfl
  · rw [if_neg hshares, if_neg (mt sharesWith_comm.1 hshares)]
    by_cases hform : P.form = Q.form
    · rw [if_pos hform, if_pos hform.symm, pairsOf_comm, sameLabels_comm]
      rfl
    · rw [if_neg hform, if_neg (Ne.symm hform)]
      rfl

theorem Value.sameScalar_comm (v w : Value) : w.sameScalar v = v.sameScalar w := by
  cases v <;> cases w <;> simp [sameScalar, Binary64.same_comm, Bool.beq_comm]

theorem Heap.comparison_comm (h : Heap) (v w : Value) :
    h.comparison w v = (h.comparison v w).swap := by
  unfold Heap.comparison
  rw [Value.sameScalar_comm]
  cases h.contents? v.unwrap with
  | none => cases h.contents? w.unwrap <;> rfl
  | some P =>
    cases h.contents? w.unwrap with
    | none => rfl
    | some Q => exact P.compare_comm Q

theorem settle_swap (eq : Value → Value → Option Bool) (answer : Bool) (ps : List (Value × Value)) :
    settle eq answer (ps.map Prod.swap) = settle (fun v w => eq w v) answer ps := by
  induction ps with
  | nil => rfl
  | cons p ps ih => simp only [List.map_cons, settle, Prod.fst_swap, Prod.snd_swap, ih]

theorem equalWithin_comm (h : Heap) (depth : Nat) (v w : Value) :
    equalWithin h depth w v = equalWithin h depth v w := by
  induction depth generalizing v w with
  | zero => rfl
  | succ depth ih =>
    rw [equalWithin_succ, equalWithin_succ, h.comparison_comm v w]
    simp only [Comparison.swap, settle_swap, ih]

/-! ### Transitivity -/

/-- Whether structs of one name have equally many fields. -/
def Layout.UniformStructs (Γ : Layout) : Prop :=
  ∀ {a b d e}, Γ.decl? a = some (.struct d) → Γ.decl? b = some (.struct e) → d.name = e.name →
    d.fields.length = e.fields.length

/-- Whether a container of a form can hold so many values. -/
def Form.Admits (Γ : Layout) : Form → Nat → Prop
  | array length, n => n = length
  | map size, n => n = size
  | struct name, n => ∃ a d, Γ.decl? a = some (.struct d) ∧ d.name = name ∧ n = d.fields.length

/-- Whether two containers are one, or have one form and `eq` values under the same labels. -/
def Contents.Agrees (eq : Value → Value → Option Bool) (P Q : Contents) : Prop :=
  P.SharesWith Q ∨ P.form = Q.form ∧ sameLabels P.held Q.held = true ∧
    ∀ p ∈ pairsOf P.held Q.held, eq p.1 p.2 = some true

section Transitivity

variable {D : Discipline} {Γ : Layout} {h : Heap} {x y : Value} {P Q R : Contents}
  {eq : Value → Value → Option Bool}

theorem Value.sameScalar_trans {u v w : Value} (huv : u.sameScalar v = true)
    (hvw : v.sameScalar w = true) : u.sameScalar w = true := by
  cases u <;> cases v <;> simp [sameScalar] at huv <;> cases w <;> simp [sameScalar] at hvw ⊢
  case float => exact Binary64.same_trans huv hvw
  all_goals exact huv.trans hvw

theorem contents?_of_sameScalar (hxy : x.sameScalar y = true) :
    h.contents? x = none ∧ h.contents? y = none := by
  cases x <;> cases y <;> first | cases hxy; done | exact ⟨rfl, rfl⟩

/-- Two values are equal as scalars or as containers. -/
theorem equalWithin_succ_eq_true_iff {depth : Nat} {v w : Value} :
    equalWithin h (depth + 1) v w = some true ↔ v.unwrap.sameScalar w.unwrap = true ∨
      ∃ P Q, h.contents? v.unwrap = some P ∧ h.contents? w.unwrap = some Q ∧
        P.Agrees (equalWithin h depth) Q := by
  rw [equalWithin_succ, settle_eq_true_iff, Heap.comparison]
  constructor
  · rintro ⟨hanswer, hpairs⟩
    split at hanswer
    · next P Q hP hQ =>
      simp only [hP, hQ, Contents.compare] at hanswer hpairs
      refine .inr ⟨P, Q, hP, hQ, ?_⟩
      by_cases hshares : P.SharesWith Q
      · exact .inl hshares
      · simp only [if_neg hshares] at hanswer hpairs
        split at hanswer
        · next hform =>
          rw [if_pos hform] at hpairs
          exact .inr ⟨hform, hanswer, hpairs⟩
        · cases hanswer
    · exact .inl hanswer
  · rintro (hscalar | ⟨P, Q, hP, hQ, hagrees⟩)
    · rw [(contents?_of_sameScalar hscalar).1]
      exact ⟨hscalar, List.forall_mem_nil _⟩
    · simp only [hP, hQ, Contents.compare]
      by_cases hshares : P.SharesWith Q
      · rw [if_pos hshares]
        exact ⟨rfl, List.forall_mem_nil _⟩
      · obtain ⟨hform, hlabels, hpairs⟩ := hagrees.resolve_left hshares
        rw [if_neg hshares, if_pos hform]
        exact ⟨hlabels, hpairs⟩

theorem forall₂_iff_pairs {vs ws : List (Option MapKey × Value)} (hlen : vs.length = ws.length) :
    List.Forall₂ (fun e f => e.1 = f.1 ∧ eq e.2 f.2 = some true) vs ws ↔
      sameLabels vs ws = true ∧ ∀ p ∈ pairsOf vs ws, eq p.1 p.2 = some true := by
  induction vs generalizing ws with
  | nil =>
    obtain rfl := List.length_eq_zero_iff.1 hlen.symm
    simp [sameLabels, pairsOf]
  | cons e vs ih =>
    cases ws with
    | nil => cases hlen
    | cons f ws =>
      rw [List.forall₂_cons, ih (Nat.succ.inj hlen)]
      by_cases hef : e.1 = f.1
      · simp only [sameLabels, pairsOf, hef, if_true, decide_true, Bool.true_and,
          List.forall_mem_cons, true_and]
        exact and_left_comm
      · simp [sameLabels, hef]

theorem forall₂_trans_of_mem {α : Type} {R S T : α → α → Prop} {as bs cs : List α}
    (h : ∀ a ∈ as, ∀ b ∈ bs, ∀ c ∈ cs, R a b → S b c → T a c) (hab : List.Forall₂ R as bs)
    (hbc : List.Forall₂ S bs cs) : List.Forall₂ T as cs := by
  induction hab generalizing cs with
  | nil =>
    cases hbc
    exact .nil
  | cons hR _ ih =>
    cases hbc with
    | cons hS hbc =>
      refine .cons ?_ (ih (fun a ha b hb c hc => ?_) hbc)
      · exact h _ List.mem_cons_self _ List.mem_cons_self _ List.mem_cons_self hR hS
      · exact h a (List.mem_cons_of_mem _ ha) b (List.mem_cons_of_mem _ hb) c
          (List.mem_cons_of_mem _ hc)

theorem admits_of_contents? (hs : h.Sound D Γ) (hx : x.Fits Γ) (hP : h.contents? x = some P) :
    P.form.Admits Γ P.held.length := by
  cases x with
  | array a =>
    cases hP
    exact List.length_map _
  | map m =>
    cases hP
    exact List.length_map _
  | struct s =>
    cases hP
    refine ⟨s.address, s.defn, hx, rfl, ?_⟩
    obtain ⟨t, ht, hfits⟩ := hs.exists_storage hx
    cases t with
    | fields vs =>
      have hlen : s.defn.fields.length = vs.length := hfits.length_eq
      simp [Heap.namedFields, Heap.fields, Heap.fieldsAt, ht, hlen]
    | _ => exact hfits.elim
  | _ => cases hP

theorem Form.Admits.unique (hΓ : Γ.UniformStructs) {form : Form} {m n : Nat}
    (hm : form.Admits Γ m) (hn : form.Admits Γ n) : m = n := by
  cases form with
  | array length => exact hm.trans hn.symm
  | map size => exact hm.trans hn.symm
  | struct name =>
    obtain ⟨a, d, hd, hname, rfl⟩ := hm
    obtain ⟨b, e, he, rfl, rfl⟩ := hn
    exact hΓ hd he hname

theorem contents_eq_of_sharesWith (hx : x.Fits Γ) (hy : y.Fits Γ) (hP : h.contents? x = some P)
    (hQ : h.contents? y = some Q) (hPQ : P.SharesWith Q) : P = Q := by
  obtain ⟨-, hsome, haddress⟩ := hPQ
  obtain ⟨a, ha⟩ := Option.isSome_iff_exists.1 hsome
  exact contents_eq_of_address? hx hy hP hQ ha (haddress ▸ ha)

/-- Equality down to a depth is transitive where structs of one name have equally many fields. -/
theorem equalWithin_trans (hs : h.Sound D Γ) (hΓ : Γ.UniformStructs) {depth : Nat} {u v w : Value}
    (hu : u.Fits Γ) (hv : v.Fits Γ) (hw : w.Fits Γ) (huv : equalWithin h depth u v = some true)
    (hvw : equalWithin h depth v w = some true) : equalWithin h depth u w = some true := by
  induction depth generalizing u v w with
  | zero => cases huv
  | succ depth ih =>
    rw [equalWithin_succ_eq_true_iff] at *
    rcases huv with huv | ⟨P, Q, hP, hQ, hPQ⟩
    · rcases hvw with hvw | ⟨Q, R, hQ, hR, hQR⟩
      · exact .inl (Value.sameScalar_trans huv hvw)
      · rw [(contents?_of_sameScalar huv).2] at hQ
        cases hQ
    · rcases hvw with hvw | ⟨Q', R, hQ', hR, hQR⟩
      · rw [(contents?_of_sameScalar hvw).1] at hQ
        cases hQ
      · cases hQ.symm.trans hQ'
        refine .inr ⟨P, R, hP, hR, ?_⟩
        -- Storages that are shared are exchanged; else the values are compared.
        rcases hPQ with hshares | ⟨hform, hPQ⟩
        · rw [contents_eq_of_sharesWith hu.unwrap hv.unwrap hP hQ hshares]
          exact hQR
        rcases hQR with hshares | ⟨hform', hQR⟩
        · rw [← contents_eq_of_sharesWith hv.unwrap hw.unwrap hQ hR hshares]
          exact .inr ⟨hform, hPQ⟩
        have hadmits := admits_of_contents? hs hv.unwrap hQ
        have hlen := (hform ▸ admits_of_contents? hs hu.unwrap hP).unique hΓ hadmits
        have hlen' := hadmits.unique hΓ (hform' ▸ admits_of_contents? hs hw.unwrap hR)
        refine .inr ⟨hform.trans hform', (forall₂_iff_pairs (hlen.trans hlen')).1 ?_⟩
        refine forall₂_trans_of_mem (fun e he f hf g hg hef hfg => ?_)
          ((forall₂_iff_pairs hlen).2 hPQ) ((forall₂_iff_pairs hlen').2 hQR)
        exact ⟨hef.1.trans hfg.1, ih (fits_of_held hs hP he) (fits_of_held hs hQ hf)
          (fits_of_held hs hR hg) hef.2 hfg.2⟩

end Transitivity

/-- Equality is symmetric in every heap, and transitive in a sound one where structs of one name
have equally many fields. -/
theorem Heap.equal_symm_trans (h : Heap) :
    (∀ u v, h.equal v u = h.equal u v) ∧
    ∀ {D Γ}, h.Sound D Γ → Γ.UniformStructs → ∀ {u v w : Value}, u.Fits Γ → v.Fits Γ → w.Fits Γ →
      h.equal u v = some true → h.equal v w = some true → h.equal u w = some true :=
  ⟨equalWithin_comm h _, fun hs hΓ _ _ _ hu hv hw huv hvw =>
    equalWithin_trans hs hΓ hu hv hw huv hvw⟩

def point : StructDef := ⟨"P", [⟨"x", .any, true⟩]⟩

def threePoints : Heap := ⟨#[.fields [.int 1], .fields [.interface (.int 1)], .fields [.int 1]]⟩

theorem threePoints_sound : threePoints.Sound .untyped ⟨List.replicate 3 (.struct point)⟩ where
  size := rfl
  fits := by
    have hsuits {v : Value} (hv : v.ref? = none) :
        v.Suits .untyped ⟨List.replicate 3 (.struct point)⟩ .any := ⟨Value.fits_of_ref? hv, trivial⟩
    rintro (_ | _ | _ | a) d s hd hs <;> cases hd <;> cases hs <;> exact .cons (hsuits rfl) .nil

theorem equal_symm_trans_threePoints :
    threePoints.equal (.struct ⟨point, 1⟩) (.struct ⟨point, 0⟩) =
      threePoints.equal (.struct ⟨point, 0⟩) (.struct ⟨point, 1⟩) ∧
    threePoints.equal (.struct ⟨point, 0⟩) (.interface (.struct ⟨point, 2⟩)) = some true := by
  obtain ⟨hsymm, htrans⟩ := threePoints.equal_symm_trans
  have huniform : Layout.UniformStructs ⟨List.replicate 3 (.struct point)⟩ := by
    intro a b d e hd he hname
    cases List.eq_of_mem_replicate (List.mem_of_getElem? hd)
    cases List.eq_of_mem_replicate (List.mem_of_getElem? he)
    rfl
  exact ⟨hsymm _ _, htrans (v := .struct ⟨point, 1⟩) threePoints_sound huniform rfl rfl rfl rfl rfl⟩

namespace Session

/-- A struct type of the name of `point` with one more field. -/
def longPoint : StructDef := ⟨"P", [⟨"x", .any, true⟩, ⟨"y", .any, true⟩]⟩

/-- Structs of two types of one name. -/
def namesakes : Session :=
  (((((start.learn (.int 1)).learn (.int 2)).learn (.int 3)).after
    (.makeStruct longPoint [.int 1, .int 2])).after (.makeStruct point [.int 1])).after
      (.makeStruct longPoint [.int 1, .int 3])

theorem namesakes_started : ReflTransGen Step start namesakes := by
  have hone : Step start (start.learn (.int 1)) := .plain rfl
  have htwo : Step (start.learn (.int 1)) ((start.learn (.int 1)).learn (.int 2)) := .plain rfl
  have hthree : Step ((start.learn (.int 1)).learn (.int 2))
      (((start.learn (.int 1)).learn (.int 2)).learn (.int 3)) := .plain rfl
  refine ((((((ReflTransGen.single hone).tail htwo).tail hthree).tail
    (.command (.makeStruct longPoint [.int 1, .int 2]) ?_)).tail
      (.command (.makeStruct point [.int 1]) ?_)).tail
        (.command (.makeStruct longPoint [.int 1, .int 3]) ?_))
  all_goals simp [Command.values, learn]

theorem namesakes_heap : namesakes.state.heap =
    ⟨#[.fields [.int 1, .int 2], .fields [.int 1], .fields [.int 1, .int 3]]⟩ := by
  rfl

/-- Of three structs of one name the middle one, which has fewer fields, equals the others, which
are not equal. -/
theorem namesakes_not_transitive :
    ReflTransGen Step start namesakes ∧ (∀ a b, ¬ namesakes.state.heap.Leads a b) ∧
    namesakes.known (.struct ⟨longPoint, 0⟩) ∧ namesakes.known (.struct ⟨point, 1⟩) ∧
    namesakes.known (.struct ⟨longPoint, 2⟩) ∧
    namesakes.state.heap.equal (.struct ⟨longPoint, 0⟩) (.struct ⟨point, 1⟩) = some true ∧
    namesakes.state.heap.equal (.struct ⟨point, 1⟩) (.struct ⟨longPoint, 2⟩) = some true ∧
    namesakes.state.heap.equal (.struct ⟨longPoint, 0⟩) (.struct ⟨longPoint, 2⟩) = some false := by
  refine ⟨namesakes_started, ?_, .inl (.inl (.inr rfl)), .inl (.inr rfl), .inr rfl, rfl, rfl, rfl⟩
  rw [namesakes_heap]
  rintro (_ | _ | _ | a) b ⟨s, hs, u, hu, hb⟩ <;> cases hs <;> simp [Storage.values] at hu
  · rcases hu with rfl | rfl <;> cases hb
  · cases hu
    cases hb
  · rcases hu with rfl | rfl <;> cases hb

end Session

end TenantScript
