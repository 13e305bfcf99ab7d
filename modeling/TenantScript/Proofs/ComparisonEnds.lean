import Mathlib.Data.Finset.Prod
import Mathlib.Data.Set.Card
import TenantScript.Proofs.Comparison
import TenantScript.Proofs.Session

/-!
Which comparisons end. A comparison that does not answer asks for a pair that has no answer either.
There are finitely many pairs of storages, so that some pair then comes up inside itself; and if one
does, then no depth is enough. Main statement: in every session the comparison of two values ends
just if no pair comes up inside itself, and then `Heap.equal` is its answer.
-/

namespace TenantScript

open Relation

namespace Heap

/-- Whether the comparison of one pair needs the answer for another: all that comes before it is
equal. -/
def Asks (h : Heap) (p q : Value × Value) : Prop :=
  ∃ before after, (h.comparison p.1 p.2).pairs = before ++ q :: after ∧
    ∀ r ∈ before, ∃ depth, equalWithin h depth r.1 r.2 = some true

/-- Whether, in the comparison of two values, a pair comes up inside itself. -/
def Recurs (h : Heap) (v w : Value) : Prop :=
  ∃ p, ReflTransGen h.Asks (v, w) p ∧ TransGen h.Asks p p

/-- Whether no storage that a value leads to leads to itself. -/
def AcyclicFrom (h : Heap) (v : Value) : Prop :=
  ∀ a b, v.ref? = some a → ReflTransGen h.Leads a b → ¬ TransGen h.Leads b b

end Heap

/-! ### Depth -/

section Depth

variable {h : Heap} {v w : Value} {p q : Value × Value} {b c : Bool} {d e : Nat}

theorem equalWithin_succ_of_eq_some (hd : equalWithin h d v w = some b) :
    equalWithin h (d + 1) v w = some b := by
  induction d generalizing v w b with
  | zero => cases hd
  | succ d ih =>
    rw [equalWithin_succ] at hd ⊢
    exact settle_mono (fun _ _ _ => ih) hd

theorem equalWithin_mono (hd : equalWithin h d v w = some b) (hde : d ≤ e) :
    equalWithin h e v w = some b := by
  induction e, hde using Nat.le_induction with
  | base => exact hd
  | succ e _ ih => exact equalWithin_succ_of_eq_some ih

theorem equalWithin_unique (hd : equalWithin h d v w = some b)
    (he : equalWithin h e v w = some c) : b = c := by
  have hb := equalWithin_mono hd (le_max_left d e)
  have hc := equalWithin_mono he (le_max_right d e)
  exact Option.some.inj (hb.symm.trans hc)

theorem equalWithin_eq_none_of_le (hde : d ≤ e) (he : equalWithin h e v w = none) :
    equalWithin h d v w = none := by
  cases hd : equalWithin h d v w with
  | none => rfl
  | some b =>
    rw [equalWithin_mono hd hde] at he
    cases he

theorem exists_asks_of_eq_none (hd : equalWithin h (d + 1) p.1 p.2 = none) :
    ∃ q, h.Asks p q ∧ equalWithin h d q.1 q.2 = none := by
  rw [equalWithin_succ] at hd
  obtain ⟨before, q, after, hpairs, hbefore, hq⟩ := exists_of_settle_eq_none hd
  exact ⟨q, ⟨before, after, hpairs, fun r hr => ⟨d, hbefore r hr⟩⟩, hq⟩

theorem Heap.Asks.eq_none (hpq : h.Asks p q) (hq : equalWithin h d q.1 q.2 = none) :
    equalWithin h (d + 1) p.1 p.2 = none := by
  obtain ⟨before, after, hpairs, hbefore⟩ := hpq
  rw [equalWithin_succ, hpairs]
  refine settle_eq_none (fun r hr hfalse => ?_) hq
  obtain ⟨e, htrue⟩ := hbefore r hr
  cases equalWithin_unique htrue hfalse

/-- Every pair on the way to one without an answer is without one for one level more. -/
theorem eq_none_of_transGen (hpq : TransGen h.Asks p q) (hq : equalWithin h d q.1 q.2 = none) :
    equalWithin h (d + 1) p.1 p.2 = none := by
  induction hpq using TransGen.head_induction_on with
  | single hask => exact hask.eq_none hq
  | head hask _ ih => exact equalWithin_eq_none_of_le (Nat.le_succ _) (hask.eq_none ih)

theorem eq_none_of_cycle (hcycle : TransGen h.Asks p p) (d : Nat) :
    equalWithin h d p.1 p.2 = none := by
  induction d with
  | zero => rfl
  | succ d ih => exact eq_none_of_transGen hcycle ih

/-- A comparison in which a pair comes up inside itself never ends. -/
theorem Heap.Recurs.eq_none (hrec : h.Recurs v w) (d : Nat) : equalWithin h d v w = none := by
  obtain ⟨p, hp, hcycle⟩ := hrec
  rcases reflTransGen_iff_eq_or_transGen.1 hp with rfl | hp
  · exact eq_none_of_cycle hcycle d
  · exact equalWithin_eq_none_of_le (Nat.le_succ d)
      (eq_none_of_transGen hp (eq_none_of_cycle hcycle d))

theorem Heap.Asks.not_recurs (hpq : h.Asks p q) (hp : ¬ h.Recurs p.1 p.2) :
    ¬ h.Recurs q.1 q.2 := by
  rintro ⟨r, hr, hcycle⟩
  exact hp ⟨r, .head hpq hr, hcycle⟩

end Depth

/-! ### Pairs of storages -/

/-- Whether a pair of values refers to a pair of storages. -/
def At (p : Value × Value) (c : Address × Address) : Prop :=
  p.1.ref? = some c.1 ∧ p.2.ref? = some c.2

/-- The pairs of storages whose values are compared in the comparison of a pair. -/
def Heap.comesUp (h : Heap) (p : Value × Value) : Set (Address × Address) :=
  {c | ∃ q r, ReflTransGen h.Asks p q ∧ h.Asks q r ∧ At q c}

section Storages

variable {D : Discipline} {Γ : Layout} {h : Heap} {p q r s : Value × Value} {c : Address × Address}

theorem Heap.Asks.mem (hpq : h.Asks p q) : q ∈ (h.comparison p.1 p.2).pairs := by
  obtain ⟨before, after, hpairs, -⟩ := hpq
  rw [hpairs]
  exact List.mem_append_right _ List.mem_cons_self

theorem Heap.Asks.fits (hs : h.Sound D Γ) (hpq : h.Asks p q) : q.1.Fits Γ ∧ q.2.Fits Γ := by
  obtain ⟨P, Q, hP, hQ, ⟨e, he, h1⟩, f, hf, h2⟩ := held_of_mem_pairs hpq.mem
  exact ⟨h1 ▸ fits_of_held hs hP he, h2 ▸ fits_of_held hs hQ hf⟩

/-- Storages are asked about, and what is asked is what they lead to. -/
theorem Heap.Asks.exists_at (hpq : h.Asks p q) :
    ∃ c, At p c ∧ c ∈ Finset.range h.size ×ˢ Finset.range h.size ∧
      (∀ b, q.1.ref? = some b → h.Leads c.1 b) ∧ ∀ b, q.2.ref? = some b → h.Leads c.2 b := by
  obtain ⟨P, Q, hP, hQ, ⟨e, he, h1⟩, f, hf, h2⟩ := held_of_mem_pairs hpq.mem
  obtain ⟨a, s, ha, hs, hes⟩ := exists_storage_of_held hP he
  obtain ⟨b, t, hb, ht, hft⟩ := exists_storage_of_held hQ hf
  rw [address?_of_contents? hP, Value.ref?_unwrap] at ha
  rw [address?_of_contents? hQ, Value.ref?_unwrap] at hb
  refine ⟨(a, b), ⟨ha, hb⟩, ?_, fun x hx => ?_, fun x hx => ?_⟩
  · simp only [Finset.mem_product, Finset.mem_range]
    exact ⟨Heap.lt_size_of_get? hs, Heap.lt_size_of_get? ht⟩
  · exact ⟨s, hs, e.2, hes, h1 ▸ hx⟩
  · exact ⟨t, ht, f.2, hft, h2 ▸ hx⟩

/-- The comparison of two storages does not depend on the references to them. -/
theorem Heap.Asks.comparison_eq (hpq : h.Asks p q) (hrs : h.Asks r s)
    (hp : p.1.Fits Γ ∧ p.2.Fits Γ) (hr : r.1.Fits Γ ∧ r.2.Fits Γ) (hpc : At p c) (hrc : At r c) :
    h.comparison p.1 p.2 = h.comparison r.1 r.2 := by
  obtain ⟨P, Q, hP, hQ, -⟩ := held_of_mem_pairs hpq.mem
  obtain ⟨R, S, hR, hS, -⟩ := held_of_mem_pairs hrs.mem
  have address {v : Value} {X : Contents} {a : Address} (hX : h.contents? v.unwrap = some X)
      (ha : v.ref? = some a) : X.address? = some a := by
    rw [address?_of_contents? hX, Value.ref?_unwrap, ha]
  have hPR := contents_eq_of_address? hp.1.unwrap hr.1.unwrap hP hR (address hP hpc.1)
    (address hR hrc.1)
  have hQS := contents_eq_of_address? hp.2.unwrap hr.2.unwrap hQ hS (address hQ hpc.2)
    (address hS hrc.2)
  simp only [Heap.comparison, hP, hQ, hR, hS, hPR, hQS]

theorem fits_of_reflTransGen (hs : h.Sound D Γ) (hp : p.1.Fits Γ ∧ p.2.Fits Γ)
    (hpq : ReflTransGen h.Asks p q) : q.1.Fits Γ ∧ q.2.Fits Γ := by
  induction hpq with
  | refl => exact hp
  | tail _ hask _ => exact hask.fits hs

theorem comesUp_subset (h : Heap) (p : Value × Value) :
    h.comesUp p ⊆ ↑(Finset.range h.size ×ˢ Finset.range h.size) := by
  rintro c ⟨q, r, -, hqr, hc⟩
  obtain ⟨c', hc', hmem, -⟩ := hqr.exists_at
  have heq : c = c' := Prod.ext (Option.some.inj (hc.1.symm.trans hc'.1))
    (Option.some.inj (hc.2.symm.trans hc'.2))
  rw [heq]
  exact hmem

theorem finite_comesUp (h : Heap) (p : Value × Value) : (h.comesUp p).Finite :=
  (Finset.finite_toSet _).subset (comesUp_subset h p)

/-- Where nothing comes up inside itself, what is asked next involves fewer pairs of storages. -/
theorem Heap.Asks.ncard_comesUp_lt (hs : h.Sound D Γ) (hp : p.1.Fits Γ ∧ p.2.Fits Γ)
    (hrec : ¬ h.Recurs p.1 p.2) (hpq : h.Asks p q) :
    (h.comesUp q).ncard < (h.comesUp p).ncard := by
  obtain ⟨c, hc, -⟩ := hpq.exists_at
  apply Set.ncard_lt_ncard _ (finite_comesUp h p)
  rw [Set.ssubset_iff_of_subset]
  · refine ⟨c, ⟨p, q, .refl, hpq, hc⟩, ?_⟩
    rintro ⟨r, s, hqr, hrs, hrc⟩
    -- `r` lies where `p` does, so that it asks for `q` as well.
    have hr : h.Asks r q := by
      unfold Heap.Asks
      rw [hrs.comparison_eq hpq (fits_of_reflTransGen hs (hpq.fits hs) hqr) hp hrc hc]
      exact hpq
    exact hrec ⟨q, .single hpq, TransGen.tail' hqr hr⟩
  · rintro c' ⟨r, s, hqr, hrs, hrc⟩
    exact ⟨r, s, .head hpq hqr, hrs, hrc⟩

/-- As many levels as there are pairs of storages are enough. -/
theorem equalWithin_ne_none (hs : h.Sound D Γ) (n : Nat) (hp : p.1.Fits Γ ∧ p.2.Fits Γ)
    (hrec : ¬ h.Recurs p.1 p.2) (hn : (h.comesUp p).ncard ≤ n) :
    equalWithin h (n + 1) p.1 p.2 ≠ none := by
  induction n generalizing p with
  | zero =>
    intro hnone
    obtain ⟨q, hpq, -⟩ := exists_asks_of_eq_none hnone
    have hlt := hpq.ncard_comesUp_lt hs hp hrec
    omega
  | succ n ih =>
    intro hnone
    obtain ⟨q, hpq, hq⟩ := exists_asks_of_eq_none hnone
    have hlt := hpq.ncard_comesUp_lt hs hp hrec
    exact ih (hpq.fits hs) (hpq.not_recurs hrec) (by omega) hq

theorem equal_isSome (hs : h.Sound D Γ) (hp : p.1.Fits Γ ∧ p.2.Fits Γ)
    (hrec : ¬ h.Recurs p.1 p.2) : (h.equal p.1 p.2).isSome := by
  have hcard : (h.comesUp p).ncard ≤ h.size * h.size := by
    have hle := Set.ncard_le_ncard (comesUp_subset h p) (Finset.finite_toSet _)
    rwa [Set.ncard_coe_finset, Finset.card_product, Finset.card_range] at hle
  exact Option.isSome_iff_ne_none.2 (equalWithin_ne_none hs _ hp hrec hcard)

theorem transGen_leads {f : Value × Value → Value}
    (hf : ∀ {p q}, h.Asks p q →
      ∃ a, (f p).ref? = some a ∧ ∀ b, (f q).ref? = some b → h.Leads a b)
    (hpq : TransGen h.Asks p q) {b : Address} (hb : (f q).ref? = some b) :
    ∃ a, (f p).ref? = some a ∧ TransGen h.Leads a b := by
  induction hpq using TransGen.head_induction_on with
  | single hask =>
    obtain ⟨a, ha, hleads⟩ := hf hask
    exact ⟨a, ha, .single (hleads b hb)⟩
  | head hask _ ih =>
    obtain ⟨a, ha, hleads⟩ := hf hask
    obtain ⟨a', ha', hab⟩ := ih
    exact ⟨a, ha, .head (hleads a' ha') hab⟩

/-- What is compared with a value that leads to no cycle does not matter. -/
theorem Heap.AcyclicFrom.not_recurs {f : Value × Value → Value}
    (hf : ∀ {p q}, h.Asks p q →
      ∃ a, (f p).ref? = some a ∧ ∀ b, (f q).ref? = some b → h.Leads a b)
    (hacyclic : h.AcyclicFrom (f p)) : ¬ h.Recurs p.1 p.2 := by
  rintro ⟨q, hpq, hcycle⟩
  obtain ⟨r, hask, -⟩ := TransGen.head'_iff.1 hcycle
  obtain ⟨b, hb, -⟩ := hf hask
  obtain ⟨b', hb', hloop⟩ := transGen_leads hf hcycle hb
  cases hb.symm.trans hb'
  rcases reflTransGen_iff_eq_or_transGen.1 hpq with rfl | hpq
  · exact hacyclic b b hb .refl hloop
  · obtain ⟨a, ha, hab⟩ := transGen_leads hf hpq hb
    exact hacyclic a b ha hab.to_reflTransGen hloop

end Storages

/-! ### Comparison in sessions -/

namespace Session

variable {s : Session}

/-- In every session, some depth is enough for the comparison of two values just if no pair comes
up inside itself, and the answer is then that of `Heap.equal`. It is enough that one of the two
values leads to no storage that leads to itself. -/
theorem equal_ends_iff (hs : ReflTransGen Step start s) {v w : Value} (hv : s.known v)
    (hw : s.known w) :
    ((∃ depth, (equalWithin s.state.heap depth v w).isSome) ↔ ¬ s.state.heap.Recurs v w) ∧
    (∀ b, s.state.heap.equal v w = some b ↔
      ∃ depth, equalWithin s.state.heap depth v w = some b) ∧
    (s.state.heap.AcyclicFrom v ∨ s.state.heap.AcyclicFrom w →
      (s.state.heap.equal v w).isSome) := by
  obtain ⟨held, hheld⟩ := exists_held hs
  have hsound : s.state.heap.Sound .untyped held.layout := hheld.meets.heap ▸ held.sound
  have hfits : v.Fits held.layout ∧ w.Fits held.layout :=
    ⟨(hheld.known v hv).fits, (hheld.known w hw).fits⟩
  have hends (hrec : ¬ s.state.heap.Recurs v w) : (s.state.heap.equal v w).isSome :=
    equal_isSome (p := (v, w)) hsound hfits hrec
  have hrec {depth : Nat} {b : Bool} (hb : equalWithin s.state.heap depth v w = some b) :
      ¬ s.state.heap.Recurs v w := by
    intro hrec
    rw [hrec.eq_none depth] at hb
    cases hb
  refine ⟨⟨?_, fun hrec => ⟨_, hends hrec⟩⟩, fun b => ⟨fun hb => ⟨_, hb⟩, ?_⟩, ?_⟩
  · rintro ⟨depth, hsome⟩
    obtain ⟨b, hb⟩ := Option.isSome_iff_exists.1 hsome
    exact hrec hb
  · rintro ⟨depth, hb⟩
    obtain ⟨c, hc⟩ := Option.isSome_iff_exists.1 (hends (hrec hb))
    rw [hc, equalWithin_unique hc hb]
  · rintro (hacyclic | hacyclic)
    · exact hends (Heap.AcyclicFrom.not_recurs (p := (v, w)) (f := Prod.fst)
        (fun hask => have ⟨c, hc, _, hleads, _⟩ := hask.exists_at; ⟨c.1, hc.1, hleads⟩) hacyclic)
    · exact hends (Heap.AcyclicFrom.not_recurs (p := (v, w)) (f := Prod.snd)
        (fun hask => have ⟨c, hc, _, _, hleads⟩ := hask.exists_at; ⟨c.2, hc.2, hleads⟩) hacyclic)

/-- The session after an array of `nil` has been made. -/
def withArray (s : Session) : Session :=
  (s.push (.items [.nil])).learn (.array ⟨.any, false, false, s.state.heap.size⟩)

def firstLoop : ArrayRef := ⟨.any, false, false, 0⟩

def secondLoop : ArrayRef := ⟨.any, false, false, 1⟩

/-- An array holds itself, and another one holds `nil`. -/
def oneLoop : Session :=
  ((start.learn .nil).withArray.after (.setIndex firstLoop 0 (.array firstLoop))).withArray

/-- The other array holds itself too. -/
def twoLoops : Session := oneLoop.after (.setIndex secondLoop 0 (.array secondLoop))

theorem oneLoop_started : ReflTransGen Step start oneLoop := by
  have hnil : Step start (start.learn .nil) := .plain rfl
  have hfirst : Step (start.learn .nil) (start.learn .nil).withArray :=
    .array .any false fun v hv => .inr (List.mem_singleton.1 hv)
  have hset : Step _ ((start.learn .nil).withArray.after _) :=
    .command (.setIndex firstLoop 0 (.array firstLoop)) fun v hv => by
      simp only [Command.values, List.mem_cons, List.not_mem_nil, or_false, or_self] at hv
      exact .inr hv
  have hsecond : Step _ oneLoop :=
    .array .any false fun v hv => .inl (.inl (.inr (List.mem_singleton.1 hv)))
  exact (((ReflTransGen.single hnil).tail hfirst).tail hset).tail hsecond

theorem twoLoops_started : ReflTransGen Step start twoLoops := by
  refine oneLoop_started.tail (.command _ fun v hv => ?_)
  simp only [Command.values, List.mem_cons, List.not_mem_nil, or_false, or_self] at hv
  exact .inr hv

theorem oneLoop_heap : oneLoop.state.heap =
    ⟨#[.items [.array firstLoop], .items [.nil]]⟩ := by
  rfl

theorem twoLoops_heap : twoLoops.state.heap =
    ⟨#[.items [.array firstLoop], .items [.array secondLoop]]⟩ := by
  rfl

/-- The array that holds itself is compared with one that does not. -/
theorem equal_ends_oneLoop :
    oneLoop.state.heap.Leads 0 0 ∧ oneLoop.state.heap.AcyclicFrom (.array secondLoop) ∧
    (oneLoop.state.heap.equal (.array firstLoop) (.array secondLoop)).isSome ∧
    oneLoop.state.heap.equal (.array firstLoop) (.array secondLoop) = some false ∧
    ¬ oneLoop.state.heap.Recurs (.array firstLoop) (.array secondLoop) := by
  have hfirst : oneLoop.known (.array firstLoop) := .inl (.inl (.inr rfl))
  have hsecond : oneLoop.known (.array secondLoop) := .inr rfl
  obtain ⟨hiff, hequal, hacyclic⟩ := equal_ends_iff oneLoop_started hfirst hsecond
  have hself : oneLoop.state.heap.Leads 0 0 := by
    rw [oneLoop_heap]
    exact ⟨_, rfl, _, List.mem_singleton_self _, rfl⟩
  have hnone (b : Address) : ¬ oneLoop.state.heap.Leads 1 b := by
    rw [oneLoop_heap]
    rintro ⟨t, ht, v, hv, hb⟩
    cases ht
    obtain rfl := List.mem_singleton.1 hv
    cases hb
  have hfree : oneLoop.state.heap.AcyclicFrom (.array secondLoop) := by
    intro a b ha hab hloop
    cases ha
    obtain ⟨c, hc, -⟩ := TransGen.head'_iff.1 (TransGen.trans_right hab hloop)
    exact hnone c hc
  exact ⟨hself, hfree, hacyclic (.inr hfree), (hequal false).2 ⟨2, rfl⟩, hiff.1 ⟨2, rfl⟩⟩

/-- Two arrays that each hold themselves are compared without end. -/
theorem twoLoops_compared_endlessly :
    ReflTransGen Step start twoLoops ∧ twoLoops.known (.array firstLoop) ∧
    twoLoops.known (.array secondLoop) ∧
    twoLoops.state.heap.equal (.array firstLoop) (.array secondLoop) = none ∧
    ∀ depth, equalWithin twoLoops.state.heap depth (.array firstLoop) (.array secondLoop) =
      none := by
  have hrec : twoLoops.state.heap.Recurs (.array firstLoop) (.array secondLoop) := by
    rw [twoLoops_heap]
    exact ⟨_, .refl, .single ⟨[], [], rfl, nofun⟩⟩
  exact ⟨twoLoops_started, .inl (.inl (.inl (.inr rfl))), .inl (.inr rfl), hrec.eq_none _,
    hrec.eq_none⟩

end Session

end TenantScript
