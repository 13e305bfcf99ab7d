import TenantScript.Proofs.Conversion
import TenantScript.Proofs.NilMaps
import TenantScript.Proofs.Shift

/-!
Expressions without assignments only read. Main statement: however the evaluation of such an
expression ends, all scopes, all storages that there were and the depth of nesting are as they were;
a missing entry of a map is read as the zero value and stays missing; and the same evaluation once
more ends in the same way, except that what it makes lies further on.
-/

open TenantScript.Action

namespace TenantScript

variable {limit : Nat} {st s : State} {m : MapRef} {k : MapKey}

/-! ### Missing entries -/

/-- Whether a map has no entry under a key, as a nil map has none. -/
def Heap.Lacks (h : Heap) (m : MapRef) (k : MapKey) : Prop :=
  m.address? = none ∨ (h.entries m).get? k = none

/-- Whether an expression reads a map at a key, after its parts have been evaluated one level deeper
and have left the state `s`. -/
inductive ReadsEntry (limit : Nat) (st : State) : Expr → MapRef → MapKey → State → Prop
  | item {collection index : Expr} {span : Span} {u key : Value} {m : MapRef} {k : MapKey}
      {s₁ s : State} (hcollection : (evaluate limit collection).run (st.atDepth (st.depth + 1)) =
        (.ok u, s₁)) (hmap : u.unwrap = .map m)
      (hindex : (evaluate limit index).run s₁ = (.ok key, s))
      (hkey : (convertKey m.key key).run s.heap = (.ok k, s.heap)) :
      ReadsEntry limit st (.item collection index span) m k s
  | member {object : Expr} {field : Name} {span : Span} {u : Value} {m : MapRef} {k : MapKey}
      {s : State} (hobject : (evaluate limit object).run (st.atDepth (st.depth + 1)) = (.ok u, s))
      (hmap : (memberSource u).run s.heap = (.ok (.map m), s.heap))
      (hkey : (convertKey m.key (.str field)).run s.heap = (.ok k, s.heap)) :
      ReadsEntry limit st (.member object field span) m k s

theorem MapRef.run_read_of_lacks {key : Value} {h : Heap}
    (hkey : (convertKey m.key key).run h = (.ok k, h)) (hlacks : h.Lacks m k) :
    (m.read key).run h = (Value.zero m.value).run h := by
  rcases hlacks with hm | hnone
  · exact run_read_nil hm hkey
  · unfold MapRef.read
    rw [run_bind_ok _ hkey, run_bind, run_get]
    simp only [hnone]

theorem run_readItem_of_lacks {u key : Value} {h : Heap} (hmap : u.unwrap = .map m)
    (hkey : (convertKey m.key key).run h = (.ok k, h)) (hlacks : h.Lacks m k) :
    (readItem u key).run h = (Value.zero m.value).run h := by
  unfold readItem
  rw [hmap]
  exact MapRef.run_read_of_lacks hkey hlacks

theorem run_readMember_of_lacks {u : Value} {field : Name} {h : Heap}
    (hmap : (memberSource u).run h = (.ok (.map m), h))
    (hkey : (convertKey m.key (.str field)).run h = (.ok k, h)) (hlacks : h.Lacks m k) :
    (readMember u field).run h = (Value.zero m.value).run h := by
  unfold readMember
  rw [run_bind_ok _ hmap]
  exact MapRef.run_read_of_lacks hkey hlacks

/-- A missing entry is read as the zero value. -/
theorem ReadsEntry.run_evaluate {e : Expr} (h : ReadsEntry limit st e m k s)
    (hlacks : s.heap.Lacks m k) :
    ((evaluate limit e).run st).1 = ((Value.zero m.value).run s.heap).1 := by
  obtain ⟨z, heap, hzero, -⟩ := exists_zero m.value s.heap
  have hnode : (evaluateNode (evaluate limit) e).run (st.atDepth (st.depth + 1)) =
      (.ok z, { s with heap }) := by
    cases h with
    | item hcollection hmap hindex hkey =>
      rw [evaluateNode, run_bind_ok _ hcollection, run_bind_ok _ hindex, Run.run_onHeap,
        run_readItem_of_lacks hmap hkey hlacks, hzero]
    | member hobject hmap hkey =>
      rw [evaluateNode, run_bind_ok _ hobject, Run.run_onHeap,
        run_readMember_of_lacks hmap hkey hlacks, hzero]
  have hlt : st.depth < limit := by
    cases h with
    | item hpart | member hpart => exact Nat.lt_of_succ_lt (depth_lt_of_run_evaluate hpart)
  have henter : ({ st with depth := st.depth + 1 } : State) = st.atDepth (st.depth + 1) := rfl
  rw [evaluate_eq, run_within, Run.run_below, if_pos hlt, Run.run_nested, henter, hnode, hzero]
  rfl

/-! ### Main statement -/

/-- That the evaluation of an expression only reads, however it ends. -/
structure OnlyReads (limit : Nat) (e : Expr) (st : State) : Prop where
  env : ((evaluate limit e).run st).2.env = st.env
  depth : ((evaluate limit e).run st).2.depth = st.depth
  storages : ∀ a < st.heap.size, ((evaluate limit e).run st).2.heap.get? a = st.heap.get? a
  missing : ∀ {m k s}, ReadsEntry limit st e m k s → s.heap.Lacks m k →
    ((evaluate limit e).run st).1 = ((Value.zero m.value).run s.heap).1
  /-- Once more, the evaluation ends in the same way, with what it makes further on. -/
  again : st.Closed →
    let first := (evaluate limit e).run st
    let second := (evaluate limit e).run first.2
    let g : Gap := ⟨st.heap.size, first.2.heap.size - st.heap.size⟩
    EndsAlike Eq g.Moves first.1 second.1 ∧ first.2.heap.Shifted g second.2.heap

/-- Expressions without assignments only read. -/
theorem assignFree_only_reads {e : Expr} (he : e.isAssignFree = true) (limit : Nat) (st : State) :
    OnlyReads limit e st := by
  have hle : st ≤ ((evaluate limit e).run st).2 := (evaluate_adds limit he).le st
  refine ⟨hle.1, hle.2.1, fun a ha => Heap.get?_eq_of_le hle.2.2 ha,
    fun hreads hlacks => hreads.run_evaluate hlacks, fun hclosed => ?_⟩
  intro first second g
  have hshifted : st.Shifted g first.2 := hclosed.shifted_of_le hle
  -- there is as much room as before, so both evaluations take the same steps
  have hsecond : second = (evaluateWithin limit (limit - st.depth) e).run first.2 := by
    rw [← show first.2.depth = st.depth from hle.2.1]
    rfl
  obtain ⟨hends, hstates⟩ :=
    evaluateWithin_matches limit (limit - st.depth) e he st first.2 hshifted
  rw [hsecond]
  exact ⟨hends, hstates.heap⟩

/-- `quotas["cpu"]`. -/
def cpuQuotas : Expr := .item (.ident "quotas" .dummy) (.literal (.str "cpu") .dummy) .dummy

/-- A map of arrays without entries. -/
def noQuotas : State where
  env := Environment.empty.define "quotas" (.map ⟨.str, .array .int, some 0⟩)
  heap := Heap.empty.push (.entries .empty)
  depth := 0

/-- The missing entry is read as an empty array, each time as a new one. -/
theorem assignFree_only_reads_cpuQuotas :
    cpuQuotas.isAssignFree = true ∧ OnlyReads 2 cpuQuotas noQuotas ∧
      ReadsEntry 2 noQuotas cpuQuotas ⟨.str, .array .int, some 0⟩ (.str "cpu")
        (noQuotas.atDepth 1) ∧
      ((evaluate 2 cpuQuotas).run noQuotas).1 = .ok (.array ⟨.int, false, false, 1⟩) ∧
      ((evaluate 2 cpuQuotas).run ((evaluate 2 cpuQuotas).run noQuotas).2).1 =
        .ok (.array ⟨.int, false, false, 2⟩) := by
  have honly : OnlyReads 2 cpuQuotas noQuotas := assignFree_only_reads rfl 2 noQuotas
  have hreads : ReadsEntry 2 noQuotas cpuQuotas ⟨.str, .array .int, some 0⟩ (.str "cpu")
      (noQuotas.atDepth 1) :=
    .item (by rfl) (by rfl) (by rfl) (by rfl)
  have hfirst : ((evaluate 2 cpuQuotas).run noQuotas).1 = .ok (.array ⟨.int, false, false, 1⟩) :=
    honly.missing hreads (.inr (by rfl))
  refine ⟨rfl, honly, hreads, hfirst, ?_⟩
  obtain ⟨hends, -⟩ := honly.again (by decide)
  rw [hfirst] at hends
  generalize ((evaluate 2 cpuQuotas).run ((evaluate 2 cpuQuotas).run noQuotas).2).1 = r at hends ⊢
  cases hends with
  | result hmoves =>
    rw [hmoves]
    decide +kernel

end TenantScript
