import TenantScript.Proofs.Atomicity
import TenantScript.Proofs.Nesting
import TenantScript.Proofs.PlaceValues
import TenantScript.Proofs.PlainValues
import TenantScript.Proofs.SliceTargets

/-!
Get and put. Main statement: where everything that is stored conforms to its declared type and
nothing is behind an interface, assigning to a target the value that it has changes no binding and
no storage, whether the assignment succeeds or fails.

The value is in a slot, in a binding or in a range, where the store finds it and leaves it; or it is
a character, which leaves the string as it is, so that the next link is one that assigns to a target
the value that it has.
-/

open TenantScript.Action

namespace TenantScript

variable {D : Discipline} {Γ : Layout} {limit : Nat} {t : Expr} {u : Value} {st st' st'' s : State}

/-! ### Places of values -/

/-- A target that has a value denotes a place, at which the value is read, and in a state that has
grown it denotes the shifted place. -/
theorem exists_place_of_evaluate (hst : st.Sound D Γ) (hle : st ≤ st') (ht : t.isAssignFree = true)
    (hplace : t.isPlace = true) (hu : (evaluate limit t).run st = (.ok u, s)) :
    ∃ pl s₁ s₂, (place (evaluate limit) t).run st = (.ok pl, s₁) ∧
      pl.read.run s₁ = (.ok u, s) ∧
      (place (evaluate limit) t).run st' =
        (.ok (pl.shift ⟨st.heap.size, st'.heap.size - st.heap.size⟩), s₂) ∧
      s₁.heap.Shifted ⟨st.heap.size, st'.heap.size - st.heap.size⟩ s₂.heap := by
  obtain ⟨pl, s₁, hpl, hread⟩ := exists_place_of_evaluateNode hplace (node_of_evaluate hu)
  have hroom : limit - st.depth ≤ limit - st'.depth := Nat.le_of_eq (by rw [hle.2.1])
  obtain ⟨pl', s₂, hpl', hshifted, rfl⟩ := place_follows (fun _ he => evaluate_follows hroom he)
    t ht _ _ (State.shiftedAt_of_le hst hle st.depth) pl s₁ hpl
  exact ⟨pl, s₁, s₂, (run_place_evaluate ht).trans hpl, hread, hpl', hshifted.1.heap⟩

/-! ### Stores that change nothing -/

/-- What lies before the end of a grown heap once it is shifted was there before it grew. -/
theorem lt_size_of_shifted (hle : st ≤ st') {a : Address}
    (h : Gap.address ⟨st.heap.size, st'.heap.size - st.heap.size⟩ a < st'.heap.size) :
    a < st.heap.size := by
  have hsize := Heap.size_le_of_le hle.2.2
  rcases Nat.lt_or_ge a st.heap.size with hlt | hge
  · exact hlt
  · rw [Gap.address, if_neg (Nat.not_lt.2 hge)] at h
    simp only at h
    omega

/-- A store of what is there already, or into what was made since, changes nothing that was
there. -/
theorem le_apply_write {slot : Slot} {v : Value} (hle : st ≤ st')
    (hslot : slot.address < st.heap.size → st'.heap.value? slot = some v) :
    st ≤ (Store.write slot v).apply st' := by
  rcases Nat.lt_or_ge slot.address st.heap.size with hlt | hge
  · rw [Store.apply, Heap.store_of_value? (hslot hlt)]
    exact hle
  · exact Store.le_apply hle rfl hge

/-- The elements of a range over that range are all as they were. -/
theorem overwrite_drop_take {items : List Value} {start stop : Nat} (hstop : stop ≤ items.length) :
    overwrite items start ((items.drop start).take (stop - start)) = items := by
  have hlength : ((items.drop start).take (stop - start)).length = stop - start := by
    rw [List.length_take, List.length_drop]
    omega
  have hdrop : items.drop (start + (stop - start)) = (items.drop start).drop (stop - start) :=
    List.drop_drop.symm
  rw [overwrite, hlength, hdrop, List.append_assoc, List.take_append_drop, List.take_append_drop]

/-- A store over a range of the elements that it has already, or of an array that was made since,
changes nothing that was there. -/
theorem le_apply_overwrite {a : ArrayRef} {items : List Value} {start stop : Nat} (hle : st ≤ st')
    (hstop : stop ≤ items.length)
    (hitems : a.address < st.heap.size → st'.heap.get? a.address = some (.items items)) :
    st ≤ (Store.overwrite a start ((items.drop start).take (stop - start))).apply st' := by
  rcases Nat.lt_or_ge a.address st.heap.size with hlt | hge
  · rw [Store.apply, Heap.items_of_get? (hitems hlt), overwrite_drop_take hstop,
      Heap.write_of_get? (hitems hlt)]
    exact hle.trans ⟨rfl, rfl, st'.heap.le_push _⟩
  · exact Store.le_apply hle rfl hge

/-! ### Links -/

/-- What a link comes to that assigns a target the value that it had in the state `st`: a store
after which all that was there in the state `st'` is there, or the string of a character, which its
target had too. -/
inductive Link.PutsBack (limit : Nat) (st st' : State) : Link → State → Prop
  | last {store : Store} {s : State} (hle : st' ≤ store.apply s) :
      PutsBack limit st st' (.last store) s
  | pass {c : Expr} {text : String} {s s₁ : State}
      (hc : (evaluate limit c).run st = (.ok (.str text), s₁)) :
      PutsBack limit st st' (.pass c (.str text)) s

section Links

variable {l : Link}

theorem link_putsBack_place (hst : st.Sound .typed Γ) (hplain : st.Plain) (hle : st ≤ st')
    (ht : t.isAssignFree = true) (hplace : t.isPlace = true)
    (hhits : ∀ pl s, (place (evaluate limit) t).run st = (.ok pl, s) → pl.Hits s.heap)
    (hu : (evaluate limit t).run st = (.ok u, s))
    (hl : (link (evaluate limit) t u).run st' = (.ok l, st'')) : l.PutsBack limit st st' st'' := by
  have hev (e : Expr) (he : e.isAssignFree = true) := evaluate_adds limit he
  have hle₂ : st' ≤ st'' := (link_adds hev t u ht).le_of_run hl
  obtain ⟨pl, s₁, s₂, hpl, hread, hpl', hshifted⟩ := exists_place_of_evaluate hst hle ht hplace hu
  have hle₁ : st ≤ s₁ := (place_adds hev t ht).le_of_run hpl
  rw [link_eq_of_place hpl'] at hl
  cases Place.holds_of_read (hhits pl s₁ hpl) hread with
  | @name name hbound =>
    obtain ⟨env, s₃, henv, hl⟩ := exists_of_run_bind hl
    cases henv
    split at hl
    · cases hl
    · cases hl
      rw [hle₁.1, ← hle.1, ← hle₂.1] at hbound
      refine .last ?_
      rw [Store.apply, Environment.assign_of_lookup? hbound]
      exact hle₂
  | @character c key text n ch htext hindex hchar hw =>
    subst hw
    have htext' : (c.shift ⟨st.heap.size, st'.heap.size - st.heap.size⟩).unwrap = .str text := by
      rw [Value.unwrap_shift, htext]
      rfl
    obtain rfl := Place.link_of_character htext' ((Value.toIndex_shift _ key).trans hindex) hchar hl
    obtain ⟨collection, index, span, s₃, rfl, hc⟩ := item_of_place hpl
    rw [Expr.isAssignFree, Bool.and_eq_true] at ht
    rw [← Value.unwrap_of_isPlain (evaluate_plain ht.1 hplain hc).1, htext] at hc
    exact .pass hc
  | @slot _ origin hat hvalue =>
    obtain ⟨Γ', -, hs₁, hbase⟩ := place_sound (evaluate_sound limit) t st hst
    rw [hpl] at hs₁ hbase
    obtain ⟨ty, hty, hconf⟩ := Place.conforms_of_read hs₁ (hbase pl rfl) hread
      fun text _ htext => (hat.base_ne_str text htext).elim
    have hvalue' := (hshifted.value? origin).trans (congrArg _ hvalue)
    obtain rfl := Place.link_of_at hat.shift hvalue' ((pl.type?_shift _).trans hty) hconf hl
    -- a slot that was there before is not shifted, and it holds the value
    refine .last (le_apply_write hle₂ fun hlt => ?_)
    have hold : origin.address < st.heap.size := lt_size_of_shifted hle hlt
    have hsame : origin.shift ⟨st.heap.size, st'.heap.size - st.heap.size⟩ = origin :=
      congrArg (Slot.mk · origin.position) (if_pos hold)
    rw [hsame, Heap.value?_eq_of_le (hle.trans hle₂).2.2 hold, ← hvalue,
      Heap.value?_eq_of_le hle₁.2.2 hold]

theorem link_putsBack_slice {collection : Expr} {low high : Option Expr} {span : Span}
    (hst : st.Sound .typed Γ) (hle : st ≤ st')
    (ht : (Expr.slice collection low high span).isAssignFree = true)
    (hu : (evaluate limit (.slice collection low high span)).run st = (.ok u, s))
    (hmade : s ≤ st' ∨ ∃ text, u = .str text)
    (hl : (link (evaluate limit) (.slice collection low high span) u).run st' = (.ok l, st'')) :
    l.PutsBack limit st st' st'' := by
  have hle₂ : st' ≤ st'' := (link_adds (fun e he => evaluate_adds limit he) _ u ht).le_of_run hl
  obtain ⟨a, start, values, rfl⟩ :=
    link_slice (evaluate limit) ⟨_, _, _, _, rfl⟩ u st' _ (congrArg Prod.fst hl)
  have hroom : limit - st.depth ≤ limit - st'.depth := Nat.le_of_eq (by rw [hle.2.1])
  obtain ⟨a₀, source, items, stop, h₀, h₁, rfl, hle₀, hget, -, hstop, rfl, hs, hle₁, hsource, -,
    hvalues⟩ := parts_of_slice_twice hst hle hroom ht (node_of_evaluate hu) hl
  -- the values that are stored are those of the range
  have hpart : s.heap.get? h₀.size = some (.items ((items.drop start).take (stop - start))) := by
    rw [hs]
    exact Heap.get?_push_self _ _
  rcases hmade with hmade | ⟨text, htext⟩
  · cases hsource
    rw [Heap.items_of_le (hmade.2.2.trans hle₁) hpart] at hvalues
    obtain ⟨Γ', -, hsound, hfits⟩ := evaluate_sound limit _ Γ st hst
    rw [hu] at hsound hfits
    obtain ⟨n, hn⟩ := hfits _ rfl
    have hconf (v : Value) (hv : v ∈ (items.drop start).take (stop - start)) :
        v.conforms a₀.elem = true := by
      refine ((hsound.heap.items hn).2.2 v ?_).2
      rwa [Heap.items_of_get? hpart]
    have hkept : _ = (Except.ok values, st''.heap) := (congrArg (·.run h₁)
      (mapM_convert_of_conforms hconf)).symm.trans hvalues
    cases hkept
    refine .last (le_apply_overwrite hle₂ hstop fun hlt => ?_)
    have hold : a₀.address < st.heap.size := lt_size_of_shifted hle hlt
    have hsame : a₀.shift ⟨st.heap.size, st'.heap.size - st.heap.size⟩ = a₀ :=
      congrArg (ArrayRef.mk a₀.elem a₀.fixed a₀.readOnly) (if_pos hold)
    rw [hsame, Heap.get?_eq_of_le (hle.trans hle₂).2.2 hold, ← hget, Heap.get?_eq_of_le hle₀ hold]
  · cases htext

/-- One link of an assignment that gives a target the value that it has. -/
theorem link_putsBack (hst : st.Sound .typed Γ) (hplain : st.Plain) (hle : st ≤ st')
    (ht : t.isAssignFree = true)
    (hhits : ∀ pl s, (place (evaluate limit) t).run st = (.ok pl, s) → pl.Hits s.heap)
    (hu : (evaluate limit t).run st = (.ok u, s)) (hmade : s ≤ st' ∨ ∃ text, u = .str text)
    (hl : (link (evaluate limit) t u).run st' = (.ok l, st'')) : l.PutsBack limit st st' st'' := by
  cases t with
  | ident | member | item | deref => exact link_putsBack_place hst hplain hle ht rfl hhits hu hl
  | slice => exact link_putsBack_slice hst hle ht hu hmade hl
  | _ => cases hl

end Links

/-! ### Assignments -/

/-- Whether a target, and every container around it to which an assignment may pass a replacement
on, denotes no missing entry of a map. -/
def Expr.Hits (limit : Nat) (st : State) (t : Expr) : Prop :=
  ∀ q, t.Outward q → ∀ pl s, (place (evaluate limit) q).run st = (.ok pl, s) → pl.Hits s.heap

theorem Expr.Hits.container {c : Expr} (h : t.Hits limit st) (hc : t.container? = some c) :
    c.Hits limit st :=
  fun q hq => h q (.head hc hq)

/-- A chain of links that gives a target the value that it has ends in a store that changes
nothing. -/
theorem Chain.le_apply {store : Store} (hchain : Chain (evaluate limit) t u st' store st'')
    (hst : st.Sound .typed Γ) (hplain : st.Plain) : st ≤ st' → t.isAssignFree = true →
      t.Hits limit st → {s : State} → (evaluate limit t).run st = (.ok u, s) →
        (s ≤ st' ∨ ∃ text, u = .str text) → st' ≤ store.apply st'' := by
  induction hchain with
  | last hl =>
    intro hle ht hhits s hu hmade
    cases link_putsBack hst hplain hle ht (hhits _ .refl) hu hmade hl with
    | last hle' => exact hle'
  | pass hl hc hchain ih =>
    intro hle ht hhits s hu hmade
    have hle₁ := (link_adds (fun e he => evaluate_adds limit he) _ _ ht).le_of_run hl
    cases link_putsBack hst hplain hle ht (hhits _ .refl) hu hmade hl with
    | pass hvalue =>
      exact hle₁.trans (ih (hle.trans hle₁) (Expr.isAssignFree_container hc ht)
        (hhits.container hc) hvalue (.inr ⟨_, rfl⟩))

/-- Assigning to a target the value that it has changes nothing: every binding of every scope and
every storage, those that the evaluation made included, is as it was before the assignment, whether
the assignment succeeds or fails. -/
theorem assign_own_value (limit : Nat) (t : Expr) (u : Value) (st st₁ : State) (Γ : Layout)
    (hst : st.Sound .typed Γ) (hplain : st.Plain) (ht : t.isAssignFree = true)
    (hhits : t.Hits limit st) (hu : (evaluate limit t).run st = (.ok u, st₁)) :
    let st₂ := ((assign (evaluate limit) t u).run st₁).2
    st₂.env = st.env ∧ st₂.depth = st.depth ∧
      (∀ a < st.heap.size, st₂.heap.get? a = st.heap.get? a) ∧
        ∀ a < st₁.heap.size, st₂.heap.get? a = st₁.heap.get? a := by
  intro st₂
  have hle : st ≤ st₁ := (evaluate_adds limit ht).le_of_run hu
  have hle₂ : st₁ ≤ st₂ := by
    rcases hr : (assign (evaluate limit) t u).run st₁ with ⟨e | r, st'⟩
    · exact le_of_assign_error (fun e he => evaluate_adds limit he) u ht (congrArg Prod.fst hr)
    · obtain ⟨store, st₃, hchain, -, hst₃⟩ := exists_chain_of_assign hr
      have hst₂ : st₂ = st' := congrArg Prod.snd hr
      rw [hst₂, hst₃]
      exact hchain.le_apply hst hplain hle ht hhits hu (.inl le_rfl)
  obtain ⟨henv, hdepth, hheap⟩ := hle.trans hle₂
  exact ⟨henv, hdepth, fun a ha => Heap.get?_eq_of_le hheap ha, fun a ha =>
    Heap.get?_eq_of_le hle₂.2.2 ha⟩

/-- A service with its labels. -/
def serviceDef : StructDef := ⟨"Service", [⟨"labels", .map .str .str, true⟩]⟩

/-- The service `web` has the label `tier`, which is `"ab"`. -/
def serviceState : State :=
  { env := ⟨[], SortedMap.empty.insert "web" (.struct ⟨serviceDef, 1⟩)⟩
    heap := (Heap.empty.push (.entries (SortedMap.empty.insert (.str "tier") (.str "ab")))).push
      (.fields [.map ⟨.str, .str, some 0⟩])
    depth := 0 }

theorem serviceState_sound : serviceState.Sound .typed
    (((Layout.mk []).push (.map .str .str)).push (.struct serviceDef)) := by
  have hentries : (Storage.entries (SortedMap.empty.insert (.str "tier") (.str "ab"))).Fits .typed
      ⟨[]⟩ (.map .str .str) := by
    intro e he
    obtain rfl := List.mem_singleton.1 he
    exact ⟨rfl, trivial, rfl⟩
  have hfields : (Storage.fields [.map ⟨.str, .str, some 0⟩]).Fits .typed
      ((Layout.mk []).push (.map .str .str)) (.struct serviceDef) := by
    refine .cons ⟨fun a ha => ?_, rfl⟩ .nil
    cases ha
    rfl
  refine ⟨((Heap.Sound.empty .typed).push hentries).push hfields, fun scope hscope e he => ?_⟩
  obtain rfl := List.mem_singleton.1 hscope
  obtain rfl := List.mem_singleton.1 he
  rfl

theorem serviceState_plain : serviceState.Plain := by
  have hempty : Heap.empty.Plain := fun a s hget => nomatch hget
  refine ⟨(hempty.push fun v hv => ?_).push fun v hv => ?_, fun scope hscope e he => ?_⟩
  · obtain rfl := List.mem_singleton.1 hv
    rfl
  · obtain rfl := List.mem_singleton.1 hv
    rfl
  · obtain rfl := List.mem_singleton.1 hscope
    obtain rfl := List.mem_singleton.1 he
    rfl

/-- `web.labels["tier"]`. -/
def tierLabel : Expr :=
  .item (.member (.ident "web" .dummy) "labels" .dummy) (.literal (.str "tier") .dummy) .dummy

/-- `web.labels["tier"][1]`. -/
def tierLetter : Expr := .item tierLabel (.literal (.int 1) .dummy) .dummy

theorem tierLetter_hits : tierLetter.Hits 8 serviceState := by
  intro q hq pl s hpl
  rcases hq.cases_head with rfl | ⟨c, hc, hq⟩
  · have hletter : (place (evaluate 8) tierLetter).run serviceState =
        (.ok (.item (.str "ab") (.int 1)), serviceState) :=
      Prod.ext (by decide +kernel) (by decide +kernel)
    cases hletter.symm.trans hpl
    intro m hm
    cases hm
  cases hc
  rcases hq.cases_head with rfl | ⟨c, hc, hq⟩
  · have hlabel : (place (evaluate 8) tierLabel).run serviceState =
        (.ok (.item (.map ⟨.str, .str, some 0⟩) (.str "tier")), serviceState) :=
      Prod.ext (by decide +kernel) (by decide +kernel)
    cases hlabel.symm.trans hpl
    intro m hm
    cases hm
    exact ⟨.str "tier", by decide +kernel, by decide +kernel⟩
  cases hc
  rcases hq.cases_head with rfl | ⟨c, hc, hq⟩
  · have hlabels : (place (evaluate 8) (.member (.ident "web" .dummy) "labels" .dummy)).run
        serviceState = (.ok (.member (.struct ⟨serviceDef, 1⟩) none "labels"), serviceState) :=
      Prod.ext (by decide +kernel) (by decide +kernel)
    cases hlabels.symm.trans hpl
    trivial
  cases hc
  rcases hq.cases_head with rfl | ⟨c, hc, hq⟩
  · cases hpl
    trivial
  · cases hc

/-- The letter replaces the label by the same string, which goes into its entry. -/
theorem assign_own_value_tierLetter :
    let run := (assign (evaluate 8) tierLetter (.str "b")).run serviceState
    run.1 = .ok (.str "ab") ∧ run.2.env = serviceState.env ∧ run.2.depth = serviceState.depth ∧
      ∀ a < serviceState.heap.size, run.2.heap.get? a = serviceState.heap.get? a := by
  have hu : (evaluate 8 tierLetter).run serviceState = (.ok (.str "b"), serviceState) :=
    Prod.ext (by decide +kernel) (by decide +kernel)
  obtain ⟨henv, hdepth, hheap, -⟩ := assign_own_value 8 tierLetter (.str "b") serviceState
    serviceState _ serviceState_sound serviceState_plain (by decide) tierLetter_hits hu
  exact ⟨by decide +kernel, henv, hdepth, hheap⟩

end TenantScript
