import TenantScript.Eval.Block
import TenantScript.Proofs.Link
import TenantScript.Proofs.ValueSteps

/-!
Scripts go in steps of a holding. A plan and a link lead to a store of what is at hand into a slot
that is granted; from there it goes through evaluation, assignment and blocks. Whatever a script
does, whether it succeeds or fails, is a sequence of steps from what its bindings hold.
-/

open TenantScript.Action

namespace TenantScript

variable {D : Discipline} {w w' : Holding D}

/-! ### Plans -/

/-- Whether a plan is one that steps of the holding can carry out. -/
def Holding.Plans (w : Holding D) : Plan → Prop
  | .write slot v => w.Grants slot v
  | .replace container => w.Has container

/-- An array keeps its length. -/
theorem Holding.length_items (hle : w ≤ w') {a : ArrayRef} (ha : w.Has (.array a)) :
    (w'.heap.items a).length = (w.heap.items a).length := by
  obtain ⟨n, hn⟩ := ha.fits
  rw [(w.sound.items hn).2.1, (w'.sound.items (Layout.decl?_eq_some_of_le (layout_le hle) hn)).2.1]

theorem StructRef.planField_steps {s : StructRef} (hs : w.Has (.struct s)) (name : Name)
    {v : Value} (hv : w.Has v) :
    Maintains Holding.Of w (s.planField name v) fun w' plan => w'.Plans plan := by
  unfold planField
  cases hfield : s.defn.field? name with
  | none => exact .fail _
  | some p =>
    obtain ⟨i, field⟩ := p
    simp only
    cases hset : field.settable with
    | false => exact .fail _
    | true =>
      refine .bind (convert_steps field.ty hv) fun w₁ hle u hu => .pure ?_
      exact Holding.Grants.field (hs.mono hle) hfield hset hu

theorem MapRef.planEntry_steps {m : MapRef} (hm : w.Has (.map m)) {key v : Value}
    (hkey : w.Has key) (hv : w.Has v) :
    Maintains Holding.Of w (m.planEntry key v) fun w' plan => w'.Plans plan := by
  refine .bind (convertKey_steps m.key hkey) fun w₁ hle₁ k hk => ?_
  refine .bind (convert_steps m.value (hv.mono hle₁)) fun w₂ hle₂ u hu => ?_
  cases ha : m.address? with
  | some a => exact .pure (Holding.Grants.entry (hm.mono (hle₁.trans hle₂)) ha hk hu)
  | none =>
    refine .bind (MapRef.make_steps fun e he => ?_) fun w₃ _ r hr => .pure hr.1
    rcases SortedMap.mem_insert he with rfl | he
    · exact ⟨hk, hu⟩
    · cases he

theorem additions_steps (elem : Ty) {v : Value} (hv : w.Has v) :
    Maintains Holding.Of w (additions elem v) fun w' us => ∀ u ∈ us, w'.Supplies elem u := by
  refine .recover (.bind (convert_steps elem hv) fun w₁ _ u hu => .pure fun u' hu' => ?_)
    fun w₁ hle e => ?_
  · obtain rfl := List.mem_singleton.1 hu'
    exact hu
  · have hu := (hv.mono hle).unwrap
    split
    · next source hsource =>
      rw [hsource] at hu
      refine .bind (ArrayRef.items_steps hu) fun w₂ _ items hitems => ?_
      exact (Maintains.mapM_all (Q := fun w' u => w'.Supplies elem u)
        (fun u _ _ hle hu => hu.mono hle) fun u hu w' hle' =>
          convert_steps elem ((hitems.2 u hu).1.mono hle')).imp fun _ _ _ hus => hus.2
    · exact .throw e

theorem ArrayRef.planAppend_steps {a : ArrayRef} (ha : w.Has (.array a)) {v : Value}
    (hv : w.Has v) :
    Maintains Holding.Of w (a.planAppend v) fun w' plan => w'.Plans plan := by
  refine .bind (ArrayRef.items_steps ha) fun w₁ hle₁ items _ => ?_
  split
  · exact .fail _
  · refine .bind (additions_steps a.elem (hv.mono hle₁)) fun w₂ hle₂ extra hextra => ?_
    refine .bind (ArrayRef.items_steps (ha.mono (hle₁.trans hle₂))) fun w₃ hle₃ items hitems => ?_
    refine .bind (ArrayRef.make_steps fun u hu => ?_) fun w₄ _ r hr => .pure hr.1
    rcases List.mem_append.1 hu with hu | hu
    · exact hitems.2 u hu
    · exact (hextra u hu).mono hle₃

theorem ArrayRef.planIndex_steps {a : ArrayRef} (ha : w.Has (.array a)) (index : Int)
    {v : Value} (hv : w.Has v) :
    Maintains Holding.Of w (a.planIndex index v) fun w' plan => w'.Plans plan := by
  refine .bind (ArrayRef.items_steps ha) fun w₁ hle₁ items hitems => ?_
  split
  · exact .fail _
  · next i _ =>
    by_cases heq : i = items.length
    · rw [if_pos heq]
      exact planAppend_steps (ha.mono hle₁) (hv.mono hle₁)
    · by_cases hgt : i > items.length
      · rw [if_neg heq, if_pos hgt]
        exact .fail _
      · rw [if_neg heq, if_neg hgt]
        cases hro : a.readOnly with
        | true => exact .fail _
        | false =>
          refine .bind (convert_steps a.elem (hv.mono hle₁)) fun w₂ hle₂ u hu => .pure ?_
          refine Holding.Grants.item (ha.mono (hle₁.trans hle₂)) hro ?_ hu
          rw [Holding.length_items hle₂ (ha.mono hle₁), ← hitems.1]
          omega

theorem PointerRef.slot_steps {p : PointerRef} (hp : w.Has (.pointer p)) :
    Maintains Holding.Of w p.slot fun w' slot => ∀ v, w'.Has v → w'.Grants slot v := by
  unfold slot
  cases ha : p.address? with
  | none => exact .fail _
  | some a => exact .pure fun v hv => .cell hp ha hv

theorem planCharacter_steps (s : String) (index : Int) (v : Value) :
    Maintains Holding.Of w (planCharacter s index v) fun w' plan => w'.Plans plan := by
  unfold planCharacter
  split
  · simp only
    split
    · exact .pure (Holding.has_of_ref? rfl)
    · exact .fail _
  · exact .fail _

theorem planMember_steps {container : Value} (hc : w.Has container) (field : Name) {v : Value}
    (hv : w.Has v) :
    Maintains Holding.Of w (planMember container field v) fun w' plan => w'.Plans plan := by
  unfold planMember
  split
  · exact StructRef.planField_steps hc field hv
  · exact MapRef.planEntry_steps hc (Holding.has_key (.str field)) hv
  · exact .fail _

theorem planItem_steps {collection index v : Value} (hc : w.Has collection) (hi : w.Has index)
    (hv : w.Has v) :
    Maintains Holding.Of w (planItem collection index v) fun w' plan => w'.Plans plan := by
  have hu := hc.unwrap
  unfold planItem
  split
  · next a ha =>
    rw [ha] at hu
    refine .bind (P := fun _ _ => True) (.ofExcept fun _ _ => trivial) fun w₁ hle i _ => ?_
    exact ArrayRef.planIndex_steps (hu.mono hle) i (hv.mono hle)
  · next m hm =>
    rw [hm] at hu
    exact MapRef.planEntry_steps hu hi hv
  · refine .bind (P := fun _ _ => True) (.ofExcept fun _ _ => trivial) fun w₁ _ i _ => ?_
    exact planCharacter_steps _ _ _
  · exact .fail _

theorem pointeeSlot_steps {pointer : Value} (hp : w.Has pointer) :
    Maintains Holding.Of w (pointeeSlot pointer) fun w' slot =>
      ∀ v, w'.Has v → w'.Grants slot v := by
  have hu := hp.unwrap
  unfold pointeeSlot
  split
  · next p h => exact PointerRef.slot_steps (h ▸ hu)
  · exact .fail _

/-- Whether values at hand can be written over the elements of an array from a position on. -/
structure Holding.Covers (w : Holding D) (a : ArrayRef) (start : Nat) (values : List Value) :
    Prop where
  has : w.Has (.array a)
  writable : a.readOnly = false
  length_le : start + values.length ≤ (w.heap.items a).length
  supplies : ∀ v ∈ values, w.Supplies a.elem v

theorem ArrayRef.planRange_steps {a : ArrayRef} (ha : w.Has (.array a)) (start stop : Int)
    {v : Value} (hv : w.Has v) :
    Maintains Holding.Of w (a.planRange start stop v) fun w' r => w'.Covers a r.1 r.2 := by
  refine .bind (ArrayRef.items_steps ha) fun w₁ hle₁ items hitems => ?_
  refine .bind (P := fun _ r => r.1 ≤ r.2 ∧ r.2 ≤ items.length)
    (.ofExcept fun r hr => (checkedRange_eq_ok_iff.1 hr).2.2) fun w₂ hle₂ r hr => ?_
  simp only
  cases hro : a.readOnly with
  | true => exact .fail _
  | false =>
    have hu := (hv.mono (hle₁.trans hle₂)).unwrap
    simp only [Bool.false_eq_true, if_false]
    split
    · next source hsource =>
      rw [hsource] at hu
      refine .bind (ArrayRef.items_steps hu) fun w₃ hle₃ values hvalues => ?_
      by_cases hcount : values.length ≠ r.2 - r.1
      · rw [if_pos hcount]
        exact .fail _
      · rw [if_neg hcount]
        refine .bind (.mapM_all (Q := fun w' u => w'.Supplies a.elem u)
          (fun u _ _ hle hu => hu.mono hle) fun u hu w' hle' =>
            convert_steps a.elem ((hvalues.2 u hu).1.mono hle')) fun w₄ hle₄ us hus => .pure ?_
        have hle := hle₂.trans (hle₃.trans hle₄)
        refine ⟨ha.mono (hle₁.trans hle), hro, ?_, hus.2⟩
        rw [Holding.length_items hle (ha.mono hle₁), ← hitems.1, hus.1, not_ne_iff.1 hcount]
        omega
    · exact .fail _

/-! ### Stores and links -/

theorem overwrite_nil (items : List Value) (start : Nat) : overwrite items start [] = items := by
  simp [overwrite]

/-- Values are written over a range one after the other. -/
theorem overwrite_cons {items : List Value} {start : Nat} (v : Value) (vs : List Value)
    (h : start < items.length) :
    overwrite items start (v :: vs) = overwrite (items.set start v) (start + 1) vs := by
  have htake : (items.set start v).take (start + 1) = items.take start ++ [v] := by
    rw [List.take_succ_eq_append_getElem (by simpa using h), List.getElem_set_self, List.take_set,
      List.set_eq_of_length_le (List.length_take_le start items)]
  have hdrop : (items.set start v).drop (start + 1 + vs.length) =
      items.drop (start + (v :: vs).length) := by
    rw [List.drop_set_of_lt (by omega), List.length_cons, Nat.add_assoc, Nat.add_comm 1]
  rw [overwrite, overwrite, htake, hdrop]
  simp

theorem Heap.write_of_get? {h : Heap} {a : Address} {s : Storage} (hget : h.get? a = some s) :
    h.write a s = h := by
  refine ext_get? fun b => ?_
  by_cases hb : b = a
  · rw [hb, get?_write_self s (lt_size_of_get? hget), hget]
  · exact get?_write_ne h s hb

theorem Heap.write_write (h : Heap) (a : Address) (s t : Storage) :
    (h.write a s).write a t = h.write a t := by
  simp [write]

/-- Values go over a range in steps. -/
theorem Holding.exists_overwrite {a : ArrayRef} {start : Nat} {values : List Value}
    (h : w.Covers a start values) : ∃ w' : Holding D, w ≤ w' ∧
      w'.heap = w.heap.write a.address (.items (overwrite (w.heap.items a) start values)) := by
  induction values generalizing w start with
  | nil =>
    obtain ⟨n, hn⟩ := h.has.fits
    refine ⟨w, le_rfl, ?_⟩
    rw [overwrite_nil, Heap.write_of_get? (w.sound.items hn).1]
  | cons v vs ih =>
    obtain ⟨n, hn⟩ := h.has.fits
    have hlen := h.length_le
    rw [List.length_cons] at hlen
    have hstart : start < (w.heap.items a).length := by omega
    have hgrants : w.Grants ⟨a.address, .item start⟩ v :=
      .item h.has h.writable hstart (h.supplies v List.mem_cons_self)
    have hheap : (Holding.write hgrants).heap =
        w.heap.write a.address (.items ((w.heap.items a).set start v)) := rfl
    have hitems : (Holding.write hgrants).heap.items a = (w.heap.items a).set start v :=
      Heap.items_of_get? (Heap.get?_write_self _ (Heap.lt_size_of_get? (w.sound.items hn).1))
    have hle := le_of_step (.write hgrants)
    have hrest : (Holding.write hgrants).Covers a (start + 1) vs :=
      ⟨h.has.mono hle, h.writable, by rw [hitems, List.length_set]; omega,
        fun u hu => (h.supplies u (List.mem_cons_of_mem _ hu)).mono hle⟩
    obtain ⟨w', hle', hw'⟩ := ih hrest
    refine ⟨w', hle.trans hle', ?_⟩
    rw [hw', hitems, hheap, Heap.write_write, overwrite_cons v vs hstart]

theorem Plan.commit_steps {plan : Plan} (h : w.Plans plan) :
    Maintains Holding.Of w plan.commit fun w' m => w'.Has m.value := by
  cases plan with
  | write slot v =>
    have hgrants : w.Grants slot v := h
    refine .bind (P := fun w' _ => w'.Has v) (.modify fun heap hw => ?_) fun _ _ _ hv => .pure hv
    obtain rfl := hw
    exact ⟨.write hgrants, Holding.le_of_step (.write hgrants), rfl, hgrants.has⟩
  | replace container => exact .pure h

theorem ArrayRef.commitRange_steps {a : ArrayRef} {start : Nat} {values : List Value}
    (h : w.Covers a start values) :
    Maintains Holding.Of w (a.commitRange start values) fun w' m => w'.Has m.value := by
  obtain ⟨w₁, hle₁, hw₁⟩ := Holding.exists_overwrite h
  refine .bind (P := fun w' items => w' = w ∧ items = w.heap.items a)
    (.get fun heap hw => ⟨rfl, by rw [show w.heap = heap from hw]⟩)
    fun w₂ _ items ⟨hw₂, hitems⟩ => ?_
  subst hw₂ hitems
  refine .bind (P := fun w' _ => w₁ ≤ w') (.modify fun heap hw => ?_) fun w₃ _ _ hle₃ => ?_
  · obtain rfl := hw
    exact ⟨w₁, hle₁, hw₁, le_rfl⟩
  · exact .bind (ArrayRef.make_steps fun v hv => (h.supplies v hv).mono (hle₁.trans hle₃))
      fun _ _ r hr => .pure hr.1

/-- Whether a state has the heap that is held and every bound value is at hand. -/
structure Holding.Meets (w : Holding D) (st : State) : Prop where
  heap : w.heap = st.heap
  env : ∀ scope ∈ st.env.scopes, ∀ e ∈ scope.entries, w.Has e.2

theorem Run.onHeap_steps {α : Type} {x : Action Heap α} {Q : Holding D → α → Prop}
    (hx : Maintains Holding.Of w x Q) : Maintains Holding.Meets w (Run.onHeap x) Q :=
  .onHeap Holding.Meets.heap (fun hle hst hh =>
    ⟨hh, fun scope hscope e he => (hst.env scope hscope e he).mono hle⟩) hx

/-- Whether a store is one that steps of the holding can carry out. -/
def Holding.Stores (w : Holding D) : Store → Prop
  | .bind _ v => w.Has v
  | .write slot v => w.Grants slot v
  | .overwrite a start values => w.Covers a start values

theorem Store.run_steps {store : Store} (h : w.Stores store) :
    Maintains Holding.Meets w store.run fun w' v => w'.Has v := by
  cases store with
  | bind name v =>
    refine .bind (P := fun w' _ => w'.Has v) (.modify fun st hst => ⟨w, le_rfl, ?_, h⟩)
      fun _ _ _ hv => .pure hv
    refine ⟨hst.heap, fun scope hscope e he => ?_⟩
    rcases Environment.mem_entries_assign hscope he with rfl | ⟨old, hold, he⟩
    · exact h
    · exact hst.env old hold e he
  | write slot v =>
    have hgrants : w.Grants slot v := h
    refine .bind (P := fun w' _ => w'.Has v) (Run.onHeap_steps (.modify fun heap hw => ?_))
      fun _ _ _ hv => .pure hv
    obtain rfl := hw
    exact ⟨.write hgrants, Holding.le_of_step (.write hgrants), rfl, hgrants.has⟩
  | overwrite a start values =>
    exact .bind (Run.onHeap_steps (ArrayRef.commitRange_steps h)) fun _ _ _ hm => .pure hm

/-- Whether what a link comes to is a store that steps can carry out or a replacement at hand. -/
def Holding.Links (w : Holding D) : Link → Prop
  | .last store => w.Stores store
  | .pass _ container => w.Has container

theorem linkPlan_steps (target : Expr) {via : Option PointerRef} {plan : Plan}
    (hvia : ∀ p, via = some p → w.Has (.pointer p)) (hplan : w.Plans plan) :
    Maintains Holding.Meets w (linkPlan target via plan) fun w' l => w'.Links l := by
  cases plan with
  | write slot v => exact .pure hplan
  | replace container =>
    cases via with
    | none => exact .pure hplan
    | some p =>
      refine .bind (Run.onHeap_steps (PointerRef.slot_steps (hvia p rfl)))
        fun w₁ hle slot hslot => .pure ?_
      exact hslot container (Holding.Has.mono hle hplan)

theorem memberContainer_steps {object : Value} (h : w.Has object) :
    Maintains Holding.Of w (memberContainer object) fun w' found =>
      w'.Has found.1 ∧ ∀ p, found.2 = some p → w'.Has (.pointer p) := by
  have hu := h.unwrap
  unfold memberContainer
  split
  · exact .fail _
  · next p hp =>
    rw [hp] at hu
    refine .bind (P := fun w' v? => (∀ v, v? = some v → w'.Has v) ∧ w'.Has (.pointer p))
      (Holding.get_steps ⟨fun v hv => hu.load hv, hu.mono (Holding.le_of_step (.look w))⟩)
      fun w₁ _ v? hv => ?_
    split
    · exact .fail _
    · exact .fail _
    · refine .pure ⟨hv.1 _ rfl, fun q hq => ?_⟩
      cases hq
      exact hv.2
  · exact .pure ⟨hu, fun p hp => nomatch hp⟩

theorem sliceTarget_steps {collection : Value} (h : w.Has collection) :
    Maintains Holding.Of w (sliceTarget collection) fun w' a => w'.Has (.array a) := by
  have hu := h.unwrap
  unfold sliceTarget
  split
  · next a ha => exact .pure (ha ▸ hu)
  · exact .fail _

theorem spread_steps {v : Value} (h : w.Has v) (targets : Nat) :
    Maintains Holding.Of w (spread v targets) fun w' vs => ∀ u ∈ vs, w'.Has u := by
  have hu := h.unwrap
  unfold spread
  split
  · next a ha =>
    rw [ha] at hu
    exact (ArrayRef.items_steps hu).imp fun _ _ vs hvs u hu => (hvs.2 u hu).1
  · exact .fail _

theorem Run.inScope_steps {α : Type} {x : Run α} {Q : Holding D → α → Prop}
    (hx : Maintains Holding.Meets w x Q) : Maintains Holding.Meets w (Run.inScope x) Q := by
  refine .inScope (fun hst => ⟨hst.heap, fun scope hscope e he => ?_⟩)
    (fun hst => ⟨hst.heap, fun scope hscope e he => ?_⟩) hx
  · rcases List.mem_cons.1 hscope with rfl | hscope
    · cases he
    · exact hst.env scope hscope e he
  · refine hst.env scope ?_ e he
    simp only [Environment.scopes, Environment.pop, List.mem_append] at hscope ⊢
    exact hscope.imp_left List.mem_of_mem_tail

theorem forEach_steps {bind : Value → Run Value} {body : Run Flow}
    (hbind : ∀ v (w : Holding D), w.Has v →
      Maintains Holding.Meets w (bind v) fun w' u => w'.Has u)
    (hbody : ∀ w : Holding D, Maintains Holding.Meets w body fun w' flow => w'.Has flow.value) :
    (items : List Value) → {w : Holding D} → (∀ v ∈ items, w.Has v) →
      Maintains Holding.Meets w (forEach bind body items) fun w' flow => w'.Has flow.value
  | [], _, _ => .pure Holding.has_nil
  | item :: items, w, h => by
    refine .bind (Run.inScope_steps (.bind (hbind item w (h item List.mem_cons_self))
      fun w₁ _ _ _ => hbody w₁)) fun w₂ hle flow hflow => ?_
    cases flow with
    | ret v => exact .pure hflow
    | next v => exact forEach_steps hbind hbody items fun u hu =>
        (h u (List.mem_cons_of_mem _ hu)).mono hle

section Eval

variable {ev : Expr → Run Value}
  (hev : ∀ e (w : Holding D), Maintains Holding.Meets w (ev e) fun w' v => w'.Has v)

include hev

theorem boundOr_steps {missing : Run Int}
    (hmissing : Maintains Holding.Meets w missing fun _ _ => True) (bound : Option Expr) :
    Maintains Holding.Meets w (boundOr ev missing bound) fun _ _ => True := by
  cases bound with
  | none => exact hmissing
  | some e => exact .bind (hev e w) fun _ _ _ _ => .ofExcept fun _ _ => trivial

theorem link_steps {v : Value} (hv : w.Has v) : (target : Expr) →
    Maintains Holding.Meets w (link ev target v) fun w' l => w'.Links l
  | .ident name _ => by
    refine .bind (P := fun _ _ => True) (.get fun _ _ => trivial) fun w₁ hle env _ => ?_
    split
    · exact .fail _
    · exact .pure (Holding.Has.mono hle hv)
  | .member object field _ => by
    refine .bind (hev object w) fun w₁ hle₁ o ho => ?_
    refine .bind (Run.onHeap_steps (memberContainer_steps ho)) fun w₂ hle₂ found hfound => ?_
    refine .bind (Run.onHeap_steps (planMember_steps hfound.1 field
      (hv.mono (hle₁.trans hle₂)))) fun w₃ hle₃ plan hplan => ?_
    exact linkPlan_steps object (fun p hp => (hfound.2 p hp).mono hle₃) hplan
  | .item collection index _ => by
    refine .bind (hev collection w) fun w₁ hle₁ c hc => ?_
    refine .bind (hev index w₁) fun w₂ hle₂ i hi => ?_
    refine .bind (Run.onHeap_steps (planItem_steps (hc.mono hle₂) hi
      (hv.mono (hle₁.trans hle₂)))) fun w₃ _ plan hplan => ?_
    exact linkPlan_steps collection (fun p hp => nomatch hp) hplan
  | .slice collection start stop _ => by
    refine .bind (hev collection w) fun w₁ hle₁ c hc => ?_
    refine .bind (Run.onHeap_steps (sliceTarget_steps hc)) fun w₂ hle₂ a ha => ?_
    refine .bind (boundOr_steps hev (.pure trivial) start) fun w₃ hle₃ low _ => ?_
    refine .bind (boundOr_steps hev (Run.onHeap_steps (.get fun _ _ => trivial)) stop)
      fun w₄ hle₄ high _ => ?_
    have hle := hle₁.trans (hle₂.trans (hle₃.trans hle₄))
    exact .bind (Run.onHeap_steps (ArrayRef.planRange_steps (ha.mono (hle₃.trans hle₄)) low high
      (hv.mono hle))) fun w₅ _ r hr => .pure hr
  | .deref pointer _ => by
    refine .bind (hev pointer w) fun w₁ hle₁ p hp => ?_
    refine .bind (Run.onHeap_steps (pointeeSlot_steps hp)) fun w₂ hle₂ slot hslot => .pure ?_
    exact hslot v (hv.mono (hle₁.trans hle₂))
  | .literal .. | .array .. | .assign .. => .fail _

theorem assign_steps : (target : Expr) → {v : Value} → {w : Holding D} → w.Has v →
    Maintains Holding.Meets w (assign ev target v) fun w' u => w'.Has u
  | target, v, w, hv => by
    rw [assign_eq]
    refine .within (.bind ((link_yields ev v target).and (link_steps hev hv target))
      fun w₁ _ l hl => ?_)
    cases l with
    | last store => exact Store.run_steps hl.1
    | pass t c =>
      have hsize := Expr.sizeOf_container (hl.2 t c rfl)
      exact assign_steps t hl.1
termination_by target => sizeOf target

theorem bound?_steps (bound : Option Expr) :
    Maintains Holding.Meets w (bound? ev bound) fun _ _ => True := by
  cases bound with
  | none => exact .pure trivial
  | some e =>
    refine .bind (hev e w) fun _ _ _ _ => ?_
    exact .bind (P := fun _ _ => True) (.ofExcept fun _ _ => trivial) fun _ _ _ _ => .pure trivial

theorem mapM_eval_steps (es : List Expr) :
    Maintains Holding.Meets w (es.mapM ev) fun w' vs => ∀ v ∈ vs, w'.Has v :=
  (Maintains.mapM_all (Q := fun w' v => w'.Has v) (fun _ _ _ hle hv => hv.mono hle)
    fun e _ w' _ => hev e w').imp fun _ _ _ hvs => hvs.2

theorem evaluateNode_steps : (e : Expr) →
    Maintains Holding.Meets w (evaluateNode ev e) fun w' v => w'.Has v
  | .literal l _ => .pure (by cases l <;> exact Holding.has_of_ref? rfl)
  | .array es _ => by
    refine .bind (mapM_eval_steps hev es) fun w₁ _ vs hvs => ?_
    exact .bind (Run.onHeap_steps (ArrayRef.make_steps fun v hv => ⟨hvs v hv, D.any v⟩))
      fun _ _ r hr => .pure hr.1
  | .ident name _ => by
    refine .bind (P := fun w' v? => ∀ v, v? = some v → w'.Has v) (.get fun st hst v hv => ?_)
      fun w₁ _ v? hv => .require hv
    obtain ⟨scope, hscope, he⟩ := Environment.exists_entry_of_lookup? hv
    exact hst.env scope hscope _ he
  | .member object field _ => .bind (hev object w) fun _ _ _ ho =>
    Run.onHeap_steps (readMember_steps ho field)
  | .item collection index _ => .bind (hev collection w) fun _ _ _ hc =>
    .bind (hev index _) fun _ hle _ hi => Run.onHeap_steps (readItem_steps (hc.mono hle) hi)
  | .slice collection start stop _ => .bind (hev collection w) fun _ _ _ hc =>
    .bind (bound?_steps hev start) fun _ hle₁ _ _ => .bind (bound?_steps hev stop)
      fun _ hle₂ _ _ => Run.onHeap_steps (readSlice_steps (hc.mono (hle₁.trans hle₂)) _ _)
  | .deref pointer _ => .bind (hev pointer w) fun _ _ _ hp =>
    Run.onHeap_steps (readPointee_steps hp)
  | .assign target value _ => .bind (hev value w) fun _ _ _ hv => assign_steps hev target hv

/-! ### Statements -/

theorem assignEach_steps : (targets : List Expr) → {values : List Value} → {stored : Value} →
    {w : Holding D} → (∀ v ∈ values, w.Has v) → w.Has stored →
      Maintains Holding.Meets w (assignEach ev targets values stored) fun w' v => w'.Has v
  | [], _, _, _, _, hstored => .pure hstored
  | target :: targets, values, _, w, hvalues, _ => by
    have hhead : w.Has (values.headD .nil) := by
      cases values with
      | nil => exact Holding.has_nil
      | cons v vs => exact hvalues v List.mem_cons_self
    refine .bind (assign_steps hev target hhead) fun w₁ hle u hu => ?_
    exact assignEach_steps targets (fun v hv => (hvalues v (List.mem_of_mem_tail hv)).mono hle) hu

theorem assignAll_steps (targets values : List Expr) :
    Maintains Holding.Meets w (assignAll ev targets values) fun w' v => w'.Has v := by
  unfold assignAll
  split
  · exact .bind (mapM_eval_steps hev values) fun _ _ vs hvs =>
      assignEach_steps hev targets hvs Holding.has_nil
  · split
    · next value _ =>
      split
      · exact .bind (hev value w) fun _ _ v hv => .bind (Run.onHeap_steps (spread_steps hv _))
          fun _ _ vs hvs => assignEach_steps hev targets hvs Holding.has_nil
      · exact .fail _
    · exact .fail _

end Eval

mutual
theorem execStmt_steps {ev : Expr → Run Value}
    (hev : ∀ e (w : Holding D), Maintains Holding.Meets w (ev e) fun w' v => w'.Has v) :
    (s : Stmt) → {w : Holding D} →
      Maintains Holding.Meets w (execStmt ev s) fun w' flow => w'.Has flow.value
  | .expr e _, w => .within (.bind (hev e w) fun _ _ _ hv => .pure hv)
  | .assign targets values _, _ =>
    .within (.bind (assignAll_steps hev targets values) fun _ _ _ hv => .pure hv)
  | .forIn var iterable body _, w =>
    .within (.bind (hev iterable w) fun _ _ _ hv =>
      .bind (Run.onHeap_steps (readEach_steps hv)) fun _ _ items hitems =>
        forEach_steps (fun _ _ hu => assign_steps hev var hu)
          (fun _ => execStmts_steps hev body Holding.has_nil) items hitems)
  | .ret none _, _ => by
    rw [execStmt]
    exact .within (.pure Holding.has_nil)
  | .ret (some e) _, w => .within (.bind (hev e w) fun _ _ _ hv => .pure hv)

theorem execStmts_steps {ev : Expr → Run Value}
    (hev : ∀ e (w : Holding D), Maintains Holding.Meets w (ev e) fun w' v => w'.Has v) :
    (body : List Stmt) → {last : Value} → {w : Holding D} → w.Has last →
      Maintains Holding.Meets w (execStmts ev body last) fun w' flow => w'.Has flow.value
  | [], _, _, hlast => .pure hlast
  | s :: rest, last, _, hlast => by
    refine .bind (execStmt_steps hev s) fun w₁ hle flow hflow => ?_
    cases flow with
    | ret v => exact .pure hflow
    | next v =>
      refine execStmts_steps hev rest ?_
      split
      · exact hflow
      · exact hlast.mono hle
end

theorem evaluateWithin_steps (limit : Nat) : (room : Nat) → (e : Expr) → (w : Holding D) →
    Maintains Holding.Meets w (evaluateWithin limit room e) fun w' v => w'.Has v
  | 0, _, _ => .within (.fail _)
  | room + 1, e, _ => .within (.nested (fun hst => ⟨hst.heap, hst.env⟩)
    (evaluateNode_steps (evaluateWithin_steps limit room) e))

theorem evaluate_steps (limit : Nat) (e : Expr) (w : Holding D) :
    Maintains Holding.Meets w (evaluate limit e) fun w' v => w'.Has v :=
  fun st hst => evaluateWithin_steps limit (limit - st.depth) e w st hst

theorem execBlock_steps (limit : Nat) (body : List Stmt) (w : Holding D) :
    Maintains Holding.Meets w (execBlock limit body) fun w' v => w'.Has v :=
  .bind (execStmts_steps (evaluate_steps limit) body Holding.has_nil) fun _ _ _ hv => .pure hv

end TenantScript
