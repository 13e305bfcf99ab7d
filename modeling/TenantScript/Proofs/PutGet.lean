import TenantScript.Proofs.Paths
import TenantScript.Proofs.Puts

/-!
Put and get. After an assignment to a path has succeeded, the path has the value that was assigned,
converted to the declared type of its place. A store in place leaves the storages alone that are
read on the way there, since these lead to the storage that is written and nothing leads back. A
replacement is read from the place that it was assigned to, and what is read next is the storage
that was made for it, which no later link can write.
-/

open Relation TenantScript.Action

namespace TenantScript

variable {Γ : Layout} {limit : Nat} {st : State}

/-! ### Declared types of places -/

theorem place_sound {D : Discipline} {ev : Expr → Run Value}
    (hev : ∀ e Γ, Maintains (State.Sound D) Γ (ev e) fun Γ' v => v.Fits Γ') : (t : Expr) →
      Maintains (State.Sound D) Γ (place ev t) fun Γ' pl => pl.base.Fits Γ'
  | .ident _ _ => .pure trivial
  | .member object _ _ => .bind (hev object Γ) fun _ _ _ ho =>
    .bind (Run.onHeap_sound (memberContainer_sound ho)) fun _ _ _ hfound => .pure hfound
  | .item collection index _ => .bind (hev collection Γ) fun _ _ _ hc =>
    .bind (hev index _) fun _ hle _ _ => .pure (hc.mono hle)
  | .deref pointer _ => .bind (hev pointer Γ) fun _ _ _ hp => .pure hp
  | .literal .. | .array .. | .slice .. | .assign .. => .fail _

theorem MapRef.conforms_of_read {m : MapRef} {key w : Value} {h h' : Heap}
    (hs : h.Sound .typed Γ) (hm : (Value.map m).Fits Γ)
    (hrun : (m.read key).run h = (.ok w, h')) : w.conforms m.value = true := by
  obtain ⟨k, -, ⟨hget, -⟩ | ⟨-, hzero⟩⟩ := MapRef.entry_of_read hrun
  · exact (hs.entries hm _ (SortedMap.get?_eq_some_iff.1 hget)).2.2
  · exact zero_conforms m.value h w (congrArg Prod.fst hzero)

/-- A value that is read from a place conforms to the declared type of the place, unless it is a
character. -/
theorem Place.conforms_of_read {pl : Place} {s s' : State} {w : Value} (hs : s.Sound .typed Γ)
    (hbase : pl.base.Fits Γ) (hread : pl.read.run s = (.ok w, s'))
    (hchar : ∀ text piece, pl.base.unwrap = .str text → w ≠ .str piece) :
    ∃ ty, pl.type? = some ty ∧ w.conforms ty = true := by
  cases pl with
  | name n => exact ⟨.any, rfl, rfl⟩
  | pointee pointer => exact ⟨.any, rfl, rfl⟩
  | member container via field =>
    obtain ⟨h', hmember, -⟩ := Run.exists_of_run_onHeap hread
    cases container with
    | struct r =>
      obtain ⟨hfield, -⟩ := field_of_memberOf hmember
      obtain ⟨⟨i, f⟩, hf, -⟩ := Option.bind_eq_some_iff.1 hfield
      refine ⟨f.ty, ?_, (hs.heap.suits_field hbase hf hfield).2⟩
      rw [type?, hf]
      rfl
    | map m => exact ⟨m.value, rfl, MapRef.conforms_of_read hs.heap hbase hmember⟩
    | _ => cases hmember
  | item collection index =>
    obtain ⟨h', hitem, -⟩ := Run.exists_of_run_onHeap hread
    have hu : collection.unwrap.Fits Γ := Value.Fits.unwrap hbase
    cases hc : collection.unwrap with
    | array a =>
      rw [hc] at hu
      obtain ⟨i, -, helem, -⟩ := element_of_readItem hc hitem
      obtain ⟨n, hn⟩ := hu
      refine ⟨a.elem, ?_, ((hs.heap.items hn).2.2 w (mem_of_elementAt helem)).2⟩
      simp only [type?, hc]
    | map m =>
      rw [hc] at hu
      simp only [readItem, hc] at hitem
      refine ⟨m.value, ?_, MapRef.conforms_of_read hs.heap hu hitem⟩
      simp only [type?, hc]
    | str text =>
      simp only [readItem, hc] at hitem
      obtain ⟨i, h₁, hi, hget⟩ := exists_of_run_bind hitem
      obtain ⟨c, h₂, -, hpure⟩ := exists_of_run_bind hget
      cases hpure
      exact (hchar text _ hc rfl).elim
    | _ =>
      simp only [readItem, hc] at hitem
      cases hitem

/-! ### Evaluation with the levels that a state leaves -/

/-- The parts of a target are evaluated with as many levels as the state leaves. -/
theorem run_place_evaluate {t : Expr} (ht : t.isAssignFree = true) :
    (place (evaluate limit) t).run st =
      (place (evaluateWithin limit (limit - st.depth)) t).run st := by
  cases t with
  | item collection index span =>
    rw [Expr.isAssignFree, Bool.and_eq_true] at ht
    have hadds := evaluateWithin_adds limit (limit - st.depth) ht.1
    have heq : (evaluate limit collection).run st =
      (evaluateWithin limit (limit - st.depth) collection).run st := rfl
    rw [place, place, run_bind, run_bind, heq]
    rcases hc : (evaluateWithin limit (limit - st.depth) collection).run st with ⟨e | w, s⟩
    · rfl
    · have hdepth : s.depth = st.depth := (hadds.le_of_run hc).2.1
      simp only [run_bind, evaluate, hdepth]
  | _ => rfl

/-- Where a path has a value other than a character, its place has a declared type, to which the
value conforms, and it is found in every state that has grown meanwhile. -/
theorem exists_place_of_value {st₁ s : State} {t : Expr} {w : Value} (hst : st.Sound .typed Γ)
    (ht : t.isPath = true) (hdepth : t.height + st.depth ≤ limit)
    (hrun : (evaluate limit t).run st = (.ok w, s)) (hchar : ∀ text, w ≠ .str text)
    (hle : st ≤ st₁) :
    ∃ pl ty, (place (evaluate limit) t).run st₁ = (.ok pl, st₁) ∧ pl.type? = some ty ∧
      w.conforms ty = true := by
  obtain ⟨room, s₁, -, hnode, -⟩ := node_of_evaluateWithin hrun
  obtain ⟨pl, s₂, hplace, hread⟩ := exists_place_of_evaluateNode (Expr.isPlace_of_isPath ht) hnode
  have hdeeper : State.Sound .typed Γ { st with depth := st.depth + 1 } := ⟨hst.heap, hst.env⟩
  obtain ⟨Γ', -, hs₂, hbase⟩ := place_sound (evaluateWithin_sound limit room) t _ hdeeper
  rw [hplace] at hs₂ hbase
  obtain ⟨ty, hty, hconf⟩ := Place.conforms_of_read hs₂ (hbase pl rfl) hread fun _ piece _ =>
    hchar piece
  refine ⟨pl, ty, ?_, hty, hconf⟩
  cases pathPlace_of_run hst ht hplace with
  | found htrail hfound =>
    rw [run_place_evaluate (Expr.isAssignFree_of_isPath t ht)]
    have hroom : t.height ≤ limit - st₁.depth + 1 := by
      rw [hle.2.1]
      omega
    have hat := hfound.congr hle.1 fun b hb => Heap.get?_eq_of_le hle.2.2 (htrail.lt b hb)
    exact hat (limit - st₁.depth) hroom st₁.heap st₁.depth fun _ _ => rfl
  | made elem hmade =>
    refine (Place.read_empty hmade ?_ hread).elim
    exact Heap.items_of_get? (Heap.get?_push_self _ _)

/-- A store into what a value refers to leaves the storages on the way there alone, if none leads to
itself. -/
theorem Trail.get?_apply {A : List Address} {u : Value} {st₁ : State} {store : Store}
    (htrail : Trail st A u) (hacyclic : st.Acyclic) (hle : st ≤ st₁)
    (href : u.ref? = store.address?) :
    ∀ b ∈ A, (store.apply st₁).heap.get? b = st.heap.get? b := by
  intro b hb
  have hlt := htrail.lt b hb
  have hsize := Heap.size_le_of_le hle.2.2
  have hne : store.address? ≠ some b := by
    intro e
    have hb' := href.trans e
    exact hacyclic b (htrail.reaches b hb') (htrail.leads b hb' b hb)
  rw [Store.get?_apply_of_ne (Nat.lt_of_lt_of_le hlt hsize) hne, Heap.get?_eq_of_le hle.2.2 hlt]

/-! ### Links -/

/-- What a link of an assignment to `t` comes to that ends in the value `c`, where the conversion to
`c` left the heap `h`: a store after which `t` has the value `c`, or a replacement that is declared
like the container it replaces, and from which `t` has the value `c` once the container has been
replaced by it. -/
inductive Link.Puts (limit : Nat) (st : State) (t : Expr) (c : Value) (h : Heap) :
    Link → State → Prop
  | last {store : Store} {st₁ : State} {A : List Address} (hle : h ≤ st₁.heap)
      (hreaches : ∀ a, store.address? = some a → st.Reaches a)
      (hvalue : t.HasValue limit (store.apply st₁) A c) : Puts limit st t c h (.last store) st₁
  | pass {t' : Expr} {r : Value} {st₁ : State} {pl : Place} {ty : Ty} {a : Address}
      (hle : h ≤ st₁.heap) (hplace : (place (evaluate limit) t').run st₁ = (.ok pl, st₁))
      (hty : pl.type? = some ty) (hkept : convert ty r = pure r) (hfresh : st.heap.size ≤ a)
      (hlt : a < st₁.heap.size)
      (hnext : ∀ {st' : State} {A : List Address}, st'.heap.get? a = st₁.heap.get? a →
        t'.HasValue limit st' A r → ∃ B, t.HasValue limit st' B c) :
      Puts limit st t c h (.pass t' r) st₁

section Links

variable {t : Expr} {v c : Value} {h : Heap} {l : Link} {s₀ st₁ : State}

/-- A store into what the place of a path is read through. -/
theorem Link.puts_of_write {A : List Address} {pl : Place} {x : Action Heap Value} {slot : Slot}
    (hacyclic : st.Acyclic) (htrail : Trail st A pl.base) (hplace : t.HasPlace limit st A pl)
    (hle : st ≤ st₁) (href : pl.base.ref? = some slot.address) (hread : pl.read = Run.onHeap x)
    (hfinds : Finds x (st₁.heap.store slot c) pl.base c) :
    Link.Puts limit st t c st₁.heap (.last (.write slot c)) st₁ := by
  have hagree : ∀ b ∈ A, ((Store.write slot c).apply st₁).heap.get? b = st.heap.get? b :=
    htrail.get?_apply hacyclic hle href
  have hat : t.HasPlace limit ((Store.write slot c).apply st₁) A pl := hplace.congr hle.1 hagree
  have hc : Traced ((Store.write slot c).apply st₁) pl.base.ref?.toList pl.read c := by
    rw [hread]
    exact .onHeap hfinds
  exact .last le_rfl (fun a ha => htrail.reaches a (href.trans ha)) (hat.value hc)

/-- A replacement for a container that is the value of a path. -/
theorem Link.puts_of_pass {t' : Expr} {w r : Value} {s s₁ : State} {x : Storage}
    (hst : st.Sound .typed Γ) (ht' : t'.isPath = true) (hdepth : t'.height + st.depth ≤ limit)
    (hw : (evaluate limit t').run st = (.ok w, s)) (hle : st ≤ { s₁ with heap := h })
    (hchar : ∀ text, w ≠ .str text) (hkept : ∀ ty, w.conforms ty = true → convert ty r = pure r)
    (hnext : ∀ {st' : State} {A : List Address}, st'.heap.get? h.size = some x →
      t'.HasValue limit st' A r → ∃ B, t.HasValue limit st' B c) :
    Link.Puts limit st t c h (.pass t' r) { s₁ with heap := h.push x } := by
  have hpush : ({ s₁ with heap := h } : State) ≤ { s₁ with heap := h.push x } :=
    ⟨rfl, rfl, h.le_push x⟩
  obtain ⟨pl, ty, hplace, hty, hconf⟩ :=
    exists_place_of_value hst ht' hdepth hw hchar (hle.trans hpush)
  have hsize : h.size < (h.push x).size := by
    rw [Heap.size_push]
    exact Nat.lt_succ_self _
  refine .pass (a := h.size) (h.le_push x) hplace hty (hkept ty hconf)
    (Heap.size_le_of_le hle.2.2) hsize fun hsame => hnext (hsame.trans ?_)
  exact Heap.get?_push_self h x

/-- A replacement for what a pointer points to. -/
theorem Link.puts_of_via {A : List Address} {object : Expr} {field : Name} {span : Span}
    {w r : Value} {p : PointerRef} {a : Address} {s : State} {x : Storage}
    (hst : st.Sound .typed Γ) (hacyclic : st.Acyclic) (htrail : Trail st A w)
    (hobject : object.HasValue limit st A w) (hp : w.unwrap = .pointer p)
    (ha : p.address? = some a) (hle : st ≤ { s with heap := h }) (href : r.ref? = some h.size)
    (hfinds : Finds (memberOf r field) (h.push x) r c)
    (hroom : (h.push x).HasRoom ⟨a, .cell⟩) :
    Link.Puts limit st (.member object field span) c h (.last (.write ⟨a, .cell⟩ r))
      { s with heap := h.push x } := by
  have hw : w.ref? = some a := by
    rw [← w.ref?_unwrap, hp]
    exact ha
  have hpush : ({ s with heap := h } : State) ≤ { s with heap := h.push x } :=
    ⟨rfl, rfl, h.le_push x⟩
  let after := (Store.write ⟨a, .cell⟩ r).apply { s with heap := h.push x }
  have hagree : ∀ b ∈ A, after.heap.get? b = st.heap.get? b :=
    htrail.get?_apply hacyclic (hle.trans hpush) hw
  have hat : object.HasValue limit after A w := hobject.congr hle.1 hagree
  have hload : after.heap.load? p = some r :=
    (Heap.load?_eq _ ha).trans (Heap.value?_store_self hroom)
  have hnil : r ≠ .nil := by
    rintro rfl
    cases href
  have hcontainer : Traced after w.ref?.toList (Run.onHeap (memberContainer w)) (r, some p) :=
    traced_through hp hload hnil
  have hread : Finds (memberOf r field) after.heap r c := by
    refine hfinds.congr fun b hb => Heap.get?_store_ne _ _ _ ?_
    have hlt : a < st.heap.size := hst.reaches_lt (htrail.reaches a hw)
    have hsize := Heap.size_le_of_le hle.2.2
    cases href.symm.trans hb
    exact Nat.ne_of_gt (Nat.lt_of_lt_of_le hlt hsize)
  refine .last (h.le_push x) (fun b hb => ?_) ((hat.member hcontainer).value (.onHeap hread))
  cases hb
  exact htrail.reaches a hw

theorem link_puts_deref {pointer : Expr} {span : Span} {pl : Place} {ty : Ty}
    (hst : st.Sound .typed Γ) (hacyclic : st.Acyclic) (ht : pointer.isPath = true)
    (hplace : (place (evaluate limit) (.deref pointer span)).run st = (.ok pl, s₀))
    (hty : pl.type? = some ty) (hconv : (convert ty v).run s₀.heap = (.ok c, h))
    (hl : (link (evaluate limit) (.deref pointer span) v).run st = (.ok l, st₁))
    (hroom : ∀ slot x, l = .last (.write slot x) → st₁.heap.HasRoom slot) :
    Link.Puts limit st (.deref pointer span) c h l st₁ := by
  obtain ⟨w, s₁, hw, hplace⟩ := exists_of_run_bind hplace
  cases hplace
  cases hty
  cases hconv
  rw [link, run_bind_ok _ hw] at hl
  obtain ⟨slot, heap, hrun, hl⟩ := Run.exists_of_run_onHeap_bind hl
  obtain ⟨rfl, href, hfinds⟩ := pointeeSlot_finds (v := v) hrun
  cases hl
  cases pathValue_of_run hst pointer ht (d := st.depth) hw with
  | found htrail hvalue =>
    exact Link.puts_of_write hacyclic htrail hvalue.deref le_rfl href rfl
      (hfinds _ (hroom slot v rfl))
  | made elem => cases hrun

theorem link_puts_item {collection : Expr} {lit : Literal} {lspan span : Span} {pl : Place}
    {ty : Ty} (hst : st.Sound .typed Γ) (hacyclic : st.Acyclic) (ht : collection.isPath = true)
    (hdepth : collection.height + st.depth ≤ limit)
    (hplace : (place (evaluate limit) (.item collection (.literal lit lspan) span)).run st =
      (.ok pl, s₀))
    (hty : pl.type? = some ty) (hconv : (convert ty v).run s₀.heap = (.ok c, h))
    (hl : (link (evaluate limit) (.item collection (.literal lit lspan) span) v).run st =
      (.ok l, st₁))
    (hroom : ∀ slot x, l = .last (.write slot x) → st₁.heap.HasRoom slot) :
    Link.Puts limit st (.item collection (.literal lit lspan) span) c h l st₁ := by
  have hfree := Expr.isAssignFree_of_isPath collection ht
  obtain ⟨Γ', hΓ, hs₀, hbase⟩ := place_sound (evaluate_sound limit)
    (.item collection (.literal lit lspan) span) st hst
  rw [hplace] at hs₀ hbase
  rw [link_of_place rfl hplace] at hl
  obtain ⟨w, s₁, hw, hplace⟩ := exists_of_run_bind hplace
  obtain ⟨key, s₂, hkey, hplace⟩ := exists_of_run_bind hplace
  obtain ⟨room, hroom', heq, -, -⟩ := node_of_evaluateWithin hkey
  have hlit : (evaluate limit (.literal lit lspan)).run s₁ = (.ok lit.value, s₁) := by
    show (evaluateWithin limit (limit - s₁.depth) _).run s₁ = _
    rw [heq, evaluateWithin_literal]
    rfl
  cases hlit.symm.trans hkey
  cases hplace
  obtain ⟨plan, heap, hrun, hl⟩ := Run.exists_of_run_onHeap_bind hl
  have hle : st ≤ s₀ := (evaluate_adds limit hfree).le_of_run hw
  have hconv_le : s₀.heap ≤ h := (convert_adds ty v).le_of_run hconv
  have hle' : st ≤ { s₀ with heap := h } := hle.trans ⟨rfl, rfl, hconv_le⟩
  have hlt (a : Address) (ha : w.ref? = some a) : a < s₀.heap.size :=
    hs₀.heap.size ▸ Value.Fits.ref_lt (hbase _ rfl) ha
  cases planItem_puts hty hlt hconv hrun with
  | @write slot href hfinds =>
    cases hl
    have hslot := hroom slot c rfl
    cases pathValue_of_run hst collection ht (d := st.depth) hw with
    | found htrail hvalue =>
      exact Link.puts_of_write hacyclic htrail hvalue.item hle' href rfl (hfinds h hslot)
    | made elem =>
      -- the array was made for a missing entry, and an empty array can only be replaced
      have haddr : slot.address = st.heap.size := (Option.some.inj href).symm
      have hget : h.get? slot.address = some (.items []) := by
        rw [haddr]
        exact hconv_le _ _ (Heap.get?_push_self _ _)
      exact (Heap.not_hasRoom_of_empty hget hslot).elim
  | @replace r x href hself hchar hkept hfinds =>
    cases hl
    exact Link.puts_of_pass hst ht hdepth hw hle' hchar hkept fun hget hr =>
      ⟨_, hr.item.value (.onHeap (hfinds.of_push href hget))⟩

theorem link_puts_member {object : Expr} {field : Name} {span : Span} {pl : Place} {ty : Ty}
    (hst : st.Sound .typed Γ) (hacyclic : st.Acyclic) (ht : object.isPath = true)
    (hdepth : object.height + st.depth ≤ limit)
    (hplace : (place (evaluate limit) (.member object field span)).run st = (.ok pl, s₀))
    (hty : pl.type? = some ty) (hconv : (convert ty v).run s₀.heap = (.ok c, h))
    (hl : (link (evaluate limit) (.member object field span) v).run st = (.ok l, st₁))
    (hroom : ∀ slot x, l = .last (.write slot x) → st₁.heap.HasRoom slot) :
    Link.Puts limit st (.member object field span) c h l st₁ := by
  have hfree := Expr.isAssignFree_of_isPath object ht
  rw [link_of_place rfl hplace] at hl
  obtain ⟨w, s₁, hw, hplace⟩ := exists_of_run_bind hplace
  obtain ⟨found, heap, hfound, hplace⟩ := Run.exists_of_run_onHeap_bind hplace
  obtain ⟨rfl, hcontainer⟩ := run_memberContainer_iff.1 hfound
  cases hplace
  obtain ⟨plan, heap, hrun, hl⟩ := Run.exists_of_run_onHeap_bind hl
  have hle : st ≤ s₁ := (evaluate_adds limit hfree).le_of_run hw
  have hconv_le : s₁.heap ≤ h := (convert_adds ty v).le_of_run hconv
  have hle' : st ≤ { s₁ with heap := h } := hle.trans ⟨rfl, rfl, hconv_le⟩
  have hputs := planMember_puts hty hconv hrun
  cases pathValue_of_run hst object ht (d := st.depth) hw with
  | made elem =>
    cases hfound
    cases hty
  | found htrail hvalue =>
    obtain ⟨B, htrail', htraced⟩ := hcontainer.trail hst htrail
    cases hputs with
    | @write slot href hfinds =>
      cases hl
      exact Link.puts_of_write hacyclic htrail' (hvalue.member htraced) hle' href rfl
        (hfinds h (hroom slot c rfl))
    | @replace r x href hself hchar hkept hfinds =>
      cases hcontainer with
      | direct hnil hpointer =>
        cases hl
        refine Link.puts_of_pass hst ht hdepth hw hle' (fun text e => ?_) (fun ty hconf => ?_)
          fun {st' A} hget hr => ?_
        · subst e
          exact hchar text rfl
        · exact hkept ty (Value.conforms_unwrap hconf)
        · have hself' : Traced st' [] (Run.onHeap (memberContainer r)) (r, none) := by
            rw [hself]
            exact fun _ _ _ => rfl
          exact ⟨_, (hr.member hself').value (.onHeap (hfinds.of_push href hget))⟩
      | through hp hload hnil =>
        -- the replacement goes into the cell, so that the object is read as before
        obtain ⟨slot, heap', hcell, hl⟩ := Run.exists_of_run_onHeap_bind hl
        obtain ⟨a, ha, rfl, rfl⟩ := PointerRef.eq_of_run_slot hcell
        cases hl
        exact Link.puts_of_via hst hacyclic htrail hvalue hp ha hle' href hfinds (hroom _ _ rfl)

/-- One link of an assignment to a path. -/
theorem link_puts {pl : Place} {ty : Ty} (hst : st.Sound .typed Γ) (hv : v.Fits Γ)
    (hacyclic : st.Acyclic) (ht : t.isPath = true) (hdepth : t.height + st.depth ≤ limit)
    (hplace : (place (evaluate limit) t).run st = (.ok pl, s₀)) (hty : pl.type? = some ty)
    (hconv : (convert ty v).run s₀.heap = (.ok c, h))
    (hl : (link (evaluate limit) t v).run st = (.ok l, st₁)) : Link.Puts limit st t c h l st₁ := by
  have hroom (slot : Slot) (x : Value) (e : l = .last (.write slot x)) : st₁.heap.HasRoom slot := by
    obtain ⟨Δ, -, hst₁, hfits⟩ := link_sound limit hv t st hst
    rw [hl] at hst₁ hfits
    have hslot := hfits l rfl
    rw [e] at hslot
    exact hst₁.heap.hasRoom hslot
  cases t with
  | ident name span =>
    cases hplace
    cases hty
    cases hconv
    obtain ⟨env, s, henv, hl⟩ := exists_of_run_bind hl
    cases henv
    split at hl
    · cases hl
    · cases hl
      refine .last (A := []) le_rfl (fun a ha => nomatch ha) (Expr.hasValue_ident ?_)
      show (st.env.assign name v).lookup? name = some v
      rw [Environment.lookup?_assign, if_pos rfl]
  | member object field span =>
    rw [Expr.height] at hdepth
    exact link_puts_member hst hacyclic ht (by omega) hplace hty hconv hl hroom
  | item collection index span =>
    rw [Expr.height] at hdepth
    cases index with
    | literal lit lspan =>
      exact link_puts_item hst hacyclic ht (by omega) hplace hty hconv hl hroom
    | _ => cases ht
  | deref pointer span => exact link_puts_deref hst hacyclic ht hplace hty hconv hl hroom
  | _ => cases ht

end Links

/-! ### Assignments -/

theorem Expr.height_container {t t' : Expr} (ht' : t.container? = some t') :
    t'.height < t.height := by
  cases t <;> cases ht' <;> exact Nat.lt_succ_self _

theorem Expr.isPath_container {t t' : Expr} (ht' : t.container? = some t')
    (ht : t.isPath = true) : t'.isPath = true := by
  cases t with
  | member object field span =>
    cases ht'
    exact ht
  | item collection index span =>
    cases ht'
    cases index with
    | literal lit lspan => exact ht
    | _ => cases ht
  | _ => cases ht'

/-- An assignment to a path ends in a store into what could be reached before, after which the path
has the value that was assigned. -/
theorem Chain.puts {t : Expr} {v : Value} {st₁ : State} {store : Store}
    (hchain : Chain (evaluate limit) t v st store st₁) : {Γ : Layout} → st.Sound .typed Γ →
      v.Fits Γ → st.Acyclic → t.isPath = true → t.height + st.depth ≤ limit →
        {pl : Place} → {ty : Ty} → {s₀ : State} → {c : Value} → {h : Heap} →
          (place (evaluate limit) t).run st = (.ok pl, s₀) → pl.type? = some ty →
            (convert ty v).run s₀.heap = (.ok c, h) →
              h ≤ st₁.heap ∧ (∀ a, store.address? = some a → st.Reaches a) ∧
                ∃ A, t.HasValue limit (store.apply st₁) A c := by
  have hev (e : Expr) (he : e.isAssignFree = true) := evaluate_adds limit he
  induction hchain with
  | last hl =>
    intro Γ hst hv hacyclic ht hdepth pl ty s₀ c h hplace hty hconv
    cases link_puts hst hv hacyclic ht hdepth hplace hty hconv hl with
    | last hle hreaches hvalue => exact ⟨hle, hreaches, _, hvalue⟩
  | @pass t v st t' r s₁ store st₁ hl ht' hchain ih =>
    intro Γ hst hv hacyclic ht hdepth pl ty s₀ c h hplace hty hconv
    have hpath := Expr.isPath_container ht' ht
    have hfree := Expr.isAssignFree_of_isPath t' hpath
    have hle : st ≤ s₁ := (link_adds hev t v (Expr.isAssignFree_of_isPath t ht)).le_of_run hl
    have hle₁ : s₁ ≤ st₁ := hchain.le hev hfree
    obtain ⟨Δ, -, hs₁, hfits⟩ := link_sound limit hv t st hst
    rw [hl] at hs₁ hfits
    have hdepth' : t'.height + s₁.depth ≤ limit := by
      have hlt := Expr.height_container ht'
      rw [hle.2.1]
      omega
    cases link_puts hst hv hacyclic ht hdepth hplace hty hconv hl with
    | @pass _ _ _ pl' ty' a hheap hplace' hty' hkept hfresh hlt hnext =>
      have hconv' : (convert ty' r).run s₁.heap = (.ok r, s₁.heap) := by
        rw [hkept]
        rfl
      obtain ⟨hheap₁, hreaches, A, hvalue⟩ :=
        ih hs₁ (hfits _ rfl) (hacyclic.of_le hst hle) hpath hdepth' hplace' hty' hconv'
      -- the storage of the replacement was made by this link: the chain ends in a store into what
      -- could be reached before, which is another storage
      have hback (b : Address) (hb : store.address? = some b) : st.Reaches b :=
        hst.reaches_of_le hle (hreaches b hb)
      have hne : store.address? ≠ some a := fun e =>
        Nat.lt_irrefl a (Nat.lt_of_lt_of_le (hst.reaches_lt (hback a e)) hfresh)
      have hsame : (store.apply st₁).heap.get? a = s₁.heap.get? a := by
        have hsize := Heap.size_le_of_le hle₁.2.2
        rw [Store.get?_apply_of_ne (Nat.lt_of_lt_of_le hlt hsize) hne,
          Heap.get?_eq_of_le hle₁.2.2 hlt]
      exact ⟨hheap.trans hheap₁, hback, hnext hsame hvalue⟩

/-- After an assignment to a path has succeeded, evaluating the path succeeds with the value that
was assigned, as the conversion to the declared type of its place made it: the same value, and all
that the conversion allocated is there unchanged. -/
theorem evaluate_after_assign (limit : Nat) (t : Expr) (v r c : Value) (st s₀ st' : State)
    (Γ : Layout) (pl : Place) (ty : Ty) (h : Heap) (ht : t.isPath = true)
    (hst : st.Sound .typed Γ) (hv : v.Fits Γ) (hacyclic : st.Acyclic)
    (hdepth : t.height + st.depth ≤ limit)
    (hplace : (place (evaluate limit) t).run st = (.ok pl, s₀)) (hty : pl.type? = some ty)
    (hconv : (convert ty v).run s₀.heap = (.ok c, h))
    (hassign : (assign (evaluate limit) t v).run st = (.ok r, st')) :
    (evaluate limit t).run st' = (.ok c, st') ∧
      ∀ a, st.heap.size ≤ a → a < h.size → st'.heap.get? a = h.get? a := by
  obtain ⟨store, st₁, hchain, -, rfl⟩ := exists_chain_of_assign hassign
  have hev (e : Expr) (he : e.isAssignFree = true) := evaluate_adds limit he
  have hle : st ≤ st₁ := hchain.le hev (Expr.isAssignFree_of_isPath t ht)
  obtain ⟨hheap, hreaches, A, hvalue⟩ :=
    hchain.puts hst hv hacyclic ht hdepth hplace hty hconv
  constructor
  · have hdepth' : (store.apply st₁).depth = st.depth := by
      rw [← hle.2.1]
      cases store <;> rfl
    have hroom : t.height ≤ limit - (store.apply st₁).depth := by omega
    exact hvalue _ hroom (store.apply st₁).heap (store.apply st₁).depth fun _ _ => rfl
  · intro a hfresh hlt
    have hne : store.address? ≠ some a := fun e =>
      Nat.lt_irrefl a (Nat.lt_of_lt_of_le (hst.reaches_lt (hreaches a e)) hfresh)
    have hsize := Heap.size_le_of_le hheap
    rw [Store.get?_apply_of_ne (Nat.lt_of_lt_of_le hlt hsize) hne, Heap.get?_eq_of_le hheap hlt]

/-- `tenant.limits["cpu"][0]`. -/
def firstCpuLimit : Expr :=
  .item (.item (.member (.ident "tenant" .dummy) "limits" .dummy)
    (.literal (.str "cpu") .dummy) .dummy) (.literal (.int 0) .dummy) .dummy

/-- Nothing in the state refers to a storage. -/
theorem tenantState_acyclic : Command.tenantState.Acyclic := by
  have hleads (a b : Address) : ¬ Command.tenantState.heap.Leads a b := by
    rintro ⟨s, hget, v, hv, href⟩
    match a with
    | 0 =>
      cases hget
      rcases List.mem_cons.1 hv with rfl | hv
      · cases href
      · obtain rfl := List.mem_singleton.1 hv
        cases href
    | 1 =>
      cases hget
      obtain rfl := List.mem_singleton.1 hv
      cases href
    | a + 2 =>
      exact absurd (Heap.lt_size_of_get? hget) (Nat.not_lt_of_le (Nat.le_add_left 2 a))
  intro a _ hcycle
  obtain ⟨b, hab, -⟩ := TransGen.head'_iff.1 hcycle
  exact hleads a b hab

/-- The limit is appended to an array made for the missing entry of a nil map, so that first the map
and then the field of the tenant are replaced. -/
theorem evaluate_after_assign_firstCpuLimit :
    let st' := ((assign (evaluate 8) firstCpuLimit (.int 7)).run Command.tenantState).2
    (evaluate 8 firstCpuLimit).run st' = (.ok (.float (.ofInt 7)), st') := by
  intro st'
  have hplace : (place (evaluate 8) firstCpuLimit).run Command.tenantState =
      (.ok (.item (.array ⟨.float, false, false, 2⟩) (.int 0)),
        { Command.tenantState with heap := Command.tenantState.heap.push (.items []) }) :=
    Prod.ext (by decide +kernel) (by decide +kernel)
  have hassign : ((assign (evaluate 8) firstCpuLimit (.int 7)).run Command.tenantState).1 =
      .ok (.map ⟨.str, .array .float, some 4⟩) := by decide +kernel
  exact (evaluate_after_assign 8 firstCpuLimit (.int 7) _ _ _ _ _ _ _ _ _ (by decide)
    Command.tenantState_sound trivial tenantState_acyclic (by decide) hplace rfl rfl
    (Prod.ext hassign rfl)).1

end TenantScript
