import TenantScript.Proofs.Holding
import TenantScript.Value.Read

/-!
All that is done with values goes in steps of a holding. Under any discipline, each making of
storages, each conversion and each read, also one that fails, leads from a holding of the heap to
one that comes after it, which has the result.
-/

open TenantScript.Action

namespace TenantScript

variable {D : Discipline} {w : Holding D}

/-- Whether a heap is the one that is held. -/
def Holding.Of (w : Holding D) (h : Heap) : Prop := w.heap = h

/-! ### Making values -/

theorem Heap.allocate_steps {d : Decl} {s : Storage} {v : Value} (h : w.Makes d s v) :
    Maintains Holding.Of w (Heap.allocate s) fun w' a => a = w.heap.size ∧ w'.Has v := by
  rintro _ rfl
  refine ⟨.make h, Holding.le_of_step (.make h), rfl, fun a e => ?_⟩
  cases e
  exact ⟨rfl, h.has_made⟩

theorem ArrayRef.make_steps {elem : Ty} {vs : List Value} (h : ∀ v ∈ vs, w.Supplies elem v) :
    Maintains Holding.Of w (make elem vs) fun w' a => w'.Has (.array a) ∧ a.elem = elem := by
  refine .bind (Heap.allocate_steps (.array elem false h)) fun _ _ a ha => .pure ?_
  obtain ⟨rfl, hhas⟩ := ha
  exact ⟨hhas, rfl⟩

theorem MapRef.make_steps {key value : Ty} {m : SortedMap MapKey Value}
    (h : ∀ e ∈ m.entries, D.Admits key e.1.toValue ∧ w.Supplies value e.2) :
    Maintains Holding.Of w (make key value m) fun w' r =>
      w'.Has (.map r) ∧ r.key = key ∧ r.value = value := by
  refine .bind (Heap.allocate_steps (.map key value h)) fun _ _ a ha => .pure ?_
  obtain ⟨rfl, hhas⟩ := ha
  exact ⟨hhas, rfl, rfl⟩

theorem Value.zero_steps (ty : Ty) :
    Maintains Holding.Of w (zero ty) fun w' v => w'.Supplies ty v := by
  refine (D.zero ty).and ?_
  cases ty with
  | array elem =>
    exact .bind (ArrayRef.make_steps fun v hv => nomatch hv) fun _ _ a ha => .pure ha.1
  | _ => exact .pure (Holding.has_of_ref? rfl)

/-! ### What is held of a storage -/

/-- Reading the heap while all is taken that is offered. -/
theorem Holding.get_steps {α : Type} {f : Heap → α} {Q : Holding D → α → Prop}
    (h : Q w.look (f w.heap)) : Maintains Holding.Of w (.get f) Q := by
  rintro _ rfl
  refine ⟨w.look, le_of_step (.look w), rfl, fun a e => ?_⟩
  cases e
  exact h

theorem Holding.Has.items {a : ArrayRef} (ha : w.Has (.array a)) :
    ∀ v ∈ w.heap.items a, w.look.Supplies a.elem v := by
  obtain ⟨n, hn⟩ := ha.fits
  obtain ⟨hget, -, hsuits⟩ := w.sound.items hn
  exact fun v hv => ⟨(Offers.stored ha rfl hget hv).has, (hsuits v hv).2⟩

theorem Holding.Has.entries {m : MapRef} (hm : w.Has (.map m)) :
    ∀ e ∈ (w.heap.entries m).entries,
      D.Admits m.key e.1.toValue ∧ w.look.Supplies m.value e.2 := by
  intro e he
  obtain ⟨hkey, -, hvalue⟩ := w.sound.entries hm.fits e he
  refine ⟨hkey, ?_, hvalue⟩
  unfold Heap.entries at he
  cases ha : m.address? with
  | none =>
    rw [ha] at he
    cases he
  | some a =>
    obtain ⟨s, hget, hfits⟩ := w.sound.exists_storage (hm.fits a ha)
    rw [ha] at he
    cases s with
    | entries es =>
      have hes : w.heap.entriesAt a = es := by simp [Heap.entriesAt, hget]
      exact (Offers.stored hm ha hget (List.mem_map.2 ⟨e, hes ▸ he, rfl⟩)).has
    | _ => exact hfits.elim

theorem Holding.Has.field {s : StructRef} (hs : w.Has (.struct s)) {name : Name} {v : Value}
    (hv : w.heap.field? s name = some v) : w.look.Has v := by
  obtain ⟨t, hget, hfits⟩ := w.sound.exists_storage hs.fits
  cases t with
  | fields vs =>
    have hvs : w.heap.fields s = vs := by simp [Heap.fields, Heap.fieldsAt, hget]
    obtain ⟨r, -, hr⟩ := Option.bind_eq_some_iff.1 hv
    exact (Offers.stored hs rfl hget (hvs ▸ List.mem_of_getElem? hr)).has
  | _ => exact hfits.elim

theorem Holding.Has.load {p : PointerRef} (hp : w.Has (.pointer p)) {v : Value}
    (hv : w.heap.load? p = some v) : w.look.Has v := by
  obtain ⟨a, ha, hcell⟩ := Option.bind_eq_some_iff.1 hv
  obtain ⟨t, hget, hfits⟩ := w.sound.exists_storage (hp.fits a ha)
  cases t with
  | cell u =>
    simp only [Heap.cellAt?, hget, Option.some.injEq] at hcell
    exact (Offers.stored hp ha hget (List.mem_singleton.2 hcell.symm)).has
  | _ => exact hfits.elim

theorem ArrayRef.items_steps {a : ArrayRef} (ha : w.Has (.array a)) :
    Maintains Holding.Of w (.get (·.items a)) fun w' vs =>
      vs = w'.heap.items a ∧ ∀ v ∈ vs, w'.Supplies a.elem v :=
  Holding.get_steps ⟨rfl, ha.items⟩

theorem MapRef.entries_steps {m : MapRef} (hm : w.Has (.map m)) :
    Maintains Holding.Of w (.get (·.entries m)) fun w' entries =>
      ∀ e ∈ entries.entries, D.Admits m.key e.1.toValue ∧ w'.Supplies m.value e.2 :=
  Holding.get_steps hm.entries

/-! ### Conversion -/

theorem keyVia_steps {conv : Value → Action Heap Value} {key : Ty} {v : Value}
    (h : Maintains Holding.Of w (conv v) fun w' u => w'.Supplies key u) :
    Maintains Holding.Of w (keyVia conv key v) fun _ k => D.Admits key k.toValue := by
  unfold keyVia
  by_cases hkey : key.isHashable = true
  · simp only [hkey, Bool.not_true, Bool.false_eq_true, if_false]
    exact .bind h fun _ _ u hu => .require fun k hk => D.key hkey hu.2 hk
  · rw [if_pos (by simpa using hkey)]
    exact .fail _

theorem convert_scalar_steps {ty : Ty} (hty : ty.isScalar = true) (v : Value) :
    Maintains Holding.Of w (convert ty v) fun w' u => w'.Supplies ty u := by
  refine (D.convert ty v).and ?_
  rcases convert_scalar hty v with ⟨u, rfl, hu⟩ | hmismatched
  · rw [hu]
    exact .pure (Holding.has_of_ref? (Value.ref?_of_isScalar hty))
  · rw [hmismatched]
    exact .fail _

theorem convert_steps : (ty : Ty) → {v : Value} → {w : Holding D} → w.Has v →
    Maintains Holding.Of w (convert ty v) fun w' u => w'.Supplies ty u
  | .any, v, w, h => (D.convert .any v).and (.pure h)
  | .bool, v, w, _ | .int, v, w, _ | .float, v, w, _ | .str, v, w, _ => convert_scalar_steps rfl v
  | .array elem, v, w, h => by
    refine (D.convert (.array elem) v).and ?_
    have hb := h.bare
    unfold convert
    cases hv : v.bare with
    | nil =>
      exact .bind (ArrayRef.make_steps fun u hu => absurd hu List.not_mem_nil)
        fun _ _ a ha => .pure ha.1
    | array a =>
      rw [hv] at hb
      simp only
      by_cases he : a.elem = elem
      · rw [if_pos he]
        exact .pure hb
      · rw [if_neg he]
        refine .bind (ArrayRef.items_steps hb) fun w₁ _ items hitems => ?_
        refine .bind (.mapM_all (Q := fun w' u => w'.Supplies elem u)
          (fun u w₁ w₂ hle hu => hu.mono hle) fun u hu w' hle' =>
            convert_steps elem ((hitems.2 u hu).1.mono hle')) fun w₂ _ us hus => ?_
        exact .bind (ArrayRef.make_steps hus.2) fun _ _ r hr => .pure hr.1
    | _ => exact .fail _
  | .map key value, v, w, h => by
    refine (D.convert (.map key value) v).and ?_
    have hb := h.bare
    unfold convert
    cases hv : v.bare with
    | nil => exact .pure (Holding.has_of_ref? rfl)
    | map m =>
      rw [hv] at hb
      simp only
      by_cases he : m.key = key ∧ m.value = value
      · rw [if_pos he]
        exact .pure hb
      · rw [if_neg he]
        by_cases hnil : m.isNil = true
        · rw [if_pos hnil]
          exact .pure (Holding.has_of_ref? rfl)
        · rw [if_neg hnil]
          refine .bind (MapRef.entries_steps hb) fun w₁ _ entries hentries => ?_
          refine .bind (.mapM_all (Q := fun w' (r : MapKey × Value) =>
            D.Admits key r.1.toValue ∧ w'.Supplies value r.2)
            (fun r w₁ w₂ hle hr => ⟨hr.1, hr.2.mono hle⟩) fun e he w' hle' => ?_)
            fun w₂ _ rs hrs => ?_
          · refine .bind (keyVia_steps (convert_steps key (Holding.has_key e.1)))
              fun w₃ hle₃ k hk => ?_
            refine .bind (convert_steps value (((hentries e he).2.1.mono hle').mono hle₃))
              fun w₄ _ u hu => ?_
            exact .pure ⟨hk, hu⟩
          · exact .bind (MapRef.make_steps fun e he => hrs.2 e (SortedMap.mem_ofList he))
              fun _ _ r hr => .pure hr.1
    | _ => exact .fail _
  | .struct name, v, w, h => by
    refine (D.convert (.struct name) v).and ?_
    have hb := h.bare
    unfold convert
    cases hv : v.bare with
    | nil => exact .pure Holding.has_nil
    | struct s =>
      rw [hv] at hb
      simp only
      split
      · exact .pure hb
      · exact .fail _
    | _ => exact .fail _
  | .pointer elem, v, w, h => by
    refine (D.convert (.pointer elem) v).and ?_
    have hb := h.bare
    unfold convert
    cases hv : v.bare with
    | nil => exact .pure (Holding.has_of_ref? rfl)
    | pointer p =>
      rw [hv] at hb
      simp only
      split
      · exact .pure hb
      · exact .fail _
    | _ => exact .fail _

theorem convertKey_steps (key : Ty) {v : Value} (h : w.Has v) :
    Maintains Holding.Of w (convertKey key v) fun _ k => D.Admits key k.toValue :=
  keyVia_steps (convert_steps key h)

/-! ### Structs -/

theorem StructRef.makeZero_steps (d : StructDef) :
    Maintains Holding.Of w (makeZero d) fun w' s => w'.Has (.struct s) := by
  refine .bind (Maintains.mapM (fun f w' v => w'.Supplies (FieldDef.ty f) v)
    (fun _ _ _ _ hle hv => hv.mono hle) d.fields fun f _ w' _ => Value.zero_steps f.ty)
    fun w₁ _ vs hvs => ?_
  refine .bind (Heap.allocate_steps (.struct d hvs)) fun _ _ a ha => .pure ?_
  obtain ⟨rfl, hhas⟩ := ha
  exact hhas

theorem StructRef.make_steps (d : StructDef) {vs : List Value} (h : ∀ v ∈ vs, w.Has v) :
    Maintains Holding.Of w (make d vs) fun w' s => w'.Has (.struct s) := by
  unfold make
  by_cases hlen : vs.length ≠ d.fields.length
  · rw [if_pos hlen]
    exact .fail _
  · rw [if_neg hlen]
    refine .bind (Maintains.mapM (fun p w' v => w'.Supplies (FieldDef.ty p.1) v)
      (fun _ _ _ _ hle hv => hv.mono hle) (d.fields.zip vs) fun p hp w' hle =>
        convert_steps p.1.ty ((h p.2 (List.of_mem_zip hp).2).mono hle)) fun w₁ _ us hus => ?_
    have hfst : (d.fields.zip vs).map Prod.fst = d.fields :=
      List.map_fst_zip (Nat.le_of_eq (not_ne_iff.1 hlen).symm)
    have hfields : List.Forall₂ (fun f v => w₁.Supplies (FieldDef.ty f) v) d.fields us := by
      rw [← hfst, List.forall₂_map_left_iff]
      exact hus
    refine .bind (Heap.allocate_steps (.struct d hfields)) fun _ _ a ha => .pure ?_
    obtain ⟨rfl, hhas⟩ := ha
    exact hhas

/-! ### Reads -/

theorem MapRef.read_steps {m : MapRef} (hm : w.Has (.map m)) {key : Value} (hkey : w.Has key) :
    Maintains Holding.Of w (m.read key) fun w' v => w'.Supplies m.value v := by
  refine .bind (convertKey_steps m.key hkey) fun w₁ hle k _ => ?_
  refine .bind (MapRef.entries_steps (hm.mono hle)) fun w₂ _ entries hentries => ?_
  cases hk : entries.get? k with
  | some v => exact .pure (hentries _ (SortedMap.get?_eq_some_iff.1 hk)).2
  | none => exact Value.zero_steps m.value

theorem PointerRef.load_steps {p : PointerRef} (hp : w.Has (.pointer p)) (onNil : Cause) :
    Maintains Holding.Of w (p.load onNil) fun w' v => w'.Has v :=
  .bind (P := fun w' v? => ∀ v, v? = some v → w'.Has v)
    (Holding.get_steps fun _ hv => hp.load hv) fun _ _ _ hv => .require hv

theorem memberSource_steps {object : Value} (h : w.Has object) :
    Maintains Holding.Of w (memberSource object) fun w' v => w'.Has v := by
  have hu := h.unwrap
  unfold memberSource
  split
  · next p hp => exact PointerRef.load_steps (hp ▸ hu) _
  · exact .pure hu

theorem memberOf_steps {container : Value} (h : w.Has container) (field : Name) :
    Maintains Holding.Of w (memberOf container field) fun w' v => w'.Has v := by
  unfold memberOf
  split
  · exact .bind (P := fun w' v? => ∀ v, v? = some v → w'.Has v)
      (Holding.get_steps fun _ hv => h.field hv) fun _ _ _ hv => .require hv
  · exact (MapRef.read_steps h (Holding.has_key (.str field))).imp fun _ _ _ hv => hv.1
  · exact .fail _
  · exact .fail _

theorem readMember_steps {object : Value} (h : w.Has object) (field : Name) :
    Maintains Holding.Of w (readMember object field) fun w' v => w'.Has v :=
  .bind (memberSource_steps h) fun _ _ _ hv => memberOf_steps hv field

theorem mem_of_elementAt {α : Type} {items : List α} {index : Int} {a : α}
    (h : elementAt items index = .ok a) : a ∈ items := by
  unfold elementAt at h
  split at h
  · next b hb =>
    cases h
    obtain ⟨i, -, hi⟩ := Option.bind_eq_some_iff.1 hb
    exact List.mem_of_getElem? hi
  · cases h

theorem readItem_steps {collection index : Value} (hc : w.Has collection) (hi : w.Has index) :
    Maintains Holding.Of w (readItem collection index) fun w' v => w'.Has v := by
  have hu := hc.unwrap
  unfold readItem
  split
  · next a ha =>
    rw [ha] at hu
    refine .bind (P := fun _ _ => True) (.ofExcept fun _ _ => trivial) fun w₁ hle i _ => ?_
    refine .bind (ArrayRef.items_steps (hu.mono hle)) fun w₂ _ items hitems => ?_
    exact .ofExcept fun v hv => (hitems.2 v (mem_of_elementAt hv)).1
  · next m hm =>
    rw [hm] at hu
    exact (MapRef.read_steps hu hi).imp fun _ _ _ hv => hv.1
  · refine .bind (P := fun _ _ => True) (.ofExcept fun _ _ => trivial) fun w₁ _ i _ => ?_
    exact .bind (P := fun _ _ => True) (.ofExcept fun _ _ => trivial) fun w₂ _ c _ =>
      .pure (Holding.has_of_ref? rfl)
  · exact .fail _

theorem mem_of_elementsIn {α : Type} {items part : List α} {start stop : Option Int}
    (h : elementsIn items start stop = .ok part) {a : α} (ha : a ∈ part) : a ∈ items := by
  unfold elementsIn at h
  cases hr : checkedRange (start.getD 0) (stop.getD items.length) items.length with
  | error cause => rw [hr] at h; cases h
  | ok r =>
    rw [hr] at h
    cases h
    exact List.mem_of_mem_drop (List.mem_of_mem_take ha)

theorem readSlice_steps {collection : Value} (h : w.Has collection) (start stop : Option Int) :
    Maintains Holding.Of w (readSlice collection start stop) fun w' v => w'.Has v := by
  have hu := h.unwrap
  unfold readSlice
  split
  · next a ha =>
    rw [ha] at hu
    refine .bind (ArrayRef.items_steps hu) fun w₁ _ items hitems => ?_
    refine .bind (P := fun w' part => ∀ v ∈ part, w'.Supplies a.elem v)
      (.ofExcept fun part hpart v hv => hitems.2 v (mem_of_elementsIn hpart hv))
      fun w₂ _ part hpart => ?_
    exact .bind (ArrayRef.make_steps hpart) fun _ _ r hr => .pure hr.1
  · exact .bind (P := fun _ _ => True) (.ofExcept fun _ _ => trivial) fun _ _ _ _ =>
      .pure (Holding.has_of_ref? rfl)
  · exact .fail _

theorem readPointee_steps {pointer : Value} (h : w.Has pointer) :
    Maintains Holding.Of w (readPointee pointer) fun w' v => w'.Has v := by
  have hu := h.unwrap
  unfold readPointee
  split
  · next p hp => exact PointerRef.load_steps (hp ▸ hu) _
  · exact .fail _

theorem readEach_steps {iterable : Value} (h : w.Has iterable) :
    Maintains Holding.Of w (readEach iterable) fun w' vs => ∀ v ∈ vs, w'.Has v := by
  have hu := h.unwrap
  unfold readEach
  split
  · next a ha =>
    rw [ha] at hu
    exact (ArrayRef.items_steps hu).imp fun _ _ vs hvs v hv => (hvs.2 v hv).1
  · refine .get fun heap _ v hv => ?_
    obtain ⟨k, -, rfl⟩ := List.mem_map.1 hv
    exact Holding.has_key k
  · refine .pure fun v hv => ?_
    obtain ⟨c, -, rfl⟩ := List.mem_map.1 hv
    exact Holding.has_of_ref? rfl
  · exact .pure fun v hv => nomatch hv
  · exact .fail _

end TenantScript
