import TenantScript.Proofs.Footprint

/-!
What the stores into containers change. Main statement: a store that fails changes no storage; one
that is done in place overwrites the slot or the range that it addresses in the storage of its
receiver, where every reference to that storage shows it, and nothing else; one that replaces its
receiver changes no storage, and the replacement has a storage of its own. Nothing is asked of the
values that are given, which may refer to the receiver or hold it.
-/

open TenantScript.Action

namespace TenantScript

variable {D : Discipline} {Γ : Layout} {h h' : Heap}

/-! ### What references show -/

/-- Whether a storage is of the kind that a reference is to; that of a struct has all its
fields. -/
def Value.Describes : Value → Storage → Prop
  | array _, .items _ => True
  | map _, .entries _ => True
  | struct s, .fields vs => vs.length = s.defn.fields.length
  | pointer _, .cell _ => True
  | interface v, s => v.Describes s
  | _, _ => False

/-- Whether a value that refers to a storage refers to one of its kind in the heap. -/
def Value.StoredIn (h : Heap) (v : Value) : Prop :=
  ∀ a, v.ref? = some a → ∃ s, h.get? a = some s ∧ v.Describes s

/-- What a reference shows at a position of its storage. -/
def Heap.shown? (h : Heap) : Value → Position → Option Value
  | .array a, .item i => (h.items a)[i]?
  | .map m, .entry k => (h.entries m).get? k
  | .struct s, .field i => (h.fields s)[i]?
  | .pointer p, .cell => h.load? p
  | .interface v, p => h.shown? v p
  | _, _ => none

namespace Value

/-- In a sound heap all references that the layout knows lead to storages of their kind. -/
theorem Fits.storedIn (hs : h.Sound D Γ) : {v : Value} → v.Fits Γ → v.StoredIn h
  | array a, ⟨_, hn⟩, _, e => by
    cases e
    obtain ⟨s, hget, hfits⟩ := hs.exists_storage hn
    cases s with
    | items vs => exact ⟨_, hget, trivial⟩
    | _ => exact hfits.elim
  | map m, hm, a, e => by
    obtain ⟨s, hget, hfits⟩ := hs.exists_storage (hm a e)
    cases s with
    | entries es => exact ⟨_, hget, trivial⟩
    | _ => exact hfits.elim
  | struct s, hf, _, e => by
    cases e
    obtain ⟨t, hget, hfits⟩ := hs.exists_storage hf
    cases t with
    | fields vs => exact ⟨_, hget, hfits.length_eq.symm⟩
    | _ => exact hfits.elim
  | pointer p, hp, a, e => by
    obtain ⟨s, hget, hfits⟩ := hs.exists_storage (hp a e)
    cases s with
    | cell v => exact ⟨_, hget, trivial⟩
    | _ => exact hfits.elim
  | interface v, hv, a, e => storedIn (v := v) hs hv a e

theorem StoredIn.lt_size {v : Value} (hv : v.StoredIn h) {a : Address} (ha : v.ref? = some a) :
    a < h.size := by
  obtain ⟨s, hget, -⟩ := hv a ha
  exact Heap.lt_size_of_get? hget

/-- A storage stays of its kind when a value is stored in it. -/
theorem Describes.set {s : Storage} (p : Position) (w : Value) : {v : Value} → v.Describes s →
    v.Describes (s.set p w)
  | array _, hv | map _, hv | pointer _, hv => by
    cases s <;> cases p <;> exact hv
  | struct _, hv => by
    cases s with
    | fields vs =>
      cases p with
      | field i => exact (List.length_set ..).trans hv
      | _ => exact hv
    | _ => exact hv.elim
  | interface v, hv => set (v := v) p w hv

/-- A reference shows what is in the storage. -/
theorem Describes.shown? {a : Address} {s : Storage} (hget : h.get? a = some s) (p : Position) :
    {v : Value} → v.ref? = some a → v.Describes s → h.shown? v p = s.value? p
  | array r, e, hv => by
    cases e
    cases s with
    | items vs =>
      cases p with
      | item i => exact congrArg (·[i]?) (Heap.items_of_get? hget)
      | _ => rfl
    | _ => exact hv.elim
  | map m, e, hv => by
    cases s with
    | entries es =>
      cases p with
      | entry k =>
        show (h.entries m).get? k = es.get? k
        have hm : m.address? = some a := e
        simp only [Heap.entries, hm, Heap.entriesAt, hget]
      | _ => rfl
    | _ => exact hv.elim
  | struct r, e, hv => by
    cases e
    cases s with
    | fields vs =>
      cases p with
      | field i =>
        show (h.fields r)[i]? = vs[i]?
        simp only [Heap.fields, Heap.fieldsAt, hget]
      | _ => rfl
    | _ => exact hv.elim
  | pointer r, e, hv => by
    cases s with
    | cell v =>
      cases p with
      | cell =>
        show h.load? r = some v
        have hr : r.address? = some a := e
        simp only [Heap.load?, hr, Option.bind_some, Heap.cellAt?, hget]
      | _ => rfl
    | _ => exact hv.elim
  | interface v, e, hv => shown? (v := v) hget p e hv

end Value

/-- Whether the storage that a value refers to, if it does, is in the second heap alone. -/
def Value.NewIn (h h' : Heap) (c : Value) : Prop :=
  c.StoredIn h' ∧ ∀ a, c.ref? = some a → h.size ≤ a

theorem Value.NewIn.of_ref? {c : Value} (hc : c.ref? = none) : c.NewIn h h' :=
  ⟨fun _ ha => (nomatch hc.symm.trans ha), fun _ ha => (nomatch hc.symm.trans ha)⟩

/-- What is made in a heap that extends another one is new. -/
theorem Value.NewIn.push {c : Value} {s : Storage} (href : c.ref? = some h'.size)
    (hs : c.Describes s) (hle : h ≤ h') : c.NewIn h (h'.push s) := by
  refine ⟨fun a ha => ?_, fun a ha => ?_⟩
  · cases href.symm.trans ha
    exact ⟨s, Heap.get?_push_self h' s, hs⟩
  · cases href.symm.trans ha
    exact Heap.size_le_of_le hle

/-! ### Stores into containers -/

/-- A store into a container, with what it is given. -/
inductive Edit where
  | setField (s : StructRef) (name : Name) (v : Value)
  | insert (m : MapRef) (key v : Value)
  | setIndex (a : ArrayRef) (index : Int) (v : Value)
  | setRange (a : ArrayRef) (start stop : Int) (v : Value)
  | store (p : PointerRef) (v : Value)
  | setCharacter (text : String) (index : Int) (v : Value)
  deriving DecidableEq

namespace Edit

/-- The container that is stored into. -/
def receiver : Edit → Value
  | setField s _ _ => .struct s
  | insert m _ _ => .map m
  | setIndex a _ _ | setRange a _ _ _ => .array a
  | store p _ => .pointer p
  | setCharacter text _ _ => .str text

/-- Carries out the store. -/
def run : Edit → Action Heap Mutation
  | setField s name v => s.setField name v
  | insert m key v => m.insert key v
  | setIndex a index v => a.setIndex index v
  | setRange a start stop v => a.setRange start stop v
  | store p v => p.store v
  | setCharacter text index v => TenantScript.setCharacter text index v

/-- Whether a store puts a value into a slot: the value given, converted to the declared type, into
the field that the name stands for, under the key or at the index, and as it is behind a pointer. -/
inductive Puts (h : Heap) : Edit → Slot → Value → Prop
  | field {s : StructRef} {name : Name} {v w : Value} {i : Nat} {f : FieldDef} {h₁ : Heap}
      (hfield : s.defn.field? name = some (i, f)) (hw : (convert f.ty v).run h = (.ok w, h₁)) :
      Puts h (setField s name v) ⟨s.address, .field i⟩ w
  | entry {m : MapRef} {key v w : Value} {a : Address} {k : MapKey} {h₁ : Heap}
      (ha : m.address? = some a) (hkey : ∀ g, (convertKey m.key key).run g = (.ok k, g))
      (hw : (convert m.value v).run h = (.ok w, h₁)) : Puts h (insert m key v) ⟨a, .entry k⟩ w
  | item {a : ArrayRef} {index : Int} {v w : Value} {i : Nat} {h₁ : Heap}
      (hindex : position? index = some i) (hlt : i < (h.items a).length)
      (hw : (convert a.elem v).run h = (.ok w, h₁)) :
      Puts h (setIndex a index v) ⟨a.address, .item i⟩ w
  | cell {p : PointerRef} {v : Value} {a : Address} (ha : p.address? = some a) :
      Puts h (store p v) ⟨a, .cell⟩ v

/-- Whether a store done in place with the result `w` has led from one heap to another: what it
addresses has been overwritten, all references to the storage show it, and the other storages are
as they were. -/
inductive Overwrites (h h' : Heap) : Edit → Value → Prop
  | slot {e : Edit} {slot : Slot} {s : Storage} {w : Value} (hputs : e.Puts h slot w)
      (hget : h.get? slot.address = some s)
      (hset : h'.get? slot.address = some (s.set slot.position w))
      (hshown : ∀ u : Value, u.StoredIn h → u.ref? = some slot.address → ∀ p,
        h'.shown? u p = if p = slot.position then some w else h.shown? u p)
      (hframe : ∀ a < h.size, a ≠ slot.address → h'.get? a = h.get? a) : Overwrites h h' e w
  /-- The elements of the result are those that are now in the range, converted from the elements
  given. -/
  | range {a source fresh : ArrayRef} {start : Nat} {values : List Value} {v : Value} {h₁ : Heap}
      (hsource : v.unwrap = .array source)
      (hconverted : ((h.items source).mapM (convert a.elem)).run h = (.ok values, h₁))
      (hle : start + values.length ≤ (h.items a).length)
      (hvalues : h'.get? fresh.address = some (.items values))
      (hfresh : h.size ≤ fresh.address)
      (hset : h'.get? a.address = some (.items (overwrite (h.items a) start values)))
      (hshown : ∀ b : ArrayRef, b.address = a.address → ∀ i, h'.shown? (.array b) (.item i) =
        if start ≤ i ∧ i < start + values.length then values[i - start]?
        else h.shown? (.array b) (.item i))
      (hframe : ∀ b < h.size, b ≠ a.address → h'.get? b = h.get? b) :
      Overwrites h h' (setRange a start (start + values.length : Nat) v) (.array fresh)

/-- What a store changes, by its outcome. -/
def Contract (e : Edit) (h h' : Heap) : Except EvalError Mutation → Prop
  | .error _ => h ≤ h'
  | .ok (.inPlace w) => e.Overwrites h h' w
  | .ok (.replaced c) =>
    h ≤ h' ∧ c.NewIn h h' ∧ ∀ a, c.ref? = some a → e.receiver.ref? ≠ some a

variable {e : Edit} {slot : Slot} {w : Value}

theorem Puts.ref? (hputs : e.Puts h slot w) :
    e.receiver.ref? = some slot.address := by
  cases hputs with
  | field => rfl
  | entry ha => exact ha
  | item => rfl
  | cell ha => exact ha

/-- The storage of the receiver has room for what is put there. -/
theorem Puts.hasRoom (hputs : e.Puts h slot w) {s : Storage}
    (hget : h.get? slot.address = some s) (hs : e.receiver.Describes s) :
    s.HasRoom slot.position := by
  cases hputs with
  | field hfield =>
    cases s with
    | fields vs =>
      have hi := FieldDef.getElem?_of_find? hfield
      show _ < vs.length
      rw [show vs.length = _ from hs]
      exact (List.getElem?_eq_some_iff.1 hi).1
    | _ => exact hs.elim
  | entry =>
    cases s with
    | entries es => trivial
    | _ => exact hs.elim
  | item _ hlt =>
    cases s with
    | items vs =>
      show _ < vs.length
      rwa [Heap.items_of_get? hget] at hlt
    | _ => exact hs.elim
  | cell =>
    cases s with
    | cell v => trivial
    | _ => exact hs.elim

/-- A value put where it goes, after storages have been made. -/
theorem Puts.overwrites {h₁ : Heap} (hputs : e.Puts h slot w) (hstored : e.receiver.StoredIn h)
    (hle : h ≤ h₁) : e.Overwrites h (h₁.store slot w) w := by
  obtain ⟨s, hget, hs⟩ := hstored _ hputs.ref?
  have hroom := hputs.hasRoom hget hs
  have hset := Heap.get?_store_self (v := w) (hle _ _ hget) hroom
  refine .slot hputs hget hset (fun u hu href p => ?_) fun a ha hne => ?_
  · obtain ⟨t, ht, hdescribes⟩ := hu _ href
    cases ht.symm.trans hget
    rw [(hdescribes.set slot.position w).shown? hset p href, hdescribes.shown? hget p href]
    by_cases hp : p = slot.position
    · rw [if_pos hp, hp]
      exact Storage.value?_set_self w hroom
    · rw [if_neg hp]
      exact s.value?_set_ne w hp
  · rw [Heap.get?_store_ne h₁ slot w hne]
    exact Heap.get?_eq_of_le hle ha

/-- Whether a plan is to put what the store puts, or has made a new storage for the replacement. -/
def Plans (e : Edit) (h h' : Heap) : Plan → Prop
  | .write slot w => e.Puts h slot w
  | .replace c => c.NewIn h h'

/-- A store that is a plan, carried out. -/
theorem contract_of_plan {x : Action Heap Plan} (he : e.run = x >>= Plan.commit) (hx : x.Adds)
    (hstored : e.receiver.StoredIn h)
    (hplans : ∀ plan h₁, x.run h = (.ok plan, h₁) → e.Plans h h₁ plan) :
    e.Contract h (e.run.run h).2 (e.run.run h).1 := by
  rcases hrun : x.run h with ⟨err | plan, h₁⟩
  · rw [he, run_bind_error _ hrun]
    exact hx.le_of_run hrun
  · rw [he, run_bind_ok _ hrun]
    have hplan := hplans plan h₁ hrun
    cases plan with
    | write slot w => exact hplan.overwrites hstored (hx.le_of_run hrun)
    | replace c =>
      refine ⟨hx.le_of_run hrun, hplan, fun a ha hreceiver => ?_⟩
      exact Nat.not_lt.2 (hplan.2 a ha) (hstored.lt_size hreceiver)

/-- Values written over a range, after they have been converted. -/
theorem overwrites_range {a source : ArrayRef} {v : Value} {vs values : List Value} {start : Nat}
    {h₁ : Heap} (hsource : v.unwrap = .array source)
    (hconverted : ((h.items source).mapM (convert a.elem)).run h = (.ok values, h₁))
    (hget : h.get? a.address = some (.items vs)) (hhigh : start + values.length ≤ vs.length) :
    (setRange a start (start + values.length : Nat) v).Overwrites h
      ((h₁.write a.address (.items (overwrite vs start values))).push (.items values))
      (.array ⟨a.elem, false, false, h₁.size⟩) := by
  have hle := (Adds.mapM fun w _ => convert_adds a.elem w).le_of_run hconverted
  have hitems := Heap.items_of_get? hget
  have hset := Heap.get?_push_write_self (.items (overwrite vs start values)) (.items values)
    (Heap.lt_size_of_get? (hle _ _ hget))
  refine .range hsource hconverted (hitems ▸ hhigh) (Heap.get?_push_write_size _ _ _ _)
    (Heap.size_le_of_le hle) (hitems ▸ hset) (fun b hb i => ?_) fun b hb hne => ?_
  · have items_eq {g : Heap} {ws : List Value} (hg : g.get? a.address = some (.items ws)) :
        g.items b = ws := Heap.items_of_get? (hb ▸ hg)
    show (Heap.items _ b)[i]? = if _ then _ else (Heap.items _ b)[i]?
    rw [items_eq hset, items_eq hget, getElem?_overwrite hhigh]
    split_ifs <;> first | rfl | omega
  · rw [Heap.get?_push_write_ne _ _ (Nat.lt_of_lt_of_le hb (Heap.size_le_of_le hle)) hne]
    exact Heap.get?_eq_of_le hle hb

theorem setRange_contract (a : ArrayRef) (start stop : Int) (v : Value)
    (hstored : (Value.array a).StoredIn h) :
    (setRange a start stop v).Contract h ((a.setRange start stop v).run h).2
      ((a.setRange start stop v).run h).1 := by
  rw [ArrayRef.setRange_eq]
  rcases hrun : (a.planRange start stop v).run h with ⟨err | ⟨low, values⟩, h₁⟩
  · rw [run_bind_error _ hrun]
    exact (a.planRange_adds start stop v).le_of_run hrun
  · have hle := (a.planRange_adds start stop v).le_of_run hrun
    obtain ⟨high, source, hrange, hsource, hlen, hconverted⟩ := source_of_planRange hrun
    obtain ⟨rfl, rfl, hlow, hhigh⟩ := checkedRange_eq_ok_iff.1 hrange
    simp only at hlow hhigh
    have hlength := mapM_length _ _ h values (congrArg Prod.fst hconverted)
    obtain rfl : high = low + values.length := by omega
    obtain ⟨s, hget, hs⟩ := hstored a.address rfl
    cases s with
    | items vs =>
      rw [run_bind_ok _ hrun, ArrayRef.run_commitRange, Heap.items_of_le hle hget]
      exact overwrites_range hsource hconverted hget (Heap.items_of_get? hget ▸ hhigh)
    | _ => exact hs.elim

/-- What every store changes, whatever it is given. -/
theorem run_contract (e : Edit) (h : Heap) (hstored : e.receiver.StoredIn h) :
    e.Contract h (e.run.run h).2 (e.run.run h).1 := by
  cases e with
  | setField s name v =>
    refine contract_of_plan (s.setField_eq name v) (s.planField_adds name v) hstored
      fun plan h₁ hrun => ?_
    obtain ⟨i, f, w, hfield, hw, rfl⟩ := StructRef.cases_of_planField hrun
    exact .field hfield hw
  | insert m key v =>
    refine contract_of_plan (m.insert_eq key v) (m.planEntry_adds key v) hstored
      fun plan h₁ hrun => ?_
    obtain ⟨k, w, h₂, hkey, hw, ⟨a, ha, rfl, -⟩ | ⟨-, rfl, rfl⟩⟩ := MapRef.cases_of_planEntry hrun
    · exact .entry ha hkey hw
    · exact .push rfl trivial ((convert_adds _ _).le_of_run hw)
  | setIndex a index v =>
    refine contract_of_plan (a.setIndex_eq index v) (a.planIndex_adds index v) hstored
      fun plan h₁ hrun => ?_
    obtain ⟨i, hi, ⟨hlt, w, hw, rfl⟩ | ⟨-, extra, h₂, hextra, rfl, rfl⟩⟩ :=
      ArrayRef.cases_of_planIndex hrun
    · exact .item hi hlt hw
    · exact .push rfl trivial ((additions_adds _ _).le_of_run hextra)
  | setRange a start stop v => exact setRange_contract a start stop v hstored
  | store p v =>
    refine contract_of_plan (x := do return .write (← p.slot) v) ?_
      (.bind p.slot_adds fun _ => .pure _) hstored fun plan h₁ hrun => ?_
    · simp only [bind_assoc, pure_bind]
      exact p.store_eq v
    · obtain ⟨cell, h₂, hcell, hwrite⟩ := exists_of_run_bind hrun
      cases hwrite
      obtain ⟨a, ha, rfl, -⟩ := PointerRef.eq_of_run_slot hcell
      exact .cell ha
  | setCharacter text index v =>
    refine contract_of_plan (setCharacter_eq text index v) (planCharacter_adds text index v) hstored
      fun plan h₁ hrun => ?_
    obtain ⟨result, rfl⟩ := str_of_planCharacter hrun
    exact .of_ref? rfl

/-- An array of two integers is stored after its own last element. It is no integer, so that its
elements are added, and the longer array is another one. -/
theorem run_contract_ownElements :
    let a : ArrayRef := ⟨.int, false, false, 0⟩
    let e := setIndex a 2 (.array a)
    let h := Heap.empty.push (.items [.int 1, .int 2])
    let h' := h.push (.items [.int 1, .int 2, .int 1, .int 2])
    let outcome := Except.ok (.replaced (.array ⟨.int, false, false, 1⟩))
    e.run.run h = (outcome, h') ∧ e.Contract h h' outcome := by
  intro a e h h' outcome
  have hrun : e.run.run h = (outcome, h') := by decide +kernel
  have hstored : e.receiver.StoredIn h := by
    intro b hb
    cases hb
    exact ⟨_, rfl, trivial⟩
  have hcontract := run_contract e h hstored
  rw [hrun] at hcontract
  exact ⟨hrun, hcontract⟩

end Edit

end TenantScript
