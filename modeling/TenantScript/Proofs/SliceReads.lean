import TenantScript.Proofs.Mutations
import TenantScript.Proofs.Rebuilding

/-!
Reads of ranges. Arrays and strings are sequences, of elements and of characters, and a range that
is read from one is a sequence again. Main statement: there is a range just where its bounds are in
order and within the sequence; its items and ranges are those of the sequence, counted from where it
starts; ranges that adjoin make up the range of both; and the range of an array is a new array, so
that no store into the one is ever seen in the other.
-/

open TenantScript.Action

namespace TenantScript

/-! ### Ranges of lists -/

section List

variable {α : Type} {vs : List α} {a b : Nat}

theorem length_extract (hb : b ≤ vs.length) : (vs.extract a b).length = b - a := by
  rw [List.extract_eq_take_drop, List.length_take, List.length_drop]
  omega

theorem getElem?_extract {k : Nat} (hk : k < b - a) : (vs.extract a b)[k]? = vs[a + k]? := by
  rw [List.extract_eq_take_drop, List.getElem?_take_of_lt hk, List.getElem?_drop]

theorem extract_extract {c d : Nat} (hd : d ≤ b - a) :
    (vs.extract a b).extract c d = vs.extract (a + c) (a + d) := by
  simp only [List.extract_eq_take_drop, List.drop_take, List.drop_drop, List.take_take]
  rw [show min (d - c) (b - a - c) = a + d - (a + c) by omega]

theorem extract_append_extract {i : Nat} (hai : a ≤ i) (hib : i ≤ b) :
    vs.extract a i ++ vs.extract i b = vs.extract a b := by
  simp only [List.extract_eq_take_drop]
  rw [show b - a = i - a + (b - i) by omega, List.take_add, List.drop_drop,
    show a + (i - a) = i by omega]

theorem extract_map {β : Type} (f : α → β) :
    (vs.map f).extract a b = (vs.extract a b).map f := by
  simp only [List.extract_eq_take_drop, List.map_take, List.map_drop]

/-- The elements in a range are there if its bounds are in order and within the list. -/
theorem elementsIn_eq_ok_iff {start stop : Option Int} {part : List α} :
    elementsIn vs start stop = .ok part ↔ ∃ a b : Nat, start.getD 0 = a ∧
      stop.getD vs.length = b ∧ a ≤ b ∧ b ≤ vs.length ∧ part = vs.extract a b := by
  constructor
  · intro h
    cases hrange : checkedRange (start.getD 0) (stop.getD vs.length) vs.length with
    | ok range =>
      obtain ⟨hstart, hstop, hab, hb⟩ := checkedRange_eq_ok_iff.1 hrange
      exact ⟨range.1, range.2, hstart, hstop, hab, hb, eq_of_elementsIn h hrange⟩
    | error cause =>
      unfold elementsIn at h
      rw [hrange] at h
      cases h
  · rintro ⟨a, b, hstart, hstop, hab, hb, rfl⟩
    have hrange : checkedRange (start.getD 0) (stop.getD vs.length) vs.length = .ok (a, b) :=
      checkedRange_eq_ok_iff.2 ⟨hstart, hstop, hab, hb⟩
    unfold elementsIn
    rw [hrange]
    rfl

end List

/-! ### Stores elsewhere -/

/-- A storage is spared by a plan that is to write another one. -/
theorem get?_run_commit {x : Action Heap Plan} {h : Heap} {b : Address} (hx : x.Adds)
    (hb : b < h.size)
    (hslot : ∀ slot v h', x.run h = (.ok (.write slot v), h') → slot.address ≠ b) :
    ((x >>= Plan.commit).run h).2.get? b = h.get? b := by
  rcases hrun : x.run h with ⟨e | plan, h₁⟩
  · rw [run_bind_error _ hrun]
    exact Heap.get?_eq_of_le (hx.le_of_run hrun) hb
  · have hkept := Heap.get?_eq_of_le (hx.le_of_run hrun) hb
    rw [run_bind_ok _ hrun]
    cases plan with
    | write slot v =>
      exact (Heap.get?_store_ne h₁ slot v (hslot slot v h₁ hrun).symm).trans hkept
    | replace container => exact hkept

namespace Edit

variable {h : Heap} {b : Address}

/-- A store leaves every storage as it is but that of its receiver. -/
theorem get?_run_of_ne (e : Edit) (hb : b < h.size) (hne : e.receiver.ref? ≠ some b) :
    (e.run.run h).2.get? b = h.get? b := by
  cases e with
  | setField s name v =>
    have hs : s.address ≠ b := fun e => hne (congrArg some e)
    show ((s.setField name v).run h).2.get? b = _
    rw [s.setField_eq name v]
    refine get?_run_commit (s.planField_adds name v) hb fun slot w h' hrun => ?_
    obtain ⟨i, f, w', -, -, hplan⟩ := StructRef.cases_of_planField hrun
    cases hplan
    exact hs
  | insert m key v =>
    show ((m.insert key v).run h).2.get? b = _
    rw [m.insert_eq key v]
    refine get?_run_commit (m.planEntry_adds key v) hb fun slot w h' hrun => ?_
    obtain ⟨k, w', h₁, -, -, ⟨a, ha, hplan, -⟩ | ⟨-, hplan, -⟩⟩ := MapRef.cases_of_planEntry hrun
    · cases hplan
      rintro rfl
      exact hne ha
    · cases hplan
  | setIndex a index v =>
    have ha : a.address ≠ b := fun e => hne (congrArg some e)
    show ((a.setIndex index v).run h).2.get? b = _
    rw [a.setIndex_eq index v]
    refine get?_run_commit (a.planIndex_adds index v) hb fun slot w h' hrun => ?_
    obtain ⟨i, -, ⟨-, w', -, hplan⟩ | ⟨-, extra, h₁, -, hplan, -⟩⟩ :=
      ArrayRef.cases_of_planIndex hrun
    · cases hplan
      exact ha
    · cases hplan
  | setRange a start stop v =>
    -- the elements are converted into new storages, and then written to the array at once
    have ha : a.address ≠ b := fun e => hne (congrArg some e)
    show ((a.setRange start stop v).run h).2.get? b = _
    rw [a.setRange_eq start stop v]
    rcases hrun : (a.planRange start stop v).run h with ⟨e | ⟨low, values⟩, h₁⟩
    · rw [run_bind_error _ hrun]
      exact Heap.get?_eq_of_le ((a.planRange_adds start stop v).le_of_run hrun) hb
    · have hle := (a.planRange_adds start stop v).le_of_run hrun
      rw [run_bind_ok _ hrun, ArrayRef.run_commitRange]
      have hb₁ := Nat.lt_of_lt_of_le hb (Heap.size_le_of_le hle)
      exact (Heap.get?_push_write_ne _ _ hb₁ ha.symm).trans (Heap.get?_eq_of_le hle hb)
  | store p v =>
    show ((p.store v).run h).2.get? b = _
    unfold PointerRef.store
    cases ha : p.address? with
    | none => rfl
    | some a =>
      refine Heap.get?_write_ne h (.cell v) fun e => hne ?_
      rw [e]
      exact ha
  | setCharacter text index v =>
    show ((TenantScript.setCharacter text index v).run h).2.get? b = _
    rw [setCharacter_eq text index v]
    refine get?_run_commit (planCharacter_adds text index v) hb fun slot w h' hrun => ?_
    obtain ⟨result, hplan⟩ := str_of_planCharacter hrun
    cases hplan

/-- The heap after some stores, of which each may fail. -/
def runAll (es : List Edit) (h : Heap) : Heap := es.foldl (fun h e => (e.run.run h).2) h

/-- Stores into other containers, however many, leave a storage as it is. -/
theorem get?_runAll_of_ne {es : List Edit} (hb : b < h.size)
    (hne : ∀ e ∈ es, e.receiver.ref? ≠ some b) : (runAll es h).get? b = h.get? b := by
  induction es generalizing h with
  | nil => rfl
  | cons e es ih =>
    have hfirst := e.get?_run_of_ne hb (hne e List.mem_cons_self)
    -- the storage is still there for the stores that are left
    have hb' : b < (e.run.run h).2.size := by
      rw [← Heap.get?_isSome_iff, hfirst, Heap.get?_isSome_iff]
      exact hb
    exact (ih hb' fun e' he' => hne e' (List.mem_cons_of_mem _ he')).trans hfirst

end Edit

/-! ### Sequences -/

/-- The characters of a text, each as a text of its own. -/
def characters (s : String) : List Value := s.toList.map fun c => .str (String.singleton c)

/-- Whether a value is a sequence, behind at most one interface: an array of some elements, or a
text of some characters. -/
inductive Heap.Sequence (h : Heap) (x : Value) : List Value → Prop
  | array {ref : ArrayRef} {vs : List Value} (hx : x.unwrap = .array ref)
    (hget : h.get? ref.address = some (.items vs)) : Sequence h x vs
  | text {s : String} (hx : x.unwrap = .str s) : Sequence h x (characters s)

/-- What the range from `a` to `b` is read as: a new array of the elements, declared like the one
that is read, or a text of the characters. -/
inductive Heap.Cuts (h : Heap) (x : Value) (a b : Nat) : Value → Heap → Prop
  | array {ref : ArrayRef} {vs : List Value} (hx : x.unwrap = .array ref)
    (hget : h.get? ref.address = some (.items vs)) :
    Cuts h x a b (.array ⟨ref.elem, false, false, h.size⟩) (h.push (.items (vs.extract a b)))
  | text {s : String} (hx : x.unwrap = .str s) :
    Cuts h x a b (.str (String.ofList (s.toList.extract a b))) h

/-- Whether `r` is the sequence of what is in `p` and then in `q`. -/
inductive Heap.Joins (h : Heap) : Value → Value → Value → Prop
  | array {p q r : ArrayRef} {us ws : List Value} (hp : h.get? p.address = some (.items us))
    (hq : h.get? q.address = some (.items ws)) (hr : h.get? r.address = some (.items (us ++ ws))) :
    Joins h (.array p) (.array q) (.array r)
  | text (s t : String) : Joins h (.str s) (.str t) (.str (s ++ t))

theorem length_characters (s : String) : (characters s).length = s.toList.length :=
  List.length_map ..

theorem extract_characters (s : String) (a b : Nat) :
    characters (String.ofList (s.toList.extract a b)) = (characters s).extract a b := by
  rw [characters, characters, String.toList_ofList, extract_map]

namespace Heap

variable {h h₁ g : Heap} {x r w : Value} {vs : List Value} {a b : Nat} {start stop : Option Int}

theorem Sequence.mono (hle : h ≤ g) (hx : h.Sequence x vs) : g.Sequence x vs := by
  cases hx with
  | array hx hget => exact .array hx (hle _ _ hget)
  | text hx => exact .text hx

theorem Sequence.run_readItem {index : Value} {n : Nat} (hx : h.Sequence x vs)
    (hindex : toIndex index = .ok n) (hw : vs[n]? = some w) :
    (readItem x index).run h = (.ok w, h) := by
  have hposition : position? n = some n := position?_eq_some_iff.2 rfl
  cases hx with
  | @array ref _ hx hget =>
    refine readItem_finds hx hindex ?_ h fun _ _ => rfl
    rw [elementAt, hposition, items_of_get? hget, Option.bind_some, hw]
  | @text s hx =>
    obtain ⟨c, hc, rfl⟩ := Option.map_eq_some_iff.1 (List.getElem?_map .. ▸ hw)
    have hchar : elementAt s.toList n = .ok c := by
      rw [elementAt, hposition, Option.bind_some, hc]
    simp only [readItem, hx, hindex]
    show (ofExcept (elementAt s.toList n) >>=
      fun c => pure (Value.str (String.singleton c))).run h = _
    rw [hchar]
    rfl

theorem Cuts.of_array {ref : ArrayRef} (hcut : h.Cuts x a b r h₁) (hx : x.unwrap = .array ref)
    (hget : h.get? ref.address = some (.items vs)) :
    r = .array ⟨ref.elem, false, false, h.size⟩ ∧ h₁ = h.push (.items (vs.extract a b)) := by
  cases hcut with
  | array hx' hget' =>
    cases hx.symm.trans hx'
    cases hget.symm.trans hget'
    exact ⟨rfl, rfl⟩
  | text hx' => cases hx.symm.trans hx'

theorem Cuts.of_text {s : String} (hcut : h.Cuts x a b r h₁) (hx : x.unwrap = .str s) :
    r = .str (String.ofList (s.toList.extract a b)) ∧ h₁ = h := by
  cases hcut with
  | array hx' => cases hx.symm.trans hx'
  | text hx' =>
    cases hx.symm.trans hx'
    exact ⟨rfl, rfl⟩

theorem run_readSlice_array {ref : ArrayRef} {part : List Value} (hx : x.unwrap = .array ref)
    (hpart : elementsIn (h.items ref) start stop = .ok part) :
    (readSlice x start stop).run h =
      (.ok (.array ⟨ref.elem, false, false, h.size⟩), h.push (.items part)) := by
  unfold readSlice
  rw [hx]
  show (ofExcept (elementsIn (h.items ref) start stop) >>= _).run h = _
  rw [hpart]
  rfl

/-- A range is read just where its bounds are in order and within the sequence. -/
theorem Sequence.run_readSlice_iff (hx : h.Sequence x vs) :
    (readSlice x start stop).run h = (.ok r, h₁) ↔ ∃ a b : Nat, start.getD 0 = a ∧
      stop.getD vs.length = b ∧ a ≤ b ∧ b ≤ vs.length ∧ h.Cuts x a b r h₁ := by
  cases hx with
  | @array ref _ hx hget =>
    constructor
    · intro hrun
      obtain ⟨part, hpart, rfl, rfl⟩ := array_of_readSlice hx hrun
      rw [items_of_get? hget] at hpart
      obtain ⟨a, b, hstart, hstop, hab, hb, rfl⟩ := elementsIn_eq_ok_iff.1 hpart
      exact ⟨a, b, hstart, hstop, hab, hb, .array hx hget⟩
    · rintro ⟨a, b, hstart, hstop, hab, hb, hcut⟩
      have hpart := elementsIn_eq_ok_iff.2 ⟨a, b, hstart, hstop, hab, hb, rfl⟩
      obtain ⟨rfl, rfl⟩ := hcut.of_array hx hget
      exact run_readSlice_array hx (items_of_get? hget ▸ hpart)
  | @text s hx =>
    rw [length_characters]
    constructor
    · intro hrun
      unfold readSlice at hrun
      rw [hx] at hrun
      obtain ⟨part, h₂, hpart, hmake⟩ := exists_of_run_bind hrun
      obtain ⟨hok, rfl⟩ := eq_of_run_ofExcept hpart
      obtain ⟨a, b, hstart, hstop, hab, hb, rfl⟩ := elementsIn_eq_ok_iff.1 hok
      cases hmake
      exact ⟨a, b, hstart, hstop, hab, hb, .text hx⟩
    · rintro ⟨a, b, hstart, hstop, hab, hb, hcut⟩
      have hpart := elementsIn_eq_ok_iff.2 ⟨a, b, hstart, hstop, hab, hb, rfl⟩
      obtain ⟨rfl, rfl⟩ := hcut.of_text hx
      unfold readSlice
      rw [hx]
      show (ofExcept (elementsIn s.toList start stop) >>= _).run h₁ = _
      rw [hpart]
      rfl

/-- There is always something that a range is read as. -/
theorem Sequence.exists_cuts (hx : h.Sequence x vs) (a b : Nat) : ∃ r h₁, h.Cuts x a b r h₁ := by
  cases hx with
  | array hx hget => exact ⟨_, _, .array hx hget⟩
  | text hx => exact ⟨_, _, .text hx⟩

/-- What a range is read as is the sequence of what is in the range. -/
theorem Cuts.sequence (hcut : h.Cuts x a b r h₁) (hx : h.Sequence x vs) :
    h ≤ h₁ ∧ h₁.Sequence r (vs.extract a b) := by
  cases hx with
  | array hx hget =>
    obtain ⟨rfl, rfl⟩ := hcut.of_array hx hget
    exact ⟨h.le_push _, .array rfl (h.get?_push_self _)⟩
  | @text s hx =>
    obtain ⟨rfl, rfl⟩ := hcut.of_text hx
    rw [← extract_characters]
    exact ⟨le_rfl, .text rfl⟩

/-- The range of a range is read just as the range of the sequence is. -/
theorem Cuts.run_readSlice {c d : Nat} (hcut : h.Cuts x a b r h₁) (hx : h.Sequence x vs)
    (hb : b ≤ vs.length) (hab : a ≤ b) (hle : h₁ ≤ g) (hcd : c ≤ d) (hd : d ≤ b - a) :
    ∃ w g', (readSlice r (some c) (some d)).run g = (.ok w, g') ∧
      (readSlice x (some (a + c : Nat)) (some (a + d : Nat))).run g = (.ok w, g') := by
  obtain ⟨hle₁, hr⟩ := hcut.sequence hx
  have hrg := hr.mono hle
  have hxg := hx.mono (hle₁.trans hle)
  have hlength : (vs.extract a b).length = b - a := length_extract hb
  obtain ⟨w, g', hw⟩ := hrg.exists_cuts c d
  refine ⟨w, g', hrg.run_readSlice_iff.2 ⟨c, d, rfl, rfl, hcd, hlength ▸ hd, hw⟩,
    hxg.run_readSlice_iff.2 ⟨a + c, a + d, rfl, rfl, by omega, by omega, ?_⟩⟩
  cases hx with
  | @array ref _ hx hget =>
    obtain ⟨rfl, rfl⟩ := hcut.of_array hx hget
    obtain ⟨rfl, rfl⟩ := hw.of_array rfl (hle _ _ (h.get?_push_self _))
    rw [extract_extract hd]
    exact @Cuts.array _ _ _ _ ref _ hx (hle₁.trans hle _ _ hget)
  | text hx =>
    obtain ⟨rfl, rfl⟩ := hcut.of_text hx
    obtain ⟨rfl, rfl⟩ := hw.of_text rfl
    rw [String.toList_ofList, extract_extract hd]
    exact .text hx

/-- Ranges that adjoin, read one after the other, are joined in the range of both. -/
theorem Cuts.exists_joins {i : Nat} (hcut : h.Cuts x a b r h₁) (hx : h.Sequence x vs)
    (hb : b ≤ vs.length) (hle : h₁ ≤ g) (hai : a ≤ i) (hib : i ≤ b) :
    ∃ p g₁ q g₂, (readSlice x (some a) (some i)).run g = (.ok p, g₁) ∧
      (readSlice x (some i) (some b)).run g₁ = (.ok q, g₂) ∧ g₂.Joins p q r := by
  obtain ⟨hle₁, -⟩ := hcut.sequence hx
  have hxg := hx.mono (hle₁.trans hle)
  obtain ⟨p, g₁, hp⟩ := hxg.exists_cuts a i
  obtain ⟨hg₁, -⟩ := hp.sequence hxg
  have hxg₁ := hxg.mono hg₁
  obtain ⟨q, g₂, hq⟩ := hxg₁.exists_cuts i b
  obtain ⟨hg₂, -⟩ := hq.sequence hxg₁
  refine ⟨p, g₁, q, g₂, hxg.run_readSlice_iff.2 ?_, hxg₁.run_readSlice_iff.2 ?_, ?_⟩
  · exact ⟨a, i, rfl, rfl, hai, Nat.le_trans hib hb, hp⟩
  · exact ⟨i, b, rfl, rfl, hib, hb, hq⟩
  · cases hx with
    | array hx hget =>
      have hgetg := hle₁.trans hle _ _ hget
      obtain ⟨rfl, rfl⟩ := hcut.of_array hx hget
      obtain ⟨rfl, rfl⟩ := hp.of_array hx hgetg
      obtain ⟨rfl, rfl⟩ := hq.of_array hx (hg₁ _ _ hgetg)
      -- the range of both is an older storage, which reading the two parts has kept
      have hwhole := (hle.trans hg₁).trans hg₂ _ _ (h.get?_push_self _)
      rw [← extract_append_extract hai hib] at hwhole
      exact .array (hg₂ _ _ (g.get?_push_self _)) (Heap.get?_push_self _ _) hwhole
    | text hx =>
      obtain ⟨rfl, rfl⟩ := hcut.of_text hx
      obtain ⟨rfl, rfl⟩ := hp.of_text hx
      obtain ⟨rfl, rfl⟩ := hq.of_text hx
      rw [← extract_append_extract hai hib, String.ofList_append]
      exact .text _ _

end Heap

/-! ### The range of a sequence -/

/-- Whether `r`, which the range from `a` to `b` of a sequence `x` of `vs` was read as between two
heaps, agrees with the sequence from now on, and is apart from it. -/
structure IsRange (h h₁ : Heap) (x : Value) (vs : List Value) (a b : Nat) (r : Value) : Prop where
  kept : h ≤ h₁
  elements : h₁.Sequence r (vs.extract a b)
  length : (vs.extract a b).length = b - a
  text : ∀ s, x.unwrap = .str s → r = .str (String.ofList (s.toList.extract a b))
  item : ∀ g, h₁ ≤ g → ∀ (k k' : Value) (j : Nat), j < b - a → toIndex k = .ok j →
    toIndex k' = .ok (a + j : Nat) →
    ∃ w, (readItem r k).run g = (.ok w, g) ∧ (readItem x k').run g = (.ok w, g)
  slice : ∀ g, h₁ ≤ g → ∀ c d : Nat, c ≤ d → d ≤ b - a →
    ∃ w g', (readSlice r (some c) (some d)).run g = (.ok w, g') ∧
      (readSlice x (some (a + c : Nat)) (some (a + d : Nat))).run g = (.ok w, g')
  parts : ∀ g, h₁ ≤ g → ∀ i, a ≤ i → i ≤ b →
    ∃ p g₁ q g₂, (readSlice x (some a) (some i)).run g = (.ok p, g₁) ∧
      (readSlice x (some i) (some b)).run g₁ = (.ok q, g₂) ∧ g₂.Joins p q r
  /-- The array is a new one, and each of the two is the same after stores into any containers but
  itself, the other one among them. -/
  apart : ∀ ref, x.unwrap = .array ref → ∃ address, r = .array ⟨ref.elem, false, false, address⟩ ∧
    h.size ≤ address ∧ address ≠ ref.address ∧ ∀ g es, h₁.size ≤ g.size →
      ((∀ e ∈ es, e.receiver.ref? ≠ some ref.address) →
        (Edit.runAll es g).get? ref.address = g.get? ref.address) ∧
      ((∀ e ∈ es, e.receiver.ref? ≠ some address) →
        (Edit.runAll es g).get? address = g.get? address)

variable {h h₁ : Heap} {x r : Value} {vs : List Value} {a b : Nat}

theorem Heap.Cuts.isRange (hcut : h.Cuts x a b r h₁) (hx : h.Sequence x vs) (hab : a ≤ b)
    (hb : b ≤ vs.length) : IsRange h h₁ x vs a b r := by
  obtain ⟨hle, hr⟩ := hcut.sequence hx
  refine
    { kept := hle
      elements := hr
      length := length_extract hb
      text := fun s hs => ?_
      item := fun g hg k k' j hj hk hk' => ?_
      slice := fun g hg c d hcd hd => hcut.run_readSlice hx hb hab hg hcd hd
      parts := fun g hg i hai hib => hcut.exists_joins hx hb hg hai hib
      apart := fun ref href => ?_ }
  · exact (hcut.of_text hs).1
  · have hw : vs[a + j]? = some vs[a + j] := List.getElem?_eq_getElem (by omega)
    have hwr : (vs.extract a b)[j]? = some vs[a + j] := (getElem?_extract hj).trans hw
    exact ⟨vs[a + j], (hr.mono hg).run_readItem hk hwr,
      (hx.mono (hle.trans hg)).run_readItem hk' hw⟩
  · cases hx with
    | text hx => cases href.symm.trans hx
    | array hx hget =>
      cases href.symm.trans hx
      obtain ⟨rfl, rfl⟩ := hcut.of_array hx hget
      have hlt : ref.address < h.size := Heap.lt_size_of_get? hget
      refine ⟨h.size, rfl, Nat.le_refl _, Nat.ne_of_gt hlt, fun g es hg => ?_⟩
      have hnew : h.size < g.size := Nat.lt_of_lt_of_le (by simp) hg
      exact ⟨Edit.get?_runAll_of_ne (Nat.lt_trans hlt hnew), Edit.get?_runAll_of_ne hnew⟩

/-- A range of an array or a text is there just where its bounds, which are the two ends where they
are left out, are in order and within it. It is then as long as the bounds are apart; its items and
ranges are those of the sequence, counted from its start; adjoining ranges make it up; and the range
of an array is a new array, with elements declared as those of the array, so that stores into either
of the two never show in the other. -/
theorem slice_reads_compose (hx : h.Sequence x vs) (start stop : Option Int) :
    ((readSlice x start stop).Succeeds h ↔ 0 ≤ start.getD 0 ∧
      start.getD 0 ≤ stop.getD vs.length ∧ stop.getD vs.length ≤ vs.length) ∧
    ∀ r h₁, (readSlice x start stop).run h = (.ok r, h₁) → ∃ a b : Nat, start.getD 0 = a ∧
      stop.getD vs.length = b ∧ IsRange h h₁ x vs a b r := by
  refine ⟨⟨?_, ?_⟩, ?_⟩
  · rintro ⟨r, h₁, hrun⟩
    obtain ⟨a, b, hstart, hstop, hab, hb, -⟩ := hx.run_readSlice_iff.1 hrun
    omega
  · rintro ⟨hlow, horder, hhigh⟩
    obtain ⟨a, ha⟩ := Int.eq_ofNat_of_zero_le hlow
    obtain ⟨b, hb⟩ := Int.eq_ofNat_of_zero_le (Int.le_trans hlow horder)
    obtain ⟨r, h₁, hcut⟩ := hx.exists_cuts a b
    exact ⟨r, h₁, hx.run_readSlice_iff.2 ⟨a, b, ha, hb, by omega, by omega, hcut⟩⟩
  · intro r h₁ hrun
    obtain ⟨a, b, hstart, hstop, hab, hb, hcut⟩ := hx.run_readSlice_iff.1 hrun
    exact ⟨a, b, hstart, hstop, hcut.isRange hx hab hb⟩

/-- The array `[1, 2, 3, 4]` of a fixed length, read-only, from its second element on. -/
theorem slice_reads_compose_fixed :
    let h : Heap := ⟨#[.items [.int 1, .int 2, .int 3, .int 4]]⟩
    let h₁ := h.push (.items [.int 2, .int 3, .int 4])
    let xs := Value.array ⟨.int, true, true, 0⟩
    (readSlice xs (some 1) none).run h = (.ok (.array ⟨.int, false, false, 1⟩), h₁) ∧
      IsRange h h₁ xs [.int 1, .int 2, .int 3, .int 4] 1 4 (.array ⟨.int, false, false, 1⟩) := by
  intro h h₁ xs
  have hrun : (readSlice xs (some 1) none).run h =
      (.ok (.array ⟨.int, false, false, 1⟩), h₁) := by decide +kernel
  have hxs : h.Sequence xs [.int 1, .int 2, .int 3, .int 4] := .array rfl rfl
  obtain ⟨a, b, ha, hb, hrange⟩ := (slice_reads_compose hxs (some 1) none).2 _ _ hrun
  obtain rfl : 1 = a := Int.ofNat_inj.1 ha
  obtain rfl : 4 = b := Int.ofNat_inj.1 hb
  exact ⟨hrun, hrange⟩

end TenantScript
