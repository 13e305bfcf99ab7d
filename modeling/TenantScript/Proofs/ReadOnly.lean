import TenantScript.Proofs.Commands

/-!
Read-only references cannot be got around. If all references to an array that can be had from the
bindings and from the values given to a command are read-only, then the command leaves the elements
of the array as they are, and all references to it that can be had afterwards, also from the result,
are read-only again.
-/

open TenantScript.Action

namespace TenantScript

/-- What can be had from some values of a heap: the values, what their interfaces hold, and what the
storages hold to which they refer. -/
inductive Heap.Gives (h : Heap) (root : Value → Prop) : Value → Prop
  | root {v : Value} (hv : root v) : Gives h root v
  | inner {v : Value} (hv : Gives h root (.interface v)) : Gives h root v
  | stored {u v : Value} {a : Address} {s : Storage} (hu : Gives h root u)
    (ha : u.ref? = some a) (hs : h.get? a = some s) (hv : v ∈ s.values) : Gives h root v

namespace State

/-- Whether a value is bound in some scope or is one of those that are given. -/
def Roots (st : State) (given : List Value) (v : Value) : Prop :=
  (∃ scope ∈ st.env.scopes, ∃ e ∈ scope.entries, e.2 = v) ∨ v ∈ given

/-- Whether all references to the array at `B` that can be had from the bindings and from the given
values are read-only. -/
def Protects (st : State) (given : List Value) (B : Address) : Prop :=
  ∀ a : ArrayRef, st.heap.Gives (st.Roots given) (.array a) → a.address = B → a.readOnly = true

end State

variable {D : Discipline} {Γ : Layout} {B : Address}

theorem Heap.Gives.bare {h : Heap} {root : Value → Prop} : {v : Value} → h.Gives root v →
    h.Gives root v.bare
  | .interface v, hv => bare (v := v) (.inner hv)
  | .nil, hv | .bool _, hv | .int _, hv | .float _, hv | .str _, hv | .array _, hv | .map _, hv
  | .struct _, hv | .pointer _, hv => hv

/-- What can be had from values that fit fits. -/
theorem Heap.Sound.fits_of_gives {h : Heap} (hs : h.Sound D Γ) {root : Value → Prop}
    (hroot : ∀ v, root v → v.Fits Γ) {v : Value} (hv : h.Gives root v) : v.Fits Γ := by
  induction hv with
  | root hv => exact hroot _ hv
  | inner _ ih => exact ih
  | stored _ _ hget hmem _ =>
    obtain ⟨d, -, hfits⟩ := hs.exists_decl hget
    exact hfits.values _ hmem

/-! ### What steps keep -/

/-- Whether a value refers to a storage of a set, if to any, and to the array at `B` only
read-only. -/
structure Value.Spares (B : Address) (near : Address → Prop) (v : Value) : Prop where
  near : ∀ a, v.ref? = some a → near a
  readOnly : ∀ a, v.bare = .array a → a.address = B → a.readOnly = true

theorem Value.Spares.bare {near : Address → Prop} {v : Value} (h : v.Spares B near) :
    v.bare.Spares B near :=
  ⟨fun a ha => h.near a (v.ref?_bare ▸ ha), fun a ha => h.readOnly a (v.bare_bare ▸ ha)⟩

theorem Value.Spares.mono {near near' : Address → Prop} (hle : ∀ a, near a → near' a) {v : Value}
    (h : v.Spares B near) : v.Spares B near' :=
  ⟨fun a ha => hle a (h.near a ha), h.readOnly⟩

/-- Whether the array at `B` has the elements `vs` and is spared by all that is held and by all that
the storages near hold, which are those that can be had from what is held. -/
structure Holding.Spares (w : Holding D) (B : Address) (vs : List Value) (near : Address → Prop) :
    Prop where
  items : w.heap.get? B = some (.items vs)
  held : ∀ v, w.held v → v.Spares B near
  stored : ∀ a s, near a → w.heap.get? a = some s → ∀ v ∈ s.values, v.Spares B near

/-- The values of a storage in which one has been stored. -/
theorem Storage.mem_values_set {s : Storage} {p : Position} {u v : Value}
    (h : u ∈ (s.set p v).values) : u ∈ s.values ∨ u = v := by
  cases s <;> cases p <;> first
    | exact .inl h
    | exact List.mem_or_eq_of_mem_set h
    | skip
  case entries.entry m k =>
    obtain ⟨e, he, rfl⟩ := List.mem_map.1 h
    rcases SortedMap.mem_insert he with rfl | he
    · exact .inr rfl
    · exact .inl (List.mem_map.2 ⟨e, he, rfl⟩)
  case cell.cell u => exact .inr (List.mem_singleton.1 h)

namespace Holding

variable {w w' : Holding D} {vs : List Value} {near : Address → Prop} {v : Value}

theorem Spares.has (h : w.Spares B vs near) (hv : w.Has v) : v.Spares B near := by
  cases ha : v.ref? with
  | none =>
    refine ⟨fun a e => (nomatch ha.symm.trans e), fun a hbare _ => ?_⟩
    rw [← v.ref?_bare, hbare] at ha
    cases ha
  | some a =>
    have hbare := h.held _ (hv a ha)
    exact ⟨fun b hb => hbare.near b (v.ref?_bare.trans hb),
      fun r hr => hbare.readOnly r (v.bare_bare.trans hr)⟩

theorem Spares.offers (h : w.Spares B vs near) (hv : w.Offers v) : v.Spares B near := by
  cases hv with
  | stored hu ha hs hmem => exact h.stored _ _ ((h.has hu).near _ ha) hs _ hmem
  | readOnly ha =>
    refine ⟨fun a e => (h.has ha).near a e, fun a e _ => ?_⟩
    cases e
    rfl

/-- A slot that can be written lies elsewhere than the array. -/
theorem Spares.address_ne (h : w.Spares B vs near) {slot : Slot} (hslot : w.Grants slot v) :
    slot.address ≠ B := by
  rintro rfl
  obtain ⟨d, hd, hfits⟩ := w.sound.exists_decl h.items
  cases d with
  | array elem fixed n =>
    cases hslot with
    | item ha hwritable =>
      have hread := (h.has ha).readOnly _ rfl rfl
      exact absurd (hread.symm.trans hwritable) (by decide)
    | entry hm ha => cases hd.symm.trans (hm.fits _ ha)
    | field hs => cases hd.symm.trans hs.fits
    | cell hp ha => cases hd.symm.trans (hp.fits _ ha)
  | _ => exact hfits.elim

/-- Every step spares the array. -/
theorem Spares.step (h : w.Spares B vs near) (hstep : w.Step w') :
    ∃ near', (∀ a, near a → near' a) ∧ w'.Spares B vs near' := by
  cases hstep with
  | look =>
    refine ⟨near, fun _ => id, h.items, ?_, h.stored⟩
    rintro u (hu | ⟨v, hv, rfl⟩)
    · exact h.held u hu
    · exact (h.offers hv).bare
  | @make d s v hmade =>
    refine ⟨fun a => near a ∨ a = w.heap.size, fun _ => .inl, ?_, ?_, ?_⟩
    · exact (Heap.get?_push_of_lt s (Heap.lt_size_of_get? h.items)).trans h.items
    · rintro u (hu | rfl)
      · exact (h.held u hu).mono fun _ => .inl
      · refine ⟨fun a ha => .inr (Option.some.inj (ha.symm.trans hmade.ref?)), fun a ha hB => ?_⟩
        have hlt := Heap.lt_size_of_get? h.items
        rw [hmade.bare] at ha
        subst ha
        have hsize : a.address = w.heap.size := Option.some.inj hmade.ref?
        exact absurd (hB.symm.trans hsize) (Nat.ne_of_lt hlt)
    · intro a t ha hget u hu
      have hget : (w.heap.push s).get? a = some t := hget
      rw [Heap.get?_push] at hget
      by_cases hsize : a = w.heap.size
      · rw [if_pos hsize] at hget
        cases hget
        exact (h.has (hmade.has u hu)).mono fun _ => .inl
      · rw [if_neg hsize] at hget
        exact (h.stored a t (ha.resolve_right hsize) hget u hu).mono fun _ => .inl
  | @write slot v hslot =>
    refine ⟨near, fun _ => id, ?_, h.held, ?_⟩
    · exact (Heap.get?_store_ne _ _ _ (Ne.symm (h.address_ne hslot))).trans h.items
    · intro a t ha hget u hu
      have hget : (w.heap.store slot v).get? a = some t := hget
      by_cases hsame : a = slot.address
      · subst hsame
        obtain ⟨s, hs, hroom⟩ := w.sound.hasRoom hslot.takes
        rw [Heap.get?_store_self hs hroom] at hget
        cases hget
        rcases Storage.mem_values_set hu with hu | rfl
        · exact h.stored _ s ha hs u hu
        · exact h.has hslot.has
      · rw [Heap.get?_store_ne _ _ _ hsame] at hget
        exact h.stored a t ha hget u hu

/-- All steps spare the array. -/
theorem Spares.of_le (hle : w ≤ w') (h : w.Spares B vs near) :
    ∃ near', (∀ a, near a → near' a) ∧ w'.Spares B vs near' := by
  refine induction_on_le (P := fun u => ∃ near', (∀ a, near a → near' a) ∧ u.Spares B vs near')
    hle (fun hs ⟨near₁, hsub, h₁⟩ => ?_) ⟨near, fun _ => id, h⟩
  obtain ⟨near₂, hsub', h₂⟩ := h₁.step hs
  exact ⟨near₂, fun a ha => hsub' a (hsub a ha), h₂⟩

/-- What can be had from values at hand spares the array. -/
theorem Spares.gives (h : w.Spares B vs near) {root : Value → Prop}
    (hroot : ∀ v, root v → w.Has v) (hv : w.heap.Gives root v) : v.Spares B near := by
  induction hv with
  | root hv => exact h.has (hroot _ hv)
  | inner _ ih => exact ⟨ih.near, ih.readOnly⟩
  | stored _ ha hs hmem ih => exact h.stored _ _ (ih.near _ ha) hs _ hmem

end Holding

/-! ### Commands -/

/-- All that can be had from some values that fit is held of a sound heap. -/
def Holding.given {h : Heap} (hs : h.Sound D Γ) {root : Value → Prop}
    (hroot : ∀ v, root v → v.Fits Γ) : Holding D where
  layout := Γ
  heap := h
  held := h.Gives root
  sound := hs
  fits _ hv := hs.fits_of_gives hroot hv

theorem Holding.has_given {h : Heap} (hs : h.Sound D Γ) {root : Value → Prop}
    (hroot : ∀ v, root v → v.Fits Γ) {v : Value} (hv : root v) : (given hs hroot).Has v :=
  fun _ _ => (Heap.Gives.root hv).bare

theorem State.Sound.fits_of_roots {st : State} (hst : st.Sound D Γ) {given : List Value}
    (hgiven : ∀ v ∈ given, v.Fits Γ) : ∀ v, st.Roots given v → v.Fits Γ := by
  rintro v (⟨scope, hscope, e, he, rfl⟩ | hv)
  · exact hst.env scope hscope e he
  · exact hgiven v hv

/-- If all references to an array that can be had are read-only, a command, whether it succeeds or
fails, leaves the elements of the array, and all references to it that can be had afterwards are
read-only, also those that the result leads to. -/
theorem Command.run_protects (c : Command) {st st' : State} {r : Except EvalError Value}
    {vs : List Value} (hst : st.Sound .untyped Γ) (hc : ∀ v ∈ c.values, v.Fits Γ)
    (hitems : st.heap.get? B = some (.items vs)) (hprotects : st.Protects c.values B)
    (hrun : c.run.run st = (r, st')) :
    st'.heap.get? B = some (.items vs) ∧ st'.Protects (c.values ++ r.toOption.toList) B := by
  have hroots := hst.fits_of_roots hc
  let w := Holding.given hst.heap hroots
  let near a := ∃ u, st.heap.Gives (st.Roots c.values) u ∧ u.ref? = some a
  have hgives {v : Value} (hv : st.heap.Gives (st.Roots c.values) v) : v.Spares B near :=
    ⟨fun a ha => ⟨v, hv, ha⟩, fun a ha => hprotects a (ha ▸ hv.bare)⟩
  have hspares : w.Spares B vs near :=
    ⟨hitems, fun v hv => hgives hv, fun a s ⟨u, hu, ha⟩ hs v hv => hgives (.stored hu ha hs hv)⟩
  have hmeets : w.Meets st := ⟨rfl, fun scope hscope e he =>
    Holding.has_given hst.heap hroots (.inl ⟨scope, hscope, e, he, rfl⟩)⟩
  obtain ⟨w', hle, hmeets', hresult⟩ := c.run_steps
    (fun v hv => Holding.has_given hst.heap hroots (.inr hv)) st hmeets
  rw [hrun] at hmeets' hresult
  obtain ⟨near', -, hspares'⟩ := hspares.of_le hle
  refine ⟨hmeets'.heap ▸ hspares'.items, fun a ha => ?_⟩
  rw [← hmeets'.heap] at ha
  refine (hspares'.gives (fun v hv => ?_) ha).readOnly a rfl
  rcases hv with ⟨scope, hscope, e, he, rfl⟩ | hv
  · exact hmeets'.env scope hscope e he
  · rcases List.mem_append.1 hv with hv | hv
    · exact (Holding.has_given hst.heap hroots (.inr hv)).mono hle
    · cases r with
      | error e => cases hv
      | ok u =>
        obtain rfl := List.mem_singleton.1 hv
        exact hresult _ rfl

/-- A script is given the array at address 0 read-only. -/
def lentState : State :=
  { env := ⟨[], SortedMap.empty.insert "limits" (.array ⟨.int, false, true, 0⟩)⟩
    heap := Heap.empty.push (.items [.int 1, .int 2])
    depth := 0 }

def lentLayout : Layout := (Layout.mk []).push (.array .int false 2)

/-- `view = [limits]`, `part = view[0]`, `part[2] = 3`, `part[0] = 9`, `return view`. -/
def growLent : Command :=
  let name (n : Name) : Expr := .ident n .dummy
  let item (c : Expr) (i : Int64) : Expr := .item c (.literal (.int i) .dummy) .dummy
  let set (t v : Expr) : Stmt := .assign [t] [v] .dummy
  .execBlock 8 [set (name "view") (.array [name "limits"] .dummy),
    set (name "part") (item (name "view") 0),
    set (item (name "part") 2) (.literal (.int 3) .dummy),
    set (item (name "part") 0) (.literal (.int 9) .dummy),
    .ret (some (name "view")) .dummy]

theorem lentState_sound : lentState.Sound .untyped lentLayout := by
  have hitems : (Storage.items [.int 1, .int 2]).Fits .untyped ⟨[]⟩ (.array .int false 2) := by
    refine ⟨rfl, fun v hv => ⟨?_, trivial⟩⟩
    simp only [List.mem_cons, List.not_mem_nil, or_false] at hv
    rcases hv with rfl | rfl <;> trivial
  refine ⟨(Heap.Sound.empty .untyped).push hitems, fun scope hscope e he => ?_⟩
  obtain rfl := List.mem_singleton.1 hscope
  obtain rfl := List.mem_singleton.1 he
  exact ⟨2, rfl⟩

/-- Beside numbers, the read-only reference is all that can be had. -/
theorem lentState_protects : lentState.Protects growLent.values 0 := by
  have hgives : ∀ v, lentState.heap.Gives (lentState.Roots growLent.values) v →
      v = .array ⟨.int, false, true, 0⟩ ∨ ∃ n, v = .int n := by
    intro v hv
    induction hv with
    | root hv =>
      obtain ⟨scope, hscope, e, he, rfl⟩ | hv := hv
      · obtain rfl := List.mem_singleton.1 hscope
        obtain rfl := List.mem_singleton.1 he
        exact .inl rfl
      · cases hv
    | inner _ ih =>
      obtain h | ⟨n, h⟩ := ih <;> cases h
    | @stored _ v _ _ _ ha hs hmem ih =>
      obtain rfl | ⟨n, rfl⟩ := ih
      · cases ha
        cases hs
        have hmem : v ∈ [Value.int 1, Value.int 2] := hmem
        simp only [List.mem_cons, List.not_mem_nil, or_false] at hmem
        rcases hmem with rfl | rfl <;> exact .inr ⟨_, rfl⟩
      · cases ha
  intro a ha _
  obtain h | ⟨n, h⟩ := hgives _ ha <;> cases h
  rfl

/-- The script gets a longer copy to write, and the reference that it returns is read-only. -/
theorem Command.run_protects_growLent :
    ∃ st', growLent.run.run lentState = (.ok (.array ⟨.any, false, false, 1⟩), st') ∧
      st'.env.lookup? "part" = some (.array ⟨.int, false, false, 2⟩) ∧
      st'.heap.get? 2 = some (.items [.int 9, .int 2, .int 3]) ∧
      st'.heap.get? 0 = some (.items [.int 1, .int 2]) ∧
      st'.Protects [.array ⟨.any, false, false, 1⟩] 0 := by
  have hrun : growLent.run.run lentState =
      (.ok (.array ⟨.any, false, false, 1⟩), (growLent.run.run lentState).2) := by decide +kernel
  refine ⟨_, hrun, by decide +kernel, by decide +kernel, ?_⟩
  exact run_protects growLent lentState_sound (fun v hv => nomatch hv) rfl lentState_protects hrun

end TenantScript
