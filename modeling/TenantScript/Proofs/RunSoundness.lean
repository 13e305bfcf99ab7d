import TenantScript.Proofs.RunSteps

/-!
Soundness of heaps is kept by scripts. All that fits a layout can be held, so that whatever goes in
steps of a holding leads from a sound heap to a sound heap of a longer layout, and its result fits
that layout.
-/

open TenantScript.Action

namespace TenantScript

variable {D : Discipline} {Γ Δ : Layout}

/-- All values that fit are held of a sound heap. -/
def Holding.whole {h : Heap} (hs : h.Sound D Γ) : Holding D where
  layout := Γ
  heap := h
  held v := v.Fits Γ
  sound := hs
  fits _ hv := hv

theorem Holding.has_whole {h : Heap} (hs : h.Sound D Γ) {v : Value} (hv : v.Fits Γ) :
    (Holding.whole hs).Has v := fun _ _ => hv.bare

theorem Holding.meets_whole {st : State} (hst : st.Sound D Γ) :
    (Holding.whole hst.heap).Meets st :=
  ⟨rfl, fun scope hscope e he => has_whole hst.heap (hst.env scope hscope e he)⟩

theorem Holding.Meets.sound {w : Holding D} {st : State} (h : w.Meets st) :
    st.Sound D w.layout :=
  ⟨h.heap ▸ w.sound, fun scope hscope e he => (h.env scope hscope e he).fits⟩

section

variable {α : Type} {P : Holding D → α → Prop} {Q : Layout → α → Prop}

/-- What goes in steps keeps a heap sound. -/
theorem sound_of_steps {x : Action Heap α}
    (hx : ∀ w : Holding D, (∀ v : Value, v.Fits Γ → w.Has v) → Maintains Holding.Of w x P)
    (hPQ : ∀ w a, P w a → Q w.layout a) : Maintains (Heap.Sound D) Γ x Q := by
  intro h hs
  obtain ⟨w, hle, hw, ha⟩ := hx (.whole hs) (fun v => Holding.has_whole hs) h rfl
  exact ⟨w.layout, Holding.layout_le hle, hw ▸ w.sound, fun a e => hPQ w a (ha a e)⟩

/-- What goes in steps keeps a state sound. -/
theorem run_sound_of_steps {x : Run α}
    (hx : ∀ w : Holding D, (∀ v : Value, v.Fits Γ → w.Has v) → Maintains Holding.Meets w x P)
    (hPQ : ∀ w a, P w a → Q w.layout a) : Maintains (State.Sound D) Γ x Q := by
  intro st hst
  obtain ⟨w, hle, hw, ha⟩ := hx (.whole hst.heap) (fun v => Holding.has_whole hst.heap) st
    (Holding.meets_whole hst)
  exact ⟨w.layout, Holding.layout_le hle, hw.sound, fun a e => hPQ w a (ha a e)⟩

theorem Run.onHeap_sound {x : Action Heap α} (hx : Maintains (Heap.Sound D) Γ x Q) :
    Maintains (State.Sound D) Γ (Run.onHeap x) Q :=
  .onHeap State.Sound.heap (fun hle hst hh =>
    ⟨hh, fun scope hscope e he => (hst.env scope hscope e he).mono hle⟩) hx

end

/-! ### Stores and links -/

/-- Whether values are ones for the elements of an array from a position on. -/
def ArrayRef.Covers (D : Discipline) (Γ : Layout) (a : ArrayRef) (start : Nat)
    (values : List Value) : Prop :=
  ∃ n, Γ.decl? a.address = some (.array a.elem a.fixed n) ∧ start + values.length ≤ n ∧
    ∀ v ∈ values, v.Suits D Γ a.elem

/-- Whether a store leaves the state sound. -/
def Store.Fits (D : Discipline) (Γ : Layout) : Store → Prop
  | bind _ v => v.Fits Γ
  | write slot v => slot.Takes D Γ v
  | overwrite a start values => a.Covers D Γ start values

/-- Whether what a link comes to leaves the state sound. -/
def Link.Fits (D : Discipline) (Γ : Layout) : Link → Prop
  | last store => store.Fits D Γ
  | pass _ container => container.Fits Γ

theorem Holding.Stores.fits {w : Holding D} : {store : Store} → w.Stores store →
    store.Fits D w.layout
  | .bind _ _, h => Holding.Has.fits h
  | .write _ _, h => Holding.Grants.takes h
  | .overwrite _ _ _, h => by
    obtain ⟨n, hn⟩ := Holding.Has.fits (Holding.Covers.has h)
    have hle := Holding.Covers.length_le h
    rw [(w.sound.items hn).2.1] at hle
    exact ⟨n, hn, hle, fun v hv => (Holding.Covers.supplies h v hv).suits⟩

theorem Holding.Links.fits {w : Holding D} : {l : Link} → w.Links l → l.Fits D w.layout
  | .last _, h => Holding.Stores.fits h
  | .pass _ _, h => Holding.Has.fits h

theorem memberContainer_sound {object : Value} (h : object.Fits Γ) :
    Maintains (Heap.Sound D) Γ (memberContainer object) fun Γ' found => found.1.Fits Γ' :=
  sound_of_steps (fun _ hall => memberContainer_steps (hall object h)) fun _ _ hfound =>
    hfound.1.fits

theorem link_sound (limit : Nat) {v : Value} (hv : v.Fits Γ) (target : Expr) :
    Maintains (State.Sound D) Γ (link (evaluate limit) target v) fun Γ' l => l.Fits D Γ' :=
  run_sound_of_steps (fun _ hall => link_steps (evaluate_steps limit) (hall v hv) target)
    fun _ _ hl => hl.fits

/-- A chain of links leads to a store that leaves a sound state sound. -/
theorem Chain.sound {limit : Nat} {t : Expr} {v : Value} {st st' : State} {store : Store}
    (h : Chain (evaluate limit) t v st store st') : {Γ : Layout} → st.Sound D Γ → v.Fits Γ →
      ∃ Δ, Γ ≤ Δ ∧ st'.Sound D Δ ∧ store.Fits D Δ := by
  induction h with
  | last hl =>
    intro Γ hst hv
    obtain ⟨Δ, hle, hst', hfits⟩ := link_sound limit hv _ _ hst
    rw [hl] at hst' hfits
    exact ⟨Δ, hle, hst', hfits _ rfl⟩
  | pass hl _ _ ih =>
    intro Γ hst hv
    obtain ⟨Δ, hle, hst', hfits⟩ := link_sound limit hv _ _ hst
    rw [hl] at hst' hfits
    obtain ⟨Δ', hle', hst'', hfits'⟩ := ih hst' (hfits _ rfl)
    exact ⟨Δ', hle.trans hle', hst'', hfits'⟩

/-! ### Evaluation -/

theorem evaluateWithin_sound (limit room : Nat) (e : Expr) (Γ : Layout) :
    Maintains (State.Sound D) Γ (evaluateWithin limit room e) fun Γ' v => v.Fits Γ' :=
  run_sound_of_steps (fun w _ => evaluateWithin_steps limit room e w) fun _ _ hv => hv.fits

theorem evaluate_sound (limit : Nat) (e : Expr) (Γ : Layout) :
    Maintains (State.Sound D) Γ (evaluate limit e) fun Γ' v => v.Fits Γ' :=
  run_sound_of_steps (fun w _ => evaluate_steps limit e w) fun _ _ hv => hv.fits

end TenantScript
