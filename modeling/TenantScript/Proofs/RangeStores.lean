import TenantScript.Proofs.Mutations
import TenantScript.Proofs.Rebuilding

/-!
Stores over a range of an array. Main statement: a store succeeds just if the range lies in the
array and the value is an array of as many elements as there are in the range, all of which can be
converted; then the range holds the elements that the source had before, converted, even if the
source is the array itself, and a store that fails changes nothing.
-/

open TenantScript.Action

namespace TenantScript

namespace ArrayRef

variable {D : Discipline} {Γ : Layout} {h : Heap} {a source : ArrayRef} {start stop : Int}
  {v : Value}

/-! ### When a store over a range succeeds -/

/-- Of the value, a store over a range looks at nothing but the elements. -/
theorem run_planRange (hsource : v.unwrap = .array source) :
    (a.planRange start stop v).run h = (do
      let r ← .ofExcept (checkedRange start stop (h.items a).length)
      if a.readOnly then .fail (.notSettable s!"array slice [{start}:{stop}]")
      else if (h.items source).length ≠ r.2 - r.1 then
        .fail (.mismatch r.1 r.2 (h.items a).length (h.items source).length)
      else return (r.1, ← (h.items source).mapM (convert a.elem)) :
        Action Heap (Nat × List Value)).run h := by
  unfold planRange
  rw [hsource]
  show (Action.ofExcept _ >>= _ : Action Heap (Nat × List Value)).run h = _
  rcases checkedRange start stop (h.items a).length with cause | r
  · rfl
  · cases a.readOnly <;> rfl

theorem planRange_succeeds_iff (hset : a.readOnly = false) (hsource : v.unwrap = .array source) :
    (a.planRange start stop v).Succeeds h ↔
      (0 ≤ start ∧ start ≤ stop ∧ stop ≤ (h.items a).length) ∧
        ((h.items source).length : Int) = stop - start ∧
        ((h.items source).mapM (convert a.elem)).Succeeds h := by
  constructor
  · rintro ⟨⟨low, values⟩, h', hrun⟩
    obtain ⟨high, source', hrange, hsource', hlength, hvalues⟩ := source_of_planRange hrun
    cases hsource.symm.trans hsource'
    obtain ⟨rfl, rfl, hle, hhigh⟩ := checkedRange_eq_ok_iff.1 hrange
    simp only at hle hhigh
    exact ⟨by omega, by omega, values, h', hvalues⟩
  · rintro ⟨⟨hstart, hle, hstop⟩, hlength, values, h', hvalues⟩
    have hrange : checkedRange start stop (h.items a).length = .ok (start.toNat, stop.toNat) :=
      checkedRange_eq_ok_iff.2 ⟨by omega, by omega, by omega, by omega⟩
    refine ⟨(start.toNat, values), h', ?_⟩
    rw [run_planRange hsource, hrange]
    show (if a.readOnly then _ else if _ then _ else _ : Action Heap (Nat × List Value)).run h = _
    rw [hset, if_neg Bool.false_ne_true, if_neg (by omega), run_bind_ok _ hvalues, run_pure]

theorem setRange_succeeds_iff (hset : a.readOnly = false) :
    (a.setRange start stop v).Succeeds h ↔
      (0 ≤ start ∧ start ≤ stop ∧ stop ≤ (h.items a).length) ∧
        ∃ source, v.unwrap = .array source ∧ ((h.items source).length : Int) = stop - start ∧
          ((h.items source).mapM (convert a.elem)).Succeeds h := by
  rw [setRange_eq, succeeds_bind_iff_left fun r h' => ⟨_, _, a.run_commitRange r.1 r.2 h'⟩]
  constructor
  · rintro ⟨⟨low, values⟩, h', hrun⟩
    obtain ⟨high, source, -, hsource, -⟩ := source_of_planRange hrun
    obtain ⟨hrange, hrest⟩ := (planRange_succeeds_iff hset hsource).1 ⟨_, h', hrun⟩
    exact ⟨hrange, source, hsource, hrest⟩
  · rintro ⟨hrange, source, hsource, hrest⟩
    exact (planRange_succeeds_iff hset hsource).2 ⟨hrange, hrest⟩

/-! ### What a store over a range leaves -/

/-- Whether a store over a range, with the result `fresh`, has led from one heap by way of a second
one, in which the elements of the source have been converted to `values`, to a third one. -/
structure Spliced (a source : ArrayRef) (start stop : Int) (values : List Value)
    (fresh : ArrayRef) (h h₁ h' : Heap) : Prop where
  grown : h ≤ h₁
  converted : List.Forall₂ (fun x w => (convert a.elem x).Gives h h₁ w) (h.items source) values
  items : h'.get? a.address = some (.items
    ((h.items a).take start.toNat ++ values ++ (h.items a).drop stop.toNat))
  length : (h'.items a).length = (h.items a).length
  growable : fresh.elem = a.elem ∧ fresh.fixed = false ∧ fresh.readOnly = false
  made : h₁.size ≤ fresh.address
  result : h'.get? fresh.address = some (.items values)
  frame : ∀ b < h₁.size, b ≠ a.address → h'.get? b = h₁.get? b

theorem length_overwrite {items values : List Value} {low : Nat}
    (hle : low + values.length ≤ items.length) :
    (overwrite items low values).length = items.length := by
  simp only [overwrite, List.length_append, List.length_take, List.length_drop]
  omega

theorem spliced_of_setRange {m : Mutation} {h' : Heap} (hs : h.Sound D Γ)
    (ha : (Value.array a).Fits Γ) (hrun : (a.setRange start stop v).run h = (.ok m, h')) :
    ∃ source values fresh h₁, v.unwrap = .array source ∧ m = .inPlace (.array fresh) ∧
      a.Spliced source start stop values fresh h h₁ h' := by
  obtain ⟨n, hdecl⟩ := ha
  obtain ⟨hget, -, -⟩ := hs.items hdecl
  rw [setRange_eq] at hrun
  obtain ⟨⟨low, values⟩, h₁, hplan, hcommit⟩ := exists_of_run_bind hrun
  obtain ⟨high, source, hrange, hsource, hlength, hvalues⟩ := source_of_planRange hplan
  obtain ⟨rfl, rfl, hle, hhigh⟩ := checkedRange_eq_ok_iff.1 hrange
  simp only at hle hhigh
  have hgrown : h ≤ h₁ := (Adds.mapM fun w _ => convert_adds a.elem w).le_of_run hvalues
  have hcount : values.length = (h.items source).length :=
    mapM_length _ _ h values (congrArg Prod.fst hvalues)
  obtain rfl : high = low + values.length := by omega
  rw [run_commitRange, Heap.items_of_le hgrown hget] at hcommit
  cases hcommit
  have hstored := Heap.get?_push_write_self (.items (overwrite (h.items a) low values))
    (.items values) (Heap.lt_size_of_get? (hgrown _ _ hget))
  refine ⟨source, values, _, h₁, hsource, rfl, ?_⟩
  exact
    { grown := hgrown
      converted := gives_of_run_mapM (convert_adds a.elem) hvalues
      items := hstored
      length := by rw [Heap.items_of_get? hstored, length_overwrite hhigh]
      growable := ⟨rfl, rfl, rfl⟩
      made := Nat.le_refl _
      result := Heap.get?_push_write_size _ _ _ _
      frame := fun b hb hne => Heap.get?_push_write_ne _ _ hb hne }

/-! ### Overlapping sources -/

/-- An array with the same elements as the source can be given in its place. -/
theorem setRange_congr {w : Value} {copy : ArrayRef} (hsource : v.unwrap = .array source)
    (hcopy : w.unwrap = .array copy) (hsame : h.items copy = h.items source) :
    (a.setRange start stop w).run h = (a.setRange start stop v).run h := by
  have hplan : (a.planRange start stop w).run h = (a.planRange start stop v).run h := by
    rw [run_planRange hcopy, run_planRange hsource, hsame]
  rw [setRange_eq, setRange_eq, run_bind, run_bind, hplan]

/-- A store over a range of an array that can be written succeeds just if the range lies in the
array and the value is an array, maybe behind an interface, of as many elements, each of which can
be converted. Then the elements that the source had are in the range, converted; a store that fails
changes no storage. The outcome is the same as if an array with the elements of the source had been
given, so that it does not matter whether the source is the array itself. -/
theorem setRange_splices (hs : h.Sound D Γ) (ha : (Value.array a).Fits Γ)
    (hset : a.readOnly = false) (start stop : Int) (hv : v.Fits Γ) :
    ((a.setRange start stop v).Succeeds h ↔
      (0 ≤ start ∧ start ≤ stop ∧ stop ≤ (h.items a).length) ∧
        ∃ source, v.unwrap = .array source ∧ ((h.items source).length : Int) = stop - start ∧
          ∀ x ∈ h.items source, (convert a.elem x).Succeeds h) ∧
    (∀ m h', (a.setRange start stop v).run h = (.ok m, h') →
      ∃ source values fresh h₁, v.unwrap = .array source ∧ m = .inPlace (.array fresh) ∧
        a.Spliced source start stop values fresh h h₁ h') ∧
    (∀ e h', (a.setRange start stop v).run h = (.error e, h') → h ≤ h') ∧
    ∀ source copy, v.unwrap = .array source → h.items copy = h.items source →
      (a.setRange start stop (.array copy)).run h = (a.setRange start stop v).run h := by
  refine ⟨?_, fun m h' => spliced_of_setRange hs ha, fun e h' hrun => ?_,
    fun source copy hsource hsame => setRange_congr hsource rfl hsame⟩
  · have hsources (source : ArrayRef) (hsource : v.unwrap = .array source) :
        ∀ x ∈ h.items source, x.Fits Γ := by
      obtain ⟨n, hdecl⟩ : (Value.array source).Fits Γ := hsource ▸ hv.unwrap
      exact fun x hx => ((hs.items hdecl).2.2 x hx).1
    rw [setRange_succeeds_iff hset]
    refine and_congr_right fun _ => exists_congr fun source => and_congr_right fun hsource => ?_
    rw [mapM_convert_succeeds_iff hs (hsources source hsource) le_rfl]
  · have hcontract := Edit.setRange_contract a start stop v (ha.storedIn hs)
    rw [hrun] at hcontract
    exact hcontract

/-- Three floating-point numbers and two integers. -/
def numbers : Heap :=
  ⟨#[.items [.float (.ofInt 0), .float (.ofInt 0), .float (.ofInt 0)], .items [.int 1, .int 2]]⟩

theorem numbers_sound : numbers.Sound .untyped ⟨[.array .float false 3, .array .int false 2]⟩ where
  size := rfl
  fits := by
    have hplain {elem : Ty} {vs : List Value} (hvs : ∀ v ∈ vs, v.ref? = none) :
        ∀ v ∈ vs, v.Suits .untyped ⟨[.array .float false 3, .array .int false 2]⟩ elem :=
      fun v hv => ⟨Value.fits_of_ref? (hvs v hv), trivial⟩
    rintro (_ | _ | a) d s hd hs <;> cases hd <;> cases hs <;>
      exact ⟨rfl, hplain (by decide)⟩

/-- The integers, read-only and behind an interface, go over the last two numbers. -/
theorem setRange_splices_numbers :
    let a : ArrayRef := ⟨.float, false, false, 0⟩
    let h' : Heap :=
      ⟨#[.items [.float (.ofInt 0), .float (.ofInt 1), .float (.ofInt 2)], .items [.int 1, .int 2],
        .items [.float (.ofInt 1), .float (.ofInt 2)]]⟩
    (a.setRange 1 3 (.interface (.array ⟨.int, false, true, 1⟩))).run numbers =
        (.ok (.inPlace (.array ⟨.float, false, false, 2⟩)), h') ∧
      (∀ x ∈ numbers.items ⟨.int, false, true, 1⟩, (convert .float x).Succeeds numbers) ∧
      ∃ values h₁, a.Spliced ⟨.int, false, true, 1⟩ 1 3 values ⟨.float, false, false, 2⟩ numbers
        h₁ h' := by
  intro a h'
  obtain ⟨hsucceeds, hsplices, -, -⟩ := setRange_splices numbers_sound (a := a) ⟨3, rfl⟩ rfl 1 3
    (v := .interface (.array ⟨.int, false, true, 1⟩)) ⟨2, rfl⟩
  have hrun : (a.setRange 1 3 (.interface (.array ⟨.int, false, true, 1⟩))).run numbers =
      (.ok (.inPlace (.array ⟨.float, false, false, 2⟩)), h') := by decide +kernel
  obtain ⟨source, values, fresh, h₁, hsource, hm, hspliced⟩ := hsplices _ _ hrun
  obtain ⟨-, source', hsource', -, hconverts⟩ := hsucceeds.1 ⟨_, _, hrun⟩
  cases hsource
  cases hsource'
  cases hm
  exact ⟨hrun, hconverts, values, h₁, hspliced⟩

end ArrayRef

end TenantScript
