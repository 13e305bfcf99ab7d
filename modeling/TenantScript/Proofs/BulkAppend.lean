import TenantScript.Proofs.Pairing
import TenantScript.Proofs.Puts

/-!
Appending an array to an array. Main statement: where an array is no element itself, appending it
succeeds just if each of its elements can be converted, and gives what appending the elements one
after the other gives, but for where the storages lie that conversions make. An array that is an
element itself is added as one element.
-/

open TenantScript.Action

namespace TenantScript

namespace ArrayRef

variable {D : Discipline} {Γ : Layout} {h h' : Heap} {a b source : ArrayRef} {v w : Value}

/-- Appending values one after the other, each at the index after the last element of the array that
the one before has given. -/
inductive Appends : ArrayRef → Heap → List Value → ArrayRef → Heap → Prop
  | nil (a : ArrayRef) (h : Heap) : Appends a h [] a h
  | cons {a b c : ArrayRef} {h h₁ h₂ : Heap} {v : Value} {vs : List Value}
      (hset : (a.setIndex (h.items a).length v).run h = (.ok (.replaced (.array b)), h₁))
      (hrest : Appends b h₁ vs c h₂) : Appends a h (v :: vs) c h₂

/-! ### One store after the last element -/

/-- A store after the last element makes a longer array. -/
theorem run_setIndex_length (hgrow : a.fixed = false) (v : Value) (h : Heap) :
    (a.setIndex (h.items a).length v).run h = (do
      let extra ← additions a.elem v
      let items ← .get (·.items a)
      return .replaced (.array (← make a.elem (items ++ extra))) : Action Heap Mutation).run h := by
  have hpos : position? ((h.items a).length : Int) = some (h.items a).length :=
    position?_eq_some_iff.2 rfl
  have happend : (a.setIndex (h.items a).length v).run h = (a.append v).run h := by
    unfold setIndex
    rw [run_bind, run_get]
    simp only [hpos, if_true]
  rw [happend]
  unfold append
  rw [run_bind, run_get]
  simp only [hgrow, Bool.false_eq_true, if_false]

theorem setIndex_length_succeeds_iff (hgrow : a.fixed = false) :
    (a.setIndex (h.items a).length v).Succeeds h ↔ (additions a.elem v).Succeeds h := by
  unfold Succeeds
  simp only [run_setIndex_length hgrow]
  exact succeeds_bind_iff_left fun extra g => ⟨_, _, rfl⟩

theorem run_setIndex_length_of_additions {extra : List Value} (hgrow : a.fixed = false)
    (hextra : (additions a.elem v).run h = (.ok extra, h')) :
    (a.setIndex (h.items a).length v).run h =
      (.ok (.replaced (.array ⟨a.elem, false, false, h'.size⟩)),
        h'.push (.items (h'.items a ++ extra))) := by
  rw [run_setIndex_length hgrow, run_bind_ok _ hextra]
  rfl

/-- An array that is no element is added element by element, after the attempt to convert it. -/
theorem run_additions_of_error {elem : Ty} {e : EvalError} (hsource : v.unwrap = .array source)
    (hfail : (convert elem v).run h = (.error e, h')) :
    (additions elem v).run h = ((h'.items source).mapM (convert elem)).run h' := by
  rw [additions, run_recover, run_bind_error _ hfail, hsource]
  rfl

/-! ### Elements one after the other -/

/-- What is converted as a batch in one heap can be appended one by one in a heap that is paired
with it, though after each element a longer array is made. -/
theorem appends_of_mapM {n : Nat} {R : Pairing} {g g' k : Heap} {vs ws items : List Value}
    (hgrow : a.fixed = false) (hget : k.get? a.address = some (.items items))
    (hp : Heap.Paired n R g k) (hvs : ∀ v ∈ vs, v.Alike R v)
    (hrun : (vs.mapM (convert a.elem)).run g = (.ok ws, g')) :
    ∃ S b k' ws', R ≤ S ∧ Appends a k vs b k' ∧ Heap.Paired n S g' k' ∧
      k'.get? b.address = some (.items (items ++ ws')) ∧ List.Forall₂ (Value.Alike S) ws ws' := by
  induction vs generalizing R g k ws items a with
  | nil =>
    rw [List.mapM_nil] at hrun
    cases hrun
    exact ⟨R, a, k, [], le_rfl, .nil a k, hp, by rwa [List.append_nil], .nil⟩
  | cons v vs ih =>
    rw [List.mapM_cons] at hrun
    obtain ⟨w, g₁, hw, hrest⟩ := exists_of_run_bind hrun
    obtain ⟨ws', g₂, hws', hcons⟩ := exists_of_run_bind hrest
    cases hcons
    obtain ⟨S, w', k₁, hRS, hw', hp₁, halike⟩ :=
      convert_mirrors a.elem (hvs v List.mem_cons_self) g k hp w g₁ hw
    -- the array that one store makes is in the second heap alone
    have hle : k ≤ k₁ := (convert_adds a.elem v).le_of_run hw'
    have hset := run_setIndex_length_of_additions hgrow (run_additions hw')
    rw [Heap.items_of_le hle hget] at hset
    obtain ⟨T, b, k', us, hST, happends, hp', hb, hus⟩ :=
      ih (a := ⟨a.elem, false, false, k₁.size⟩) rfl (Heap.get?_push_self k₁ _)
        (hp₁.mono_right (k₁.le_push _))
        (fun u hu => (hvs u (List.mem_cons_of_mem _ hu)).mono hRS) hws'
    refine ⟨T, b, k', w' :: us, hRS.trans hST, .cons hset happends, hp', ?_, ?_⟩
    · rwa [List.append_assoc] at hb
    · exact .cons (halike.mono hST) hus

/-! ### An array after the last element -/

theorem additions_of_not_succeeds (hs : h.Sound D Γ) (hv : v.Fits Γ)
    (hsource : v.unwrap = .array source) {elem : Ty} (hnot : ¬ (convert elem v).Succeeds h) :
    ∃ g, h ≤ g ∧ (∀ x ∈ h.items source, x.Fits Γ) ∧
      (additions elem v).run h = ((h.items source).mapM (convert elem)).run g := by
  obtain ⟨n, hdecl⟩ : (Value.array source).Fits Γ := hsource ▸ hv.unwrap
  obtain ⟨hget, -, hitems⟩ := hs.items hdecl
  obtain ⟨e, he⟩ := not_succeeds_iff.1 hnot
  have hfail : (convert elem v).run h = (.error e, ((convert elem v).run h).2) := Prod.ext he rfl
  have hle := (convert_adds elem v).le_of_run hfail
  refine ⟨_, hle, fun x hx => (hitems x hx).1, ?_⟩
  rw [run_additions_of_error hsource hfail, Heap.items_of_le hle hget]

/-- An array that has been added element by element. -/
theorem appends_of_setIndex {m : Mutation} (hs : h.Sound D Γ) (ha : (Value.array a).Fits Γ)
    (hgrow : a.fixed = false) (hv : v.Fits Γ) (hsource : v.unwrap = .array source)
    (hnot : ¬ (convert a.elem v).Succeeds h)
    (hrun : (a.setIndex (h.items a).length v).run h = (.ok m, h')) :
    ∃ address c h'' R, m = .replaced (.array ⟨a.elem, false, false, address⟩) ∧
      h.size ≤ address ∧ Appends a h (h.items source) c h'' ∧ Heap.Paired h.size R h' h'' ∧
      List.Forall₂ (Value.Alike R) (h'.itemsAt address) (h''.items c) := by
  obtain ⟨n, hdecl⟩ := ha
  obtain ⟨hget, -, hold⟩ := hs.items hdecl
  obtain ⟨g, hle, hfits, hadditions⟩ := additions_of_not_succeeds hs hv hsource hnot
  obtain ⟨extra, h₁, hextra⟩ := (setIndex_length_succeeds_iff hgrow).1 ⟨m, h', hrun⟩
  have hset := run_setIndex_length_of_additions hgrow hextra
  rw [hadditions] at hextra
  have hle₁ : h ≤ h₁ := hle.trans ((Adds.mapM fun x _ => convert_adds _ x).le_of_run hextra)
  rw [Heap.items_of_le hle₁ hget] at hset
  cases hset.symm.trans hrun
  have hself {x : Value} (hx : x.Fits Γ) : x.Alike (fun a b => a < h.size ∧ b = a) x :=
    Value.alike_self fun a ha => ⟨hs.size ▸ hx.ref_lt ha, rfl⟩
  obtain ⟨R, c, h'', us, hR, happends, hp, hc, hus⟩ := appends_of_mapM hgrow hget
    ((Heap.Paired.of_sound hs).mono_left hle) (fun x hx => hself (hfits x hx)) hextra
  refine ⟨_, c, h'', R, rfl, Heap.size_le_of_le hle₁, happends, hp.mono_left (h₁.le_push _), ?_⟩
  rw [Heap.items_of_get? hc, Heap.itemsAt, Heap.get?_push_self]
  have hkept : List.Forall₂ (Value.Alike R) (h.items a) (h.items a) :=
    List.forall₂_same.2 fun x hx => (hself (hold x hx).1).mono hR
  exact List.rel_append hkept hus

/-- An array is stored after the last element of an array that can grow. If it cannot be converted
to an element, this succeeds just if all its elements can; then the longer array is a new one with
the same elements, but for the addresses of storages that have been made, as the array that comes of
appending the elements one after the other. If it can be converted, it is the one element that is
added. No storage that was there is changed, whether this succeeds or fails. -/
theorem setIndex_length_array (hs : h.Sound D Γ) (ha : (Value.array a).Fits Γ)
    (hgrow : a.fixed = false) (hv : v.Fits Γ) (hsource : v.unwrap = .array source) :
    (¬ (convert a.elem v).Succeeds h →
      ((a.setIndex (h.items a).length v).Succeeds h ↔
        ∀ x ∈ h.items source, (convert a.elem x).Succeeds h) ∧
      ∀ m h', (a.setIndex (h.items a).length v).run h = (.ok m, h') →
        ∃ address c h'' R, m = .replaced (.array ⟨a.elem, false, false, address⟩) ∧
          h.size ≤ address ∧ Appends a h (h.items source) c h'' ∧ Heap.Paired h.size R h' h'' ∧
          List.Forall₂ (Value.Alike R) (h'.itemsAt address) (h''.items c)) ∧
    (∀ w h₁, (convert a.elem v).run h = (.ok w, h₁) →
      (a.setIndex (h.items a).length v).run h =
        (.ok (.replaced (.array ⟨a.elem, false, false, h₁.size⟩)),
          h₁.push (.items (h.items a ++ [w])))) ∧
    h ≤ ((a.setIndex (h.items a).length v).run h).2 := by
  refine ⟨fun hnot => ⟨?_, fun m h' => appends_of_setIndex hs ha hgrow hv hsource hnot⟩,
    fun w h₁ hw => ?_, ?_⟩
  · obtain ⟨g, hle, hfits, hadditions⟩ := additions_of_not_succeeds hs hv hsource hnot
    rw [setIndex_length_succeeds_iff hgrow, ← mapM_convert_succeeds_iff hs hfits hle]
    unfold Succeeds
    rw [hadditions]
  · obtain ⟨n, hdecl⟩ := ha
    rw [run_setIndex_length_of_additions hgrow (run_additions hw),
      Heap.items_of_le ((convert_adds _ _).le_of_run hw) (hs.items hdecl).1]
  · rw [run_setIndex_length hgrow]
    exact (Adds.bind (additions_adds _ _) fun _ => .bind (.get _) fun _ =>
      .bind (make_adds _ _) fun _ => .pure _).le h

/-- An array of arrays of floating-point numbers, which is empty, and an array of any values that
holds an array of integers twice. -/
def integersTwice : Heap :=
  ⟨#[.items [], .items [.int 1],
    .items [.array ⟨.int, false, false, 1⟩, .array ⟨.int, false, false, 1⟩]]⟩

theorem integersTwice_sound : integersTwice.Sound .untyped
    ⟨[.array (.array .float) false 0, .array .int false 1, .array .any false 2]⟩ where
  size := rfl
  fits := by
    rintro (_ | _ | _ | b) d s hd hs <;> cases hd <;> cases hs <;>
      refine ⟨rfl, fun v hv => ⟨?_, trivial⟩⟩
    · cases hv
    · obtain rfl := List.mem_singleton.1 hv
      trivial
    · obtain rfl : v = .array ⟨.int, false, false, 1⟩ := by simpa using hv
      exact ⟨1, rfl⟩

/-- The array of any values is no array of floating-point numbers, since an array is no number. Each
of its elements is one, and two of them are made. -/
theorem setIndex_length_array_integersTwice :
    let a : ArrayRef := ⟨.array .float, false, false, 0⟩
    let source : ArrayRef := ⟨.any, false, false, 2⟩
    ∃ h' c h'' R, (a.setIndex 0 (.array source)).run integersTwice =
        (.ok (.replaced (.array ⟨.array .float, false, false, 5⟩)), h') ∧
      h'.get? 5 = some (.items
        [.array ⟨.float, false, false, 3⟩, .array ⟨.float, false, false, 4⟩]) ∧
      Appends a integersTwice (integersTwice.items source) c h'' ∧ Heap.Paired 3 R h' h'' ∧
      List.Forall₂ (Value.Alike R) (h'.itemsAt 5) (h''.items c) := by
  intro a source
  have hnot : ¬ (convert (.array .float) (.array source)).Succeeds integersTwice :=
    not_succeeds_iff.2 ⟨.ofCause (.typeConversion (.array .int) .float), by decide +kernel⟩
  let result := (a.setIndex 0 (.array source)).run integersTwice
  have hrun : result = (.ok (.replaced (.array ⟨.array .float, false, false, 5⟩)), result.2) := by
    decide +kernel
  obtain ⟨hbulk, -, -⟩ := setIndex_length_array integersTwice_sound (a := a) ⟨0, rfl⟩ rfl
    (v := .array source) ⟨2, rfl⟩ rfl
  obtain ⟨address, c, h'', R, hm, -, happends, hpaired, halike⟩ := (hbulk hnot).2 _ _ hrun
  cases hm
  exact ⟨result.2, c, h'', R, hrun, by decide +kernel, happends, hpaired, halike⟩

end ArrayRef

end TenantScript
