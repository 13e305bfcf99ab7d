import Mathlib.Order.Monotone.Defs
import TenantScript.Proofs.Reach
import TenantScript.Proofs.Rebuilding

/-!
Two heaps that are the same but for where storages lie. Some addresses of the one are paired, one to
one, with addresses of the other one, so that paired storages hold the same, but for paired
addresses. Main statement: what is converted in the one heap is converted in the other one too, with
the same result but for addresses, and what is made for it is paired.
-/

open TenantScript.Action

namespace TenantScript

/-- A relation between the addresses of two heaps. -/
abbrev Pairing := Address → Address → Prop

/-- One more pair. -/
def Pairing.add (R : Pairing) (a b : Address) : Pairing := fun c d => R c d ∨ c = a ∧ d = b

variable {R S : Pairing}

theorem Pairing.le_add (R : Pairing) (a b : Address) : R ≤ R.add a b := fun _ _ => .inl

theorem Pairing.add_self (R : Pairing) (a b : Address) : R.add a b a b := .inr ⟨rfl, rfl⟩

/-! ### Values that are alike -/

/-- Whether two values are the same but for addresses, which are paired. -/
inductive Value.Alike (R : Pairing) : Value → Value → Prop
  | plain {v : Value} (hv : v.ref? = none) : Alike R v v
  | array {elem : Ty} {fixed readOnly : Bool} {a b : Address} (hab : R a b) :
      Alike R (.array ⟨elem, fixed, readOnly, a⟩) (.array ⟨elem, fixed, readOnly, b⟩)
  | map {key value : Ty} {a b : Address} (hab : R a b) :
      Alike R (.map ⟨key, value, some a⟩) (.map ⟨key, value, some b⟩)
  | struct {defn : StructDef} {a b : Address} (hab : R a b) :
      Alike R (.struct ⟨defn, a⟩) (.struct ⟨defn, b⟩)
  | pointer {elem : Ty} {a b : Address} (hab : R a b) :
      Alike R (.pointer ⟨elem, some a⟩) (.pointer ⟨elem, some b⟩)
  | interface {v w : Value} (h : Alike R v w) : Alike R (.interface v) (.interface w)

/-- Whether two entries of maps have one key, and values that are related. -/
def EntryAlike (P : Value → Value → Prop) (e e' : MapKey × Value) : Prop := e.1 = e'.1 ∧ P e.2 e'.2

/-- Whether two storages hold the same but for addresses. -/
inductive Storage.Alike (R : Pairing) : Storage → Storage → Prop
  | items {vs ws : List Value} (h : List.Forall₂ (Value.Alike R) vs ws) :
      Alike R (.items vs) (.items ws)
  | entries {m n : SortedMap MapKey Value}
      (h : List.Forall₂ (EntryAlike (Value.Alike R)) m.entries n.entries) :
      Alike R (.entries m) (.entries n)
  | fields {vs ws : List Value} (h : List.Forall₂ (Value.Alike R) vs ws) :
      Alike R (.fields vs) (.fields ws)
  | cell {v w : Value} (h : v.Alike R w) : Alike R (.cell v) (.cell w)

namespace Value

variable {v w : Value}

theorem Alike.mono (hle : R ≤ S) (h : v.Alike R w) : v.Alike S w := by
  induction h with
  | plain hv => exact .plain hv
  | array hab => exact .array (hle _ _ hab)
  | map hab => exact .map (hle _ _ hab)
  | struct hab => exact .struct (hle _ _ hab)
  | pointer hab => exact .pointer (hle _ _ hab)
  | interface _ ih => exact .interface ih

theorem alike_monotone : Monotone Alike := fun _ _ hle _ _ h => h.mono hle

theorem alike_self : {v : Value} → (∀ a, v.ref? = some a → R a a) → v.Alike R v
  | nil, _ | bool _, _ | int _, _ | float _, _ | str _, _ => .plain rfl
  | array _, h => .array (h _ rfl)
  | map ⟨_, _, none⟩, _ => .plain rfl
  | map ⟨_, _, some a⟩, h => .map (h a rfl)
  | struct _, h => .struct (h _ rfl)
  | pointer ⟨_, none⟩, _ => .plain rfl
  | pointer ⟨_, some a⟩, h => .pointer (h a rfl)
  | interface v, h => .interface (alike_self (v := v) h)

end Value

theorem entryAlike_monotone : Monotone fun R => EntryAlike (Value.Alike R) :=
  fun _ _ hle _ _ he => ⟨he.1, he.2.mono hle⟩

theorem Storage.Alike.mono (hle : R ≤ S) {s t : Storage} (h : s.Alike R t) : s.Alike S t := by
  cases h with
  | items h => exact .items (h.imp fun _ _ hv => hv.mono hle)
  | entries h => exact .entries (h.imp (entryAlike_monotone hle))
  | fields h => exact .fields (h.imp fun _ _ hv => hv.mono hle)
  | cell h => exact .cell (h.mono hle)

theorem Storage.alike_self {s : Storage} (h : ∀ v ∈ s.values, v.Alike R v) : s.Alike R s := by
  cases s with
  | items vs => exact .items (List.forall₂_same.2 h)
  | entries m =>
    exact .entries (List.forall₂_same.2 fun e he => ⟨rfl, h _ (List.mem_map.2 ⟨e, he, rfl⟩)⟩)
  | fields vs => exact .fields (List.forall₂_same.2 h)
  | cell v => exact .cell (h v List.mem_cons_self)

/-! ### Paired heaps -/

/-- Whether a relation pairs storages of two heaps that are alike, the first `n` with themselves. -/
structure Heap.Paired (n : Nat) (R : Pairing) (h h' : Heap) : Prop where
  old : ∀ a < n, R a a
  left : ∀ {a b c}, R a b → R a c → b = c
  right : ∀ {a b c}, R a c → R b c → a = b
  storages : ∀ {a b}, R a b → ∃ s t, h.get? a = some s ∧ h'.get? b = some t ∧ s.Alike R t

namespace Heap.Paired

variable {n : Nat} {g g' h h' : Heap}

/-- All storages of a sound heap are paired with themselves. -/
theorem of_sound {D : Discipline} {Γ : Layout} (hs : h.Sound D Γ) :
    Paired h.size (fun a b => a < h.size ∧ b = a) h h := by
  refine ⟨fun a ha => ⟨ha, rfl⟩, ?_, ?_, ?_⟩
  · rintro a b c ⟨-, rfl⟩ ⟨-, rfl⟩
    rfl
  · rintro a b c ⟨-, rfl⟩ ⟨-, rfl⟩
    rfl
  · rintro a b ⟨ha, rfl⟩
    obtain ⟨s, hget⟩ := Option.isSome_iff_exists.1 (get?_isSome_iff.2 ha)
    obtain ⟨d, -, hfits⟩ := hs.exists_decl hget
    refine ⟨s, s, hget, hget, Storage.alike_self fun v hv => Value.alike_self fun c hc => ?_⟩
    exact ⟨hs.size ▸ (hfits.values v hv).ref_lt hc, rfl⟩

theorem mono_left (hp : Paired n R h h') (hle : h ≤ g) : Paired n R g h' where
  old := hp.old
  left := hp.left
  right := hp.right
  storages hab := by
    obtain ⟨s, t, hs, ht, hst⟩ := hp.storages hab
    exact ⟨s, t, hle _ _ hs, ht, hst⟩

theorem mono_right (hp : Paired n R h h') (hle : h' ≤ g') : Paired n R h g' where
  old := hp.old
  left := hp.left
  right := hp.right
  storages hab := by
    obtain ⟨s, t, hs, ht, hst⟩ := hp.storages hab
    exact ⟨s, t, hs, hle _ _ ht, hst⟩

theorem lt_left (hp : Paired n R h h') {a b : Address} (hab : R a b) : a < h.size := by
  obtain ⟨s, t, hs, ht, hst⟩ := hp.storages hab
  exact lt_size_of_get? hs

theorem lt_right (hp : Paired n R h h') {a b : Address} (hab : R a b) : b < h'.size := by
  obtain ⟨s, t, hs, ht, hst⟩ := hp.storages hab
  exact lt_size_of_get? ht

/-- Storages that are alike are made in both heaps. -/
theorem push (hp : Paired n R h h') {s t : Storage} (hst : s.Alike R t) :
    Paired n (R.add h.size h'.size) (h.push s) (h'.push t) where
  old a ha := .inl (hp.old a ha)
  left := by
    rintro a b c (hab | ⟨ha, rfl⟩) (hac | ⟨ha', rfl⟩)
    · exact hp.left hab hac
    · exact (Nat.lt_irrefl _ (ha' ▸ hp.lt_left hab)).elim
    · exact (Nat.lt_irrefl _ (ha ▸ hp.lt_left hac)).elim
    · rfl
  right := by
    rintro a b c (hac | ⟨rfl, rfl⟩) (hbc | ⟨rfl, hc⟩)
    · exact hp.right hac hbc
    · exact (Nat.lt_irrefl _ (hc ▸ hp.lt_right hac)).elim
    · exact (Nat.lt_irrefl _ (hp.lt_right hbc)).elim
    · rfl
  storages := by
    rintro a b (hab | ⟨rfl, rfl⟩)
    · obtain ⟨u, u', hu, hu', halike⟩ := hp.storages hab
      exact ⟨u, u', le_push h s _ _ hu, le_push h' t _ _ hu', halike.mono (R.le_add _ _)⟩
    · exact ⟨s, t, get?_push_self h s, get?_push_self h' t, hst.mono (R.le_add _ _)⟩

theorem itemsAt (hp : Paired n R h h') {a b : Address} (hab : R a b) :
    List.Forall₂ (Value.Alike R) (h.itemsAt a) (h'.itemsAt b) := by
  obtain ⟨s, t, hs, ht, hst⟩ := hp.storages hab
  rw [Heap.itemsAt, Heap.itemsAt, hs, ht]
  cases hst with
  | items h => exact h
  | _ => exact .nil

theorem entriesAt (hp : Paired n R h h') {a b : Address} (hab : R a b) :
    List.Forall₂ (EntryAlike (Value.Alike R)) (h.entriesAt a).entries
      (h'.entriesAt b).entries := by
  obtain ⟨s, t, hs, ht, hst⟩ := hp.storages hab
  rw [Heap.entriesAt, Heap.entriesAt, hs, ht]
  cases hst with
  | entries h => exact h
  | _ => exact .nil

end Heap.Paired

/-! ### Actions in paired heaps -/

/-- Where the first action has a result in a heap, the second one has one in every heap that is
paired with it, and the heaps stay paired, also where more has been made. -/
def Mirrors {α β : Type} (n : Nat) (R : Pairing) (x : Action Heap α) (y : Action Heap β)
    (Q : Pairing → α → β → Prop) : Prop :=
  ∀ h h', Heap.Paired n R h h' → ∀ a g, x.run h = (.ok a, g) →
    ∃ S b g', R ≤ S ∧ y.run h' = (.ok b, g') ∧ Heap.Paired n S g g' ∧ Q S a b

namespace Mirrors

variable {α β γ δ : Type} {n : Nat} {x : Action Heap α} {y : Action Heap β}
  {P Q : Pairing → α → β → Prop}

theorem pure {a : α} {b : β} (h : Q R a b) :
    Mirrors n R (pure a : Action Heap α) (pure b : Action Heap β) Q := by
  intro h₀ h' hp a' g hrun
  cases hrun
  exact ⟨R, b, h', le_rfl, rfl, hp, h⟩

theorem fail (cause : Cause) (y : Action Heap β) : Mirrors n R (fail cause) y Q :=
  fun _ _ _ _ _ hrun => nomatch hrun

theorem get {f : Heap → α} {f' : Heap → β}
    (h : ∀ g g', Heap.Paired n R g g' → Q R (f g) (f' g')) : Mirrors n R (get f) (get f') Q := by
  intro g g' hp a g₁ hrun
  cases hrun
  exact ⟨R, f' g', g', le_rfl, rfl, hp, h g g' hp⟩

theorem bind {f : α → Action Heap γ} {f' : β → Action Heap δ} {Q : Pairing → γ → δ → Prop}
    (hx : Mirrors n R x y P) (hf : ∀ S, R ≤ S → ∀ a b, P S a b → Mirrors n S (f a) (f' b) Q) :
    Mirrors n R (x >>= f) (y >>= f') Q := by
  intro h h' hp c g hrun
  obtain ⟨a, h₁, hfirst, hsecond⟩ := exists_of_run_bind hrun
  obtain ⟨S, b, h₁', hS, hy, hp₁, hab⟩ := hx h h' hp a h₁ hfirst
  obtain ⟨T, d, g', hT, hd, hp₂, hcd⟩ := hf S hS a b hab h₁ h₁' hp₁ c g hsecond
  exact ⟨T, d, g', hS.trans hT, (run_bind_ok f' hy).trans hd, hp₂, hcd⟩

theorem mapM {f : α → Action Heap γ} {f' : β → Action Heap δ} {Q : Pairing → γ → δ → Prop}
    (hP : Monotone P) (hQ : Monotone Q) (hf : ∀ S a b, P S a b → Mirrors n S (f a) (f' b) Q)
    {as : List α} {bs : List β}
    (h : List.Forall₂ (P R) as bs) :
    Mirrors n R (as.mapM f) (bs.mapM f') fun S => List.Forall₂ (Q S) := by
  induction as generalizing R bs with
  | nil =>
    cases h
    rw [List.mapM_nil, List.mapM_nil]
    exact pure .nil
  | cons a as ih =>
    cases h with
    | cons hab has =>
      rw [List.mapM_cons, List.mapM_cons]
      refine bind (hf R _ _ hab) fun S hS c d hcd => ?_
      refine bind (ih (has.imp fun a b => hP hS a b)) fun T hT cs ds hcs => ?_
      exact pure (.cons (hQ hT c d hcd) hcs)

theorem allocate {s t : Storage} (hst : s.Alike R t) :
    Mirrors n R (Heap.allocate s) (Heap.allocate t) fun S => S := by
  intro h h' hp a g hrun
  cases hrun
  exact ⟨R.add h.size h'.size, h'.size, h'.push t, R.le_add _ _, rfl, hp.push hst, R.add_self _ _⟩

end Mirrors

/-! ### Conversion in paired heaps -/

section Convert

variable {n : Nat}

theorem ArrayRef.make_mirrors (elem : Ty) {vs ws : List Value}
    (h : List.Forall₂ (Value.Alike R) vs ws) :
    Mirrors n R (make elem vs) (make elem ws) fun S a b =>
      (Value.array a).Alike S (.array b) :=
  .bind (.allocate (.items h)) fun _ _ _ _ hab => .pure (.array hab)

theorem MapRef.make_mirrors (key value : Ty) {m m' : SortedMap MapKey Value}
    (h : List.Forall₂ (EntryAlike (Value.Alike R)) m.entries m'.entries) :
    Mirrors n R (make key value m) (make key value m') fun S a b =>
      (Value.map a).Alike S (.map b) :=
  .bind (.allocate (.entries h)) fun _ _ _ _ hab => .pure (.map hab)

/-- Entries that are alike are placed alike. -/
theorem SortedMap.forall₂_place {P : Value → Value → Prop} {k : MapKey} {v w : Value}
    (hvw : P v w) {es es' : List (MapKey × Value)} (h : List.Forall₂ (EntryAlike P) es es') :
    List.Forall₂ (EntryAlike P) (place k v es) (place k w es') := by
  induction h with
  | nil => exact .cons ⟨rfl, hvw⟩ .nil
  | @cons e e' es es' he hes ih =>
    rw [place, place, he.1]
    split
    · exact .cons ⟨rfl, hvw⟩ (.cons ⟨rfl, he.2⟩ hes)
    · exact .cons ⟨rfl, hvw⟩ hes
    · exact .cons ⟨rfl, he.2⟩ ih

theorem SortedMap.forall₂_ofList {P : Value → Value → Prop} {es es' : List (MapKey × Value)}
    (h : List.Forall₂ (EntryAlike P) es es') :
    List.Forall₂ (EntryAlike P) (ofList es).entries (ofList es').entries := by
  have key (m m' : SortedMap MapKey Value) (hm : List.Forall₂ (EntryAlike P) m.entries m'.entries) :
      List.Forall₂ (EntryAlike P) (es.foldl (fun m e => m.insert e.1 e.2) m).entries
        (es'.foldl (fun m e => m.insert e.1 e.2) m').entries := by
    induction h generalizing m m' with
    | nil => exact hm
    | @cons e e' es es' he _ ih =>
      have hplaced := forall₂_place (k := e'.1) he.2 hm
      exact ih (m.insert e.1 e.2) (m'.insert e'.1 e'.2) (he.1.symm ▸ hplaced)
  exact key _ _ .nil

theorem convertEntry_mirrors {key value : Ty} {e e' : MapKey × Value}
    (hvalue : Mirrors n R (convert value e.2) (convert value e'.2) Value.Alike) (he : e.1 = e'.1) :
    Mirrors n R (convertEntry key value e) (convertEntry key value e') fun S =>
      EntryAlike (Value.Alike S) := by
  intro h h' hp c g hrun
  obtain ⟨k, h₁, hk, hrest⟩ := exists_of_run_bind hrun
  obtain ⟨w, h₂, hw, hpair⟩ := exists_of_run_bind hrest
  obtain ⟨hkey, rfl, rfl⟩ := takesKey_of_run hk
  cases hpair
  obtain ⟨S, w', g', hS, hw', hp', halike⟩ := hvalue _ h' hp w g hw
  refine ⟨S, (e'.1, w'), g', hS, ?_, hp', he, halike⟩
  unfold convertEntry
  rw [convertKey_toValue (he ▸ hkey), pure_bind, run_bind_ok _ hw', run_pure]

theorem convert_mirrors_of_conforms {ty : Ty} {v w : Value} (h : v.Alike R w)
    (hv : v.conforms ty = true) (hw : w.conforms ty = true) :
    Mirrors n R (convert ty v) (convert ty w) Value.Alike := by
  rw [convert_of_conforms hv, convert_of_conforms hw]
  exact .pure h

/-- What has no reference is converted alike. -/
theorem convert_mirrors_plain (ty : Ty) {v : Value} (hv : v.ref? = none) :
    Mirrors n R (convert ty v) (convert ty v) Value.Alike := by
  induction v with
  | interface v ih =>
    cases ty with
    | any => exact .pure (.plain hv)
    | _ => exact ih hv
  | array | struct => cases hv
  | nil =>
    cases ty with
    | array elem => exact .bind (ArrayRef.make_mirrors elem .nil) fun _ _ _ _ hab => .pure hab
    | _ => first | exact .pure (.plain rfl) | exact .fail _ _
  | map m =>
    by_cases hm : (Value.map m).conforms ty = true
    · exact convert_mirrors_of_conforms (.plain hv) hm hm
    · cases ty with
      | map key value =>
        have hnil : m.isNil = true := Option.isNone_iff_eq_none.2 hv
        rw [convert_nilMap_of_ne (fun htypes => hm (Value.conforms_map.2 htypes)) hnil]
        exact .pure (.plain rfl)
      | any => exact (hm rfl).elim
      | _ => exact .fail _ _
  | pointer p =>
    by_cases hp : (Value.pointer p).conforms ty = true
    · exact convert_mirrors_of_conforms (.plain hv) hp hp
    · cases ty with
      | pointer elem =>
        simp only [convert, Value.bare, if_neg fun helem => hp (Value.conforms_pointer.2 helem)]
        exact .fail _ _
      | any => exact (hp rfl).elim
      | _ => exact .fail _ _
  | _ => cases ty <;> first | exact .pure (.plain rfl) | exact .fail _ _

/-- What is converted in one heap is converted in the other one, with the same result but for
addresses. -/
theorem convert_mirrors (ty : Ty) {v w : Value} (h : v.Alike R w) :
    Mirrors n R (convert ty v) (convert ty w) Value.Alike := by
  induction ty generalizing R v w with
  | any => exact .pure h
  | array elem ih =>
    induction h with
    | plain hv => exact convert_mirrors_plain _ hv
    | interface _ ihv => exact ihv
    | @array elem' fixed readOnly a b hab =>
      by_cases helem : elem' = elem
      · exact convert_mirrors_of_conforms (.array hab) (Value.conforms_array.2 helem)
          (Value.conforms_array.2 helem)
      · rw [convert_array_of_ne helem, convert_array_of_ne helem]
        refine .bind (P := fun S => List.Forall₂ (Value.Alike S))
          (.get fun g g' hp => hp.itemsAt hab) fun S hS items items' hitems => ?_
        refine .bind (.mapM Value.alike_monotone Value.alike_monotone (fun T a b => ih) hitems)
          fun T hT vs ws hvs => ?_
        exact .bind (ArrayRef.make_mirrors elem hvs) fun _ _ _ _ hab => .pure hab
    | _ => exact .fail _ _
  | map key value ihkey ihvalue =>
    induction h with
    | plain hv => exact convert_mirrors_plain _ hv
    | interface _ ihv => exact ihv
    | @map key' value' a b hab =>
      by_cases htypes : key' = key ∧ value' = value
      · exact convert_mirrors_of_conforms (.map hab) (Value.conforms_map.2 htypes)
          (Value.conforms_map.2 htypes)
      · rw [convert_map_of_ne htypes rfl, convert_map_of_ne htypes rfl]
        refine .bind (P := fun S m m' =>
            List.Forall₂ (EntryAlike (Value.Alike S)) m.entries m'.entries)
          (.get fun g g' hp => hp.entriesAt hab) fun S hS entries entries' hentries => ?_
        refine .bind (.mapM entryAlike_monotone entryAlike_monotone
          (fun T e e' he => convertEntry_mirrors (ihvalue he.2) he.1) hentries)
          fun T hT es es' hes => ?_
        exact .bind (MapRef.make_mirrors key value (SortedMap.forall₂_ofList hes))
          fun _ _ _ _ hab => .pure hab
    | _ => exact .fail _ _
  | struct name =>
    induction h with
    | plain hv => exact convert_mirrors_plain _ hv
    | interface _ ihv => exact ihv
    | @struct defn a b hab =>
      by_cases hname : defn.name = name
      · exact convert_mirrors_of_conforms (.struct hab) (Value.conforms_struct.2 hname)
          (Value.conforms_struct.2 hname)
      · simp only [convert, Value.bare, if_neg hname]
        exact .fail _ _
    | _ => exact .fail _ _
  | pointer elem =>
    induction h with
    | plain hv => exact convert_mirrors_plain _ hv
    | interface _ ihv => exact ihv
    | @pointer elem' a b hab =>
      by_cases helem : elem.isAny ∨ elem'.isAny ∨ elem' = elem
      · exact convert_mirrors_of_conforms (.pointer hab) (Value.conforms_pointer.2 helem)
          (Value.conforms_pointer.2 helem)
      · simp only [convert, Value.bare, if_neg helem]
        exact .fail _ _
    | _ => exact .fail _ _
  | _ =>
    induction h with
    | plain hv => exact convert_mirrors_plain _ hv
    | interface _ ihv => exact ihv
    | _ => exact .fail _ _

end Convert

end TenantScript
