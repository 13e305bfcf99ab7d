import TenantScript.Proofs.PlaceSlots
import TenantScript.Proofs.Ranges

/-!
Where replacements go. A target is evaluated to read the container, and evaluated once more to
store the replacement for it. Main statement: if nothing is assigned in the target, the replacement
goes into the slot that the container was read from, provided that this slot was there before the
assignment; a slot of a copy that the first evaluation made is not written, but one of the copy that
the second evaluation makes. Where the target assigns, the two evaluations can differ in the slot.
-/

open TenantScript.Action

namespace TenantScript

variable {limit : Nat} {t c : Expr} {v w u : Value} {st st₁ st₂ : State} {slot origin : Slot}

/-- Only a member or an item is a slot that is not a cell. -/
theorem container_of_write {ev : Expr → Run Value}
    (h : (link ev t v).run st = (.ok (.last (.write slot u)), st₁))
    (hposition : slot.position ≠ .cell) : ∃ c, t.container? = some c := by
  cases t with
  | member object field span => exact ⟨object, rfl⟩
  | item collection index span => exact ⟨collection, rfl⟩
  | ident name span =>
    obtain ⟨env, s, -, h⟩ := exists_of_run_bind h
    split at h <;> cases h
  | slice collection low high span =>
    obtain ⟨a, start, values, hl⟩ := link_slice ev ⟨_, _, _, _, rfl⟩ v st _ (congrArg Prod.fst h)
    cases hl
  | deref pointer span =>
    obtain ⟨p, s, -, h⟩ := exists_of_run_bind h
    obtain ⟨cell, heap, hcell, h⟩ := Run.exists_of_run_onHeap_bind h
    cases h
    cases pointeeSlot_at hcell
    exact (hposition rfl).elim
  | _ => cases h

/-- The slot that a container is stored into in place is, shifted, the one that the container was
read from when it was evaluated before. -/
theorem readFrom_of_write {D : Discipline} {Γ : Layout} {s : State} (hst : st.Sound D Γ)
    (hle : st ≤ st₁) (hc : c.isAssignFree = true) (hu : (evaluate limit c).run st = (.ok u, s))
    (hlast : (link (evaluate limit) c v).run st₁ = (.ok (.last (.write slot w)), st₂))
    (hposition : slot.position ≠ .cell) :
    ∃ origin, c.ReadFrom limit st origin ∧
      slot = origin.shift ⟨st.heap.size, st₁.heap.size - st.heap.size⟩ := by
  obtain ⟨d, hd⟩ := container_of_write hlast hposition
  obtain ⟨room, s₁, hroom, hnode, -⟩ := node_of_evaluateWithin hu
  obtain ⟨pl, s₂, hplace, -⟩ := exists_place_of_evaluateNode (Expr.isPlace_of_container hd) hnode
  have hroom' : room ≤ limit - st₁.depth := by
    rw [hle.2.1]
    omega
  have hat := State.shiftedAt_of_le hst hle (st.depth + 1)
  obtain ⟨pl', s', hplace', -, rfl⟩ :=
    place_follows (fun _ he => evaluate_follows hroom' he) c hc _ _ hat pl s₂ hplace
  rw [link_of_place hd hplace'] at hlast
  obtain ⟨origin, horigin, hslot⟩ := (Place.at_of_link hlast hposition).of_shift
  exact ⟨origin, ⟨room, pl, s₂, hroom, hplace, horigin⟩, hslot⟩

/-- A replacement that is stored in place goes into the slot that the container was read from, or
both slots lie in what the assignment has made. -/
theorem replacement_into_origin (limit : Nat) (t c : Expr) (v w u : Value) (st st₁ st₂ : State)
    (slot : Slot) (Γ : Layout) (hst : st.Sound .untyped Γ) (ht : t.isAssignFree = true)
    (hpass : (link (evaluate limit) t v).run st = (.ok (.pass c w), st₁))
    (hlast : (link (evaluate limit) c w).run st₁ = (.ok (.last (.write slot u)), st₂))
    (hposition : slot.position ≠ .cell) :
    (assign (evaluate limit) t v).run st = (.ok u, (Store.write slot u).apply st₂) ∧
      ∃ origin, c.ReadFrom limit st origin ∧
        (origin.address < st.heap.size ∧ slot = origin ∨
          st.heap.size ≤ origin.address ∧ st₁.heap.size ≤ slot.address) := by
  have hc := link_yields (evaluate limit) v t st _ (congrArg Prod.fst hpass) c w rfl
  have hle := (link_adds (fun _ h => evaluate_adds limit h) t v ht).le_of_run hpass
  obtain ⟨r, s, hr⟩ := container_of_pass hc hpass
  obtain ⟨origin, hread, rfl⟩ := readFrom_of_write hst hle (Expr.isAssignFree_container hc ht) hr
    hlast hposition
  refine ⟨(Chain.pass hpass hc (.last hlast)).run_assign, origin, hread, ?_⟩
  rcases Nat.lt_or_ge origin.address st.heap.size with hlt | hge
  · exact .inl ⟨hlt, congrArg (Slot.mk · origin.position) (if_pos hlt)⟩
  · have hsize := Heap.size_le_of_le hle.2.2
    refine .inr ⟨hge, ?_⟩
    show st₁.heap.size ≤ Gap.address _ origin.address
    rw [Gap.address, if_neg (Nat.not_lt.2 hge)]
    show st₁.heap.size ≤ origin.address + (st₁.heap.size - st.heap.size)
    omega

/-- A state with the rows `xs`, which are `[0]` and `["ab"]`, and the index `i`, which is zero. -/
def twoRows : State :=
  { env := ⟨[], (SortedMap.empty.insert "i" (.int 0)).insert "xs" (.array ⟨.any, false, false, 2⟩)⟩
    heap := ((Heap.empty.push (.items [.int 0])).push (.items [.str "ab"])).push
      (.items [.array ⟨.any, false, false, 0⟩, .array ⟨.any, false, false, 1⟩])
    depth := 0 }

theorem twoRows_sound : twoRows.Sound .untyped ((((Layout.mk []).push (.array .any false 1)).push
    (.array .any false 1)).push (.array .any false 2)) := by
  have hrow {Γ : Layout} {v : Value} (hv : v.Fits Γ) :
      (Storage.items [v]).Fits .untyped Γ (.array .any false 1) := by
    refine ⟨rfl, fun w hw => ⟨?_, trivial⟩⟩
    obtain rfl := List.mem_singleton.1 hw
    exact hv
  have hrows := ((Heap.Sound.empty .untyped).push (hrow (v := .int 0) trivial)).push
    (hrow (v := .str "ab") trivial)
  refine ⟨hrows.push ⟨rfl, fun v hv => ⟨?_, trivial⟩⟩, ?_⟩
  · simp only [List.mem_cons, List.not_mem_nil, or_false] at hv
    rcases hv with rfl | rfl <;> exact ⟨1, rfl⟩
  · intro scope hscope e he
    obtain rfl := List.mem_singleton.1 hscope
    rcases SortedMap.mem_insert he with rfl | he
    · exact ⟨2, rfl⟩
    · obtain rfl := List.mem_singleton.1 he
      trivial

/-- `xs[0]`. -/
def firstRow : Expr := .item (.ident "xs" .dummy) (.literal (.int 0) .dummy) .dummy

/-- The row that `xs[0][1] = 5` makes goes where the first row was. -/
theorem replacement_into_origin_firstRow : ∃ w st₁ st₂,
    let target : Expr := .item firstRow (.literal (.int 1) .dummy) .dummy
    (link (evaluate 8) target (.int 5)).run twoRows = (.ok (.pass firstRow w), st₁) ∧
      (assign (evaluate 8) target (.int 5)).run twoRows =
        (.ok w, (Store.write ⟨2, .item 0⟩ w).apply st₂) ∧
      ∃ origin, firstRow.ReadFrom 8 twoRows origin ∧
        (origin.address < twoRows.heap.size ∧ ⟨2, .item 0⟩ = origin ∨
          twoRows.heap.size ≤ origin.address ∧ st₁.heap.size ≤ 2) :=
  ⟨_, _, _, rfl, replacement_into_origin 8 _ _ _ _ _ _ _ _ _ _ twoRows_sound (by decide) rfl rfl
    (by decide)⟩

/-- `xs[[i, i = 1][0]]`. -/
def movingRow : Expr :=
  .item (.ident "xs" .dummy)
    (.item
      (.array [.ident "i" .dummy, .assign (.ident "i" .dummy) (.literal (.int 1) .dummy) .dummy]
        .dummy)
      (.literal (.int 0) .dummy) .dummy)
    .dummy

/-- In `xs[[i, i = 1][0]][1] = 5` the first row is read and grown, and the second one is
overwritten. -/
theorem movingRow_misses_origin : ∃ w st₁ st₂,
    (link (evaluate 8) (.item movingRow (.literal (.int 1) .dummy) .dummy) (.int 5)).run twoRows =
        (.ok (.pass movingRow w), st₁) ∧
      (link (evaluate 8) movingRow w).run st₁ = (.ok (.last (.write ⟨2, .item 1⟩ w)), st₂) ∧
      movingRow.ReadFrom 8 twoRows ⟨2, .item 0⟩ := by
  refine ⟨_, _, _, rfl, rfl, 7, .item (.array ⟨.any, false, false, 2⟩) (.int 0), _, rfl, rfl, ?_⟩
  exact .item (a := ⟨.any, false, false, 2⟩) (n := 0) rfl rfl (by decide)

end TenantScript
