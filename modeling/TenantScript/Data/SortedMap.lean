/-!
Finite maps held as association lists in strictly increasing key order. A key has at most one
entry. The view of a map is the partial function `get?`: the main statements say what `insert` and
`erase` do to it, and that two maps with the same view are equal.
-/

namespace TenantScript

/-- A finite map from `κ` to `α`: its entries, in strictly increasing key order. -/
structure SortedMap (κ : Type) (α : Type) [Ord κ] where
  entries : List (κ × α)
  increasing : entries.Pairwise fun a b => compare a.1 b.1 = .lt

namespace SortedMap

variable {κ α : Type} [Ord κ]

theorem ext {m n : SortedMap κ α} (h : m.entries = n.entries) : m = n := by
  cases m; cases n; cases h; rfl

instance [DecidableEq κ] [DecidableEq α] : DecidableEq (SortedMap κ α) := fun m n =>
  if h : m.entries = n.entries then isTrue (ext h) else isFalse fun e => h (e ▸ rfl)

/-- The map without entries. -/
def empty : SortedMap κ α := ⟨[], .nil⟩

instance : Inhabited (SortedMap κ α) := ⟨empty⟩

/-- The number of entries. -/
def size (m : SortedMap κ α) : Nat := m.entries.length

/-- Whether there are no entries. -/
def isEmpty (m : SortedMap κ α) : Bool := m.entries.isEmpty

/-- The keys, in increasing order. -/
def keys (m : SortedMap κ α) : List κ := m.entries.map (·.1)

/-- The value of the first entry with key `k`. -/
def find (k : κ) : List (κ × α) → Option α
  | [] => none
  | (k', v) :: rest => if compare k k' = .eq then some v else find k rest

/-- The value bound to `k`. -/
def get? (m : SortedMap κ α) (k : κ) : Option α := find k m.entries

/-- Whether `k` is bound. -/
def contains (m : SortedMap κ α) (k : κ) : Bool := (m.get? k).isSome

/-- Puts an entry at its place, over an entry with the same key. -/
def place (k : κ) (v : α) : List (κ × α) → List (κ × α)
  | [] => [(k, v)]
  | (k', v') :: rest =>
    match compare k k' with
    | .lt => (k, v) :: (k', v') :: rest
    | .eq => (k, v) :: rest
    | .gt => (k', v') :: place k v rest

/-- Unbinds `k`. -/
def erase (m : SortedMap κ α) (k : κ) : SortedMap κ α :=
  ⟨m.entries.filter fun e => compare k e.1 != .eq, m.increasing.filter _⟩

/-- The map with `f` applied to every value. -/
def map {β : Type} (f : α → β) (m : SortedMap κ α) : SortedMap κ β :=
  ⟨m.entries.map fun e => (e.1, f e.2), List.pairwise_map.2 m.increasing⟩

theorem find_map {β : Type} (f : α → β) (k : κ) : (l : List (κ × α)) →
    find k (l.map fun e => (e.1, f e.2)) = (find k l).map f
  | [] => rfl
  | (k', v') :: rest => by
    rw [List.map_cons, find, find]
    split
    · rfl
    · exact find_map f k rest

theorem get?_map {β : Type} (f : α → β) (m : SortedMap κ α) (k : κ) :
    (m.map f).get? k = (m.get? k).map f := find_map f k m.entries

@[simp] theorem get?_empty (k : κ) : (empty : SortedMap κ α).get? k = none := rfl

theorem keys_increasing (m : SortedMap κ α) :
    m.keys.Pairwise fun a b => compare a b = .lt :=
  List.pairwise_map.2 m.increasing

theorem mem_place {k : κ} {v : α} {e : κ × α} :
    {l : List (κ × α)} → e ∈ place k v l → e = (k, v) ∨ e ∈ l
  | [], h => by simpa [place] using h
  | (k', v') :: rest, h => by
    rw [place] at h
    split at h
    · simpa using h
    · rcases List.mem_cons.1 h with h | h
      · exact .inl h
      · exact .inr (List.mem_cons_of_mem _ h)
    · rcases List.mem_cons.1 h with h | h
      · exact .inr (h ▸ List.mem_cons_self)
      · exact (mem_place h).imp id (List.mem_cons_of_mem _)

theorem find_filter_self (k : κ) : (l : List (κ × α)) →
    find k (l.filter fun e => compare k e.1 != .eq) = none
  | [] => rfl
  | (k', v') :: rest => by
    by_cases h : compare k k' = .eq <;> simp [h, find, find_filter_self k rest]

@[simp] theorem get?_erase_self (m : SortedMap κ α) (k : κ) : (m.erase k).get? k = none :=
  find_filter_self k _

/-- A key below every key of a list is not found in it. -/
theorem find_of_lt {k : κ} : {l : List (κ × α)} → (∀ e ∈ l, compare k e.1 = .lt) →
    find k l = none
  | [], _ => rfl
  | (k', v') :: rest, h => by
    rw [find, if_neg (by simp [h _ List.mem_cons_self])]
    exact find_of_lt fun e he => h e (List.mem_cons_of_mem _ he)

/-- A key above every key of a list goes to the end. -/
theorem place_of_lt [Std.OrientedOrd κ] {k : κ} (v : α) : {l : List (κ × α)} →
    (∀ e ∈ l, compare e.1 k = .lt) → place k v l = l ++ [(k, v)]
  | [], _ => rfl
  | (k', v') :: rest, h => by
    have hgt : compare k k' = .gt := Std.OrientedCmp.gt_of_lt (h _ List.mem_cons_self)
    rw [place, hgt]
    exact congrArg _ (place_of_lt v fun e he => h e (List.mem_cons_of_mem _ he))

section Find

variable [Std.LawfulEqOrd κ]

theorem find_cons_self (k : κ) (v : α) (rest : List (κ × α)) :
    find k ((k, v) :: rest) = some v := by simp [find]

theorem find_cons_ne {k k' : κ} (v : α) (rest : List (κ × α)) (h : k' ≠ k) :
    find k' ((k, v) :: rest) = find k' rest := by
  rw [find, if_neg fun e => h (Std.LawfulEqCmp.eq_of_compare e)]

theorem find_place_self (k : κ) (v : α) : (l : List (κ × α)) → find k (place k v l) = some v
  | [] => find_cons_self k v []
  | (k', v') :: rest => by
    rw [place]
    split
    · exact find_cons_self k v _
    · exact find_cons_self k v _
    · next h => simp [find, h, find_place_self k v rest]

theorem find_place_ne {k k' : κ} (v : α) (h : k' ≠ k) :
    (l : List (κ × α)) → find k' (place k v l) = find k' l
  | [] => find_cons_ne v [] h
  | (k₁, v₁) :: rest => by
    rw [place]
    split
    · exact find_cons_ne v _ h
    · next h₁ =>
      have := Std.LawfulEqCmp.eq_of_compare h₁
      subst this
      rw [find_cons_ne v rest h, find_cons_ne v₁ rest h]
    · simp [find, find_place_ne v h rest]

theorem find_filter_ne {k k' : κ} (h : k' ≠ k) : (l : List (κ × α)) →
    find k' (l.filter fun e => compare k e.1 != .eq) = find k' l
  | [] => rfl
  | (k₁, v₁) :: rest => by
    by_cases hk : compare k k₁ = .eq
    · have := Std.LawfulEqCmp.eq_of_compare hk
      subst this
      rw [find_cons_ne v₁ rest h, ← find_filter_ne h rest]
      simp
    · simp [hk, find, find_filter_ne h rest]

theorem get?_erase_ne (m : SortedMap κ α) {k k' : κ} (h : k' ≠ k) :
    (m.erase k).get? k' = m.get? k' := find_filter_ne h _

theorem get?_erase [DecidableEq κ] (m : SortedMap κ α) (k k' : κ) :
    (m.erase k).get? k' = if k' = k then none else m.get? k' := by
  split
  · next h => subst h; exact get?_erase_self m k'
  · next h => exact get?_erase_ne m h

theorem mem_of_find {k : κ} {v : α} : {l : List (κ × α)} → find k l = some v → (k, v) ∈ l
  | [], h => by simp [find] at h
  | (k', v') :: rest, h => by
    rw [find] at h
    split at h
    · next hc =>
      have := Std.LawfulEqCmp.eq_of_compare hc
      subst this
      cases h
      exact List.mem_cons_self
    · exact List.mem_cons_of_mem _ (mem_of_find h)

theorem find_of_mem {k : κ} {v : α} : {l : List (κ × α)} →
    l.Pairwise (fun a b => compare a.1 b.1 = .lt) → (k, v) ∈ l → find k l = some v
  | (k', v') :: rest, hs, h => by
    rcases List.mem_cons.1 h with h | h
    · cases h; exact find_cons_self k v rest
    · have hlt := (List.pairwise_cons.1 hs).1 _ h
      rw [find_cons_ne v' rest fun e => by simp [e] at hlt]
      exact find_of_mem (List.pairwise_cons.1 hs).2 h

/-- A binding of the map is an entry of it. -/
theorem get?_eq_some_iff {m : SortedMap κ α} {k : κ} {v : α} :
    m.get? k = some v ↔ (k, v) ∈ m.entries :=
  ⟨mem_of_find, find_of_mem m.increasing⟩

theorem mem_keys_iff {m : SortedMap κ α} {k : κ} : k ∈ m.keys ↔ (m.get? k).isSome := by
  rw [Option.isSome_iff_exists]
  simp [keys, get?_eq_some_iff]

theorem nodup_keys (m : SortedMap κ α) : m.keys.Nodup := by
  refine m.keys_increasing.imp fun h e => ?_
  subst e
  simp at h

end Find

section Order

variable [Std.TransOrd κ] [Std.LawfulEqOrd κ]

theorem place_increasing (k : κ) (v : α) : (l : List (κ × α)) →
    l.Pairwise (fun a b => compare a.1 b.1 = .lt) →
      (place k v l).Pairwise fun a b => compare a.1 b.1 = .lt
  | [], _ => by simp [place]
  | (k', v') :: rest, h => by
    have hRest := (List.pairwise_cons.1 h).2
    have hHead := (List.pairwise_cons.1 h).1
    rw [place]
    split
    · next hc =>
      refine List.pairwise_cons.2 ⟨fun e he => ?_, h⟩
      rcases List.mem_cons.1 he with he | he
      · exact he ▸ hc
      · exact Std.TransCmp.lt_trans hc (hHead e he)
    · next hc =>
      have hk := Std.LawfulEqCmp.eq_of_compare hc
      subst hk
      exact List.pairwise_cons.2 ⟨hHead, hRest⟩
    · next hc =>
      refine List.pairwise_cons.2 ⟨fun e he => ?_, place_increasing k v rest hRest⟩
      rcases mem_place he with he | he
      · exact he ▸ Std.OrientedCmp.lt_of_gt hc
      · exact hHead e he

/-- Binds `k` to `v`, over any binding that `k` had. -/
def insert (m : SortedMap κ α) (k : κ) (v : α) : SortedMap κ α :=
  ⟨place k v m.entries, place_increasing k v _ m.increasing⟩

/-- The map of a list of bindings, of which a later one wins. -/
def ofList (bindings : List (κ × α)) : SortedMap κ α :=
  bindings.foldl (fun m e => m.insert e.1 e.2) empty

theorem mem_insert {m : SortedMap κ α} {k : κ} {v : α} {e : κ × α}
    (h : e ∈ (m.insert k v).entries) : e = (k, v) ∨ e ∈ m.entries := mem_place h

/-- An entry of the map of a list of bindings is one of the bindings. -/
theorem mem_ofList {bindings : List (κ × α)} {e : κ × α} (h : e ∈ (ofList bindings).entries) :
    e ∈ bindings := by
  have key : ∀ (l : List (κ × α)) (m : SortedMap κ α),
      e ∈ (l.foldl (fun m e => m.insert e.1 e.2) m).entries → e ∈ m.entries ∨ e ∈ l := by
    intro l
    induction l with
    | nil => exact fun m h => .inl h
    | cons b l ih =>
      intro m h
      rcases ih _ h with h | h
      · rcases mem_insert h with rfl | h
        · exact .inr List.mem_cons_self
        · exact .inl h
      · exact .inr (List.mem_cons_of_mem _ h)
  rcases key bindings empty h with h | h
  · cases h
  · exact h

/-- Bindings in increasing key order are the entries of their map. -/
theorem entries_ofList {bindings : List (κ × α)}
    (h : bindings.Pairwise fun a b => compare a.1 b.1 = .lt) :
    (ofList bindings).entries = bindings := by
  have key : ∀ (l : List (κ × α)) (m : SortedMap κ α),
      (m.entries ++ l).Pairwise (fun a b => compare a.1 b.1 = .lt) →
        (l.foldl (fun m e => m.insert e.1 e.2) m).entries = m.entries ++ l := by
    intro l
    induction l with
    | nil => exact fun m _ => (List.append_nil _).symm
    | cons b l ih =>
      intro m hm
      have hlast : (m.insert b.1 b.2).entries = m.entries ++ [b] :=
        place_of_lt b.2 fun e he => (List.pairwise_append.1 hm).2.2 e he b List.mem_cons_self
      have happend : (m.insert b.1 b.2).entries ++ l = m.entries ++ b :: l := by
        rw [hlast, List.append_assoc, List.singleton_append]
      rw [List.foldl_cons, ih _ (happend ▸ hm), happend]
  exact key bindings empty h

@[simp] theorem get?_insert_self (m : SortedMap κ α) (k : κ) (v : α) :
    (m.insert k v).get? k = some v := find_place_self k v _

theorem get?_insert_ne (m : SortedMap κ α) {k k' : κ} (v : α) (h : k' ≠ k) :
    (m.insert k v).get? k' = m.get? k' := find_place_ne v h _

theorem get?_insert [DecidableEq κ] (m : SortedMap κ α) (k k' : κ) (v : α) :
    (m.insert k v).get? k' = if k' = k then some v else m.get? k' := by
  split
  · next h => subst h; exact get?_insert_self m k' v
  · next h => exact get?_insert_ne m v h

theorem eq_of_find : {l₁ l₂ : List (κ × α)} →
    l₁.Pairwise (fun a b => compare a.1 b.1 = .lt) →
    l₂.Pairwise (fun a b => compare a.1 b.1 = .lt) → (∀ k, find k l₁ = find k l₂) → l₁ = l₂
  | [], [], _, _, _ => rfl
  | [], (k, v) :: rest, _, _, h => by
    have := h k
    rw [find_cons_self] at this
    cases this
  | (k, v) :: rest, [], _, _, h => by
    have := h k
    rw [find_cons_self] at this
    cases this
  | (k₁, v₁) :: r₁, (k₂, v₂) :: r₂, h₁, h₂, h => by
    have ⟨hHead₁, hRest₁⟩ := List.pairwise_cons.1 h₁
    have ⟨hHead₂, hRest₂⟩ := List.pairwise_cons.1 h₂
    have below {k k' : κ} {r : List (κ × α)} (hc : compare k k' = .lt)
        (hr : ∀ e ∈ r, compare k' e.1 = .lt) : find k r = none :=
      find_of_lt fun e he => Std.TransCmp.lt_trans hc (hr e he)
    match hc : compare k₁ k₂ with
    | .lt =>
      have := h k₁
      rw [find_cons_self, find_cons_ne v₂ r₂ fun e => by simp [e] at hc, below hc hHead₂] at this
      cases this
    | .gt =>
      have hc' := Std.OrientedCmp.lt_of_gt hc
      have := h k₂
      rw [find_cons_self, find_cons_ne v₁ r₁ fun e => by simp [e] at hc', below hc' hHead₁] at this
      cases this
    | .eq =>
      have := Std.LawfulEqCmp.eq_of_compare hc
      subst this
      have hv := h k₁
      rw [find_cons_self, find_cons_self] at hv
      cases hv
      congr 1
      refine eq_of_find hRest₁ hRest₂ fun k => ?_
      cases hk : compare k₁ k with
      | eq =>
        have := Std.LawfulEqCmp.eq_of_compare hk
        subst this
        rw [find_of_lt hHead₁, find_of_lt hHead₂]
      | lt | gt =>
        have hne : k ≠ k₁ := fun e => by simp [e] at hk
        have := h k
        rwa [find_cons_ne v₁ r₁ hne, find_cons_ne v₁ r₂ hne] at this

/-- Maps with the same view are equal. -/
theorem ext_get? {m n : SortedMap κ α} (h : ∀ k, m.get? k = n.get? k) : m = n :=
  ext (eq_of_find m.increasing n.increasing h)

/-- Bindings of different keys can be made in either order. -/
theorem insert_comm (m : SortedMap κ α) {k k' : κ} (v v' : α) (h : k ≠ k') :
    (m.insert k v).insert k' v' = (m.insert k' v').insert k v := by
  refine ext_get? fun j => ?_
  by_cases hj : j = k'
  · subst hj
    rw [get?_insert_self, get?_insert_ne _ v h.symm, get?_insert_self]
  · rw [get?_insert_ne _ v' hj]
    by_cases hk : j = k
    · subst hk
      rw [get?_insert_self, get?_insert_self]
    · rw [get?_insert_ne _ v hk, get?_insert_ne _ v hk, get?_insert_ne _ v' hj]

/-- The last value that is inserted under a key stays. -/
theorem insert_insert (m : SortedMap κ α) (k : κ) (v w : α) :
    (m.insert k v).insert k w = m.insert k w := by
  refine ext_get? fun j => ?_
  by_cases hj : j = k
  · rw [hj, get?_insert_self, get?_insert_self]
  · rw [get?_insert_ne _ w hj, get?_insert_ne _ v hj, get?_insert_ne _ w hj]

/-- Inserting what is there changes nothing. -/
theorem insert_of_get? {m : SortedMap κ α} {k : κ} {v : α} (h : m.get? k = some v) :
    m.insert k v = m := by
  refine ext_get? fun k' => ?_
  by_cases hk : k' = k
  · rw [hk, get?_insert_self, h]
  · exact get?_insert_ne m v hk

end Order

end SortedMap

end TenantScript
