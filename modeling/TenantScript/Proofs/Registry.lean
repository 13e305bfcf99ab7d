import Mathlib.Data.List.Nodup
import TenantScript.Host.Registry

/-!
Registries over time. Main statement: after any requests, granted or refused, the names and the ids
of a registry lead to the same functions; a function can be registered if and only if neither its
id nor its name is in use; and a function that is removed can be registered again, which brings
back the registry that there was.
-/

namespace TenantScript

namespace Registry

/-! ### Requests -/

/-- A request to a registry. -/
inductive Request where
  | register (f : Function)
  | remove (name : Name)
  deriving DecidableEq

/-- The registry after a request; one that is refused leaves it as it is. -/
def serve (r : Registry) : Request → Registry
  | .register f =>
    match r.register f with
    | .ok r' => r'
    | .error _ => r
  | .remove name => r.remove name

/-- The registry after requests to an empty one. -/
def ofRequests (requests : List Request) : Registry := requests.foldl serve empty

/-! ### The operations on the two maps -/

variable {r r' : Registry} {f : Function} {name : Name}

theorem ext_get? (hget : ∀ name, r.get? name = r'.get? name)
    (hnames : ∀ id, r.names.get? id = r'.names.get? id) : r = r' := by
  obtain ⟨byName, names⟩ := r
  obtain ⟨byName', names'⟩ := r'
  obtain rfl : byName = byName' := SortedMap.ext_get? hget
  obtain rfl : names = names' := SortedMap.ext_get? hnames
  rfl

/-- The registry with a function over those of its name and of its id. -/
def insert (r : Registry) (f : Function) : Registry :=
  ⟨r.byName.insert f.name f, r.names.insert f.id f.name⟩

/-- The registry without the function `f`, which has the name `name`. -/
def erase (r : Registry) (name : Name) (f : Function) : Registry :=
  ⟨r.byName.erase name, r.names.erase f.id⟩

theorem get?_insert (r : Registry) (f : Function) (name : Name) :
    (r.insert f).get? name = if name = f.name then some f else r.get? name :=
  r.byName.get?_insert f.name name f

theorem names_insert (r : Registry) (f : Function) (id : String) :
    (r.insert f).names.get? id = if id = f.id then some f.name else r.names.get? id :=
  r.names.get?_insert f.id id f.name

theorem get?_erase (r : Registry) (name other : Name) (f : Function) :
    (r.erase name f).get? other = if other = name then none else r.get? other :=
  r.byName.get?_erase name other

theorem names_erase (r : Registry) (name : Name) (f : Function) (id : String) :
    (r.erase name f).names.get? id = if id = f.id then none else r.names.get? id :=
  r.names.get?_erase f.id id

theorem register_of_used_id (h : r.names.get? f.id ≠ none) :
    r.register f = .error (.duplicateId f.id) := by
  simp [register, SortedMap.contains, Option.isSome_iff_ne_none, h]

theorem register_of_used_name (hid : r.names.get? f.id = none) (h : r.get? f.name ≠ none) :
    r.register f = .error (.duplicateName f.name) := by
  rw [get?] at h
  simp [register, SortedMap.contains, Option.isSome_iff_ne_none, hid, h]

theorem register_of_unused (hid : r.names.get? f.id = none) (h : r.get? f.name = none) :
    r.register f = .ok (r.insert f) := by
  rw [get?] at h
  simp [register, SortedMap.contains, hid, h, insert]

/-- Registering succeeds only with an unused id and an unused name. -/
theorem eq_insert_of_register (h : r.register f = .ok r') :
    r.names.get? f.id = none ∧ r.get? f.name = none ∧ r' = r.insert f := by
  by_cases hid : r.names.get? f.id = none
  · by_cases hname : r.get? f.name = none
    · rw [register_of_unused hid hname] at h
      cases h
      exact ⟨hid, hname, rfl⟩
    · rw [register_of_used_name hid hname] at h
      cases h
  · rw [register_of_used_id hid] at h
    cases h

theorem remove_of_unknown (h : r.get? name = none) : r.remove name = r := by
  rw [remove, h]

theorem remove_of_get? (h : r.get? name = some f) : r.remove name = r.erase name f := by
  rw [remove, h, erase]

/-! ### Names and ids -/

/-- The two maps of a registry are inverse to one another. -/
structure Inverse (r : Registry) : Prop where
  named : ∀ {name f}, r.get? name = some f → f.name = name ∧ r.names.get? f.id = some name
  identified : ∀ {id name}, r.names.get? id = some name → ∃ f, r.get? name = some f ∧ f.id = id

theorem inverse_empty : empty.Inverse := ⟨nofun, nofun⟩

theorem Inverse.insert (h : r.Inverse) (hid : r.names.get? f.id = none)
    (hname : r.get? f.name = none) : (r.insert f).Inverse where
  named {name g} hg := by
    rw [get?_insert] at hg
    rw [names_insert]
    split at hg
    · next heq =>
      cases hg
      exact ⟨heq.symm, by rw [if_pos rfl, heq]⟩
    · obtain ⟨hname, hg⟩ := h.named hg
      refine ⟨hname, ?_⟩
      rw [if_neg fun heq => by simp [heq, hid] at hg, hg]
  identified {id name} hn := by
    rw [names_insert] at hn
    rw [get?_insert]
    split at hn
    · next heq =>
      cases hn
      exact ⟨f, if_pos rfl, heq.symm⟩
    · obtain ⟨g, hg, hgid⟩ := h.identified hn
      refine ⟨g, ?_, hgid⟩
      rw [if_neg fun heq => by simp [heq, hname] at hg, hg]

theorem Inverse.erase (h : r.Inverse) (hf : r.get? name = some f) : (r.erase name f).Inverse where
  named {other g} hg := by
    rw [get?_erase] at hg
    rw [names_erase]
    split at hg
    · cases hg
    · next hne =>
      obtain ⟨hname, hg⟩ := h.named hg
      refine ⟨hname, ?_⟩
      -- a function with the id of `f` would have its name
      have hid : g.id ≠ f.id := by
        intro heq
        rw [heq, (h.named hf).2] at hg
        exact hne (Option.some.inj hg).symm
      rw [if_neg hid, hg]
  identified {id other} hn := by
    rw [names_erase] at hn
    rw [get?_erase]
    split at hn
    · cases hn
    · next hne =>
      obtain ⟨g, hg, hgid⟩ := h.identified hn
      refine ⟨g, ?_, hgid⟩
      have hname : other ≠ name := by
        rintro rfl
        rw [hf] at hg
        cases hg
        exact hne hgid.symm
      rw [if_neg hname, hg]

theorem Inverse.serve (h : r.Inverse) (request : Request) : (r.serve request).Inverse := by
  cases request with
  | register f =>
    rw [Registry.serve]
    split
    · next r' hr =>
      obtain ⟨hid, hname, rfl⟩ := eq_insert_of_register hr
      exact h.insert hid hname
    · exact h
  | remove name =>
    rw [Registry.serve]
    cases hf : r.get? name with
    | some f => exact remove_of_get? hf ▸ h.erase hf
    | none => exact (remove_of_unknown hf).symm ▸ h

theorem inverse_ofRequests (requests : List Request) : (ofRequests requests).Inverse := by
  have hrun (r : Registry) (h : r.Inverse) : (requests.foldl Registry.serve r).Inverse := by
    induction requests generalizing r with
    | nil => exact h
    | cons request requests ih => exact ih _ (h.serve request)
  exact hrun empty inverse_empty

namespace Inverse

theorem getById?_eq_some_iff (h : r.Inverse) {id : String} :
    r.getById? id = some f ↔ r.get? f.name = some f ∧ f.id = id := by
  rw [getById?, Option.bind_eq_some_iff]
  constructor
  · rintro ⟨name, hname, hf⟩
    obtain ⟨g, hg, hid⟩ := h.identified hname
    rw [hf] at hg
    cases hg
    exact ⟨(h.named hf).1.symm ▸ hf, hid⟩
  · rintro ⟨hf, rfl⟩
    exact ⟨f.name, (h.named hf).2, hf⟩

/-- No id is left behind without a function. -/
theorem getById?_eq_none_iff (h : r.Inverse) {id : String} :
    r.getById? id = none ↔ r.names.get? id = none := by
  rw [getById?]
  cases hname : r.names.get? id with
  | none => simp
  | some name =>
    obtain ⟨g, hg, -⟩ := h.identified hname
    simp [hg]

/-- The ids are those of the functions, so that both maps have as many entries. -/
theorem size_names (h : r.Inverse) : r.names.size = r.size := by
  have hnodup : (r.byName.entries.map fun e => e.2.id).Nodup := by
    refine List.Nodup.map_on (fun a ha b hb hid => ?_) (List.Nodup.of_map _ r.byName.nodup_keys)
    have ha := SortedMap.get?_eq_some_iff.2 ha
    have hb := SortedMap.get?_eq_some_iff.2 hb
    have hname := (h.named ha).2
    rw [hid, (h.named hb).2] at hname
    have hname : b.1 = a.1 := Option.some.inj hname
    rw [← hname, hb] at ha
    exact Prod.ext hname.symm (Option.some.inj ha).symm
  have hperm : r.names.keys.Perm (r.byName.entries.map fun e => e.2.id) := by
    refine (List.perm_ext_iff_of_nodup r.names.nodup_keys hnodup).2 fun id => ?_
    rw [SortedMap.mem_keys_iff, List.mem_map]
    constructor
    · intro hsome
      obtain ⟨name, hname⟩ := Option.isSome_iff_exists.1 hsome
      obtain ⟨g, hg, hid⟩ := h.identified hname
      exact ⟨(name, g), SortedMap.get?_eq_some_iff.1 hg, hid⟩
    · rintro ⟨⟨name, g⟩, hmem, rfl⟩
      rw [(h.named (SortedMap.get?_eq_some_iff.2 hmem)).2]
      rfl
  simpa [SortedMap.keys, SortedMap.size, size] using hperm.length_eq

end Inverse

/-! ### Main statement -/

/-- The functions of `r'` are `f` and those of `r`. -/
structure Adds (r : Registry) (f : Function) (r' : Registry) : Prop where
  get? : ∀ name, r'.get? name = if name = f.name then some f else r.get? name
  getById? : ∀ id, r'.getById? id = if id = f.id then some f else r.getById? id

theorem Inverse.adds_insert (h : r.Inverse) (hname : r.get? f.name = none) :
    r.Adds f (r.insert f) where
  get? := get?_insert r f
  getById? id := by
    rw [Registry.getById?, names_insert, Registry.getById?]
    split
    · exact (get?_insert r f f.name).trans (if_pos rfl)
    · cases hid : r.names.get? id with
      | none => rfl
      | some name =>
        obtain ⟨g, hg, -⟩ := h.identified hid
        refine (get?_insert r f name).trans (if_neg ?_)
        rintro rfl
        rw [hname] at hg
        cases hg

/-- Putting back what was taken away. -/
theorem Inverse.insert_erase (h : r.Inverse) (hf : r.get? name = some f) :
    (r.erase name f).insert f = r := by
  obtain ⟨hname, hid⟩ := h.named hf
  subst hname
  refine ext_get? (fun other => ?_) fun id => ?_
  · rw [get?_insert, get?_erase]
    split
    · next heq => rw [heq, hf]
    · rfl
  · rw [names_insert, names_erase]
    split
    · next heq => rw [heq, hid]
    · rfl

/-- What holds of a registry at any time. -/
structure Consistent (r : Registry) : Prop where
  named : ∀ {name f}, r.get? name = some f → f.name = name ∧ r.getById? f.id = some f
  identified : ∀ {id f}, r.getById? id = some f → f.id = id ∧ r.get? f.name = some f
  sorted : r.sortedNames.Pairwise fun m n => Name.order m n = .lt
  listed : ∀ {name}, name ∈ r.sortedNames ↔ ∃ f, r.get? name = some f
  counted : r.size = r.sortedNames.length ∧ r.size = r.names.size
  /-- A used id is reported, also if the name is used too. -/
  usedId : ∀ {f}, r.getById? f.id ≠ none → r.register f = .error (.duplicateId f.id)
  usedName : ∀ {f}, r.getById? f.id = none → r.get? f.name ≠ none →
    r.register f = .error (.duplicateName f.name)
  unused : ∀ {f}, r.getById? f.id = none → r.get? f.name = none →
    ∃ r', r.register f = .ok r' ∧ r.Adds f r'
  refused : ∀ {f e}, r.register f = .error e → r.serve (.register f) = r
  unknown : ∀ {name}, r.get? name = none → r.remove name = r
  /-- What is removed is away, with its id, and can be registered again. -/
  removed : ∀ {name f}, r.get? name = some f → (r.remove name).get? name = none ∧
    (r.remove name).getById? f.id = none ∧ (r.remove name).Adds f r ∧
      (r.remove name).register f = .ok r

/-- Whatever has been requested of a registry, it is consistent. -/
theorem consistent_ofRequests (requests : List Request) : (ofRequests requests).Consistent := by
  generalize hr : ofRequests requests = r
  have h : r.Inverse := hr ▸ inverse_ofRequests requests
  have hused {id : String} : r.getById? id ≠ none ↔ r.names.get? id ≠ none :=
    not_congr h.getById?_eq_none_iff
  refine ⟨fun {name f} hf => ?_, fun {id f} hf => ?_, r.byName.keys_increasing,
    fun {name} => ?_, ⟨?_, h.size_names.symm⟩, fun {f} hid => ?_, fun {f} hid hname => ?_,
    fun {f} hid hname => ?_, fun {f e} hrefused => ?_, remove_of_unknown, fun {name f} hf => ?_⟩
  · have hname := (h.named hf).1
    exact ⟨hname, h.getById?_eq_some_iff.2 ⟨hname.symm ▸ hf, rfl⟩⟩
  · exact (h.getById?_eq_some_iff.1 hf).symm
  · exact SortedMap.mem_keys_iff.trans Option.isSome_iff_exists
  · exact (List.length_map _).symm
  · exact register_of_used_id (hused.1 hid)
  · exact register_of_used_name (h.getById?_eq_none_iff.1 hid) hname
  · exact ⟨_, register_of_unused (h.getById?_eq_none_iff.1 hid) hname, h.adds_insert hname⟩
  · rw [serve, hrefused]
  · have hname := (h.named hf).1
    have herased : (r.erase name f).Inverse := h.erase hf
    have hget : (r.erase name f).get? f.name = none := by
      rw [get?_erase, if_pos hname]
    have hnames : (r.erase name f).names.get? f.id = none := by
      rw [names_erase, if_pos rfl]
    have hback := herased.adds_insert hget
    have hregister := register_of_unused hnames hget
    rw [h.insert_erase hf] at hback hregister
    rw [remove_of_get? hf]
    exact ⟨hname ▸ hget, herased.getById?_eq_none_iff.2 hnames, hback, hregister⟩

end Registry

end TenantScript
