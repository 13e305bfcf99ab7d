import TenantScript.Proofs.Unfailing

/-!
Sessions. A host makes values, binds them, gives commands with what it knows and learns what they
result in. Main statement: however a session goes on, arrays and structs keep their length and maps
their keys, the references to one array agree on how it was made, and no access of any command
fails.
-/

open Relation TenantScript.Action

namespace TenantScript

/-- A running script and the values that its host knows. -/
structure Session where
  state : State
  known : Value → Prop

namespace Session

/-- A session in which nothing is bound, stored or known. -/
def start : Session := ⟨⟨.empty, .empty, 0⟩, fun _ => False⟩

/-- The session when one more value is known. -/
def learn (s : Session) (v : Value) : Session := { s with known := fun u => s.known u ∨ u = v }

/-- The session in a heap with one more storage. -/
def push (s : Session) (t : Storage) : Session :=
  { s with state := { s.state with heap := s.state.heap.push t } }

/-- The session in another environment. -/
def withEnv (s : Session) (env : Environment) : Session :=
  { s with state := { s.state with env } }

/-- One step of a session. -/
inductive Step : Session → Session → Prop
  | plain {s : Session} {v : Value} (h : v.ref? = none) : Step s (s.learn v)
  | wrap {s : Session} {v : Value} (h : s.known v) : Step s (s.learn (.interface v))
  | unwrap {s : Session} {v : Value} (h : s.known (.interface v)) : Step s (s.learn v)
  | array {s : Session} {vs : List Value} (elem : Ty) (fixed : Bool) (h : ∀ v ∈ vs, s.known v) :
    Step s ((s.push (.items vs)).learn (.array ⟨elem, fixed, false, s.state.heap.size⟩))
  | map {s : Session} {m : SortedMap MapKey Value} (key value : Ty)
    (h : ∀ e ∈ m.entries, s.known e.2) :
    Step s ((s.push (.entries m)).learn (.map ⟨key, value, some s.state.heap.size⟩))
  | pointer {s : Session} {v : Value} (elem : Ty) (h : s.known v) :
    Step s ((s.push (.cell v)).learn (.pointer ⟨elem, some s.state.heap.size⟩))
  | readOnly {s : Session} {a : ArrayRef} (h : s.known (.array a)) :
    Step s (s.learn (.array a.asReadOnly))
  | read {s : Session} {u v : Value} {a : Address} {t : Storage} (hu : s.known u)
    (ha : u.ref? = some a) (ht : s.state.heap.get? a = some t) (hv : v ∈ t.values) :
    Step s (s.learn v)
  | enter (s : Session) : Step s (s.withEnv s.state.env.push)
  | leave (s : Session) : Step s (s.withEnv s.state.env.pop)
  | define {s : Session} {v : Value} (name : Name) (h : s.known v) :
    Step s (s.withEnv (s.state.env.define name v))
  | set {s : Session} {v : Value} {name : Name} {env : Environment} (h : s.known v)
    (henv : s.state.env.set? name v = some env) : Step s (s.withEnv env)
  | lookup {s : Session} {v : Value} {name : Name} (h : s.state.env.lookup? name = some v) :
    Step s (s.learn v)
  | command {s : Session} (c : Command) (h : ∀ v ∈ c.values, s.known v) :
    Step s ⟨(c.run.run s.state).2, fun u => s.known u ∨ (c.run.run s.state).1 = .ok u⟩

/-- The session after a command. -/
def after (s : Session) (c : Command) : Session :=
  ⟨(c.run.run s.state).2, fun u => s.known u ∨ (c.run.run s.state).1 = .ok u⟩

/-- Whether a value is known, bound or stored, perhaps behind interfaces. -/
def Handles (s : Session) (v : Value) : Prop :=
  ∃ u, u.bare = v ∧ (s.known u ∨ (∃ scope ∈ s.state.env.scopes, ∃ e ∈ scope.entries, e.2 = u) ∨
    ∃ a t, s.state.heap.get? a = some t ∧ u ∈ t.values)

end Session

/-! ### What is held in a session -/

namespace Session

variable {s s' : Session} {w w' : Holding .untyped}

/-- Whether a holding has the heap of the session and all that is bound or known in it. -/
structure Held (s : Session) (w : Holding .untyped) : Prop where
  meets : w.Meets s.state
  known : ∀ v, s.known v → w.Has v

theorem Held.mono (h : s.Held w) (hle : w ≤ w') (hheap : w'.heap = w.heap) : s.Held w' :=
  ⟨⟨hheap.trans h.meets.heap, fun scope hscope e he => (h.meets.env scope hscope e he).mono hle⟩,
    fun v hv => (h.known v hv).mono hle⟩

theorem Held.learn (h : s.Held w) {v : Value} (hv : w.Has v) : (s.learn v).Held w := by
  refine ⟨h.meets, ?_⟩
  rintro u (hu | rfl)
  · exact h.known u hu
  · exact hv

theorem Held.withEnv (h : s.Held w) {env : Environment}
    (henv : ∀ scope ∈ env.scopes, ∀ e ∈ scope.entries, w.Has e.2) : (s.withEnv env).Held w :=
  ⟨⟨h.meets.heap, henv⟩, h.known⟩

/-- Making a storage of what is known. -/
theorem Held.made (h : s.Held w) {d : Decl} {t : Storage} {v : Value} (hmade : w.Makes d t v) :
    ∃ w', w ≤ w' ∧ ((s.push t).learn v).Held w' := by
  have hle := Holding.le_of_step (.make hmade)
  refine ⟨.make hmade, hle, .learn ⟨⟨?_, fun scope hscope e he => ?_⟩, fun u hu => ?_⟩
    hmade.has_made⟩
  · exact congrArg (Heap.push · t) h.meets.heap
  · exact (h.meets.env scope hscope e he).mono hle
  · exact (h.known u hu).mono hle

theorem Held.assigned (h : s.Held w) (name : Name) {v : Value} (hv : s.known v) :
    (s.withEnv (s.state.env.assign name v)).Held w := by
  refine h.withEnv fun scope hscope e he => ?_
  rcases Environment.mem_entries_assign hscope he with rfl | ⟨old, hold, he⟩
  · exact h.known v hv
  · exact h.meets.env old hold e he

end Session

theorem Environment.mem_entries_define {env : Environment} {name : Name} {v : Value} {scope : Scope}
    {e : Name × Value} (hscope : scope ∈ (env.define name v).scopes) (he : e ∈ scope.entries) :
    e = (name, v) ∨ ∃ old ∈ env.scopes, e ∈ old.entries := by
  rcases env with ⟨_ | ⟨inner, outer⟩, globals⟩
  · obtain rfl := List.mem_singleton.1 hscope
    rcases SortedMap.mem_insert he with he | he
    · exact .inl he
    · exact .inr ⟨globals, List.mem_singleton.2 rfl, he⟩
  · rcases List.mem_cons.1 hscope with rfl | hscope
    · rcases SortedMap.mem_insert he with he | he
      · exact .inl he
      · exact .inr ⟨inner, List.mem_cons_self, he⟩
    · exact .inr ⟨scope, List.mem_cons_of_mem _ hscope, he⟩

namespace Session

variable {s s' : Session} {w w' : Holding .untyped}

/-- Every step of a session goes in steps of what is held in it. -/
theorem Step.exists_held (hstep : s.Step s') (h : s.Held w) : ∃ w', w ≤ w' ∧ s'.Held w' := by
  have hheap : s.state.heap = w.heap := h.meets.heap.symm
  have supplies {ty : Ty} {v : Value} (hv : s.known v) : w.Supplies ty v := ⟨h.known v hv, trivial⟩
  cases hstep with
  | plain hv => exact ⟨w, le_rfl, h.learn (Holding.has_of_ref? hv)⟩
  | wrap hv => exact ⟨w, le_rfl, h.learn (Holding.has_interface.2 (h.known _ hv))⟩
  | unwrap hv => exact ⟨w, le_rfl, h.learn (Holding.has_interface.1 (h.known _ hv))⟩
  | array elem fixed hvs =>
    rw [hheap]
    exact h.made (.array elem fixed fun v hv => supplies (hvs v hv))
  | map key value hm =>
    rw [hheap]
    exact h.made (.map key value fun e he => ⟨trivial, supplies (hm e he)⟩)
  | pointer elem hv =>
    rw [hheap]
    exact h.made (.pointer elem (h.known _ hv))
  | readOnly ha =>
    have hlook := Holding.le_of_step (.look w)
    exact ⟨w.look, hlook, (h.mono hlook rfl).learn (Holding.Offers.readOnly (h.known _ ha)).has⟩
  | read hu ha ht hv =>
    rw [hheap] at ht
    have hlook := Holding.le_of_step (.look w)
    exact ⟨w.look, hlook,
      (h.mono hlook rfl).learn (Holding.Offers.stored (h.known _ hu) ha ht hv).has⟩
  | enter =>
    refine ⟨w, le_rfl, h.withEnv fun scope hscope e he => ?_⟩
    rcases List.mem_cons.1 hscope with rfl | hscope
    · cases he
    · exact h.meets.env scope hscope e he
  | leave =>
    refine ⟨w, le_rfl, h.withEnv fun scope hscope e he => h.meets.env scope ?_ e he⟩
    simp only [Environment.scopes, Environment.pop, List.mem_append] at hscope ⊢
    exact hscope.imp_left List.mem_of_mem_tail
  | define name hv =>
    refine ⟨w, le_rfl, h.withEnv fun scope hscope e he => ?_⟩
    rcases Environment.mem_entries_define hscope he with rfl | ⟨old, hold, he⟩
    · exact h.known _ hv
    · exact h.meets.env old hold e he
  | @set v name env hv henv =>
    have hassign : s.state.env.assign name v = env := by rw [Environment.assign, henv]; rfl
    exact ⟨w, le_rfl, hassign ▸ h.assigned name hv⟩
  | lookup hv =>
    obtain ⟨scope, hscope, he⟩ := Environment.exists_entry_of_lookup? hv
    exact ⟨w, le_rfl, h.learn (h.meets.env scope hscope _ he)⟩
  | command c hc =>
    obtain ⟨w', hle, hmeets, hresult⟩ :=
      c.run_steps (fun v hv => h.known v (hc v hv)) s.state h.meets
    refine ⟨w', hle, hmeets, ?_⟩
    rintro u (hu | hu)
    · exact (h.known u hu).mono hle
    · exact hresult u hu

/-- However a session goes on, it goes in steps of what is held. -/
theorem exists_held_of_steps (hsteps : ReflTransGen Step s s') (h : s.Held w) :
    ∃ w', w ≤ w' ∧ s'.Held w' := by
  induction hsteps with
  | refl => exact ⟨w, le_rfl, h⟩
  | tail _ hstep ih =>
    obtain ⟨w₁, hle₁, h₁⟩ := ih
    obtain ⟨w₂, hle₂, h₂⟩ := hstep.exists_held h₁
    exact ⟨w₂, hle₁.trans hle₂, h₂⟩

/-- Of a session that was started something is held. -/
theorem exists_held (h : ReflTransGen Step start s) : ∃ w, s.Held w := by
  let w : Holding .untyped :=
    ⟨⟨[]⟩, .empty, fun _ => False, Heap.Sound.empty .untyped, fun _ hv => hv.elim⟩
  have hstart : start.Held w := by
    refine ⟨⟨rfl, fun scope hscope e he => ?_⟩, fun _ hv => hv.elim⟩
    obtain rfl := List.mem_singleton.1 hscope
    cases he
  obtain ⟨w', -, hs⟩ := exists_held_of_steps h hstart
  exact ⟨w', hs⟩

theorem Held.fits_of_handles (h : s.Held w) {v : Value} (hv : s.Handles v) : v.Fits w.layout := by
  obtain ⟨u, rfl, hu | ⟨scope, hscope, e, he, rfl⟩ | ⟨a, t, ht, hu⟩⟩ := hv
  · exact (h.known u hu).fits.bare
  · exact (h.meets.env scope hscope e he).fits.bare
  · rw [← h.meets.heap] at ht
    obtain ⟨d, -, hfits⟩ := w.sound.exists_decl ht
    exact (hfits.values u hu).bare

end Session

/-! ### How storages develop -/

/-- Whether a storage is what another one has become: an array or a struct of its length, or a map
with all its keys. -/
def Storage.Develops : Storage → Storage → Prop
  | items vs, items ws => ws.length = vs.length
  | entries m, entries n => ∀ k, (m.get? k).isSome → (n.get? k).isSome
  | fields vs, fields ws => ws.length = vs.length
  | cell _, cell _ => True
  | _, _ => False

theorem Storage.Develops.refl (s : Storage) : s.Develops s := by
  cases s with
  | entries m => exact fun _ => id
  | cell v => trivial
  | _ => exact Eq.refl _

theorem Storage.Develops.trans {s t u : Storage} (h : s.Develops t) (h' : t.Develops u) :
    s.Develops u := by
  cases s <;> cases t <;> first | exact h.elim | skip
  all_goals cases u <;> first | exact h'.elim | skip
  case items.items.items => exact Eq.trans h' h
  case entries.entries.entries => exact fun k hk => h' k (h k hk)
  case fields.fields.fields => exact Eq.trans h' h
  case cell.cell.cell => trivial

theorem Storage.develops_set (s : Storage) (p : Position) (v : Value) : s.Develops (s.set p v) := by
  cases s with
  | items vs =>
    cases p with
    | item i => exact List.length_set
    | _ => exact .refl _
  | entries m =>
    cases p with
    | entry k =>
      intro l hl
      by_cases hlk : l = k
      · subst hlk
        rw [SortedMap.get?_insert_self]
        rfl
      · rwa [SortedMap.get?_insert_ne m v hlk]
    | _ => exact .refl _
  | fields vs =>
    cases p with
    | field i => exact List.length_set
    | _ => exact .refl _
  | cell u => cases p <;> trivial

/-- Every storage develops. -/
theorem Holding.exists_develops {D : Discipline} {w w' : Holding D} (hle : w ≤ w') :
    ∀ a s, w.heap.get? a = some s → ∃ s', w'.heap.get? a = some s' ∧ s.Develops s' := by
  refine induction_on_le (P := fun u => ∀ a s, w.heap.get? a = some s →
    ∃ s', u.heap.get? a = some s' ∧ s.Develops s') hle (fun hstep ih a s hs => ?_)
    fun a s hs => ⟨s, hs, .refl s⟩
  obtain ⟨t, ht, hdev⟩ := ih a s hs
  cases hstep with
  | look => exact ⟨t, ht, hdev⟩
  | make => exact ⟨t, (Heap.get?_push_of_lt _ (Heap.lt_size_of_get? ht)).trans ht, hdev⟩
  | @write slot v hslot =>
    by_cases ha : a = slot.address
    · subst ha
      obtain ⟨t', ht', hroom⟩ := Heap.Sound.hasRoom (Holding.sound _) hslot.takes
      cases ht.symm.trans ht'
      exact ⟨_, Heap.get?_store_self ht hroom, hdev.trans (Storage.develops_set t _ v)⟩
    · exact ⟨t, (Heap.get?_store_ne _ _ _ ha).trans ht, hdev⟩

/-- However a session goes on that was started, each storage that there was is an array or a struct
of the same length, a map with at least the same keys, or a cell; each reference to a struct leads
to as many values as the struct has fields; two references to one array agree on its elements and
on whether it is fixed; and each command that is given what is known runs, with all its accesses
tested, as it does without the tests, whatever is done where a test fails. -/
theorem Session.shape_stable {s s' : Session} (hs : ReflTransGen Session.Step .start s)
    (hsteps : ReflTransGen Session.Step s s') :
    (∀ a t, s.state.heap.get? a = some t →
      ∃ t', s'.state.heap.get? a = some t' ∧ t.Develops t') ∧
    (∀ r, s'.Handles (.struct r) → ∃ vs, s'.state.heap.get? r.address = some (.fields vs) ∧
      vs.length = r.defn.fields.length) ∧
    (∀ a b, s'.Handles (.array a) → s'.Handles (.array b) → a.address = b.address →
      a.elem = b.elem ∧ a.fixed = b.fixed) ∧
    ∀ c : Command, (∀ v ∈ c.values, s'.known v) →
      ∀ failure, (Checked.run failure c).run s'.state = c.run.run s'.state := by
  obtain ⟨w, hw⟩ := exists_held hs
  obtain ⟨w', hle, hw'⟩ := exists_held_of_steps hsteps hw
  refine ⟨fun a t ht => ?_, fun r hr => ?_, fun a b ha hb hab => ?_, fun c hc failure => ?_⟩
  · rw [← hw.meets.heap] at ht
    rw [← hw'.meets.heap]
    exact Holding.exists_develops hle a t ht
  · obtain ⟨t, ht, hfits⟩ := w'.sound.exists_storage (hw'.fits_of_handles hr)
    cases t with
    | fields vs => exact ⟨vs, hw'.meets.heap ▸ ht, hfits.length_eq.symm⟩
    | _ => exact hfits.elim
  · obtain ⟨n, hn⟩ := hw'.fits_of_handles ha
    obtain ⟨m, hm⟩ := hw'.fits_of_handles hb
    have hdecl := Option.some.inj (hn.symm.trans (hab ▸ hm))
    simp only [Decl.array.injEq] at hdecl
    exact ⟨hdecl.1, hdecl.2.1⟩
  · exact Checked.run_agrees c (fun v hv => hw'.known v (hc v hv)) s'.state hw'.meets

namespace Session

/-- A fixed array of one number has been made and bound to a name. -/
def boundFixed : Session :=
  let made := ((start.learn (.int 1)).push (.items [.int 1])).learn (.array ⟨.int, true, false, 0⟩)
  made.withEnv (made.state.env.define "xs" (.array ⟨.int, true, false, 0⟩))

theorem boundFixed_started : ReflTransGen Step start boundFixed := by
  have hint : Step start (start.learn (.int 1)) := .plain rfl
  have harray : Step (start.learn (.int 1)) (((start.learn (.int 1)).push (.items [.int 1])).learn
      (.array ⟨.int, true, false, 0⟩)) :=
    .array .int true fun v hv => .inr (List.mem_singleton.1 hv)
  exact ((ReflTransGen.single hint).tail harray).tail (.define "xs" (.inr rfl))

/-- `xs[0] = 7`. -/
def setFirst : Command :=
  .assign 8 (.item (.ident "xs" .dummy) (.literal (.int 0) .dummy) .dummy) (.int 7)

/-- The element of the fixed array is written, after a test that does not fail. -/
theorem shape_stable_setFirst :
    ∃ s', ReflTransGen Step boundFixed s' ∧ s'.state.heap.itemsAt 0 = [.int 7] ∧
      (∃ t', s'.state.heap.get? 0 = some t' ∧ (Storage.items [.int 1]).Develops t') ∧
      ∀ failure, (Checked.run failure setFirst).run s'.state = setFirst.run.run s'.state := by
  have hseven : Step boundFixed (boundFixed.learn (.int 7)) := .plain rfl
  have hset : Step (boundFixed.learn (.int 7)) _ :=
    .command setFirst fun v hv => .inr (List.mem_singleton.1 hv)
  have hsteps := (ReflTransGen.single hseven).tail hset
  obtain ⟨hdevelops, -, -, hchecked⟩ := shape_stable boundFixed_started hsteps
  exact ⟨_, hsteps, by decide +kernel, hdevelops 0 _ rfl,
    hchecked setFirst fun v hv => .inl (.inr (List.mem_singleton.1 hv))⟩

end Session

end TenantScript
