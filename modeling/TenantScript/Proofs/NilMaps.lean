import TenantScript.Proofs.Conversion
import TenantScript.Proofs.Course
import TenantScript.Proofs.Link

/-!
Nil maps of maps. To assign to an item of a nil map makes a map with that one entry, which takes the
place of the nil map; where the nil map was itself read from one, the new map is assigned to it in
turn. Main statement: along any number of levels the maps are made from the innermost one outward,
each with the one key of its level, and the outermost one is what the name is then bound to.
-/

open TenantScript.Action

namespace TenantScript

/-! ### Levels -/

/-- One level of a nested map: the type of its keys, and an index with its value and the key that
this is converted to. -/
structure Level where
  declared : Ty
  index : Expr
  span : Span
  value : Value
  key : MapKey

namespace Level

/-- The type of a map with these levels over values of a type. -/
def types : List Level → Ty → Ty
  | [], ty => ty
  | l :: ls, ty => .map l.declared (types ls ty)

/-- The expression for an item at these levels. -/
def path (base : Expr) : List Level → Expr
  | [] => base
  | l :: ls => path (.item base l.index l.span) ls

/-- Whether the index has its value in a state, also when storages have been added, and the value
can be a key of the level. -/
structure Indexes (limit : Nat) (st : State) (l : Level) : Prop where
  value : ∀ g, st.heap ≤ g →
    (evaluate limit l.index).run { st with heap := g } = (.ok l.value, { st with heap := g })
  key : (convertKey l.declared l.value).run st.heap = (.ok l.key, st.heap)

end Level

/-- Whether a value consists of maps that have been made since the heap had some size, one at each
level with the one key of the level, around `w`. -/
inductive Nested (h : Heap) (size : Nat) (ty : Ty) (w : Value) : List Level → Value → Prop
  | value : Nested h size ty w [] w
  | level {l : Level} {ls : List Level} {a : Address} {m : SortedMap MapKey Value} {inner : Value}
    (hnew : size ≤ a) (hget : h.get? a = some (.entries m)) (hm : m.entries = [(l.key, inner)])
    (hinner : Nested h size ty w ls inner) :
    Nested h size ty w (l :: ls) (.map ⟨l.declared, Level.types ls ty, some a⟩)

theorem Nested.mono {h h' : Heap} {size : Nat} {ty : Ty} {w v : Value} {ls : List Level}
    (hle : h ≤ h') (hv : Nested h size ty w ls v) : Nested h' size ty w ls v := by
  induction hv with
  | value => exact .value
  | level hnew hget hm _ ih => exact .level hnew (hle _ _ hget) hm ih

/-! ### One nil map -/

section NilMap

variable {m : MapRef} {key v w : Value} {k : MapKey} {h h₁ : Heap}

theorem MapRef.run_read_nil (hm : m.address? = none)
    (hkey : (convertKey m.key key).run h = (.ok k, h)) :
    (m.read key).run h = (Value.zero m.value).run h := by
  unfold MapRef.read
  rw [run_bind_ok _ hkey, run_bind, run_get, Heap.entries, hm]
  rfl

/-- In place of a nil map a map with one entry is made. -/
theorem MapRef.run_planEntry_nil (hm : m.address? = none)
    (hkey : (convertKey m.key key).run h = (.ok k, h))
    (hconv : (convert m.value v).run h = (.ok w, h₁)) :
    (m.planEntry key v).run h = (.ok (.replace (.map ⟨m.key, m.value, some h₁.size⟩)),
      h₁.push (.entries (SortedMap.empty.insert k w))) := by
  unfold MapRef.planEntry
  rw [run_bind_ok _ hkey, run_bind_ok _ hconv, hm]
  rfl

end NilMap

/-! ### Evaluation deeper down -/

/-- An expression for which there is room at two depths does the same at both. -/
theorem run_evaluate_atDepth {limit d : Nat} {e : Expr} (st : State)
    (he : e.treeHeight ≤ limit - st.depth) (hd : e.treeHeight ≤ limit - d) :
    (evaluate limit e).run (st.atDepth d) =
      (((evaluate limit e).run st).1, ((evaluate limit e).run st).2.atDepth d) := by
  -- Both are compared with a run from the top that has just the room that there has to be.
  have hroom : e.treeHeight ≤ e.treeHeight - 0 := Nat.le_refl _
  have hhere : (deeper 0 st.depth).Rel (evaluate e.treeHeight e) (evaluate limit e) :=
    evaluate_deeper he e
  have hthere : (deeper 0 d).Rel (evaluate e.treeHeight e) (evaluate limit e) :=
    evaluate_deeper hd e
  obtain ⟨-, hdeep⟩ := evaluate_shallow hroom (st.atDepth 0) rfl
  have hst := (hhere (st.atDepth 0) rfl).2 hdeep
  rw [show (st.atDepth 0).atDepth st.depth = st from rfl] at hst
  rw [show st.atDepth d = (st.atDepth 0).atDepth d from rfl,
    (hthere (st.atDepth 0) rfl).2 hdeep, hst]
  rfl

/-- Whether the value of an expression is a nil map, wherever there is room for it and whatever
storages have been added. -/
def Expr.IsNilMap (limit : Nat) (st : State) (m : MapRef) (e : Expr) : Prop :=
  m.address? = none ∧ ∃ u, u.unwrap = .map m ∧ ∀ g d, st.heap ≤ g → e.treeHeight ≤ limit - d →
    (evaluate limit e).run ⟨st.env, g, d⟩ = (.ok u, ⟨st.env, g, d⟩)

section Path

variable {limit d : Nat} {st : State} {l : Level} {ls : List Level} {e : Expr} {g : Heap}
  {ty : Ty} {v w : Value} {h : Heap}

theorem Level.indexes_literal {declared : Ty} {literal : Literal} {span span' : Span} {key : MapKey}
    (hroom : st.depth < limit)
    (hkey : (convertKey declared literal.value).run st.heap = (.ok key, st.heap)) :
    Indexes limit st ⟨declared, .literal literal span, span', literal.value, key⟩ :=
  ⟨fun _ _ => run_evaluate_of_lt hroom rfl, hkey⟩

theorem Level.indexes_name {declared : Ty} {name : Name} {span span' : Span} {key : MapKey}
    (hroom : st.depth < limit) (hname : st.env.lookup? name = some v)
    (hkey : (convertKey declared v).run st.heap = (.ok key, st.heap)) :
    Indexes limit st ⟨declared, .ident name span, span', v, key⟩ :=
  ⟨fun _ _ => run_evaluate_name hroom hname, hkey⟩

theorem Level.Indexes.run (hl : l.Indexes limit st) (hg : st.heap ≤ g)
    (hroom : l.index.treeHeight ≤ limit - st.depth) (hd : l.index.treeHeight ≤ limit - d) :
    (evaluate limit l.index).run ⟨st.env, g, d⟩ = (.ok l.value, ⟨st.env, g, d⟩) := by
  have hrun := run_evaluate_atDepth { st with heap := g } hroom hd
  rw [hl.value g hg] at hrun
  exact hrun

theorem Level.Indexes.runKey (hl : l.Indexes limit st) (g : Heap) :
    (convertKey l.declared l.value).run g = (.ok l.key, g) :=
  (run_convertKey_of_run hl.key).2 g

/-- An item of a nil map of maps is a nil map. -/
theorem Expr.IsNilMap.item {key value : Ty} {span : Span}
    (he : e.IsNilMap limit st ⟨l.declared, .map key value, none⟩) (hl : l.Indexes limit st)
    (hroom : l.index.treeHeight ≤ limit - st.depth) :
    (Expr.item e l.index span).IsNilMap limit st ⟨key, value, none⟩ := by
  obtain ⟨-, u, hu, hrun⟩ := he
  refine ⟨rfl, .map ⟨key, value, none⟩, rfl, fun g d hg hd => ?_⟩
  rw [treeHeight] at hd
  apply run_evaluate_of_lt (by omega)
  rw [evaluateNode, run_bind_ok _ (hrun g (d + 1) hg (by omega)),
    run_bind_ok _ (hl.run hg hroom (by omega)), Run.run_onHeap, readItem, hu]
  simp only
  rw [MapRef.run_read_nil rfl (hl.runKey g)]
  rfl

/-- To assign to an item of a nil map is to assign a new map to where the nil map came from. -/
theorem Expr.IsNilMap.link_item {value : Ty} {span : Span} {g' : Heap}
    (he : e.IsNilMap limit st ⟨l.declared, value, none⟩) (hl : l.Indexes limit st)
    (hg : st.heap ≤ g) (hroom : (Expr.item e l.index span).treeHeight ≤ limit - st.depth)
    (hconv : (convert value v).run g = (.ok w, g')) :
    (link (evaluate limit) (.item e l.index span) v).run { st with heap := g } =
      (.ok (.pass e (.map ⟨l.declared, value, some g'.size⟩)),
        { st with heap := g'.push (.entries (SortedMap.empty.insert l.key w)) }) := by
  obtain ⟨-, u, hu, hrun⟩ := he
  rw [treeHeight] at hroom
  rw [link, run_bind_ok _ (hrun g st.depth hg (by omega)),
    run_bind_ok _ (hl.run hg (by omega) (by omega)), planItem, hu]
  rw [run_bind, Run.run_onHeap]
  simp only
  rw [MapRef.run_planEntry_nil rfl (hl.runKey g) hconv]
  rfl

theorem Level.treeHeight_le_path (base : Expr) (ls : List Level) :
    base.treeHeight ≤ (path base ls).treeHeight := by
  induction ls generalizing base with
  | nil => exact Nat.le_refl _
  | cons l ls ih =>
    have hitem := ih (.item base l.index l.span)
    rw [Expr.treeHeight] at hitem
    rw [path]
    omega

/-- An assignment to an item at several levels of nil maps goes on as an assignment to their base,
of maps one in the other around the value that was converted. -/
theorem exists_chain_path (hconv : (convert ty v).run st.heap = (.ok w, h))
    (hls : ∀ l ∈ ls, l.Indexes limit st)
    (hroom : (Level.path e ls).treeHeight ≤ limit - st.depth)
    (he : ∀ l ls', ls = l :: ls' →
      e.IsNilMap limit st ⟨l.declared, Level.types ls' ty, none⟩) :
    ∃ c c' g g', h ≤ g' ∧ st.heap ≤ g ∧ (convert (Level.types ls ty) c).run g = (.ok c', g') ∧
      Nested g' h.size ty w ls c' ∧ (ls ≠ [] → c' = c ∧ g' = g) ∧
      ∀ {store st'}, Chain (evaluate limit) e c { st with heap := g } store st' →
        Chain (evaluate limit) (Level.path e ls) v st store st' := by
  induction ls generalizing e with
  | nil =>
    exact ⟨v, w, st.heap, h, le_rfl, le_rfl, hconv, .value, fun hne => (hne rfl).elim, id⟩
  | cons l ls ih =>
    rw [List.forall_mem_cons] at hls
    have hbase := he l ls rfl
    have hitem : (Expr.item e l.index l.span).treeHeight ≤ limit - st.depth :=
      Nat.le_trans (Level.treeHeight_le_path _ ls) hroom
    have hindex : l.index.treeHeight ≤ limit - st.depth := by
      rw [Expr.treeHeight] at hitem
      omega
    obtain ⟨c, c', g, g', hle, hg, hc, hnested, -, hchain⟩ := ih hls.2 hroom (by
      rintro l' ls' rfl
      exact hbase.item hls.1 hindex)
    let r : Value := .map ⟨l.declared, Level.types ls ty, some g'.size⟩
    let made := g'.push (.entries (SortedMap.empty.insert l.key c'))
    have hpush : g' ≤ made := g'.le_push _
    have hconforms : r.conforms (.map l.declared (Level.types ls ty)) = true :=
      Value.conforms_map.2 ⟨rfl, rfl⟩
    refine ⟨r, r, made, made, hle.trans hpush, ?_, ?_, ?_, fun _ => ⟨rfl, rfl⟩, fun h => ?_⟩
    · exact (hg.trans ((convert_adds _ _).le_of_run hc)).trans hpush
    · rw [Level.types, convert_of_conforms hconforms]
      rfl
    · exact .level (Heap.size_le_of_le hle) (Heap.get?_push_self _ _) rfl (hnested.mono hpush)
    · exact hchain (.pass (hbase.link_item hls.1 hg hitem hc) rfl h)

end Path

/-! ### Main statement -/

/-- To assign a value to an item at one or more levels of a variable that is a nil map of maps makes
a map for each level, with the one key of the level and around the converted value, and binds the
variable to the outermost one, which is the result. It changes no other binding and no storage. -/
theorem assign_nil_map {limit : Nat} {st : State} {x : Name} {span : Span} {l : Level}
    {ls : List Level} {ty : Ty} {u v w : Value} {h : Heap} (hx : st.env.lookup? x = some u)
    (hu : u.unwrap = .map ⟨l.declared, Level.types ls ty, none⟩)
    (hlevels : ∀ k ∈ l :: ls, k.Indexes limit st)
    (hroom : (Level.path (.ident x span) (l :: ls)).treeHeight ≤ limit - st.depth)
    (hconv : (convert ty v).run st.heap = (.ok w, h)) :
    ∃ r st', (assign (evaluate limit) (Level.path (.ident x span) (l :: ls)) v).run st =
        (.ok r, st') ∧
      Nested st'.heap h.size ty w (l :: ls) r ∧ st'.env.lookup? x = some r ∧
      (∃ level, st.env.BindsAt level x r st'.env) ∧
      (∀ y, y ≠ x → st'.env.lookup? y = st.env.lookup? y) ∧
      st.heap ≤ st'.heap ∧ h ≤ st'.heap ∧ st'.depth = st.depth := by
  have hname : ∀ l' ls', l :: ls = l' :: ls' → (Expr.ident x span).IsNilMap limit st
      ⟨l'.declared, Level.types ls' ty, none⟩ := by
    rintro l' ls' heq
    cases heq
    refine ⟨rfl, u, hu, fun g d _ hd => run_evaluate_name ?_ hx⟩
    rw [Expr.treeHeight] at hd
    omega
  obtain ⟨c, c', g, g', hle, hg, -, hnested, hsame, hchain⟩ :=
    exists_chain_path hconv hlevels hroom hname
  obtain ⟨rfl, rfl⟩ := hsame (List.cons_ne_nil _ _)
  have hrun := (hchain (.last (run_link_ident hx))).run_assign
  refine ⟨c', _, hrun, hnested, ?_, st.env.exists_bindsAt x c', fun y hy => ?_, hg, hle, rfl⟩
  · show (st.env.assign x c').lookup? x = some c'
    rw [Environment.lookup?_assign, if_pos rfl]
  · show (st.env.assign x c').lookup? y = _
    rw [Environment.lookup?_assign, if_neg hy]

/-- Keys of three types: `"a"`, the value of `i`, and `true`. -/
def threeLevels : List Level :=
  [⟨.str, .literal (.str "a") .dummy, .dummy, .str "a", .str "a"⟩,
    ⟨.any, .ident "i" .dummy, .dummy, .int 7, .int 7⟩,
    ⟨.bool, .literal (.bool true) .dummy, .dummy, .bool true, .bool true⟩]

/-- The nil map with values of these levels. -/
def nilOfMaps : Value := .map ⟨.str, .map .any (.map .bool .float), none⟩

/-- Two names of a nil map, and `i`. -/
def twoNilNames : State :=
  ⟨((Environment.empty.define "m" nilOfMaps).define "other" nilOfMaps).define "i" (.int 7),
    .empty, 0⟩

/-- `m["a"][i][true] = 1`, at which the integer becomes a floating-point number. -/
theorem assign_nil_map_threeLevels :
    ∃ r st', (assign (evaluate 4) (Level.path (.ident "m" .dummy) threeLevels) (.int 1)).run
        twoNilNames = (.ok r, st') ∧
      Nested st'.heap 0 .float (.float (.ofInt 1)) threeLevels r ∧
      st'.env.lookup? "m" = some r ∧ st'.env.lookup? "other" = some nilOfMaps := by
  have hlookup (y : Name) (hy : y = "m" ∨ y = "other") :
      twoNilNames.env.lookup? y = some nilOfMaps := by
    rcases hy with rfl | rfl <;> decide +kernel
  have hlevels : ∀ k ∈ threeLevels, k.Indexes 4 twoNilNames := by
    simp only [threeLevels, List.forall_mem_cons]
    exact ⟨Level.indexes_literal (by decide) rfl,
      Level.indexes_name (by decide) (by decide +kernel) rfl,
      Level.indexes_literal (by decide) rfl, List.forall_mem_nil _⟩
  have hroom : (Level.path (.ident "m" .dummy) threeLevels).treeHeight ≤ 4 - twoNilNames.depth := by
    decide
  have hconv : (convert .float (.int 1)).run twoNilNames.heap =
      (.ok (.float (.ofInt 1)), twoNilNames.heap) := rfl
  obtain ⟨r, st', hrun, hnested, hm, -, hothers, -⟩ :=
    assign_nil_map (hlookup "m" (.inl rfl)) rfl hlevels hroom hconv
  exact ⟨r, st', hrun, hnested, hm, (hothers "other" (by decide)).trans (hlookup _ (.inr rfl))⟩

end TenantScript
