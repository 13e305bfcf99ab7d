import TenantScript.Proofs.MapKeys
import TenantScript.Proofs.SliceReads
import TenantScript.Eval.Block

/-!
Maps that have a storage, as finite maps. Main statement: after any insertions, some of which may
fail, a key has the value that was converted for the last insertion of the key that succeeded, or
else the value that it had; the keys are in increasing order, and a loop over the map visits each of
them once, in that order.
-/

open TenantScript.Action

namespace TenantScript

/-! ### Insertions -/

/-- What is to be inserted into a map, and the reference through which that is done. -/
structure Insertion where
  through : MapRef
  key : Value
  value : Value
  deriving DecidableEq

/-- Whether a reference is to the map that another one is to, with the same declared types. -/
def MapRef.IsAlias (n m : MapRef) : Prop :=
  n.key = m.key ∧ n.value = m.value ∧ n.address? = m.address?

namespace Insertion

/-- Carries out the insertion. -/
def run (i : Insertion) : Action Heap Mutation := i.through.insert i.key i.value

/-- The entry that an insertion makes if the key and the value can both be converted. -/
def entry? (i : Insertion) (h : Heap) : Option (MapKey × Value) :=
  match ((convertKey i.through.key i.key).run h).1, ((convert i.through.value i.value).run h).1 with
  | .ok k, .ok w => some (k, w)
  | _, _ => none

/-- The heap after some insertions, of which each may fail. -/
def runAll : List Insertion → Heap → Heap
  | [], h => h
  | i :: is, h => runAll is (i.run.run h).2

/-- The entries that some insertions make, in order. -/
def log : List Insertion → Heap → List (MapKey × Value)
  | [], _ => []
  | i :: is, h => (i.entry? h).toList ++ log is (i.run.run h).2

variable {i : Insertion} {h : Heap} {k : MapKey} {w : Value} {a : Address}
  {es : SortedMap MapKey Value}

theorem entry?_eq_some_iff : i.entry? h = some (k, w) ↔
    i.through.key.KeyOf i.key k ∧ ∃ h₁, (convert i.through.value i.value).run h = (.ok w, h₁) := by
  have hkey (k : MapKey) : (convertKey i.through.key i.key).run h = (.ok k, h) ↔
      i.through.key.KeyOf i.key k := run_convertKey_iff.trans (and_iff_right rfl)
  obtain ⟨r, hr⟩ := exists_run_convertKey i.through.key i.key
  rw [← hkey, hr]
  unfold entry?
  rw [hr]
  rcases (convert i.through.value i.value).run h with ⟨e | w', h₁⟩ <;> cases r <;> simp

/-- An insertion that makes no entry fails and changes no storage. -/
theorem run_of_entry?_eq_none (hentry : i.entry? h = none) :
    ∃ e h₁, h ≤ h₁ ∧ i.run.run h = (.error e, h₁) := by
  obtain ⟨e | k, hr⟩ := exists_run_convertKey i.through.key i.key
  · exact ⟨e, h, le_rfl, run_bind_error _ (hr h)⟩
  · rcases hw : (convert i.through.value i.value).run h with ⟨e | w, h₁⟩
    · have hle := (convert_adds _ _).le_of_run hw
      exact ⟨e, h₁, hle, (run_bind_ok _ (hr h)).trans (run_bind_error _ hw)⟩
    · have hsome := entry?_eq_some_iff.2 ⟨(run_convertKey_iff.1 (hr h)).2, h₁, hw⟩
      cases hentry.symm.trans hsome

/-- An insertion that makes an entry writes the storage of the map. -/
theorem run_of_entry? (ha : i.through.address? = some a) (hget : h.get? a = some (.entries es))
    (hentry : i.entry? h = some (k, w)) : ∃ h₁, h ≤ h₁ ∧
      i.run.run h = (.ok (.inPlace w), h₁.write a (.entries (es.insert k w))) := by
  obtain ⟨hkey, h₁, hw⟩ := entry?_eq_some_iff.1 hentry
  have hle := (convert_adds _ _).le_of_run hw
  refine ⟨h₁, hle, ?_⟩
  unfold run MapRef.insert
  rw [run_bind_ok _ (run_convertKey_iff.2 ⟨rfl, hkey⟩), run_bind_ok _ hw, ha]
  show (Except.ok (Mutation.inPlace w), h₁.write a (.entries ((h₁.entriesAt a).insert k w))) = _
  rw [Heap.entriesAt, hle _ _ hget]

/-- Whether an insertion into a map that has a storage succeeds just where it makes an entry, which
it stores, and changes nothing otherwise. -/
structure Step (i : Insertion) (h : Heap) : Prop where
  succeeds : i.run.Succeeds h ↔ (i.entry? h).isSome
  failed : i.entry? h = none → h ≤ (i.run.run h).2
  stored : ∀ k w, i.entry? h = some (k, w) → i.through.key.KeyOf i.key k ∧
    (∃ h₁, (convert i.through.value i.value).run h = (.ok w, h₁)) ∧
    (i.run.run h).1 = .ok (.inPlace w)

theorem step (ha : i.through.address? = some a) (hget : h.get? a = some (.entries es)) :
    i.Step h := by
  cases hentry : i.entry? h with
  | none =>
    obtain ⟨e, h₁, hle, hrun⟩ := run_of_entry?_eq_none hentry
    refine ⟨?_, fun _ => by rwa [hrun], fun k w hkw => ?_⟩
    · rw [hentry]
      exact iff_of_false (not_succeeds_iff.2 ⟨e, congrArg Prod.fst hrun⟩) Bool.false_ne_true
    · cases hentry.symm.trans hkw
  | some entry =>
    obtain ⟨k, w⟩ := entry
    obtain ⟨h₁, hle, hrun⟩ := run_of_entry? ha hget hentry
    refine ⟨?_, fun hnone => ?_, fun k' w' hkw => ?_⟩
    · rw [hentry]
      exact iff_of_true ⟨_, _, hrun⟩ rfl
    · cases hentry.symm.trans hnone
    · cases hentry.symm.trans hkw
      exact ⟨(entry?_eq_some_iff.1 hentry).1, (entry?_eq_some_iff.1 hentry).2,
        congrArg Prod.fst hrun⟩

/-- After an insertion the map has the entry that was made. -/
theorem get?_run (ha : i.through.address? = some a) (hget : h.get? a = some (.entries es)) :
    (i.run.run h).2.get? a =
      some (.entries ((i.entry? h).toList.foldl (fun es e => es.insert e.1 e.2) es)) := by
  cases hentry : i.entry? h with
  | none =>
    obtain ⟨e, h₁, hle, hrun⟩ := run_of_entry?_eq_none hentry
    rw [hrun]
    exact hle _ _ hget
  | some entry =>
    obtain ⟨k, w⟩ := entry
    obtain ⟨h₁, hle, hrun⟩ := run_of_entry? ha hget hentry
    rw [hrun]
    exact Heap.get?_write_self _ (Heap.lt_size_of_get? (hle _ _ hget))

/-- After some insertions the map has all the entries that were made. -/
theorem get?_runAll {is : List Insertion} (his : ∀ i ∈ is, i.through.address? = some a)
    (hget : h.get? a = some (.entries es)) :
    (runAll is h).get? a =
      some (.entries ((log is h).foldl (fun es e => es.insert e.1 e.2) es)) := by
  -- which entries are made depends on the heap, so the induction is for all heaps
  induction is generalizing h es with
  | nil => exact hget
  | cons i is ih =>
    rw [runAll, log, List.foldl_append]
    have hfirst := get?_run (his i List.mem_cons_self) hget
    exact ih (fun j hj => his j (List.mem_cons_of_mem _ hj)) hfirst

/-- An insertion as a store. -/
def edit (i : Insertion) : Edit := .insert i.through i.key i.value

theorem runAll_eq (is : List Insertion) (h : Heap) :
    runAll is h = Edit.runAll (is.map edit) h := by
  induction is generalizing h with
  | nil => rfl
  | cons i is ih => exact ih _

/-- Of several entries with one key the last one counts. -/
theorem get?_foldl_insert (es : SortedMap MapKey Value) (entries : List (MapKey × Value))
    (k : MapKey) : (entries.foldl (fun es e => es.insert e.1 e.2) es).get? k =
      (entries.reverse.lookup k).or (es.get? k) := by
  induction entries generalizing es with
  | nil => rfl
  | cons e entries ih =>
    rw [List.foldl_cons, ih, List.reverse_cons, List.lookup_append, Option.or_assoc,
      SortedMap.get?_insert]
    congr 1
    by_cases hk : k = e.1
    · rw [if_pos hk, List.lookup_cons, beq_iff_eq.2 hk]
      rfl
    · rw [if_neg hk, List.lookup_cons, beq_eq_false_iff_ne.2 hk]
      rfl

/-- What some insertions into a map with the entries `es` come to. -/
structure Refines (m : MapRef) (es : SortedMap MapKey Value) (is : List Insertion) (h : Heap) :
    Prop where
  get? : ∀ k, ((runAll is h).entries m).get? k = ((log is h).reverse.lookup k).or (es.get? k)
  read : ∀ key k w, m.key.KeyOf key k → ((runAll is h).entries m).get? k = some w →
    (m.read key).run (runAll is h) = (.ok w, runAll is h)
  others : ∀ b < h.size, m.address? ≠ some b → (runAll is h).get? b = h.get? b

theorem refines {m : MapRef} {is : List Insertion} (ha : m.address? = some a)
    (hget : h.get? a = some (.entries es)) (his : ∀ i ∈ is, i.through.IsAlias m) :
    Refines m es is h := by
  have halias : ∀ i ∈ is, i.through.address? = some a := fun i hi => (his i hi).2.2.trans ha
  have hentries : (runAll is h).entries m =
      (log is h).foldl (fun es e => es.insert e.1 e.2) es := by
    rw [Heap.entries, ha]
    simp only [Heap.entriesAt, get?_runAll halias hget]
  refine ⟨fun k => ?_, fun key k w hk hw => ?_, fun b hb hne => ?_⟩
  · rw [hentries, get?_foldl_insert]
  · have hkey (g : Heap) : (convertKey m.key key).run g = (.ok k, g) :=
      run_convertKey_iff.2 ⟨rfl, hk⟩
    exact MapRef.read_finds (u := .map m) rfl hkey hw _ fun _ _ => rfl
  · rw [runAll_eq]
    refine Edit.get?_runAll_of_ne hb fun e he hb => ?_
    obtain ⟨i, hi, rfl⟩ := List.mem_map.1 he
    exact hne ((his i hi).2.2.symm.trans hb)

end Insertion

/-! ### Loops -/

/-- The turns of a loop: for each of the items in order, until one does not end normally. -/
inductive Visits (turn : Value → Run Flow) :
    State → List Value → Except EvalError Flow → State → Prop
  | done (st : State) : Visits turn st [] (.ok (.next .nil)) st
  | stop {item : Value} {st st' : State} {r : Except EvalError Flow}
    (hturn : (turn item).run st = (r, st')) (hr : ∀ w, r ≠ .ok (.next w)) :
    Visits turn st [item] r st'
  | next {item w : Value} {items : List Value} {st st₁ st' : State} {r : Except EvalError Flow}
    (hturn : (turn item).run st = (.ok (.next w), st₁)) (hrest : Visits turn st₁ items r st') :
    Visits turn st (item :: items) r st'

/-- One turn of a loop: the item is bound and the body run, in a scope of their own. -/
def loopTurn (bind : Value → Run Value) (body : Run Flow) (item : Value) : Run Flow :=
  Run.inScope do
    let _ ← bind item
    body

/-- A loop visits its items in order, and all of them if none ends it early. -/
theorem visits_of_run_forEach {bind : Value → Run Value} {body : Run Flow}
    {r : Except EvalError Flow} {items : List Value} {st st' : State}
    (hrun : (forEach bind body items).run st = (r, st')) :
    ∃ visited, Visits (loopTurn bind body) st visited r st' ∧ visited <+: items ∧
      ∀ w, r = .ok (.next w) → visited = items := by
  induction items generalizing st with
  | nil =>
    cases hrun
    exact ⟨[], .done _, List.nil_prefix, fun _ _ => rfl⟩
  | cons item items ih =>
    rw [forEach] at hrun
    change (loopTurn bind body item >>= _).run st = _ at hrun
    rcases hturn : (loopTurn bind body item).run st with ⟨e | flow, st₁⟩
    · rw [run_bind_error _ hturn] at hrun
      cases hrun
      exact ⟨[item], .stop hturn (by simp), by simp, by simp⟩
    · rw [run_bind_ok _ hturn] at hrun
      cases flow with
      | ret v =>
        cases hrun
        refine ⟨[item], .stop hturn fun w hw => ?_, by simp, fun w hw => ?_⟩ <;> cases hw
      | next v =>
        obtain ⟨visited, hvisits, hprefix, hall⟩ := ih hrun
        refine ⟨item :: visited, .next hturn hvisits, ?_, fun w hw => by rw [hall w hw]⟩
        exact List.cons_prefix_cons.2 ⟨rfl, hprefix⟩

/-- A loop over a map runs over the keys that the map has when the loop starts. -/
theorem run_forIn_map {ev : Expr → Run Value} {var iterable : Expr} {body : List Stmt} {span : Span}
    {m : MapRef} {u : Value} {st s : State} (hu : (ev iterable).run st = (.ok u, s))
    (hmap : u.unwrap = .map m) : (execStmt ev (.forIn var iterable body span)).run st =
      (Action.within span (forEach (assign ev var) (execStmts ev body .nil)
        ((s.heap.entries m).keys.map MapKey.toValue))).run s := by
  rw [execStmt, run_within, run_within]
  have hloop : (ev iterable >>= fun v => Run.onHeap (readEach v) >>= fun items =>
      forEach (assign ev var) (execStmts ev body .nil) items).run st =
        (forEach (assign ev var) (execStmts ev body .nil)
          ((s.heap.entries m).keys.map MapKey.toValue)).run s := by
    rw [run_bind_ok _ hu, readEach, hmap]
    rfl
  rw [hloop]

/-- Whether a loop that ended with `r` has visited the keys of a map, each once and in their order,
all of them unless it was ended early. -/
def VisitsKeys (turn : Value → Run Flow) (keys : List MapKey) (st : State)
    (r : Except EvalError Flow) (st' : State) : Prop :=
  ∃ visited, Visits turn st (visited.map MapKey.toValue) r st' ∧ visited <+: keys ∧
    ∀ w, r = .ok (.next w) → visited = keys

theorem exists_visitsKeys {ev : Expr → Run Value} {var iterable : Expr} {body : List Stmt}
    {span : Span} {m : MapRef} {u : Value} {r : Except EvalError Flow} {st s st' : State}
    (hu : (ev iterable).run st = (.ok u, s)) (hmap : u.unwrap = .map m)
    (hrun : (execStmt ev (.forIn var iterable body span)).run st = (r, st')) :
    ∃ r', r = r'.mapError (·.orAt span) ∧
      VisitsKeys (loopTurn (assign ev var) (execStmts ev body .nil)) (s.heap.entries m).keys s
        r' st' := by
  rw [run_forIn_map hu hmap, run_within] at hrun
  obtain ⟨visited, hvisits, hprefix, hall⟩ := visits_of_run_forEach (Prod.eta _).symm
  cases hrun
  obtain ⟨keys, hkeys, rfl⟩ := List.prefix_map_iff.1 hprefix
  refine ⟨_, rfl, keys, hvisits, hkeys, fun w hw => ?_⟩
  exact MapKey.toValue_injective.list_map (hall w hw)

/-! ### Main statement -/

/-- A map that has a storage is a finite map from keys to values. An insertion through any of its
references succeeds just where the key and the value can be converted, it then makes that entry, and
it changes nothing otherwise; after any insertions a key has the value of the last entry that was
made for it, or else the value that it had. Two values are the same key just where they are the same
boolean, integer or text behind any interfaces, or behind at most one where the keys can be of any
kind. The keys are in strictly increasing order, booleans before integers before texts, and a loop
visits each of them once, in that order. If they are declared to be of any other type, then nothing
can be inserted, and a script can read neither an item nor a member. -/
theorem live_map_refines (m : MapRef) :
    (∀ {a : Address} {es : SortedMap MapKey Value} {h : Heap}, m.address? = some a →
      h.get? a = some (.entries es) →
      (∀ i : Insertion, i.through.IsAlias m → i.Step h) ∧
      ∀ is : List Insertion, (∀ i ∈ is, i.through.IsAlias m) → Insertion.Refines m es is h) ∧
    (∀ {v v' : Value} {k k' : MapKey} {h : Heap}, (convertKey m.key v).run h = (.ok k, h) →
      (convertKey m.key v').run h = (.ok k', h) →
      (k = k' ↔ m.key.keyPart v = m.key.keyPart v')) ∧
    (∀ (v : Value) (k : MapKey) (h : Heap),
      (convertKey m.key v).run h = (.ok k, h) ↔ m.key.KeyOf v k) ∧
    (∀ h : Heap, ((h.entries m).keys.Pairwise fun k k' => compare k k' = .lt) ∧
      ∀ k, k ∈ (h.entries m).keys ↔ ((h.entries m).get? k).isSome) ∧
    (∀ (b : Bool) (n : Int64) (s : String), compare (MapKey.bool b) (.int n) = .lt ∧
      compare (MapKey.int n) (.str s) = .lt ∧ compare (MapKey.bool b) (.str s) = .lt) ∧
    (∀ {ev : Expr → Run Value} {var iterable : Expr} {body : List Stmt} {span : Span} {u : Value}
      {r : Except EvalError Flow} {st s st' : State}, (ev iterable).run st = (.ok u, s) →
      u.unwrap = .map m → (execStmt ev (.forIn var iterable body span)).run st = (r, st') →
      ∃ r', r = r'.mapError (·.orAt span) ∧
        VisitsKeys (loopTurn (assign ev var) (execStmts ev body .nil)) (s.heap.entries m).keys s
          r' st') ∧
    (m.key ≠ .any → m.key ≠ .bool → m.key ≠ .int → m.key ≠ .str →
      (∀ key v h, ∃ e, (m.insert key v).run h = (.error e, h)) ∧
      (∀ {limit : Nat} {collection index : Expr} {span : Span} {u : Value} {st s : State},
        (evaluate limit collection).run st = (.ok u, s) → u.unwrap = .map m →
        ¬ (evaluate limit (.item collection index span)).Succeeds st) ∧
      ∀ {limit : Nat} {object : Expr} {field : Name} {span : Span} {u : Value}
        {via : Option PointerRef} {st s : State},
        (evaluate limit object).run st = (.ok u, s) → ContainerOf s.heap u (.map m, via) →
        ¬ (evaluate limit (.member object field span)).Succeeds st) := by
  refine ⟨fun ha hget => ⟨fun i hi => ?_, fun is his => Insertion.refines ha hget his⟩,
    fun hk hk' => ?_, fun v k h => ?_, fun h => ?_, MapKey.compare_kinds, exists_visitsKeys,
    fun hany hbool hint hstr => ?_⟩
  · exact Insertion.step (hi.2.2.trans ha) hget
  · exact (run_convertKey_iff.1 hk).2.eq_iff (run_convertKey_iff.1 hk').2
  · exact run_convertKey_iff.trans (and_iff_right rfl)
  · exact ⟨SortedMap.keys_increasing _, fun k => SortedMap.mem_keys_iff⟩
  · have hm : m.key.isHashable = false := by
      rw [Bool.eq_false_iff, Ne, Ty.isHashable_iff]
      rintro (h | h | h | h) <;> contradiction
    exact ⟨m.run_insert_unhashable hm, not_succeeds_item hm, not_succeeds_member hm⟩

/-- A map with keys of any kind and floating-point values, which has no entries yet. -/
def anyKeys : MapRef := ⟨.any, .float, some 0⟩

/-- `1` is inserted twice, the second time behind an interface, `"1"` is inserted, and for `true`
there is no value that can be converted. -/
def fourInsertions : List Insertion :=
  [⟨anyKeys, .int 1, .int 2⟩, ⟨anyKeys, .str "1", .int 3⟩, ⟨anyKeys, .bool true, .str "x"⟩,
    ⟨anyKeys, .interface (.int 1), .int 5⟩]

/-- The key `1` has the value that was inserted last, as a floating-point number. -/
theorem live_map_refines_fourInsertions :
    let h := Insertion.runAll fourInsertions (Heap.empty.push (.entries .empty))
    (h.entries anyKeys).get? (.int 1) = some (.float (.ofInt 5)) ∧
      (h.entries anyKeys).get? (.str "1") = some (.float (.ofInt 3)) ∧
        (h.entries anyKeys).get? (.bool true) = none := by
  intro h
  have halias : ∀ i ∈ fourInsertions, i.through.IsAlias anyKeys := by
    intro i hi
    simp only [fourInsertions, List.mem_cons, List.not_mem_nil, or_false] at hi
    rcases hi with rfl | rfl | rfl | rfl <;> exact ⟨rfl, rfl, rfl⟩
  have hlog : Insertion.log fourInsertions (Heap.empty.push (.entries .empty)) =
      [(.int 1, .float (.ofInt 2)), (.str "1", .float (.ofInt 3)), (.int 1, .float (.ofInt 5))] :=
    rfl
  have hlive : (Heap.empty.push (.entries .empty)).get? 0 = some (.entries .empty) := rfl
  have hget := (((live_map_refines anyKeys).1 rfl hlive).2 fourInsertions halias).get?
  refine ⟨(hget _).trans ?_, (hget _).trans ?_, (hget _).trans ?_⟩ <;> rw [hlog] <;> rfl

end TenantScript
