import TenantScript.Proofs.Commands

/-!
Accesses that cannot fail. Some accesses are made without a test, or with one that is never to
fail: the write of a field, the writes of elements once the bounds have been compared, the
difference of two bounds, the first of one value. Here they are made with a test, and what is done
where it fails is left open. From every state that is held, all commands run as they do without the
tests.
-/

open TenantScript.Action

namespace TenantScript

namespace Action

variable {W σ α β : Type} {I : W → σ → Prop} {w : W}

/-- From the states that meet `I` in the world `w`, two actions run alike. -/
def Agrees (I : W → σ → Prop) (w : W) (x y : Action σ α) : Prop :=
  ∀ s, I w s → x.run s = y.run s

namespace Agrees

variable {x y : Action σ α}

theorem refl (x : Action σ α) : Agrees I w x x := fun _ _ => rfl

theorem of_eq (h : x = y) : Agrees I w x y := h ▸ refl x

theorem within {span : Span} (h : Agrees I w x y) : Agrees I w (within span x) (within span y) := by
  intro s hs
  rw [run_within, run_within, h s hs]

variable [Preorder W]

theorem bind {P : W → α → Prop} {f g : α → Action σ β} (hxy : Agrees I w x y)
    (hy : Maintains I w y P) (hfg : ∀ w', w ≤ w' → ∀ a, P w' a → Agrees I w' (f a) (g a)) :
    Agrees I w (x >>= f) (y >>= g) := by
  intro s hs
  obtain ⟨w', hw, hs', ha⟩ := hy s hs
  rw [run_bind, run_bind, hxy s hs]
  rcases hr : y.run s with ⟨_ | a, s'⟩
  · rfl
  · rw [hr] at hs' ha
    exact hfg w' hw a (ha a rfl) s' hs'

/-- Over a list, where each item is treated alike. -/
theorem mapM {f g : α → Action σ β} : {as : List α} → {w : W} →
    (∀ a ∈ as, ∀ w', w ≤ w' → Agrees I w' (f a) (g a)) →
    (∀ a ∈ as, ∀ w', w ≤ w' → Maintains I w' (g a) fun _ _ => True) →
      Agrees I w (as.mapM f) (as.mapM g)
  | [], _, _, _ => by
    rw [List.mapM_nil, List.mapM_nil]
    exact refl _
  | a :: as, w, hfg, hg => by
    rw [List.mapM_cons, List.mapM_cons]
    refine bind (hfg a List.mem_cons_self w le_rfl) (hg a List.mem_cons_self w le_rfl)
      fun w₁ hw₁ b _ => ?_
    have hrest : Agrees I w₁ (as.mapM f) (as.mapM g) := mapM
      (fun a' ha' w' hw' => hfg a' (List.mem_cons_of_mem _ ha') w' (hw₁.trans hw'))
      (fun a' ha' w' hw' => hg a' (List.mem_cons_of_mem _ ha') w' (hw₁.trans hw'))
    refine bind (P := fun _ _ => True) hrest ?_ fun _ _ _ _ => refl _
    exact (Maintains.mapM_all (Q := fun _ _ => True) (fun _ _ _ _ _ => trivial)
      fun a' ha' w' hw' => hg a' (List.mem_cons_of_mem _ ha') w' (hw₁.trans hw')).imp
        fun _ _ _ _ => trivial

end Agrees

end Action

namespace Checked

/-- An access that is made without a test, or with one that is never to fail. -/
inductive Access where
  /-- The field of a struct that is written. -/
  | field
  /-- The element of an array that is written. -/
  | item
  /-- The range of an array that is written. -/
  | range
  /-- The values that are copied over a range, as many as it has elements. -/
  | copy
  /-- The range of an array that is read. -/
  | part
  /-- The difference of the ends of a range. -/
  | count
  /-- The first of several values. -/
  | first

/-- What is done in place of an access that cannot be made. It has no result; all else about it is
open. -/
abbrev Failure := Access → Action Heap Empty

/-- The elements from position `low` up to `high`, if they are there. -/
def subrange? {α : Type} (items : List α) (low high : Nat) : Option (List α) :=
  if low ≤ high ∧ high ≤ items.length then some ((items.drop low).take (high - low)) else none

/-- The difference of two numbers, if the second is not larger. -/
def difference? (high low : Nat) : Option Nat := if low ≤ high then some (high - low) else none

section

variable (failure : Failure)

/-- What an access gives, or its failure. -/
def access {α : Type} (kind : Access) : Option α → Action Heap α
  | some a => return a
  | none => do nomatch ← failure kind

/-! ### Operations with their accesses tested -/

def setField (s : StructRef) (name : Name) (v : Value) : Action Heap Mutation :=
  match s.defn.field? name with
  | none => .fail (.noSuchMember name s!"struct {s.defn.name}")
  | some (i, field) =>
    if !field.settable then .fail (.notSettable s!"struct member '{name}'")
    else do
      let converted ← convert field.ty v
      let values ← .get (·.fields s)
      let _ ← access failure .field values[i]?
      Heap.put s.address (.fields (values.set i converted))
      return .inPlace converted

def setIndex (a : ArrayRef) (index : Int) (v : Value) : Action Heap Mutation := do
  let items ← .get (·.items a)
  match position? index with
  | none => .fail (.indexOutOfRange index items.length)
  | some i =>
    if i = items.length then a.append v
    else if i > items.length then .fail (.indexOutOfRange index items.length)
    else if a.readOnly then .fail (.notSettable s!"array index {index}")
    else do
      let converted ← convert a.elem v
      let items ← .get (·.items a)
      let _ ← access failure .item items[i]?
      Heap.put a.address (.items (items.set i converted))
      return .inPlace converted

def setRange (a : ArrayRef) (start stop : Int) (v : Value) : Action Heap Mutation := do
  let items ← .get (·.items a)
  let (low, high) ← .ofExcept (checkedRange start stop items.length)
  if a.readOnly then .fail (.notSettable s!"array slice [{start}:{stop}]")
  else
    match v.unwrap with
    | .array source =>
      let values ← .get (·.items source)
      let count ← access failure .count (difference? high low)
      if values.length ≠ count then
        .fail (.mismatch low high items.length values.length)
      else
        let converted ← values.mapM (convert a.elem)
        let items ← .get (·.items a)
        let part ← access failure .range (subrange? items low high)
        let _ ← access failure .copy (if converted.length = part.length then some () else none)
        Heap.put a.address (.items (overwrite items low converted))
        return .inPlace (.array (← ArrayRef.make a.elem converted))
    | w => mismatched w (.array a.elem)

def readSlice (collection : Value) (start stop : Option Int) : Action Heap Value := do
  match collection.unwrap with
  | .array a =>
    let items ← .get (·.items a)
    let (low, high) ← .ofExcept
      (checkedRange (start.getD 0) (stop.getD items.length) items.length)
    let part ← access failure .part (subrange? items low high)
    return .array (← ArrayRef.make a.elem part)
  | .str s =>
    let cs := s.toList
    let (low, high) ← .ofExcept (checkedRange (start.getD 0) (stop.getD cs.length) cs.length)
    let count ← access failure .count (difference? high low)
    return .str (String.ofList ((cs.drop low).take count))
  | v => .fail (.unsupported .sliceAccess v.kind)

def setMember (container : Value) (field : Name) (v : Value) : Action Heap Mutation :=
  match container with
  | .struct s => setField failure s field v
  | .map m => m.insert (.str field) v
  | w => .fail (.unsupported .memberAssignment w.kind)

def setItem (collection index v : Value) : Action Heap Mutation := do
  match collection.unwrap with
  | .array a => setIndex failure a (← .ofExcept (toIndex index)) v
  | .map m => m.insert index v
  | .str s => setCharacter s (← .ofExcept (toIndex index)) v
  | w => .fail (.unsupported .indexAssignment w.kind)

/-! ### Scripts with all accesses tested -/

def assign (ev : Expr → Run Value) : Expr → Value → Run Value
  | .ident name span, v => .within span (assignName name v)
  | .member object field span, v => .within span do
    let found ← Run.onHeap (memberContainer (← ev object))
    rebind (assign ev object) found.2 (← Run.onHeap (setMember failure found.1 field v))
  | .item collection index span, v => .within span do
    let target ← ev collection
    let key ← ev index
    rebind (assign ev collection) none (← Run.onHeap (setItem failure target key v))
  | .slice collection start stop span, v => .within span do
    let a ← Run.onHeap (sliceTarget (← ev collection))
    let low ← boundOr ev (return 0) start
    let high ← boundOr ev (Run.onHeap (.get fun h => ((h.items a).length : Int))) stop
    return (← Run.onHeap (setRange failure a low high v)).value
  | .deref pointer span, v => .within span do
    return (← Run.onHeap (setPointee (← ev pointer) v)).value
  | e@(.literal _ span), _ | e@(.array _ span), _ | e@(.assign _ _ span), _ =>
    .within span (.fail (.invalidOperation s!"cannot assign to {e.describe}"))

def evaluateNode (ev : Expr → Run Value) : Expr → Run Value
  | .slice collection start stop _ => do
    let target ← ev collection
    let low ← bound? ev start
    let high ← bound? ev stop
    Run.onHeap (readSlice failure target low high)
  | .assign target value _ => do assign failure ev target (← ev value)
  | e => TenantScript.evaluateNode ev e

def evaluateWithin (limit : Nat) : Nat → Expr → Run Value
  | 0, e => .within e.span (.fail (.depthLimitExceeded limit))
  | room + 1, e => .within e.span (Run.nested (evaluateNode failure (evaluateWithin limit room) e))

def evaluate (limit : Nat) (e : Expr) : Run Value :=
  ⟨fun st => (evaluateWithin failure limit (limit - st.depth) e).run st⟩

def assignEach (ev : Expr → Run Value) : List Expr → List Value → Value → Run Value
  | [], _, stored => return stored
  | target :: targets, values, _ => do
    let stored ← assign failure ev target (values.headD .nil)
    assignEach ev targets values.tail stored

def assignAll (ev : Expr → Run Value) (targets values : List Expr) : Run Value := do
  if targets.length = values.length then
    assignEach failure ev targets (← values.mapM ev) .nil
  else if values.length = 1 ∧ targets.length > 1 then
    let value ← Run.onHeap (access failure .first values.head?)
    assignEach failure ev targets (← Run.onHeap (spread (← ev value) targets.length)) .nil
  else .fail (assignAll.mismatch targets values)

mutual
def execStmt (ev : Expr → Run Value) : Stmt → Run Flow
  | .expr e span => .within span do return .next (← ev e)
  | .assign targets values span => .within span do
    return .next (← assignAll failure ev targets values)
  | .forIn var iterable body span => .within span do
    let items ← Run.onHeap (readEach (← ev iterable))
    forEach (assign failure ev var) (execStmts ev body .nil) items
  | .ret none span => .within span (return .ret .nil)
  | .ret (some e) span => .within span do return .ret (← ev e)
termination_by structural s => s

def execStmts (ev : Expr → Run Value) : List Stmt → Value → Run Flow
  | [], last => return .next last
  | s :: rest, last => do
    match ← execStmt ev s with
    | .ret v => return .ret v
    | .next v => execStmts ev rest (if s.isExpr then v else last)
termination_by structural ss => ss
end

def execBlock (limit : Nat) (body : List Stmt) : Run Value := do
  return (← execStmts failure (evaluate failure limit) body .nil).value

/-- Runs a command with all accesses tested. -/
def run : Command → Run Value
  | .setIndex a index v => do return (← Run.onHeap (setIndex failure a index v)).value
  | .setRange a start stop v => do return (← Run.onHeap (setRange failure a start stop v)).value
  | .setField s field v => do return (← Run.onHeap (setField failure s field v)).value
  | .evaluate limit e => evaluate failure limit e
  | .assign limit target v => assign failure (evaluate failure limit) target v
  | .execBlock limit body => execBlock failure limit body
  | c => c.run

end

end Checked

end TenantScript
