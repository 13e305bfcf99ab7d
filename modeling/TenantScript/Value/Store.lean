import TenantScript.Value.Convert
import TenantScript.Value.Index

/-!
Stores into containers. A store either writes the storage that is there, so that every reference
to it sees the change, or makes a new container that the caller has to put where the old one came
from: an array that grows, a nil map that gets its first entry, and every string are replaced.
Values are converted before anything is written.
-/

namespace TenantScript

/-- What a store did. -/
inductive Mutation where
  /-- The storage was written with this value. -/
  | inPlace (stored : Value)
  /-- This container takes the place of the old one. -/
  | replaced (container : Value)
  deriving DecidableEq, Inhabited

/-- The value that a store hands back. -/
def Mutation.value : Mutation → Value
  | inPlace v | replaced v => v

/-- Writes the storage at an address. -/
def Heap.put (a : Address) (s : Storage) : Action Heap Unit := .modify (·.write a s)

/-- Stores into the field that `name` stands for. -/
def StructRef.setField (s : StructRef) (name : Name) (v : Value) : Action Heap Mutation :=
  match s.defn.field? name with
  | none => .fail (.noSuchMember name s!"struct {s.defn.name}")
  | some (i, field) =>
    if !field.settable then .fail (.notSettable s!"struct member '{name}'")
    else do
      let converted ← convert field.ty v
      let values ← .get (·.fields s)
      Heap.put s.address (.fields (values.set i converted))
      return .inPlace converted

/-- Stores under a key. A nil map is replaced by a map with this one entry. -/
def MapRef.insert (m : MapRef) (key v : Value) : Action Heap Mutation := do
  let k ← convertKey m.key key
  let converted ← convert m.value v
  match m.address? with
  | some a =>
    let entries ← .get (·.entriesAt a)
    Heap.put a (.entries (entries.insert k converted))
    return .inPlace converted
  | none =>
    let entries := SortedMap.empty.insert k converted
    return .replaced (.map (← MapRef.make m.key m.value entries))

/-- Converts what is added to an array: a value of its element type, or, if the value is none but
is an array, the elements of that array. -/
def additions (elem : Ty) (v : Value) : Action Heap (List Value) :=
  .recover (do return [← convert elem v]) fun e =>
    match v.unwrap with
    | .array source => do (← .get (·.items source)).mapM (convert elem)
    | _ => .throw e

/-- Replaces an array by a longer one. -/
def ArrayRef.append (a : ArrayRef) (v : Value) : Action Heap Mutation := do
  let items ← .get (·.items a)
  if a.fixed then .fail (.indexOutOfRange items.length items.length)
  else
    let extra ← additions a.elem v
    let items ← .get (·.items a)
    return .replaced (.array (← ArrayRef.make a.elem (items ++ extra)))

/-- Stores at an index; the index after the last appends. -/
def ArrayRef.setIndex (a : ArrayRef) (index : Int) (v : Value) : Action Heap Mutation := do
  let items ← .get (·.items a)
  match position? index with
  | none => .fail (.indexOutOfRange index items.length)
  | some i =>
    if i = items.length then a.append v
    else if i > items.length then .fail (.indexOutOfRange index items.length)
    else if a.readOnly then .fail (.notSettable s!"array index {index}")
    else do
      let converted ← convert a.elem v
      let items ← .get (·.items a)
      Heap.put a.address (.items (items.set i converted))
      return .inPlace converted

/-- The elements `items` with `values` over those from position `start` on. -/
def overwrite (items : List Value) (start : Nat) (values : List Value) : List Value :=
  items.take start ++ values ++ items.drop (start + values.length)

/-- Stores the elements of an array over a range of the same length. The result is a new array of
the elements that were stored. -/
def ArrayRef.setRange (a : ArrayRef) (start stop : Int) (v : Value) : Action Heap Mutation := do
  let items ← .get (·.items a)
  let (low, high) ← .ofExcept (checkedRange start stop items.length)
  if a.readOnly then .fail (.notSettable s!"array slice [{start}:{stop}]")
  else
    match v.unwrap with
    | .array source =>
      let values ← .get (·.items source)
      if values.length ≠ high - low then
        .fail (.mismatch low high items.length values.length)
      else
        let converted ← values.mapM (convert a.elem)
        let items ← .get (·.items a)
        Heap.put a.address (.items (overwrite items low converted))
        return .inPlace (.array (← ArrayRef.make a.elem converted))
    | w => mismatched w (.array a.elem)

/-- Stores what a pointer points to; the value is not converted. -/
def PointerRef.store (p : PointerRef) (v : Value) : Action Heap Mutation :=
  match p.address? with
  | none => .fail (.typeInvalid "nil pointer dereference")
  | some a => do
    Heap.put a (.cell v)
    return .inPlace v

/-- The text with `piece` in place of its character at `i`, or after its end. -/
def spliceAt (cs : List Char) (i : Nat) (piece : List Char) : List Char :=
  cs.take i ++ piece ++ cs.drop (i + 1)

/-- The string that storing at a character makes; the index after the last appends. -/
def setCharacter (s : String) (index : Int) (v : Value) : Action Heap Mutation :=
  match v.unwrap with
  | .str piece =>
    let cs := s.toList
    match (position? index).filter (· ≤ cs.length) with
    | some i => return .replaced (.str (String.ofList (spliceAt cs i piece.toList)))
    | none => .fail (.indexOutOfRange index cs.length)
  | w => mismatched w .str

end TenantScript
