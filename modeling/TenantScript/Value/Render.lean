import TenantScript.Number.Shortest
import TenantScript.Value.Heap

/-!
The text of values. Inside a container strings are quoted. Storages can hold themselves, so what
lies more than thirty-two levels deep is written as three dots.
-/

namespace TenantScript

/-- The text of a value in the heap `h`, with `room` levels still to write, quoted or not. -/
def render (h : Heap) : Nat → Bool → Value → String
  | 0, _, _ => "..."
  | room + 1, quoted, v =>
    let nested := render h room true
    match v with
    | .nil => "nil"
    | .bool b => toString b
    | .int n => toString n.toInt
    | .float x => x.text
    | .str s => if quoted then Text.quoted s else s
    | .array a => "[" ++ ", ".intercalate ((h.items a).map nested) ++ "]"
    | .map m =>
      if m.isNil then "map[]"
      else
        let entries := (h.entries m).entries.map fun e => e.1.text ++ ": " ++ nested e.2
        "\x7b" ++ ", ".intercalate entries ++ "\x7d"
    | .struct s =>
      let fields := (h.namedFields s).map fun f => f.1 ++ ": " ++ nested f.2
      s.defn.name ++ "\x7b" ++ ", ".intercalate fields ++ "\x7d"
    | .pointer p =>
      match h.load? p with
      | some pointee => "&" ++ nested pointee
      | none => "nil"
    | .interface inner =>
      if quoted then "Interface(" ++ nested inner ++ ")" else render h room false inner

/-- The number of levels that are written. -/
def renderedLevels : Nat := 33

/-- The text of a value for a reader: a string is not quoted, and an interface does not show. -/
def Heap.text (h : Heap) (v : Value) : String := render h renderedLevels false v

/-- The text of a value that tells all: strings are quoted, and interfaces show. -/
def Heap.outline (h : Heap) (v : Value) : String := render h renderedLevels true v

end TenantScript
