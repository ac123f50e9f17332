import Scriptlet.Value.Heap

/-!
# The text of values

A container is written by writing what it holds, under the path of containers around it.
One that is on that path already, or that lies under two hundred others, is written as an
ellipsis; so writing ends on every heap, whatever its cycles, and a container met again
beside itself is written again in full.
-/

namespace Scriptlet

/-- Most containers that a container may lie under and still be written in full. -/
def maxRenderDepth : Nat := 200

namespace Heap

/-- The text of a value inside containers (specification §4.1): `path` lists those around it, and
`room` more may still be opened. -/
def renderNested (h : Heap) (room : Nat) (path : List Container) (v : Value) : Bytes :=
  match v with
  | .none => "none"
  | .bool b => Bytes.ofBool b
  | .int n => Bytes.ofInt64 n
  | .str s => Bytes.quoted s
  | .array r =>
    match room with
    | 0 => "[...]"
    | room + 1 =>
      if .array r ∈ path then "[...]"
      else
        "[" ++ Bytes.commaSeparated
          ((h.array r).toList.map (renderNested h room (.array r :: path))) ++ "]"
  | .dict r =>
    match room with
    | 0 => "\x7b...\x7d"
    | room + 1 =>
      if .dict r ∈ path then "\x7b...\x7d"
      else
        "\x7b" ++ Bytes.commaSeparated
          ((h.dict r).entries.map fun (k, v) ↦
            k.text ++ ": " ++ renderNested h room (.dict r :: path) v) ++ "\x7d"

/-- The text of a value as a script would write it: strings are quoted. -/
def debugText (h : Heap) (v : Value) : Bytes := h.renderNested maxRenderDepth [] v

/-- The text of a value as it is printed (specification §4.1): a string stands for itself. -/
def displayText (h : Heap) : Value → Bytes
  | .str s => s
  | v => h.debugText v

/-- The two texts differ for strings only. -/
theorem displayText_eq_debugText (h : Heap) (v : Value) (hv : v.type ≠ .string) :
    h.displayText v = h.debugText v := by
  cases v <;> simp_all [displayText, Value.type]

/-- A key is written as its value would be. -/
theorem renderNested_toValue (h : Heap) (room : Nat) (path : List Container) (k : Key) :
    h.renderNested room path k.toValue = k.text := by
  cases k <;> cases room <;> rfl

end Heap
end Scriptlet
