import ScriptEngine.Heap.Coerce

/-!
# How values are printed

Strings and numbers are printed as they are, vectors and hashes with their contents down to a
limited depth, everything else by the name of its type.
-/

namespace ScriptEngine.Heap

/-- How deep containers are printed. -/
def renderDepth : Nat := 8

/-- Pieces with a comma between them. -/
def listed (pieces : List Bytes) : Bytes := List.intercalate (Bytes.ofString ", ") pieces

/-- How a value is printed, with its contents down to the given depth. -/
def renderTo (h : Heap) : Nat → Value → Bytes
  | 0, v => (h.toBytes? v).getD (Bytes.ofString "...")
  | n + 1, v =>
    match h.toBytes? v with
    | some bs => bs
    | none =>
      match h.bodyOf v with
      | .vec items =>
        Bytes.ofString "[" ++ listed (items.toList.map (renderTo h n)) ++ Bytes.ofString "]"
      | .hash t =>
        Bytes.ofString "\x7b"
          ++ listed (t.entries.map fun e =>
            renderTo h n e.key ++ Bytes.ofString ": " ++ renderTo h n e.val)
          ++ Bytes.ofString "\x7d"
      | _ =>
        if v.isNil then Bytes.ofString "nil"
        else Bytes.ofString ("<" ++ h.typeName v ++ ">")

/-- How a value is printed. -/
def render (h : Heap) (v : Value) : Bytes := h.renderTo renderDepth v

end ScriptEngine.Heap
