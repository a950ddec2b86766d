import ScriptEngine.Natives.Running
import ScriptEngine.Natives.Scalars

/-!
# The core library

The natives every script has, in the order in which they are added to a namespace.
-/

namespace ScriptEngine.Natives

/-- The natives of the core library. -/
def core : List (String × Behaviour) :=
  [("print", .plain print), ("size", .plain size), ("append", .plain append),
    ("setsize", .plain setsize), ("subvec", .plain subvec), ("keys", .plain keys),
    ("delete", .plain delete), ("contains", .plain contains), ("typeof", .plain typeOf),
    ("die", .plain die), ("call", ⟨callStart, callEnd⟩), ("compile", .plain compile),
    ("bind", .plain bind), ("closure", .plain closure), ("caller", ⟨callerStart, Behaviour.handOn⟩),
    ("int", .plain int), ("num", .plain num), ("streq", .plain streq),
    ("substr", .plain substr), ("chr", .plain chr), ("id", .plain id)]

/-- Adds the core library to a namespace. -/
def registerCore (cx : CtxId) (ns : Value) : Act Unit :=
  Act.register cx ns (core.map (·.1))

end ScriptEngine.Natives

namespace ScriptEngine.Library

/-- The natives of a list, and no ghosts. -/
def ofList (natives : List (String × Behaviour)) : Library where
  native name := natives.lookup name
  ghost _ := {}

def core : Library := ofList Natives.core

end ScriptEngine.Library
