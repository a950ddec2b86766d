import ScriptEngine.Code.Generator
import ScriptEngine.Machine.Act

/-!
# Loading code

Loading makes a code object of a generated unit: each constant becomes a value, in order, with a
function literal's constants and its code object in the place of the literal.

* `Act.load`     loads a unit;
* `Act.compile`  compiles a source text and loads its unit.  When generating the code fails, the
  constants that had been made by then have used up cells all the same.
-/

namespace ScriptEngine

namespace Act

def loadText (cx : CtxId) (s : Bytes) : Act (Value × UInt32) := do
  let v ← newStr cx s
  let (hash, _) ← hashKey v
  return (v, hash)

def loadName (s : Bytes) : Act (Value × UInt32) := do
  let v ← intern s
  let (hash, _) ← hashKey v
  return (v, hash)

mutual
def loadConst (cx : CtxId) : Const → Act (Value × UInt32)
  | .nil => pure (.nil, 0)
  | .number x => pure (.ofFloat x, 0)
  | .text s => loadText cx s
  | .name s => loadName s
  | .code c => do return (← load cx c, 0)
def load (cx : CtxId) : Code Const → Act Value
  | ⟨words, consts, lines, file, params, optional, rest, needsRest⟩ => do
    let (consts, hashes) ← loadConsts cx consts
    alloc cx .code
      (.code { words, consts, lines, file, params, optional, rest, needsRest, hashes })
def loadConsts (cx : CtxId) : Array Const → Act (Array Value × Array UInt32)
  | ⟨consts⟩ => loadList cx consts #[] #[]
def loadList (cx : CtxId) :
    List Const → Array Value → Array UInt32 → Act (Array Value × Array UInt32)
  | [], vs, hs => pure (vs, hs)
  | c :: cs, vs, hs => do
    let (v, h) ← loadConst cx c
    loadList cx cs (vs.push v) (hs.push h)
end

/-- The code object of a source text, or the error found in it. -/
def compile (cx : CtxId) (src : Bytes) (file : String) (firstLine : Nat) :
    Act (Except CompileError Value) := do
  match ScriptEngine.compile src file firstLine with
  | .ok c => return .ok (← load cx c)
  | .error u =>
    u.made.forM fun consts => discard <| loadConsts cx consts
    return .error u.error

end Act

end ScriptEngine
