import ScriptEngine.CommandLine

/-!
# The program

Hands the arguments, the environment and the files to `CommandLine.execute`, and writes what it
reports.
-/

namespace ScriptEngine.CommandLine

/-- Why a file cannot be read, in the words of the system. -/
def reason : IO.Error → String
  | .noFileOrDirectory .. => "No such file or directory (os error 2)"
  | e => toString e

def readFile (path : String) : IO (Except String Bytes) := do
  match ← (IO.FS.readBinFile path).toBaseIO with
  | .ok bs => return .ok bs.toList
  | .error e => return .error (reason e)

def put (out : IO.FS.Stream) (bs : Bytes) : IO Unit := do
  out.write ⟨bs.toArray⟩
  out.flush

end ScriptEngine.CommandLine

open ScriptEngine in
def main (args : List String) : IO UInt32 := do
  let env ← CommandLine.consulted.filterMapM fun name => do
    return (← IO.getEnv name).map (name, ·)
  let report ← CommandLine.execute (fun name => env.lookup name) CommandLine.readFile args
  CommandLine.put (← IO.getStdout) report.stdout
  CommandLine.put (← IO.getStderr) report.stderr
  return report.status.toUInt32
