import ScriptEngine.Bytes
import ScriptEngine.Text.Utf8
import ScriptEngine.Text.Quoted
import ScriptEngine.Hash32
import ScriptEngine.Numeral.Shortest
import ScriptEngine.Numeral.Size
import ScriptEngine.Token.Lexer
import ScriptEngine.Grammar.Blocks
import ScriptEngine.Grammar.Precedence
import ScriptEngine.Code.Generator
import ScriptEngine.Failure
import ScriptEngine.Options
import ScriptEngine.Heap.Mark
import ScriptEngine.Machine.World
import ScriptEngine.Machine.Act
import ScriptEngine.Machine.Scope
import ScriptEngine.Machine.Step
import ScriptEngine.Machine.Load
import ScriptEngine.Listing
import ScriptEngine.Natives.Core
import ScriptEngine.Natives.Diagnostics
import ScriptEngine.Inspect
import ScriptEngine.Engine
import ScriptEngine.CommandLine
import ScriptEngine.Main
import ScriptEngine.Rendezvous
import ScriptEngine.Proofs.Grammar.Leaves
import ScriptEngine.Proofs.Table.Association
import ScriptEngine.Proofs.Machine.Bounds
import ScriptEngine.Proofs.Machine.Loading
import ScriptEngine.Proofs.Code.Loops
import ScriptEngine.Proofs.Machine.Loops
import ScriptEngine.Proofs.Grammar.Regrouping
import ScriptEngine.Proofs.Grammar.Rendering
import ScriptEngine.Proofs.Grammar.Climbing
import ScriptEngine.Proofs.Heap.Spreading
import ScriptEngine.Proofs.Machine.Aloofness
import ScriptEngine.Proofs.Machine.Guarding
import ScriptEngine.Proofs.Machine.Isolation
import ScriptEngine.Proofs.Machine.Evaluation
import ScriptEngine.Proofs.Machine.Expressions
import ScriptEngine.Proofs.Machine.Passages
import ScriptEngine.Proofs.Machine.Allotment
import ScriptEngine.Proofs.Machine.Reliance
import ScriptEngine.Proofs.Machine.Abreast
import ScriptEngine.Proofs.Machine.Customs
import ScriptEngine.Proofs.Machine.Limits
import ScriptEngine.Proofs.Machine.Ownership
import ScriptEngine.Proofs.Machine.Resumption
import ScriptEngine.Proofs.Rendezvous
import ScriptEngine.Proofs.Machine.Sparing
import ScriptEngine.Proofs.Grammar.Nesting
import ScriptEngine.Proofs.Grammar.Prefixes
import ScriptEngine.Proofs.Grammar.Signs
import ScriptEngine.Proofs.Grammar.Branches
import ScriptEngine.Proofs.Grammar.Braces
import ScriptEngine.Proofs.Token.Lines
import ScriptEngine.Proofs.Machine.Members
import ScriptEngine.Proofs.Machine.Arguments
import ScriptEngine.Proofs.Machine.Slices
import ScriptEngine.Proofs.Machine.Elements
import ScriptEngine.Proofs.Machine.Confinement
import ScriptEngine.Proofs.Machine.Tracebacks
import ScriptEngine.Proofs.Machine.Capturing
import ScriptEngine.Proofs.Token.Numbers
import ScriptEngine.Proofs.Table.Storage
import ScriptEngine.Proofs.Code.LineTable
import ScriptEngine.Proofs.Heap.Chains
import ScriptEngine.Proofs.Machine.Chaining
import ScriptEngine.Proofs.Grammar.Arranging
import ScriptEngine.Proofs.Machine.Reclaiming
