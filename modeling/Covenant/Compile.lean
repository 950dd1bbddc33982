import Covenant.Gen.Contract
import Covenant.Syntax.Desugar

/-!
# Covenant — the compiler

A module is compiled in one of two ways. `Module.compile` takes it as a contract program.
`Module.compileStatements` takes it as a flat list of statements that start on an empty stack and
leave the module-level variables there.

`Module.increments` compiles ever longer beginnings of a module, as an interactive session would.
-/

namespace Covenant

namespace Gen

/-- Compiles module-level statements in order. A record class is in force from its definition on. -/
def statements : List Stmt → Gen Unit
  | [] => pure ()
  | .classDef line name _ decorators body :: rest => do
    seen line
    if isRecordClass decorators then
      let fields ← recordClass name body
      withRecord name fields (statements rest)
    else
      fail (.unsupported (.notARecord name))
  | s :: rest => do
    seen s.line
    compileStmt s
    statements rest

/-- Runs a step on an empty stack, outside any function and before any line. -/
def run {α : Type} (traced : Bool) (step : Gen α) : Except CompileError (Step α) :=
  step ⟨.empty, traced⟩ ⟨.empty .module, 0⟩

end Gen

namespace Module

/-- Compiles a module into a contract. With `traced`, notes tell where variables and calls are. -/
def compile (m : Module) (traced : Bool) : Except CompileError Contract :=
  (Gen.run traced (Gen.contractProgram m.desugar.body)).map (·.result)

/-- Compiles a module that has no contract class. With `traced`, notes tell where variables and
calls are. -/
def compileStatements (m : Module) (traced : Bool) : Except CompileError Code :=
  (Gen.run traced (Gen.statements m.desugar.body)).map (·.code)

/-- The first statements of a module. -/
def take (n : Nat) (m : Module) : Module := ⟨m.body.take n⟩

/-- Cuts off the code that was there before, step by step, up to the first error. -/
def news (before : Nat) : List (Except CompileError Code) → List (Except CompileError Code)
  | [] => []
  | .error e :: _ => [.error e]
  | .ok code :: rest => .ok (code.drop before) :: news code.length rest

/-- What each further statement of a module adds to the code of the statements before it. The list
ends with the first error. -/
def increments (m : Module) (traced : Bool) : List (Except CompileError Code) :=
  news 0 ((List.range m.body.length).map fun n => (m.take (n + 1)).compileStatements traced)

end Module

end Covenant
