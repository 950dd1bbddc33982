import Covenant.Contract
import Covenant.Gen.RecordClass
import Covenant.Gen.Stmt
import Covenant.Syntax.Transaction

/-!
# Covenant — contracts

The module-level statements of a contract program become the preamble of the contract. The methods
of the contract class become its storage initializer (`deploy`) and its entrypoints.

An entrypoint starts with the parameter on top, the module-level variables beneath it and the
storage at the bottom, and ends with a single pair of pending operations and new storage.
-/

namespace Covenant

/-- A method of the contract class. -/
structure Method where
  line : Nat
  name : Ident
  params : List Param
  returns : Option Expr
  body : List Stmt

namespace Gen

/-! ## Preamble -/

/-- Compiles the module-level statements of a contract program and gives the body of the contract
class. No code may come after that class. -/
def prologue : Option (List Stmt) → List Stmt → Gen (Option (List Stmt))
  | contract, [] => pure contract
  | contract, s :: rest => do
    seen s.line
    match s with
    | .classDef _ name bases decorators body =>
      if isRecordClass decorators then
        prologue contract rest
      else if isContractClass name bases then
        if contract.isSome then
          fail (.alreadyDefined name)
        else
          prologue (some body) rest
      else
        fail (.unsupported (.unknownClass name))
    | .imports .. | .pass _ => prologue contract rest
    | s =>
      if s.isDocstring then
        prologue contract rest
      else if contract.isSome then
        fail (.unsupported .afterContract)
      else
        compileStmt s
        prologue contract rest

/-- The preamble of a contract: splits parameter and storage, runs the module-level statements, and
moves the parameter above the cells these have left. -/
def preamble (prologue : Code) (depth : Nat) : Code :=
  .unpair :: prologue ++ if 0 < depth then [.dig depth] else []

/-- The layout that entrypoints start from, the parameter apart: the storage sits beneath the
module-level variables. -/
def entryLayout (module : Layout) (storage : Ty) : Layout :=
  (module.shift 1).bindSlot Layout.storageName 0 storage

/-! ## Methods -/

/-- The storage initializer and the other methods among the members of the contract class. -/
def members : Option Method → List Stmt → Gen (Option Method × List Method)
  | deploy, [] => pure (deploy, [])
  | deploy, s :: rest => do
    seen s.line
    match s with
    | .function line name params returns body =>
      let method : Method := ⟨line, name, params, returns, body⟩
      if name = "deploy" then
        if deploy.isSome then
          fail (.alreadyDefined "deploy")
        else
          members (some method) rest
      else
        let (deploy, methods) ← members deploy rest
        return (deploy, method :: methods)
    | .pass _ => members deploy rest
    | s =>
      if s.isDocstring then
        members deploy rest
      else
        fail (.unsupported .contractMember)

/-- The storage type and the code of the initial storage, from the storage initializer, which
consists of a single return statement. -/
def deploy (method : Method) : Gen (Ty × Code) := do
  match method.body.filter fun s => !s.isDocstring with
  | [.ret _ (some init)] => do
    let declared ← method.returns.mapM denoted
    let done ← apart (.empty .deploy) (do
      if let some want := declared then
        checkFits init want
      init.operand.value declared)
    match declared.or (some done.result) with
    | some storage => return (storage, done.code)
    | none => defect .untypedStorage
  | _ => fail (.unsupported .deployBody)

/-! ## Entrypoints -/

/-- Name and type of the parameter of an entrypoint. -/
def entrypointParam (method : Method) : Gen (Ident × Ty) :=
  let params := match method.params with
    | first :: rest => if first.name = "self" then rest else method.params
    | [] => []
  match params with
  | [] => pure (Layout.parameterName, .unit)
  | [param] => do return (param.name, ← paramType param)
  | params => fail (.badArgument (.entrypointParams method.name params.length))

/-- Leaves nothing on the stack but the pair of pending operations and storage. -/
def epilogue : Gen Unit := do
  let leftovers := (← layout).names.filter fun name =>
    name != Layout.storageName && name != Layout.operationsName
  freeAll leftovers
  unless (← layout).binds Layout.operationsName do
    apply (.nil .operation)
  apply (.pair 2)

/-- The code of an entrypoint, from a layout with the parameter on top. The list of pending
operations is kept only if the body may add to it. -/
def entrypointCode (method : Method) : Gen Unit := do
  let ((), code) ← listen (do
    annotate (.entered method.name)
    if Stmt.anyCallsTransaction method.body then
      apply (.nil .operation)
      bindTop Layout.operationsName (.list .operation)
    compileBlock method.body)
  unless diverges code do
    epilogue

/-- Compiles a method into an entrypoint that starts from the given layout. -/
def entrypoint (method : Method) (base : Layout) (storage : Ty) : Gen Entrypoint := do
  let (param, paramTy) ← entrypointParam method
  let entry := { base with context := .entrypoint method.name }
  let start ← sound ((entry.push 1).bind param paramTy)
  let (code, _) ← block start (entrypointCode method)
  return ⟨paramTy, storage, code⟩

/-- Compiles methods into further entrypoints of a contract, in order. -/
def entrypoints (base : Layout) : Contract → List Method → Gen Contract
  | contract, [] => pure contract
  | contract, method :: rest => do
    seen method.line
    let e ← entrypoint method base contract.storageTy
    match contract.addEntrypoint method.name e with
    | .error duplicate => failAt method.line (.alreadyDefined duplicate.name)
    | .ok contract => entrypoints base contract rest

/-! ## The whole contract -/

/-- Assembles a contract from the body of its class and the compiled module-level statements, which
end with the given layout. -/
def contract (body : List Stmt) (prologue : Code) (module : Layout) : Gen Contract := do
  match ← members none body with
  | (none, _) => fail (.notDefined "deploy")
  | (some init, methods) => do
    let (storage, code) ← deploy init
    let start : Contract := ⟨storage, code, preamble prologue module.depth, []⟩
    entrypoints (entryLayout module storage) start methods

/-- Compiles the statements of a contract program. Records may be used before their definition. -/
def contractProgram (body : List Stmt) : Gen Contract :=
  withRecordClasses (do
    let done ← apart (.empty .module) (prologue none body)
    match done.result with
    | none => failNowhere (.notDefined "Contract")
    | some members => contract members done.code done.state.layout) body

end Gen

end Covenant
