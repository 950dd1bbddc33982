import Covenant.Gen.Path
import Covenant.Instr.Divergence
import Covenant.Syntax.Stmt

/-!
# Covenant — code of statements

A block compiles its statements in order and then frees the variables they declared. A block that
aborts stops at the aborting statement and frees nothing, since nothing is left to free. Branches
and loop bodies are blocks compiled from a copy of the layout, so nothing they declare leaks out.
-/

namespace Covenant

namespace Gen

/-! ## Assignment -/

/-- Assigns to a variable, which is declared if it is new. A declared type has to be the type the
variable has. -/
def assignName (target : Expr) (name : Ident) (declared : Option Ty) (value : Operand) :
    Gen Unit := do
  let existing := (← layout).ty? name
  if let some declaredTy := declared then
    if let some existingTy := existing then
      unless declaredTy = existingTy do
        failAt target.line (.typeMismatch existingTy declaredTy)
  match declared.or existing with
  | some want => do
    checkFits value.expr want
    value.pushAs want
    if (← layout).binds name then
      replace name
    else
      bindTop name want
  | none => do
    let ty ← value.value none
    bindTop name ty

/-- Makes a value the new storage. -/
def assignStorage (value : Operand) : Gen Unit := do
  let want ← storageType
  checkFits value.expr want
  value.pushAs want
  replace Layout.storageName

/-- Assigns a value to a target, which may carry an annotation. -/
def assign (target : Expr) (declared : Option Expr) (value : Expr) : Gen Unit := do
  let declared ← declared.mapM denoted
  match target with
  | .name _ name => assignName target name declared value.operand
  | .attr .. | .subscript .. =>
    if target.isStorage then
      assignStorage value.operand
    else
      assignPath target value
  | _ => failAt target.line (.unsupported (.notAssignable target.text))

/-! ## Simple statements -/

/-- Evaluates an expression for its effect and drops its result, if it leaves one. -/
def evaluate (value : Operand) : Gen Unit := do
  match value.expr with
  | .literal _ (.str _) => pure ()
  | _ =>
    let before ← depth
    let _ ← value.compile none
    if before < (← depth) then
      emit .drop
      pop 1

/-- A name that means nothing else is an exception class in a `raise`. -/
def isException (scope : Scope) : Expr → Bool
  | .name _ id =>
    !scope.layout.binds id && !scope.records.contains id && !Builtin.isName id
  | _ => false

/-- What a raised expression aborts with: the message of an exception, or else the value itself. -/
def raised (scope : Scope) (value : Expr) : Typed Expr :=
  match value with
  | .call line func args _ =>
    if isException scope func then
      match args with
      | [message] => .ok message
      | _ => faultAt line (.badArgument (.exceptionArguments func.text))
    else
      .ok value
  | _ => .ok value

def raise : Option Expr → Gen Unit
  | none => fail (.unsupported .bareRaise)
  | some value => do
    let message ← typed (raised (← scope) value)
    let _ ← message.operand.value none
    emit .failwith
    pop 1

/-- Returns from a function, which leaves the value on the stack, or from an entrypoint, which makes
it the new storage. -/
def ret (value : Option Expr) : Gen Unit := do
  match (← layout).context, value with
  | .function _ want, some value => do
    let found ← typeOf value (some want)
    unless found = want do
      failAt value.line (.typeMismatch want found)
    value.operand.pushAs want
  | .function _ want, none =>
    if want = .unit then
      apply .unit
    else
      fail (.typeMismatch want .unit)
  | .entrypoint _, some value => assignStorage value.operand
  | .entrypoint _, none => fail (.unsupported .bareReturn)
  | context, _ => fail (.invalidStatement context)

/-! ## Blocks -/

/-- Runs a block that knows the layout it starts from. -/
def fromHere (body : Layout → Gen Unit) : Gen Unit := do
  body (← layout)

/-- Frees the variables declared since an outer layout. -/
def freeDeclared (outer : Layout) : Gen Unit := do
  freeAll ((← layout).declaredSince outer)

/-- The type of the only argument of a function. -/
def paramType (param : Param) : Gen Ty :=
  match param.typeExpr with
  | some e => denoted e
  | none => failAt param.line (.invalidType (.untypedParam param.name))

/-- Runs a body with a variable on top of the stack, which is freed afterwards unless the body
aborts. -/
def freeingAfter (name : Ident) (body : Gen Unit) : Gen Unit := do
  let ((), code) ← listen body
  unless diverges code do
    free name

/-- Defines a function: a closure bound to the function's name. The body runs on a stack of its own
that holds just the argument. -/
def function (name : Ident) (params : List Param) (returns : Option Expr)
    (body : Gen Unit) : Gen Unit := do
  if (← layout).binds name then
    fail (.alreadyDefined name)
  match params with
  | [param] => do
    let argTy ← paramType param
    let resultTy ← match returns with
      | some e => denoted e
      | none => fail (.invalidType (.untypedResult name))
    let frame := (← layout).frame (.function name resultTy)
    let start ← sound ((frame.push 1).bind param.name argTy)
    let (code, final) ← block start (freeingAfter param.name body)
    unless diverges code do
      if final.depth = 0 then
        fail .noReturn
      unless final.depth = 1 do
        fail (.unsupported (.extraValues name))
    emit (.lambda argTy resultTy code)
    push 1
    setLayout ((← layout).setFormals name [param.name])
    bindTop name (.lambda argTy resultTy)
  | params => fail (.badArgument (.functionParams name params.length))

/-- A conditional. Both branches have to leave the same number of cells, unless one aborts. -/
def ifElse (test : Expr) (body orelse : Gen Unit) : Gen Unit := do
  let found ← typeOf test (some .bool)
  unless found = .bool do
    failAt test.line (.typeMismatch .bool found)
  test.operand.pushAs .bool
  pop 1
  let start ← layout
  let (thenCode, thenEnd) ← block start body
  let (elseCode, elseEnd) ← block start orelse
  let depth ←
    if thenEnd.depth = elseEnd.depth || diverges elseCode then
      pure thenEnd.depth
    else if diverges thenCode then
      pure elseEnd.depth
    else
      fail (.unsupported .unbalancedBranches)
  setLayout { start with depth := depth }
  emit (.ifElse thenCode elseCode)

/-- A loop over the elements of a list. -/
def forIn (target : Ident) (iter : Expr) (body : Gen Unit) : Gen Unit := do
  match ← typeOf iter none with
  | .list element => do
    let _ ← iter.operand.value none
    let start ← layout
    pop 1
    let (code, final) ← block start (freeingAfter target (do
      bindTop target element
      body))
    unless final.depth = (← depth) || diverges code do
      fail (.unsupported .unbalancedLoop)
    emit (.iter code)
  | other => failAt iter.line (.notIterable other)

end Gen

/-! ## The recursion over statements -/

open Gen in
mutual

/-- Emits the code of a statement. -/
def compileStmt : Stmt → Gen Unit
  | .function line name params returns body => do
    seen line
    function name params returns (fromHere (compileBody body))
  | .classDef line _ _ _ _ => do
    seen line
    fail (.invalidStatement (← layout).context)
  | .assign line target value => do
    seen line
    assign target none value
  | .annotated line target declared value => do
    seen line
    match value with
    | some value => assign target (some declared) value
    | none => fail (.unsupported .declarationWithoutValue)
  | .augmented line _ _ _ => do
    seen line
    defect .augmentedAssignment
  | .expr line value => do
    seen line
    evaluate value.operand
  | .ifElse line test body orelse => do
    seen line
    ifElse test (fromHere (compileBody body)) (fromHere (compileBody orelse))
  | .forIn line target iter body => do
    seen line
    forIn target iter (fromHere (compileBody body))
  | .raise line value => do
    seen line
    raise value
  | .ret line value => do
    seen line
    ret value
  | .imports line _ => seen line
  | .pass line => seen line

/-- Emits the statements of a block and frees what they declared since an outer layout, unless one
of them aborts. -/
def compileBody : List Stmt → Layout → Gen Unit
  | [], outer => freeDeclared outer
  | s :: rest, outer => do
    let ((), code) ← listen (compileStmt s)
    unless diverges code do
      compileBody rest outer

end

/-- Emits the code of a block. -/
def compileBlock (body : List Stmt) : Gen Unit := Gen.fromHere (compileBody body)

end Covenant
