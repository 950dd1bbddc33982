import Covenant.Gen.Operand
import Covenant.Timedelta

/-!
# Covenant — code of built-in calls

What a call of a built-in emits once its signature is known and its arguments are checked. The
receiver of an instance method is already on the stack. Every call leaves one new cell in its
place, except `transaction`, which leaves none.
-/

namespace Covenant

/-- A call of a built-in whose signature is known. -/
structure Invocation where
  /-- The name the built-in is called by. -/
  name : Ident
  line : Nat
  signature : Signature
  args : List Operand
  keywords : List (Ident × Expr)

/-- The value that a literal wrapper such as `Mutez(10)` pushes. -/
def wrappedValue (name : Ident) (ty : Base) (literal : Expr) : Except Cause Value :=
  let invalid := .error (.badArgument (.invalidLiteral literal.text name))
  match ty with
  | .string | .address =>
    match literal with
    | .literal _ (.str s) => .ok (.string s)
    | _ => invalid
  | .int | .timestamp =>
    match literal.integer? with
    | some n => .ok (.int n)
    | none => invalid
  | .nat | .mutez =>
    match literal.integer? with
    | some n => if n < 0 then .error (.invalidType (.negative n (.base ty))) else .ok (.int n)
    | none => invalid
  | _ => invalid

namespace Invocation

open Gen

/-- Pushes the arguments in order, each as the type the signature gives it. -/
def pushArguments (call : Invocation) : Gen Unit :=
  Operand.pushAll call.args call.signature.args

/-- The single literal argument of a literal wrapper. -/
def literal (call : Invocation) : Gen Expr :=
  let refused := failAt call.line (.badArgument (.notALiteral call.name))
  match call.args, call.keywords with
  | [arg], [] => if arg.expr.isLiteral then pure arg.expr else refused
  | _, _ => refused

/-- Looks a key up in the map on top of the stack; the default is evaluated only if it is needed. -/
def getOr (key default : Operand) (keyTy valueTy : Ty) : Gen Unit := do
  key.pushAs keyTy
  apply .mapGet
  let start ← sound ((← layout).pop 1)
  let (code, _) ← block start (default.pushAs valueTy)
  emit (.ifNone code [])

/-- Emits the code of the call. -/
def emit (call : Invocation) : Builtin → Gen Unit
  | .abs => do
    call.pushArguments
    apply .abs
  | .timedelta =>
    match Timedelta.seconds (call.args.map Operand.expr) call.keywords with
    | .ok n => apply (.push .int (.int n))
    | .error fault => failAt call.line (.badArgument fault)
  | .transaction => do
    unless (← layout).binds Layout.operationsName do
      failAt call.line (.unsupported .strayTransaction)
    fetch Layout.operationsName
    call.pushArguments
    apply .transferTokens
    apply .cons
    replace Layout.operationsName
  | .contract => do
    call.pushArguments
    apply (.contract .unit)
    Gen.emit (unwrapOr "Contract does not exist")
  | .wrap ty => do
    let arg ← call.literal
    let value ← typed (atLine arg.line (wrappedValue call.name ty arg))
    apply (.push (.base ty) value)
  | .listNew =>
    match call.signature.result with
    | .list element => do
      if element.hasUnknown then
        failAt call.line (.ambiguousEmpty .list)
      apply (.nil element)
      Operand.consAll element call.args
    | _ => defect .listConstructor
  | .listPrepend => do
    call.pushArguments
    apply .cons
  | .mapNew _ => do
    if call.signature.result.hasUnknown then
      failAt call.line (.ambiguousEmpty .map)
    match call.signature.result with
    | .map big key value => apply (.emptyMap big key value)
    | _ => defect .mapConstructor
  | .mapGet =>
    match call.args, call.signature.args with
    | [key, default], [keyTy, valueTy] => getOr key default keyTy valueTy
    | [_, _], _ => defect .mapMethod
    | _, _ => defect .arity
  | .mapAdd =>
    match call.args, call.signature.args with
    | [key, value], [keyTy, valueTy] => Operand.insertAll keyTy valueTy [(key, value)]
    | [_, _], _ => defect .mapMethod
    | _, _ => defect .arity
  | .pack => do
    call.pushArguments
    apply .pack
  | .unpack => do
    apply (.unpack call.signature.result)
    Gen.emit (unwrapOr "Could not unpack")
  | .blake2b => apply .blake2b
  | .now => apply .now

end Invocation

end Covenant
