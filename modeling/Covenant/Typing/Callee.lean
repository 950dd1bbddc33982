import Covenant.Typing.Basic

/-!
# Covenant — what a call calls

Calls of different kinds look alike in the tree. `Class.method()` calls a method of a built-in
class, `value.method()` a method of the value's class, `Class(..)` and `Class[T](..)` a
constructor, `Record(..)` builds a record, and anything else applies a closure.
-/

namespace Covenant

/-- What a call expression calls. -/
inductive Callee where
  | record (name : Ident) (fields : Fields)
  | closure (arg result : Ty)
  /-- A built-in under the name it is called by, with the type of the receiver of an instance
  method and the parameters of a subscripted class. -/
  | builtin (name : Ident) (target : Builtin) (receiver : Option Ty) (typeParams : List Ty)

namespace Callee

/-- A callee that is an expression like any other has to be a closure. -/
def ofValue (func : Expr) (ty : Typed Ty) : Typed Callee := do
  match ← ty with
  | .lambda arg result => return .closure arg result
  | _ => faultAt func.line (.unsupported (.notCallable func.text))

/-- A plain name that is not a variable: a record, a built-in function or a built-in class. -/
def ofName (records : Records) (line : Nat) (id : Ident) : Typed Callee :=
  match records.get? id with
  | some fields => .ok (.record id fields)
  | none =>
    match Builtin.function? id with
    | some target => .ok (.builtin id target none [])
    | none =>
      match BuiltinClass.ofName? id with
      | some cls => .ok (.builtin id cls.constructor none [])
      | none => faultAt line (.notDefined id)

/-- What `func` denotes in a call, from its own type and, if it is an attribute, from the type of
the receiver. -/
def classify (scope : Scope) (func : Expr) (ty receiver : Typed Ty) : Typed Callee :=
  match func with
  | .attr line value field =>
    match scope.class? value with
    | some (id, cls) =>
      match cls.staticMethod? field with
      | some target => .ok (.builtin field target none [])
      | none => faultAt line (.noSuchAttribute id field)
    | none => do
      let receiverTy ← receiver
      match (BuiltinClass.ofTy? receiverTy).bind (·.method? field) with
      | some target => return .builtin field target (some receiverTy) []
      | none => ofValue func ty
  | .subscript _ value index =>
    match scope.class? value with
    | some (id, cls) => do
      let typeParams ← TypeExpr.typeParams scope.records index
      return .builtin id cls.constructor none typeParams
    | none => ofValue func ty
  | .name line id =>
    if scope.layout.binds id then ofValue func ty else ofName scope.records line id
  | _ => ofValue func ty

end Callee

/-! ## The type of a call -/

/-- The types of several expressions where nothing is expected. -/
def aloneTypes : List Typing → Typed (List Ty)
  | [] => .ok []
  | t :: rest => do
    let ty ← t.alone
    return ty :: (← aloneTypes rest)

/-- The argument types that the signature of a built-in is computed from. -/
def argumentTypes (records : Records) (target : Builtin) (args : List Expr)
    (values : Typed (List Ty)) : Typed (List Ty) :=
  match target.argumentKind with
  | .values => values
  | .types => TypeExpr.types records args
  | .literals => .ok []

/-- The signature of a call of a built-in at a line. -/
def builtinSignature (records : Records) (line : Nat) (target : Builtin) (receiver : Option Ty)
    (typeParams : List Ty) (args : List Expr) (values : Typed (List Ty)) (expected : Option Ty) :
    Typed Signature := do
  let args ← argumentTypes records target args values
  atLine line (target.signature ⟨receiver, typeParams, args, expected⟩)

/-- The result type of a call. -/
def calleeResult (records : Records) (line : Nat) (args : List Expr) (values : Typed (List Ty))
    (expected : Option Ty) : Callee → Typed Ty
  | .record name fields => .ok (.record name fields)
  | .closure _ result => .ok result
  | .builtin _ target receiver typeParams => do
    let signature ←
      builtinSignature records line target receiver typeParams args values expected
    return signature.result

/-- A result type with unknown parts is refused unless the expected type fills them in. -/
def settledResult (line : Nat) (expected : Option Ty) (ty : Ty) : Typed Ty :=
  if ty.hasUnknown && !(expected.any (ty.fits ·)) then
    faultAt line (.ambiguousEmpty (.ofTy ty))
  else
    .ok ty

/-- The typing of a call, from what it calls and the typings of its arguments. -/
def callTyping (records : Records) (line : Nat) (callee : Typed Callee) (args : List Expr)
    (typings : List Typing) : Typing :=
  let values := aloneTypes typings
  .ofExpected line fun expected => do
    let ty ← calleeResult records line args values expected (← callee)
    settledResult line expected ty

end Covenant
