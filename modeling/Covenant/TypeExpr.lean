import Covenant.Error
import Covenant.Table

/-!
# Covenant — type annotations

An annotation is an expression that denotes a type: the name of a base type or of a record, or a
type former applied to annotations, as in `Dict[str, List[Nat]]` and `Callable[[int], bool]`.
-/

namespace Covenant

/-- The record types in force, under their names. -/
abbrev Records := Table Fields

namespace TypeExpr

/-- The base type that a name denotes. -/
def base? : Ident → Option Base
  | "int" | "Int" => some .int
  | "nat" | "Nat" => some .nat
  | "mutez" | "Mutez" => some .mutez
  | "str" | "String" => some .string
  | "address" | "Address" => some .address
  | "bytes" | "Bytes" => some .bytes
  | "bool" | "Bool" => some .bool
  | "Unit" => some .unit
  | "Operation" => some .operation
  | "Timestamp" | "datetime" => some .timestamp
  | _ => none

/-- What builds a type from annotations. -/
inductive Former where
  | unary (make : Ty → Ty)
  | binary (make : Ty → Ty → Ty)
  /-- A closure type; the argument stands in a list. -/
  | callable

/-- How many type parameters a former takes. -/
def Former.arity : Former → Nat
  | unary _ => 1
  | binary _ => 2
  | callable => 2

/-- The former that a name denotes. -/
def former? : Ident → Option Former
  | "List" => some (.unary .list)
  | "Dict" | "Map" => some (.binary (.map false))
  | "BigMap" => some (.binary (.map true))
  | "Optional" | "Option" => some (.unary .option)
  | "Contract" => some (.unary .contract)
  | "Callable" => some .callable
  | _ => none

/-- The type that a plain name denotes. Base types come before records. -/
def named (records : Records) (id : Ident) : Except Cause Ty :=
  match base? id with
  | some b => .ok (.base b)
  | none =>
    match records.get? id with
    | some fields => .ok (.record id fields)
    | none => .error (.notDefined id)

def wrongArity (id : Ident) (former : Former) (found : Nat) : Cause :=
  .invalidType (.typeArity id former.arity found)

def notAType (e : Expr) : Cause := .unsupported (.notAType e.text)

mutual

/-- The type that an annotation denotes. -/
def resolve (records : Records) : Expr → Except Cause Ty
  | .name _ id => named records id
  | .literal _ .none => .ok .unit
  | .subscript _ (.name _ id) (.tuple _ params) =>
    match former? id with
    | none => .error (.notDefined id)
    | some former => resolveParams records id former params
  | .subscript _ (.name _ id) param =>
    match former? id with
    | none => .error (.notDefined id)
    | some (.unary make) => do return make (← resolve records param)
    | some former => .error (wrongArity id former 1)
  | e => .error (notAType e)

/-- The type that a former makes of several parameters. -/
def resolveParams (records : Records) (id : Ident) (former : Former) :
    List Expr → Except Cause Ty
  | [a] =>
    match former with
    | .unary make => do return make (← resolve records a)
    | former => .error (wrongArity id former 1)
  | [a, b] =>
    match former with
    | .binary make => do
      let first ← resolve records a
      return make first (← resolve records b)
    | .callable => do
      let arg ← resolveArgument records a
      return .lambda arg (← resolve records b)
    | former => .error (wrongArity id former 2)
  | params => .error (wrongArity id former params.length)

/-- The argument type of a closure: the only element of a list. -/
def resolveArgument (records : Records) : Expr → Except Cause Ty
  | .list _ [arg] => resolve records arg
  | .list _ _ => .error (.invalidType .closureArity)
  | e => .error (notAType e)

end

/-- The type that an annotation denotes; a fault is reported at the annotation's line. -/
def type (records : Records) (e : Expr) : Except CompileError Ty :=
  (resolve records e).mapError (CompileError.located · e.line)

/-- The types that several annotations denote. -/
def types (records : Records) : List Expr → Except CompileError (List Ty)
  | [] => .ok []
  | e :: es => do
    let ty ← type records e
    return ty :: (← types records es)

/-- The type parameters of a subscripted class, such as `Map[str, int]`. -/
def typeParams (records : Records) : Expr → Except CompileError (List Ty)
  | .tuple _ params => types records params
  | e => do return [← type records e]

end TypeExpr

end Covenant
