import Covenant.Error
import Covenant.Instr.Basic

/-!
# Covenant — built-in variables, functions and classes

The names every program may use without defining them. A callable built-in has a signature that
depends on the types at the call site (`Builtin.signature`); what code a call emits is the code
generator's business.
-/

namespace Covenant

/-- A callable built-in. -/
inductive Builtin where
  | abs
  /-- A number of seconds, folded at compile time. -/
  | timedelta
  /-- Prepends a transfer to the pending operations. -/
  | transaction
  | contract
  /-- Wraps a literal in the given type, as in `Mutez(10)`. -/
  | wrap (ty : Base)
  | listNew
  | listPrepend
  | mapNew (big : Bool)
  | mapGet
  | mapAdd
  | pack
  | unpack
  | blake2b
  | now
  deriving DecidableEq

/-- How the arguments of a built-in are read. -/
inductive ArgumentKind where
  /-- Expressions, whose types are checked against the signature. -/
  | values
  /-- Type annotations. -/
  | types
  /-- Literals, possibly as keyword arguments. -/
  | literals
  deriving DecidableEq

/-- Argument types and result type of a call. -/
structure Signature where
  args : List Ty
  result : Ty

/-- The types known at a call site. -/
structure CallSite where
  /-- The type of the receiver of an instance method. -/
  receiver : Option Ty
  /-- Subscript parameters, as in `Map[str, int]()`. -/
  typeParams : List Ty
  /-- Argument types, or the denoted types where arguments are annotations. -/
  args : List Ty
  /-- The type the result is expected to have. -/
  expected : Option Ty

/-! ## Variables -/

/-- The type of a built-in variable and the primitive that pushes it. -/
def Builtin.constant? : Ident → Option (Ty × Prim)
  | "SENDER" => some (.address, .sender)
  | "SOURCE" => some (.address, .source)
  | "AMOUNT" => some (.mutez, .amount)
  | "BALANCE" => some (.mutez, .balance)
  | "Unit" => some (.unit, .unit)
  | _ => none

/-! ## Functions and classes -/

/-- The built-in function of a name. -/
def Builtin.function? : Ident → Option Builtin
  | "abs" => some .abs
  | "timedelta" => some .timedelta
  | "transaction" => some .transaction
  | "Contract" => some .contract
  | "Mutez" => some (.wrap .mutez)
  | "Nat" => some (.wrap .nat)
  | "Int" => some (.wrap .int)
  | "String" => some (.wrap .string)
  | "Address" => some (.wrap .address)
  | _ => none

/-- A built-in class: a constructor and methods. -/
inductive BuiltinClass where
  | list | map | bigMap | bytes | timestamp

namespace BuiltinClass

/-- The class of a name. -/
def ofName? : Ident → Option BuiltinClass
  | "List" => some list
  | "Map" => some map
  | "BigMap" => some bigMap
  | "Bytes" => some bytes
  | "Timestamp" => some timestamp
  | _ => none

/-- The class whose methods apply to values of a type. -/
def ofTy? : Ty → Option BuiltinClass
  | .map false _ _ => some map
  | .map true _ _ => some bigMap
  | .list _ => some list
  | .bytes => some bytes
  | .timestamp => some timestamp
  | _ => none

/-- What `Class(..)` and `Class[T, ..](..)` call. -/
def constructor : BuiltinClass → Builtin
  | list => .listNew
  | map => .mapNew false
  | bigMap => .mapNew true
  | bytes => .pack
  | timestamp => .wrap .timestamp

/-- The method of a name. -/
def method? : BuiltinClass → Ident → Option Builtin
  | list, "prepend" => some .listPrepend
  | map, "get" | bigMap, "get" => some .mapGet
  | map, "add" | bigMap, "add" => some .mapAdd
  | bytes, "unpack" => some .unpack
  | bytes, "blake2b" => some .blake2b
  | timestamp, "now" => some .now
  | _, _ => none

/-- The method of a name that is called on the class itself. -/
def staticMethod? : BuiltinClass → Ident → Option Builtin
  | timestamp, "now" => some .now
  | _, _ => none

end BuiltinClass

/-- The name is that of a built-in variable, function or class. -/
def Builtin.isName (id : Ident) : Bool :=
  (constant? id).isSome || (function? id).isSome || (BuiltinClass.ofName? id).isSome

/-! ## Signatures -/

namespace Builtin

def argumentKind : Builtin → ArgumentKind
  | timedelta | wrap _ => .literals
  | unpack => .types
  | _ => .values

/-- Key and value type of the receiver of a map method. -/
def entryTypes (site : CallSite) : Ty × Ty :=
  (site.receiver.bind Ty.keyValue?).getD (.unknown, .unknown)

/-- The result type of a map constructor. The parameters settle the type; without them the
expected type does. -/
def mapType (big : Bool) (site : CallSite) : Except Cause Ty :=
  match site.typeParams with
  | [k, v] => .ok (.map big k v)
  | [] =>
    match site.expected.bind Ty.keyValue? with
    | some (k, v) => .ok (.map big k v)
    | none => .ok (.map big .unknown .unknown)
  | _ => .error (.invalidType (.mapParameters (if big then "BigMap" else "Map")))

/-- The element type of a list constructor: the parameter, the type of the first argument, or the
expected element type. -/
def elementType (site : CallSite) : Except Cause Ty :=
  match site.typeParams, site.args with
  | [t], _ => .ok t
  | [], first :: _ => .ok first
  | [], [] =>
    match site.expected with
    | some (.list t) => .ok t
    | _ => .ok .unknown
  | _, _ => .error (.invalidType .listParameters)

/-- The signature of a call, from the types at the call site. -/
def signature (site : CallSite) : Builtin → Except Cause Signature
  | abs => .ok ⟨[.int], .nat⟩
  | timedelta => .ok ⟨[], .int⟩
  | transaction =>
    match site.args with
    | .contract param :: _ => .ok ⟨[.contract param, .mutez, param], .operation⟩
    | other :: _ => .error (.typeMismatch (.contract .unknown) other)
    | [] => .error (.badArgument .transactionArguments)
  | contract => .ok ⟨[.address], .contract .unit⟩
  | wrap ty => .ok ⟨[], .base ty⟩
  | listNew => do
    let element ← elementType site
    return ⟨List.replicate site.args.length element, .list element⟩
  | listPrepend =>
    let list := site.receiver.getD (.list .unknown)
    match list with
    | .list element => .ok ⟨[element], list⟩
    | _ => .ok ⟨[.unknown], list⟩
  | mapNew big => do return ⟨[], ← mapType big site⟩
  | mapGet =>
    let (k, v) := entryTypes site
    .ok ⟨[k, v], v⟩
  | mapAdd =>
    let (k, v) := entryTypes site
    .ok ⟨[k, v], site.receiver.getD .unknown⟩
  | pack => .ok ⟨[site.args.headD .unknown], .bytes⟩
  | unpack =>
    match site.args with
    | [ty] => .ok ⟨[], ty⟩
    | _ => .error (.badArgument .unpackArguments)
  | blake2b => .ok ⟨[], .bytes⟩
  | now => .ok ⟨[], .timestamp⟩

end Builtin

end Covenant
