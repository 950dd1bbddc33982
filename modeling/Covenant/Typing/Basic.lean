import Covenant.Builtin
import Covenant.Layout
import Covenant.TypeExpr

/-!
# Covenant — typings

Whether an expression has a type, and which, may depend on the type its surroundings expect: an
expected type picks between the types of a literal and fills in the unknown parts of an empty
container. A `Typing` answers both questions, what the type is where nothing is expected and what
it is where some type is. The typing of an expression is assembled from the typings of its parts,
each of which is worked out once.

The expected type is a hint. The result is not checked against it; whoever needs a particular type
compares.

Errors carry the line of the node they were found at, and no line if that node has none.
-/

namespace Covenant

/-- The outcome of a typing question. -/
abbrev Typed := Except CompileError

/-- What names mean at a point of the program. -/
structure Scope where
  records : Records
  layout : Layout

/-- How an expression is typed. -/
structure Typing where
  /-- The line of the expression. -/
  line : Nat
  /-- The type where nothing is expected. -/
  alone : Typed Ty
  /-- The type where the given one is expected. -/
  against : Ty → Typed Ty

namespace Typing

/-- The type under an optional expectation. -/
def expecting (t : Typing) : Option Ty → Typed Ty
  | none => t.alone
  | some want => t.against want

/-- Takes the expected type over if it only fills in unknown parts. -/
def adopt (want : Ty) (result : Typed Ty) : Typed Ty := do
  let ty ← result
  return if ty.hasUnknown && ty.fits want then want else ty

/-- A typing that looks at the expected type. -/
def ofExpected (line : Nat) (infer : Option Ty → Typed Ty) : Typing :=
  ⟨line, infer none, fun want => adopt want (infer (some want))⟩

/-- A typing that does not look at the expected type, unknown parts apart. -/
def fixed (line : Nat) (result : Typed Ty) : Typing :=
  ⟨line, result, fun want => adopt want result⟩

end Typing

/-- A cause found at a line, as the outcome of a typing question. -/
def faultAt {α : Type} (line : Nat) (cause : Cause) : Typed α :=
  .error (.located cause line)

/-- An outcome whose cause, if it has one, is found at a line. -/
def atLine {α : Type} (line : Nat) (result : Except Cause α) : Typed α :=
  result.mapError (CompileError.located · line)

namespace Scope

/-- The built-in class that an expression names, unless a variable of that name is in scope. -/
def class? (scope : Scope) : Expr → Option (Ident × BuiltinClass)
  | .name _ id =>
    if scope.layout.binds id then none else (BuiltinClass.ofName? id).map fun c => (id, c)
  | _ => none

/-- The type of the contract storage, where storage is accessible. -/
def storageType (scope : Scope) : Typed Ty :=
  match scope.layout.ty? Layout.storageName with
  | some ty => .ok ty
  | none => faultAt 0 (.invalidStatement scope.layout.context)

end Scope

/-! ## Names and literals -/

/-- The type of a variable, of the program or built in. -/
def nameType (scope : Scope) (id : Ident) : Except Cause Ty :=
  match scope.layout.ty? id with
  | some ty => .ok ty
  | none =>
    match Builtin.constant? id with
    | some (ty, _) => .ok ty
    | none =>
      if scope.records.contains id || Builtin.isName id then
        .error (.unsupported (.notAValue id))
      else
        .error (.notDefined id)

/-- Text that looks like the address of an account or contract: 36 bytes that start in one of two
ways. -/
def isAddress (s : String) : Bool :=
  s.utf8ByteSize == 36 && ("tz".toList.isPrefixOf s.toList || "KT".toList.isPrefixOf s.toList)

/-- The type of a literal. The expected type picks between the types a literal can have. -/
def literalType (value : Literal) (expected : Option Ty) : Except Cause Ty :=
  match value with
  | .int n =>
    match expected with
    | some .nat => if n < 0 then .error (.invalidType (.negative n .nat)) else .ok .nat
    | some .mutez => if n < 0 then .error (.invalidType (.negative n .mutez)) else .ok .mutez
    | some .timestamp => .ok .timestamp
    | _ => .ok .int
  | .str s =>
    match expected with
    | some .address => .ok .address
    | some .string => .ok .string
    | _ => if isAddress s then .ok .address else .ok .string
  | .bool _ => .ok .bool
  | .none => .ok .unit

/-! ## Containers -/

/-- Checks that an element of a container has the element type. -/
def checkElement (want : Ty) (item : Typing) : Typed Unit := do
  let found ← item.against want
  if found.fits want || want.fits found then
    return ()
  else
    faultAt item.line (.typeMismatch want found)

/-- Checks every element of a list. -/
def checkElements (want : Ty) : List Typing → Typed Unit
  | [] => .ok ()
  | item :: rest => do
    checkElement want item
    checkElements want rest

/-- Checks every entry of a map, the key before the value. -/
def checkEntries (key value : Ty) : List (Typing × Typing) → Typed Unit
  | [] => .ok ()
  | (k, v) :: rest => do
    checkElement key k
    checkElement value v
    checkEntries key value rest

/-- The type of a list literal whose elements should have the given type. -/
def listOf (items : List Typing) (element : Ty) : Typed Ty := do
  checkElements element items
  return .list element

/-- The type of a map literal whose entries should have the given types. -/
def mapOf (entries : List (Typing × Typing)) (big : Bool) (key value : Ty) : Typed Ty := do
  checkEntries key value entries
  return .map big key value

/-- A list literal: the expected element type, or else the type of the first element, is the type
of them all. -/
def listTyping (line : Nat) (items : List Typing) : Typing :=
  let byFirst := match items with
    | [] => listOf items .unknown
    | first :: _ => do listOf items (← first.alone)
  .ofExpected line fun
    | some (.list element) => listOf items element
    | _ => byFirst

/-- A map literal: the expected key and value type, or else the types of the first entry, are the
types of them all. -/
def dictTyping (line : Nat) (entries : List (Typing × Typing)) : Typing :=
  let byFirst := match entries with
    | [] => mapOf entries false .unknown .unknown
    | (k, v) :: _ => do
      let key ← k.alone
      let value ← v.alone
      mapOf entries false key value
  .ofExpected line fun
    | some (.map big key value) => mapOf entries big key value
    | _ => byFirst

/-! ## Attributes and subscripts -/

/-- The attribute of a value: of the storage, of a record, or nothing at all. -/
def attributeType (scope : Scope) (line : Nat) (value : Expr) (field : Ident)
    (receiver : Typing) : Typed Ty :=
  let whole := Expr.attr line value field
  if whole.isStorage then
    scope.storageType
  else
    match scope.class? value with
    | some (id, cls) =>
      if (cls.method? field).isSome then
        faultAt line (.unsupported (.mustBeCalled whole.text))
      else
        faultAt line (.noSuchAttribute id field)
    | none => do
      match ← receiver.alone with
      | .record name fields =>
        match Fields.find? field fields with
        | some (_, ty) => return ty
        | none => faultAt line (.noSuchAttribute name field)
      | ty =>
        if ((BuiltinClass.ofTy? ty).bind (·.method? field)).isSome then
          faultAt line (.unsupported (.mustBeCalled whole.text))
        else
          faultAt line (.noSuchAttribute ty.text field)

/-- The value under a key of a map. -/
def subscriptType (line : Nat) (value index : Typing) : Typed Ty := do
  let ty ← value.alone
  match ty.keyValue? with
  | some (key, result) => do
    checkElement key index
    return result
  | none => faultAt line (.invalidType (.notSubscriptable ty))

/-! ## Operators -/

/-- The types of two operands. A literal operand takes its type from its partner, through
`partner`. -/
def operandTypes (partner : Ty → Ty) (left right : Expr) (l r : Typing) : Typed (Ty × Ty) :=
  if left.isLiteral && !right.isLiteral then do
    let rightTy ← r.alone
    let leftTy ← l.against (partner rightTy)
    return (leftTy, rightTy)
  else do
    let leftTy ← l.alone
    let rightTy ← r.against (partner leftTy)
    return (leftTy, rightTy)

/-- What an operand of arithmetic expects of its partner. Next to a timestamp stands a number of
seconds. -/
def arithmeticPartner : Ty → Ty
  | .timestamp => .int
  | ty => ty

/-- The types of the operands of a comparison. -/
def comparandTypes : Expr → Expr → Typing → Typing → Typed (Ty × Ty) := operandTypes id

/-- The types of the operands of an arithmetic operator. -/
def arithmeticTypes : Expr → Expr → Typing → Typing → Typed (Ty × Ty) :=
  operandTypes arithmeticPartner

/-- A comparison gives a boolean, if its operands can be compared. -/
def compareType (left : Expr) (op : CmpOp) (right : Expr) (l r : Typing) : Typed Ty :=
  match op with
  | .isIn | .notIn => do
    let ty ← r.alone
    match ty.keyValue? with
    | some (key, _) => do
      checkElement key l
      return .bool
    | none => faultAt r.line (.invalidType (.noMembership ty op))
  | .same | .notSame => faultAt l.line (.unsupported (.comparison op))
  | _ => do
    let (leftTy, rightTy) ← comparandTypes left right l r
    if leftTy ≠ rightTy then
      faultAt r.line (.typeMismatch leftTy rightTy)
    else if !leftTy.isComparable then
      faultAt l.line (.invalidType (.notComparable leftTy))
    else
      return .bool

/-- The result type of an arithmetic operator on operands of the given types, if it has one. -/
def arithmeticResult? (op : BinOp) (left right : Ty) : Option Ty :=
  match op, left, right with
  | .add, .string, .string => some .string
  | .add, .timestamp, .int | .sub, .timestamp, .int => some .timestamp
  | .sub, .timestamp, .timestamp => some .int
  | _, .int, .int => some .int
  | _, .nat, .nat => some .nat
  | _, .mutez, .mutez => some .mutez
  | _, _, _ => none

/-- An arithmetic operator. True division and powers are not part of the language. -/
def binaryType (left : Expr) (op : BinOp) (right : Expr) (l r : Typing) : Typed Ty :=
  match op with
  | .div | .pow => faultAt l.line (.unsupported (.binary op))
  | _ => do
    let (leftTy, rightTy) ← arithmeticTypes left right l r
    match arithmeticResult? op leftTy rightTy with
    | some ty => return ty
    | none =>
      if leftTy ≠ rightTy then
        faultAt r.line (.typeMismatch leftTy rightTy)
      else
        faultAt l.line (.invalidType (.noArithmetic leftTy op))

/-- An operator in front of its operand. -/
def unaryType (line : Nat) (op : UnOp) (operand : Typing) : Typed Ty := do
  let ty ← operand.alone
  match op, ty with
  | .not, .bool => return .bool
  | .not, _ => faultAt line (.typeMismatch .bool ty)
  | .minus, .int | .minus, .nat => return .int
  | .minus, _ => faultAt line (.invalidType (.notNegatable ty))
  | .plus, _ | .invert, _ => faultAt line (.unsupported (.unary op))

/-- Checks that every operand is a boolean. -/
def checkBooleans : List Typing → Typed Unit
  | [] => .ok ()
  | operand :: rest => do
    let found ← operand.against .bool
    if found = .bool then
      checkBooleans rest
    else
      faultAt operand.line (.typeMismatch .bool found)

/-- A boolean connective of two or more operands. -/
def booleanType (line : Nat) (operands : List Typing) : Typed Ty :=
  if operands.length < 2 then
    faultAt line (.badArgument .tooFewOperands)
  else do
    checkBooleans operands
    return .bool

end Covenant
