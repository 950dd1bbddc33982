import Covenant.Gen.Builtin
import Covenant.Gen.Record

/-!
# Covenant — code of expressions

`emitExpr` emits the code of an expression whose type is known. Every kind of expression has a rule
that puts its code together from its operands; the recursion over the tree only supplies these.

Operands are evaluated right to left by binary operators, comparisons, list and map literals and
record constructors, and left to right by boolean connectives and built-in calls.
-/

namespace Covenant

namespace Gen

/-! ## Names and literals -/

/-- A variable of the program, or else a built-in one. -/
def emitName (id : Ident) : Gen Unit := do
  if (← layout).binds id then
    fetch id
  else
    match Builtin.constant? id with
    | some (_, p) => apply p
    | none => defect .undefinedName

def emitLiteral (value : Literal) (ty : Ty) : Gen Unit :=
  match value with
  | .int n => apply (.push ty (.int n))
  | .str s => apply (.push ty (.string s))
  | .bool b => apply (.push ty (.bool b))
  | .none => apply .unit

def emitList (line : Nat) (items : List Operand) (ty : Ty) : Gen Unit :=
  match ty with
  | .list element => do
    if element.hasUnknown then
      failAt line (.ambiguousEmpty .list)
    apply (.nil element)
    Operand.consAll element items
  | _ => defect .listType

def emitDict (line : Nat) (entries : List (Operand × Operand)) (ty : Ty) : Gen Unit := do
  if ty.hasUnknown then
    failAt line (.ambiguousEmpty .map)
  match ty with
  | .map big key value => do
    apply (.emptyMap big key value)
    Operand.insertAll key value entries
  | _ => defect .dictType

/-! ## Attributes and subscripts -/

def emitAttribute (isStorage : Bool) (value : Operand) (field : Ident) : Gen Unit := do
  if isStorage then
    fetch Layout.storageName
  else
    match ← value.value none with
    | .record name fields => readField name fields field
    | _ => defect .attributeOfNonRecord

/-- Replaces the map on top of the stack by the value under a key, which has to be there. -/
def lookUp (key : Operand) (keyTy : Ty) : Gen Unit := do
  key.pushAs keyTy
  apply .mapGet
  emit (unwrapOr "Key does not exist")

def emitSubscript (value index : Operand) : Gen Unit := do
  match (← value.value none).keyValue? with
  | some (key, _) => lookUp index key
  | none => defect .subscriptOfNonMap

/-! ## Operators -/

/-- The types of two operands under a typing rule. -/
def pairTypes (rule : Expr → Expr → Typing → Typing → Typed (Ty × Ty)) (left right : Operand) :
    Gen (Ty × Ty) := do
  let scope ← scope
  typed (rule left.expr right.expr (typing scope left.expr) (typing scope right.expr))

/-- Tests the outcome of `COMPARE`. -/
def comparisonTest? : CmpOp → Option Prim
  | .eq => some .eq
  | .notEq => some .neq
  | .lt => some .lt
  | .ltE => some .le
  | .gt => some .gt
  | .gtE => some .ge
  | _ => none

/-- Whether a key is in a map. -/
def emitMembership (key map : Operand) : Gen Unit := do
  match (← map.value none).keyValue? with
  | some (keyTy, _) => do
    key.pushAs keyTy
    apply .mem
  | none => defect .membership

def emitCompare (left : Operand) (op : CmpOp) (right : Operand) : Gen Unit :=
  match op with
  | .isIn => emitMembership left right
  | .notIn => do
    emitMembership left right
    apply .not
  | op => do
    let (leftTy, rightTy) ← pairTypes comparandTypes left right
    right.pushAs rightTy
    left.pushAs leftTy
    apply .compare
    match comparisonTest? op with
    | some test => apply test
    | none => defect .comparison

/-- Divides the two top cells, keeping one half of the result; a zero divisor aborts. -/
def divide (half : Prim) : Gen Unit := do
  apply .ediv
  emit (unwrapOr "Division by 0 not allowed")
  apply half

def emitBinary (left : Operand) (op : BinOp) (right : Operand) : Gen Unit := do
  let (leftTy, rightTy) ← pairTypes arithmeticTypes left right
  right.pushAs rightTy
  left.pushAs leftTy
  match op with
  | .add => apply (if leftTy = .string then .concat else .add)
  | .sub => apply .sub
  | .mult => apply .mul
  | .floorDiv => divide .car
  | .mod => divide .cdr
  | .div | .pow => defect .operator

def emitUnary (op : UnOp) (operand : Operand) : Gen Unit := do
  let _ ← operand.value none
  match op with
  | .not => apply .not
  | .minus => apply .neg
  | .plus | .invert => defect .operator

/-- The primitive of a boolean connective. -/
def connective : BoolOp → Prim
  | .and => .and
  | .or => .or

/-- Combines further operands with the boolean on top of the stack. -/
def connectAll (op : BoolOp) : List Operand → Gen Unit
  | [] => pure ()
  | o :: os => do
    o.pushAs .bool
    apply (connective op)
    connectAll op os

def emitBoolean (op : BoolOp) : List Operand → Gen Unit
  | [] => defect .noOperands
  | first :: rest => do
    first.pushAs .bool
    connectAll op rest

/-! ## Calls -/

/-- Applies a closure to its argument. -/
def applyClosure (func arg : Operand) (want : Ty) : Gen Unit := do
  let found ← typeOf arg.expr (some want)
  unless found = want do
    failAt arg.expr.line (.argumentType func.expr.text want found)
  annotate (.called func.expr.text)
  let _ ← func.value none
  arg.pushAs want
  emit .exec
  pop 1

/-- A closure takes one argument. A function of the program may have it given by keyword. -/
def callClosure (line : Nat) (func : Operand) (args : List Operand)
    (keywords : List (Ident × Operand)) (want : Ty) : Gen Unit := do
  match args, keywords with
  | [arg], [] => applyClosure func arg want
  | [], [(keyword, arg)] =>
    match func.expr.name?.bind (← layout).formals.get? with
    | some [formal] =>
      if formal = keyword then
        applyClosure func arg want
      else
        failAt line (.badArgument (.unknownKeyword func.expr.text keyword))
    | _ => failAt line (.badArgument (.unknownKeyword func.expr.text keyword))
  | args, keywords =>
    failAt line
      (.badArgument (.closureArguments func.expr.text (args.length + keywords.length)))

/-- Builds a record from positional arguments. -/
def callRecord (line : Nat) (name : Ident) (fields : Fields) (args : List Operand)
    (keywords : List (Ident × Operand)) : Gen Unit := do
  unless keywords.isEmpty do
    failAt line (.badArgument (.keywordsForRecord name))
  Operand.checkArguments name line args fields.types
  buildRecord fields args

/-- Calls a built-in: works out its signature, checks the arguments, pushes the receiver if there is
one, and emits the code of the call. -/
def callBuiltin (line : Nat) (name : Ident) (target : Builtin) (receiver : Option (Operand × Ty))
    (typeParams : List Ty) (args : List Operand) (keywords : List (Ident × Operand))
    (result : Ty) : Gen Unit := do
  let scope ← scope
  let exprs := args.map Operand.expr
  let signature ← typed (builtinSignature scope.records line target (receiver.map (·.2)) typeParams
    exprs (aloneTypes (typings scope exprs)) (some result))
  unless target.argumentKind = .literals || keywords.isEmpty do
    failAt line (.badArgument (.keywordsRefused name))
  if target.argumentKind = .values then
    Operand.checkArguments name line args signature.args
  annotate (.called name)
  if let some (operand, _) := receiver then
    let _ ← operand.value none
  let call : Invocation :=
    ⟨name, line, signature, args, keywords.map fun (k, o) => (k, o.expr)⟩
  call.emit target

/-- Emits a call. The receiver is the operand whose attribute is called, if an attribute is. -/
def emitCall (line : Nat) (func : Operand) (receiver : Option Operand) (args : List Operand)
    (keywords : List (Ident × Operand)) (result : Ty) : Gen Unit := do
  match ← typed (calleeOf (← scope) func.expr) with
  | .record name fields => callRecord line name fields args keywords
  | .closure want _ => callClosure line func args keywords want
  | .builtin name target receiverTy typeParams =>
    let receiver := receiver.bind fun operand => receiverTy.map fun ty => (operand, ty)
    callBuiltin line name target receiver typeParams args keywords result

end Gen

/-! ## The recursion over the tree -/

open Gen in
mutual

/-- Emits the code of an expression of the given type. -/
def emitExpr : Expr → Ty → Gen Unit
  | .name _ id, _ => emitName id
  | .literal _ value, ty => emitLiteral value ty
  | .list line items, ty => emitList line (operands items) ty
  | .tuple _ _, _ => defect .tuple
  | .dict line entries, ty => emitDict line (entryOperands entries) ty
  | .attr line value field, _ =>
    emitAttribute (Expr.attr line value field).isStorage ⟨value, emitExpr value⟩ field
  | .subscript _ value index, _ => emitSubscript ⟨value, emitExpr value⟩ ⟨index, emitExpr index⟩
  | .call line func args keywords, ty =>
    let receiver := match func with
      | .attr _ value _ => some ⟨value, emitExpr value⟩
      | _ => none
    emitCall line ⟨func, emitExpr func⟩ receiver (operands args) (keywordOperands keywords) ty
  | .compare _ left [(op, right)], _ =>
    emitCompare ⟨left, emitExpr left⟩ op ⟨right, emitExpr right⟩
  | .compare _ _ _, _ => defect .comparisonChain
  | .binary _ left op right, _ => emitBinary ⟨left, emitExpr left⟩ op ⟨right, emitExpr right⟩
  | .unary _ op operand, _ => emitUnary op ⟨operand, emitExpr operand⟩
  | .boolean _ op values, _ => emitBoolean op (operands values)

/-- The expressions as operands. -/
def operands : List Expr → List Operand
  | [] => []
  | e :: es => ⟨e, emitExpr e⟩ :: operands es

/-- The keys and values of a map literal as operands. -/
def entryOperands : List (Expr × Expr) → List (Operand × Operand)
  | [] => []
  | (key, value) :: rest =>
    (⟨key, emitExpr key⟩, ⟨value, emitExpr value⟩) :: entryOperands rest

/-- Keyword arguments as operands. -/
def keywordOperands : List (Ident × Expr) → List (Ident × Operand)
  | [] => []
  | (id, value) :: rest => (id, ⟨value, emitExpr value⟩) :: keywordOperands rest

end

/-- An expression as an operand. -/
def Expr.operand (e : Expr) : Operand := ⟨e, emitExpr e⟩

end Covenant
