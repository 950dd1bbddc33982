import Covenant.Syntax.Printer
import Covenant.Ty.Printer

/-!
# Covenant — compile errors

Why a program is refused (`Cause`), and at which source line (`CompileError`). The wording of every
cause is in the `message` functions of this module. Expressions are quoted as text, so a cause says
nothing about lines.

A `Defect` is an internal inconsistency of the compiler, not a fault of the program.
-/

namespace Covenant

/-- The kind of body a statement appears in. -/
inductive Context where
  /-- Module-level statements, shared by every entrypoint. -/
  | module
  | function (name : Ident) (returns : Ty)
  | entrypoint (name : Ident)
  /-- The storage initializer. -/
  | deploy

namespace Context

def text : Context → String
  | module => "module"
  | function name _ => "function `" ++ name ++ "`"
  | entrypoint name => "entrypoint `" ++ name ++ "`"
  | deploy => "deploy"

end Context

/-- Why a type annotation or the type of an operand is not valid. -/
inductive TypeFault where
  | untypedParam (param : Ident)
  | untypedResult (function : Ident)
  | notSubscriptable (ty : Ty)
  | notNegatable (ty : Ty)
  | noMembership (ty : Ty) (op : CmpOp)
  | noArithmetic (ty : Ty) (op : BinOp)
  | notComparable (ty : Ty)
  | negative (value : Int64) (ty : Ty)
  | listParameters
  | mapParameters (name : Ident)
  | typeArity (name : Ident) (expected found : Nat)
  | closureArity

namespace TypeFault

def message : TypeFault → String
  | untypedParam param => s!"argument `{param}` has no type annotation"
  | untypedResult function => s!"function `{function}` has no return annotation"
  | notSubscriptable ty => s!"`{ty.text}` is not subscriptable"
  | notNegatable ty => s!"cannot negate `{ty.text}`"
  | noMembership ty op => s!"`{ty.text}` does not support `{op.text}`"
  | noArithmetic ty op => s!"`{ty.text}` does not support `{op.text}`"
  | notComparable ty => s!"`{ty.text}` is not comparable"
  | negative value ty => s!"`{value.toInt}` is negative, `{ty.text}` is not"
  | listParameters => "`List` takes one type parameter"
  | mapParameters name => s!"`{name}` takes two type parameters"
  | typeArity name expected found =>
    s!"`{name}` takes {expected} type parameter(s), found {found}"
  | closureArity => "functions take exactly one argument"

end TypeFault

/-- Why the arguments of a call, or the operands of an operator, make no sense. -/
inductive ArgumentFault where
  | functionParams (function : Ident) (found : Nat)
  | entrypointParams (entrypoint : Ident) (found : Nat)
  | exceptionArguments (exception : String)
  | tooFewOperands
  | keywordsRefused (function : Ident)
  | keywordsForRecord (record : Ident)
  | count (function : Ident) (expected found : Nat)
  | unknownKeyword (function : String) (keyword : Ident)
  | closureArguments (function : String) (found : Nat)
  | transactionArguments
  | unpackArguments
  | notALiteral (function : Ident)
  | invalidLiteral (literal : String) (function : Ident)
  | timedeltaPositional
  | timedeltaUnit (unit : Ident)
  | timedeltaValue (unit : Ident)
  | timedeltaRange

namespace ArgumentFault

def message : ArgumentFault → String
  | functionParams function found =>
    s!"function `{function}` must take exactly one argument, found {found}"
  | entrypointParams entrypoint found =>
    s!"entrypoint `{entrypoint}` takes at most one argument, found {found}"
  | exceptionArguments exception => s!"`{exception}` takes a single message"
  | tooFewOperands => "boolean operators take at least two operands"
  | keywordsRefused function => s!"`{function}` takes no keyword arguments"
  | keywordsForRecord record => s!"`{record}` takes its attributes positionally"
  | count function expected found => s!"`{function}` takes {expected} argument(s), found {found}"
  | unknownKeyword function keyword => s!"`{function}` has no argument named `{keyword}`"
  | closureArguments function found => s!"`{function}` takes exactly one argument, found {found}"
  | transactionArguments => "`transaction` takes a contract, an amount and a parameter"
  | unpackArguments => "`unpack` takes the type to unpack"
  | notALiteral function => s!"`{function}` takes a single literal"
  | invalidLiteral literal function => s!"`{literal}` is not a valid `{function}`"
  | timedeltaPositional => "`timedelta` takes at most two positional arguments"
  | timedeltaUnit unit => s!"unknown `timedelta` unit `{unit}`"
  | timedeltaValue unit => s!"`{unit}` must be an integer literal"
  | timedeltaRange => "`timedelta` is out of range"

end ArgumentFault

/-- Constructs outside the supported language. -/
inductive Unsupported where
  | noValue (expr : String)
  | notAValue (name : Ident)
  | notCallable (expr : String)
  | mustBeCalled (expr : String)
  | notAType (expr : String)
  | notAssignable (target : String)
  | notAnAttribute (target : String)
  | tuple
  | chainedComparison
  | comparison (op : CmpOp)
  | binary (op : BinOp)
  | unary (op : UnOp)
  | declarationWithoutValue
  | extraValues (function : Ident)
  | unbalancedBranches
  | unbalancedLoop
  | bareRaise
  | bareReturn
  | strayTransaction
  | recordMember (record : Ident)
  | emptyRecord (record : Ident)
  | unknownClass (name : Ident)
  | notARecord (name : Ident)
  | afterContract
  | contractMember
  | deployBody

namespace Unsupported

def message : Unsupported → String
  | noValue expr => s!"`{expr}` does not produce a value"
  | notAValue name => s!"`{name}` is not a value"
  | notCallable expr => s!"`{expr}` is not callable"
  | mustBeCalled expr => s!"`{expr}` must be called"
  | notAType expr => s!"`{expr}` is not a type"
  | notAssignable target => s!"cannot assign to `{target}`"
  | notAnAttribute target => s!"`{target}` is not an attribute name"
  | tuple => "tuples are not supported, use a record"
  | chainedComparison => "chained comparisons are not supported"
  | comparison op => s!"comparison operator `{op.text}`"
  | binary op => s!"operator `{op.text}`, use `//` for division"
  | unary op => s!"operator `{op.text}`"
  | declarationWithoutValue => "declaration without a value"
  | extraValues function => s!"function `{function}` leaves more than one value"
  | unbalancedBranches =>
    "both branches of a conditional must leave the same values on the stack"
  | unbalancedLoop => "loop bodies must not leave values on the stack"
  | bareRaise => "`raise` needs a value"
  | bareReturn => "entrypoints return the new storage"
  | strayTransaction => "`transaction` can only be called in an entrypoint"
  | recordMember record => s!"record `{record}` may only declare annotated attributes"
  | emptyRecord record => s!"record `{record}` has no attributes"
  | unknownClass name => s!"class `{name}` is neither a record nor the contract"
  | notARecord name => s!"class `{name}` is not a record"
  | afterContract => "statements after the contract"
  | contractMember => "contract bodies may only define methods"
  | deployBody => "`deploy` must consist of a single return statement"

end Unsupported

/-- The literals that may be empty. -/
inductive Container where
  | list | map

namespace Container

def text : Container → String
  | list => "list"
  | map => "map"

/-- The container that a type without a settled element type is blamed on. -/
def ofTy : Ty → Container
  | .list _ => list
  | _ => map

end Container

/-- An internal inconsistency: something the compiler relies on does not hold. -/
inductive Defect where
  | depthUnderflow
  | slotAboveTop
  | bindEmptyStack
  | freeUnbound
  | slotUnderflow
  | replaceUnbound
  | untyped
  | augmentedAssignment
  | undefinedName
  | listType
  | dictType
  | attributeOfNonRecord
  | subscriptOfNonMap
  | comparisonChain
  | operator
  | noOperands
  | tuple
  | membership
  | comparison
  | listConstructor
  | mapConstructor
  | arity
  | mapMethod
  | noAttributes
  | attributeIndex
  | untypedStorage

namespace Defect

def message : Defect → String
  | depthUnderflow => "stack depth underflow"
  | slotAboveTop => "slot above the top of the stack"
  | bindEmptyStack => "binding an empty stack"
  | freeUnbound => "freeing an unbound variable"
  | slotUnderflow => "slot underflow"
  | replaceUnbound => "replacing an unbound variable"
  | untyped => "variable has no type"
  | augmentedAssignment => "augmented assignment survived expansion"
  | undefinedName => "type checker accepted an undefined name"
  | listType => "list literal must have a list type"
  | dictType => "dict literal must have a map type"
  | attributeOfNonRecord => "type checker accepted an attribute of a non-record"
  | subscriptOfNonMap => "type checker accepted a subscript of a non-map"
  | comparisonChain => "type checker accepted a comparison chain"
  | operator => "type checker accepted an unsupported operator"
  | noOperands => "boolean operators have operands"
  | tuple => "type checker accepted a tuple"
  | membership => "type checker accepted membership in a non-map"
  | comparison => "type checker accepted an unsupported comparison"
  | listConstructor => "list constructor must return a list"
  | mapConstructor => "map constructor must return a map"
  | arity => "arity was checked"
  | mapMethod => "map methods take a key and a value"
  | noAttributes => "record has attributes"
  | attributeIndex => "attribute index in range"
  | untypedStorage => "storage initializer compiled without a type"

/-- The number before another one. The defect is that there is none. -/
def pred (d : Defect) : Nat → Except Defect Nat
  | 0 => .error d
  | n + 1 => .ok n

end Defect

/-- Why a program does not compile. -/
inductive Cause where
  /-- A statement stands in a body where it has no meaning. -/
  | invalidStatement (context : Context)
  /-- A name is neither in scope nor built in. -/
  | notDefined (name : Ident)
  /-- A thing of that name exists already. -/
  | alreadyDefined (name : Ident)
  /-- A value has another type than its position requires. -/
  | typeMismatch (expected found : Ty)
  | invalidType (fault : TypeFault)
  /-- The receiver, a class or the type of a value, has no such attribute. -/
  | noSuchAttribute (receiver : String) (attr : Ident)
  /-- An argument has another type than the callee declares. -/
  | argumentType (function : String) (expected found : Ty)
  | notIterable (found : Ty)
  /-- An empty container has no annotation to take its type from. -/
  | ambiguousEmpty (container : Container)
  | badArgument (fault : ArgumentFault)
  /-- A function ends without a value. -/
  | noReturn
  | unsupported (construct : Unsupported)
  | defect (defect : Defect)

namespace Cause

def message : Cause → String
  | invalidStatement context => s!"invalid statement in {context.text} context"
  | notDefined name => s!"not defined: {name}"
  | alreadyDefined name => s!"already defined: {name}"
  | typeMismatch expected found =>
    s!"type mismatch: expected `{expected.text}`, found `{found.text}`"
  | invalidType fault => s!"invalid type: {fault.message}"
  | noSuchAttribute receiver attr => s!"`{receiver}` has no attribute `{attr}`"
  | argumentType function expected found =>
    s!"`{function}` expects an argument of type `{expected.text}`, found `{found.text}`"
  | notIterable found => s!"`{found.text}` is not iterable"
  | ambiguousEmpty container =>
    s!"cannot infer the type of an empty {container.text} without an annotation"
  | badArgument fault => s!"bad argument: {fault.message}"
  | noReturn => "function has no return statement"
  | unsupported construct => s!"unsupported: {construct.message}"
  | defect d => s!"bug: {d.message}"

end Cause

/-- A cause and the source line it was found at, if known. -/
structure CompileError where
  cause : Cause
  line : Option Nat

namespace CompileError

/-- A cause at a source line, where line zero is no line. -/
def located (cause : Cause) (line : Nat) : CompileError :=
  ⟨cause, if line = 0 then none else some line⟩

/-- The error at its own line, or else at the given one. -/
def orLine (e : CompileError) (line : Nat) : CompileError :=
  match e.line with
  | some _ => e
  | none => located e.cause line

def message (e : CompileError) : String :=
  match e.line with
  | some line => s!"{e.cause.message} at line {line}"
  | none => e.cause.message

end CompileError

end Covenant
