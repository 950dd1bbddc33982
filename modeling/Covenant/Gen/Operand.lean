import Covenant.Gen.Basic

/-!
# Covenant — operands

An operand is a part of an expression as the code generator sees it: the expression, from which its
type is worked out, and the code that evaluates it once the type is known. The code of a compound
expression is put together from its operands.
-/

namespace Covenant

/-- An expression and what emits its code, given its type. -/
structure Operand where
  expr : Expr
  emit : Ty → Gen Unit

namespace Operand

open Gen

/-- Emits the code of the operand and gives its type. -/
def compile (o : Operand) (expected : Option Ty) : Gen Ty := do
  let ty ← Gen.typeOf o.expr expected
  seen o.expr.line
  o.emit ty
  return ty

/-- Emits the code of an operand that has to leave exactly one new cell on the stack. -/
def value (o : Operand) (expected : Option Ty) : Gen Ty := do
  let before ← depth
  let ty ← o.compile expected
  if (← depth) = before + 1 then
    return ty
  else
    failAt o.expr.line (.unsupported (.noValue o.expr.text))

/-- Pushes the value of an operand that stands where a type is expected. -/
def pushAs (o : Operand) (want : Ty) : Gen Unit := do
  let _ ← o.value (some want)

/-- Pushes operands in order, each as the type that stands in the same place. -/
def pushAll : List Operand → List Ty → Gen Unit
  | o :: os, want :: wants => do
    o.pushAs want
    pushAll os wants
  | _, _ => pure ()

/-- Pushes operands last to first, each as the type that stands in the same place. -/
def pushAllReversed : List Operand → List Ty → Gen Unit
  | o :: os, want :: wants => do
    pushAllReversed os wants
    o.pushAs want
  | _, _ => pure ()

/-- Prepends operands to the list on top of the stack, last to first. -/
def consAll (element : Ty) : List Operand → Gen Unit
  | [] => pure ()
  | o :: os => do
    consAll element os
    o.pushAs element
    apply .cons

/-- Inserts entries into the map on top of the stack, last to first. Of each entry the value is
evaluated before the key. -/
def insertAll (key value : Ty) : List (Operand × Operand) → Gen Unit
  | [] => pure ()
  | (k, v) :: rest => do
    insertAll key value rest
    v.pushAs value
    apply .some
    k.pushAs key
    apply .mapUpdate

/-- Checks that arguments have the types a callee declares, one by one. -/
def checkTypes (function : Ident) : List Operand → List Ty → Gen Unit
  | o :: os, want :: wants => do
    let found ← Gen.typeOf o.expr (some want)
    unless found.fits want do
      failAt o.expr.line (.argumentType function want found)
    checkTypes function os wants
  | _, _ => pure ()

/-- Checks number and types of the arguments of a call. -/
def checkArguments (function : Ident) (line : Nat) (args : List Operand) (wants : List Ty) :
    Gen Unit := do
  unless args.length = wants.length do
    failAt line (.badArgument (.count function wants.length args.length))
  checkTypes function args wants

end Operand

end Covenant
