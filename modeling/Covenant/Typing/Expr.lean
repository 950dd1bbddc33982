import Covenant.Typing.Callee

/-!
# Covenant — the typing of an expression

`typing` assembles the typing of an expression from the typings of its parts; `typeOf` reads the
type of an expression under an optional expectation off it.
-/

namespace Covenant

mutual

/-- The typing of an expression. -/
def typing (scope : Scope) : Expr → Typing
  | .name line id => .fixed line (atLine line (nameType scope id))
  | .literal line value => .ofExpected line fun expected => atLine line (literalType value expected)
  | .list line items => listTyping line (typings scope items)
  | .tuple line _ => .fixed line (faultAt line (.unsupported .tuple))
  | .dict line entries => dictTyping line (entryTypings scope entries)
  | .attr line value field =>
    .fixed line (attributeType scope line value field (typing scope value))
  | .subscript line value index =>
    .fixed line (subscriptType line (typing scope value) (typing scope index))
  | .call line (.attr funcLine value field) args _ =>
    let receiver := typing scope value
    let func := attributeType scope funcLine value field receiver
    let callee := Callee.classify scope (.attr funcLine value field) func receiver.alone
    callTyping scope.records line callee args (typings scope args)
  | .call line func args _ =>
    let ty := (typing scope func).alone
    callTyping scope.records line (Callee.classify scope func ty ty) args (typings scope args)
  | .compare line left [(op, right)] =>
    .fixed line (compareType left op right (typing scope left) (typing scope right))
  | .compare line _ _ => .fixed line (faultAt line (.unsupported .chainedComparison))
  | .binary line left op right =>
    .fixed line (binaryType left op right (typing scope left) (typing scope right))
  | .unary line op operand => .fixed line (unaryType line op (typing scope operand))
  | .boolean line _ operands => .fixed line (booleanType line (typings scope operands))

/-- The typings of several expressions. -/
def typings (scope : Scope) : List Expr → List Typing
  | [] => []
  | e :: es => typing scope e :: typings scope es

/-- The typings of the keys and values of a map literal. -/
def entryTypings (scope : Scope) : List (Expr × Expr) → List (Typing × Typing)
  | [] => []
  | (key, value) :: rest =>
    (typing scope key, typing scope value) :: entryTypings scope rest

end

/-- The type of an expression under an optional expectation. -/
def typeOf (scope : Scope) (e : Expr) (expected : Option Ty) : Typed Ty :=
  (typing scope e).expecting expected

/-- What the callee of a call denotes. -/
def calleeOf (scope : Scope) (func : Expr) : Typed Callee :=
  let receiver := match func with
    | .attr _ value _ => (typing scope value).alone
    | _ => (typing scope func).alone
  Callee.classify scope func (typing scope func).alone receiver

/-- The typing of a call starts from what it calls. -/
theorem typing_call (scope : Scope) (line : Nat) (func : Expr) (args : List Expr)
    (keywords : List (Ident × Expr)) :
    typing scope (.call line func args keywords) =
      callTyping scope.records line (calleeOf scope func) args (typings scope args) := by
  cases func <;> simp only [typing, calleeOf, Typing.fixed]

end Covenant
