/-!
# Covenant — expressions

The expression trees of contract programs. Every node carries the source line it appears on,
counted from one; line zero means that the line is not known.
-/

namespace Covenant

/-- A name: of a variable, function, record, attribute or module. Any text is a name. -/
abbrev Ident := String

/-- Literal values. Integers are signed 64-bit numbers. -/
inductive Literal where
  | int (value : Int64)
  | str (value : String)
  | bool (value : Bool)
  | none
  deriving DecidableEq

/-- Comparison operators. -/
inductive CmpOp where
  | eq | notEq | lt | ltE | gt | gtE | isIn | notIn | same | notSame
  deriving DecidableEq

/-- Binary arithmetic operators. -/
inductive BinOp where
  | add | sub | mult | div | floorDiv | mod | pow
  deriving DecidableEq

/-- Operators in front of their operand. -/
inductive UnOp where
  | not | minus | plus | invert
  deriving DecidableEq

/-- Boolean connectives. -/
inductive BoolOp where
  | and | or
  deriving DecidableEq

/-- An expression, with its source line at every node. -/
inductive Expr where
  /-- A reference to a name. -/
  | name (line : Nat) (id : Ident)
  | literal (line : Nat) (value : Literal)
  /-- The list literal `[a, b]`. -/
  | list (line : Nat) (items : List Expr)
  /-- The tuple `(a, b)`. -/
  | tuple (line : Nat) (items : List Expr)
  /-- The map literal `{k: v}`, entries in source order. -/
  | dict (line : Nat) (entries : List (Expr × Expr))
  /-- The attribute `value.field`. -/
  | attr (line : Nat) (value : Expr) (field : Ident)
  /-- The subscript `value[index]`. -/
  | subscript (line : Nat) (value index : Expr)
  /-- The call `func(args, name=value, ..)`. -/
  | call (line : Nat) (func : Expr) (args : List Expr) (keywords : List (Ident × Expr))
  /-- The comparison `left op right`; a chain has more than one operator. -/
  | compare (line : Nat) (left : Expr) (rest : List (CmpOp × Expr))
  | binary (line : Nat) (left : Expr) (op : BinOp) (right : Expr)
  | unary (line : Nat) (op : UnOp) (operand : Expr)
  | boolean (line : Nat) (op : BoolOp) (operands : List Expr)

namespace Expr

/-- The source line of the outermost node. -/
def line : Expr → Nat
  | name line _ | literal line _ | list line _ | tuple line _ | dict line _ | attr line _ _
  | subscript line _ _ | call line _ _ _ | compare line _ _ | binary line _ _ _
  | unary line _ _ | boolean line _ _ => line

/-- The same expression with another line at its outermost node. -/
def atLine (line : Nat) : Expr → Expr
  | name _ id => name line id
  | literal _ value => literal line value
  | list _ items => list line items
  | tuple _ items => tuple line items
  | dict _ entries => dict line entries
  | attr _ value field => attr line value field
  | subscript _ value index => subscript line value index
  | call _ func args keywords => call line func args keywords
  | compare _ left rest => compare line left rest
  | binary _ left op right => binary line left op right
  | unary _ op operand => unary line op operand
  | boolean _ op operands => boolean line op operands

@[simp] theorem line_atLine (line : Nat) (e : Expr) : (e.atLine line).line = line := by
  cases e <;> rfl

/-- The identifier, if the expression is a plain name. -/
def name? : Expr → Option Ident
  | name _ id => some id
  | _ => none

/-- The contract storage is spelled `self.storage`. -/
def isStorage : Expr → Bool
  | attr _ (name _ root) field => root == "self" && field == "storage"
  | _ => false

/-- A literal, or an integer literal behind a minus sign. -/
def isLiteral : Expr → Bool
  | literal _ _ => true
  | unary _ .minus (literal _ (.int _)) => true
  | _ => false

/-- The value of an integer literal, possibly negated. The least 64-bit integer has no negation. -/
def integer? : Expr → Option Int64
  | literal _ (.int n) => some n
  | unary _ .minus (literal _ (.int n)) => if n = Int64.minValue then none else some (-n)
  | _ => none

end Expr

end Covenant
