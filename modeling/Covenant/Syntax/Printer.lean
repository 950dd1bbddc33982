import Covenant.Syntax.Expr
import Covenant.Text.Quoted

/-!
# Covenant — expressions as text

How messages and traces quote an expression. Arithmetic and boolean operators are always
parenthesised, comparisons never are.
-/

namespace Covenant

namespace Literal

/-- The literal as it is written in a program. -/
def text : Literal → String
  | int n => toString n.toInt
  | str s => Text.quote s
  | bool true => "True"
  | bool false => "False"
  | none => "None"

end Literal

namespace CmpOp

/-- The operator as it is written in a program. -/
def text : CmpOp → String
  | eq => "=="
  | notEq => "!="
  | lt => "<"
  | ltE => "<="
  | gt => ">"
  | gtE => ">="
  | isIn => "in"
  | notIn => "not in"
  | same => "is"
  | notSame => "is not"

end CmpOp

namespace BinOp

/-- The operator as it is written in a program. -/
def text : BinOp → String
  | add => "+"
  | sub => "-"
  | mult => "*"
  | div => "/"
  | floorDiv => "//"
  | mod => "%"
  | pow => "**"

end BinOp

namespace UnOp

/-- The operator as it is written right before its operand. -/
def text : UnOp → String
  | not => "not "
  | minus => "-"
  | plus => "+"
  | invert => "~"

end UnOp

namespace BoolOp

/-- The operator as it is written in a program. -/
def text : BoolOp → String
  | and => "and"
  | or => "or"

end BoolOp

namespace Expr

mutual

/-- The expression on one line. -/
def text : Expr → String
  | name _ id => id
  | literal _ value => value.text
  | list _ items => "[" ++ ", ".intercalate (texts items) ++ "]"
  | tuple _ items => "(" ++ ", ".intercalate (texts items) ++ ")"
  | dict _ entries => "\x7b" ++ ", ".intercalate (entryTexts entries) ++ "\x7d"
  | attr _ value field => value.text ++ "." ++ field
  | subscript _ value index => value.text ++ "[" ++ index.text ++ "]"
  | call _ func args keywords =>
    func.text ++ "(" ++ ", ".intercalate (texts args ++ keywordTexts keywords) ++ ")"
  | compare _ left rest => left.text ++ String.join (comparisonTexts rest)
  | binary _ left op right => "(" ++ left.text ++ " " ++ op.text ++ " " ++ right.text ++ ")"
  | unary _ op operand => op.text ++ operand.text
  | boolean _ op operands => "(" ++ (" " ++ op.text ++ " ").intercalate (texts operands) ++ ")"

/-- The expressions one by one. -/
def texts : List Expr → List String
  | [] => []
  | e :: es => e.text :: texts es

/-- Map entries as `key: value`. -/
def entryTexts : List (Expr × Expr) → List String
  | [] => []
  | (key, value) :: rest => (key.text ++ ": " ++ value.text) :: entryTexts rest

/-- Keyword arguments as `name=value`. -/
def keywordTexts : List (Ident × Expr) → List String
  | [] => []
  | (id, value) :: rest => (id ++ "=" ++ value.text) :: keywordTexts rest

/-- The operators of a comparison with their right operands. -/
def comparisonTexts : List (CmpOp × Expr) → List String
  | [] => []
  | (op, right) :: rest => (" " ++ op.text ++ " " ++ right.text) :: comparisonTexts rest

end

end Expr

end Covenant
