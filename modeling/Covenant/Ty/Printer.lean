import Covenant.Ty.Basic

/-!
# Covenant — types as text

Types are written in the notation of the stack machine. A type that stands as an operand is
parenthesised unless it is an atom; a record shows its attributes and not its name.
-/

namespace Covenant

namespace Base

def text : Base → String
  | int => "int"
  | nat => "nat"
  | mutez => "mutez"
  | string => "string"
  | address => "address"
  | bytes => "bytes"
  | bool => "bool"
  | unit => "unit"
  | operation => "operation"
  | timestamp => "timestamp"

end Base

namespace Ty

/-- A type that needs no parentheses as an operand. A record with one attribute is written as that
attribute and is an atom if its type is. -/
def isAtom : Ty → Bool
  | base _ => true
  | unknown => true
  | record _ [(_, t)] => isAtom t
  | _ => false

/-- The text of a type as an operand. -/
def parenthesize (t : Ty) (text : String) : String :=
  if t.isAtom then text else "(" ++ text ++ ")"

mutual

/-- The type in the machine's notation. -/
def text : Ty → String
  | base b => b.text
  | option t => "option " ++ t.parenthesize t.text
  | list t => "list " ++ t.parenthesize t.text
  | map false k v => "map " ++ k.parenthesize k.text ++ " " ++ v.parenthesize v.text
  | map true k v => "big_map " ++ k.parenthesize k.text ++ " " ++ v.parenthesize v.text
  | contract t => "contract " ++ t.parenthesize t.text
  | record _ [(field, t)] => t.parenthesize t.text ++ " %" ++ field
  | record _ fields => "pair" ++ String.join (fieldTexts fields)
  | lambda arg result =>
    "lambda " ++ arg.parenthesize arg.text ++ " " ++ result.parenthesize result.text
  | function args result => "(" ++ ", ".intercalate (texts args) ++ ") -> " ++ result.text
  | unknown => "unknown"

/-- Attributes as the operands of `pair`. -/
def fieldTexts : Fields → List String
  | [] => []
  | (field, t) :: rest => (" (" ++ t.text ++ " %" ++ field ++ ")") :: fieldTexts rest

/-- The types one by one. -/
def texts : List Ty → List String
  | [] => []
  | t :: rest => t.text :: texts rest

end

/-- The text of the type as an operand of an instruction or of another type. -/
def operandText (t : Ty) : String := t.parenthesize t.text

end Ty

end Covenant
