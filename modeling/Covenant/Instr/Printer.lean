import Covenant.Instr.Basic
import Covenant.Text.Quoted
import Covenant.Ty.Printer

/-!
# Covenant — instructions as text

An instruction is its mnemonic followed by its operands, a block is written `{ a ; b }`, and a
note is a comment.
-/

namespace Covenant

namespace Value

def text : Value → String
  | int n => toString n.toInt
  | string s => Text.quote s
  | bool true => "True"
  | bool false => "False"
  | unit => "Unit"

end Value

namespace Prim

/-- The mnemonic of the primitive. Projections of combs and maps share theirs. -/
def mnemonic : Prim → String
  | push .. => "PUSH"
  | pair _ => "PAIR"
  | get _ | mapGet => "GET"
  | update _ | mapUpdate => "UPDATE"
  | car => "CAR"
  | cdr => "CDR"
  | nil _ => "NIL"
  | cons => "CONS"
  | emptyMap false .. => "EMPTY_MAP"
  | emptyMap true .. => "EMPTY_BIG_MAP"
  | mem => "MEM"
  | some => "SOME"
  | compare => "COMPARE"
  | eq => "EQ"
  | neq => "NEQ"
  | lt => "LT"
  | gt => "GT"
  | le => "LE"
  | ge => "GE"
  | add => "ADD"
  | sub => "SUB"
  | mul => "MUL"
  | ediv => "EDIV"
  | abs => "ABS"
  | neg => "NEG"
  | not => "NOT"
  | and => "AND"
  | or => "OR"
  | concat => "CONCAT"
  | sender => "SENDER"
  | source => "SOURCE"
  | amount => "AMOUNT"
  | balance => "BALANCE"
  | now => "NOW"
  | unit => "UNIT"
  | pack => "PACK"
  | unpack _ => "UNPACK"
  | blake2b => "BLAKE2B"
  | contract _ => "CONTRACT"
  | transferTokens => "TRANSFER_TOKENS"

/-- The operands of the primitive. A pair of two cells needs no count. -/
def operands : Prim → List String
  | push ty value => [ty.operandText, value.text]
  | pair n => if n = 2 then [] else [toString n]
  | get n | update n => [toString n]
  | nil ty | unpack ty | contract ty => [ty.operandText]
  | emptyMap _ key value => [key.operandText, value.operandText]
  | _ => []

end Prim

namespace Note

def text : Note → String
  | bound name => "Let `" ++ name ++ "`"
  | fetched name => "Get `" ++ name ++ "`"
  | freed name => "Free `" ++ name ++ "`"
  | replaced name => "Set `" ++ name ++ "`"
  | called name => "Call `" ++ name ++ "`"
  | entered name => "Entrypoint `" ++ name ++ "`"

end Note

namespace Instr

/-- The mnemonic of the instruction. -/
def mnemonic : Instr → String
  | prim p => p.mnemonic
  | dup _ => "DUP"
  | dig _ => "DIG"
  | dug _ => "DUG"
  | dip .. => "DIP"
  | drop => "DROP"
  | swap => "SWAP"
  | unpair => "UNPAIR"
  | ifElse .. => "IF"
  | ifNone .. => "IF_NONE"
  | iter _ => "ITER"
  | lambda .. => "LAMBDA"
  | exec => "EXEC"
  | failwith => "FAILWITH"
  | note _ => "META"

/-- A block of instruction texts between braces. -/
def blockText (items : List String) : String :=
  if items.isEmpty then "\x7b\x7d" else "\x7b " ++ " ; ".intercalate items ++ " \x7d"

/-- The instruction with the given operands. A note is a comment and has none. -/
def withOperands (i : Instr) (operands : List String) : String :=
  match i with
  | note n => "# " ++ n.text
  | i => " ".intercalate (i.mnemonic :: operands)

mutual

/-- The operands of the instruction. -/
def operands : Instr → List String
  | prim p => p.operands
  | dup n | dig n | dug n => [toString n]
  | dip n body => [toString n, blockText (texts body)]
  | ifElse a b | ifNone a b => [blockText (texts a), blockText (texts b)]
  | iter body => [blockText (texts body)]
  | lambda arg result body =>
    [arg.operandText, result.operandText, blockText (texts body)]
  | _ => []

/-- The instructions of a block, one by one. -/
def texts : Code → List String
  | [] => []
  | i :: rest => i.withOperands i.operands :: texts rest

end

/-- The instruction on one line. -/
def text (i : Instr) : String := i.withOperands i.operands

end Instr

/-- The block on one line. -/
def Code.text (code : Code) : String :=
  Instr.blockText (Instr.texts code)

end Covenant
