import Covenant.Syntax.Stmt

/-!
# Covenant — shorthand for building trees

Trees written by hand use these constructors, which leave every line unknown. `Expr.atLine` and
`Stmt.atLine` attach a line afterwards.
-/

namespace Covenant.Build

def name (id : Ident) : Expr := .name 0 id

def int (n : Int64) : Expr := .literal 0 (.int n)

def string (s : String) : Expr := .literal 0 (.str s)

def boolean (b : Bool) : Expr := .literal 0 (.bool b)

def none : Expr := .literal 0 .none

def list (items : List Expr) : Expr := .list 0 items

def tuple (items : List Expr) : Expr := .tuple 0 items

def dict (entries : List (Expr × Expr)) : Expr := .dict 0 entries

def attr (value : Expr) (field : Ident) : Expr := .attr 0 value field

def subscript (value index : Expr) : Expr := .subscript 0 value index

/-- A call with positional and keyword arguments. -/
def callWith (func : Expr) (args : List Expr) (keywords : List (Ident × Expr)) : Expr :=
  .call 0 func args keywords

/-- A call with positional arguments only. -/
def call (func : Expr) (args : List Expr) : Expr := callWith func args []

/-- The method call `receiver.method(args)`. -/
def method (receiver : Expr) (method : Ident) (args : List Expr) : Expr :=
  call (attr receiver method) args

/-- A comparison with one operator. -/
def compare (left : Expr) (op : CmpOp) (right : Expr) : Expr := .compare 0 left [(op, right)]

def binary (left : Expr) (op : BinOp) (right : Expr) : Expr := .binary 0 left op right

def unary (op : UnOp) (operand : Expr) : Expr := .unary 0 op operand

def connect (op : BoolOp) (operands : List Expr) : Expr := .boolean 0 op operands

/-- The contract storage, `self.storage`. -/
def storage : Expr := attr (name "self") "storage"

def assign (target value : Expr) : Stmt := .assign 0 target value

def annotated (target typeExpr value : Expr) : Stmt := .annotated 0 target typeExpr (some value)

/-- The declaration `target: annotation` without a value. -/
def declare (target : Ident) (typeExpr : Expr) : Stmt :=
  .annotated 0 (name target) typeExpr .none

def augmented (target : Expr) (op : BinOp) (value : Expr) : Stmt := .augmented 0 target op value

def expr (value : Expr) : Stmt := .expr 0 value

def ifElse (test : Expr) (body orelse : List Stmt) : Stmt := .ifElse 0 test body orelse

def forIn (target : Ident) (iter : Expr) (body : List Stmt) : Stmt := .forIn 0 target iter body

/-- Raises `Exception(message)`. -/
def raise (message : Expr) : Stmt := .raise 0 (some (call (name "Exception") [message]))

def ret (value : Expr) : Stmt := .ret 0 (some value)

def pass : Stmt := .pass 0

def imports (names : List Ident) : Stmt := .imports 0 names

/-- An annotated formal argument. -/
def param (name : Ident) (typeExpr : Expr) : Param := ⟨name, some typeExpr, 0⟩

/-- The receiver of a method, which has no annotation. -/
def selfParam : Param := ⟨"self", .none, 0⟩

def function (name : Ident) (params : List Param) (returns : Option Expr) (body : List Stmt) :
    Stmt :=
  .function 0 name params returns body

def classDef (name : Ident) (bases : List Expr) (body : List Stmt) : Stmt :=
  .classDef 0 name bases [] body

/-- A record class with the given annotated attributes. -/
def record (id : Ident) (fields : List (Ident × Expr)) : Stmt :=
  .classDef 0 id [] [name "dataclass"] (fields.map fun (field, ty) => declare field ty)

/-- The contract class with the given methods. -/
def contract (methods : List Stmt) : Stmt := classDef "Contract" [] methods

def program (body : List Stmt) : Module := ⟨body⟩

end Covenant.Build
