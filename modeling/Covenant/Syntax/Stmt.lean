import Covenant.Syntax.Expr

/-!
# Covenant — statements and modules

A program is a module: a list of top-level statements. Statements carry their source line in the
same way as expressions do.
-/

namespace Covenant

/-- A formal argument of a function or method. -/
structure Param where
  name : Ident
  typeExpr : Option Expr
  line : Nat

/-- A statement, with its source line. -/
inductive Stmt where
  /-- The definition `def name(params) -> returns: body`. -/
  | function (line : Nat) (name : Ident) (params : List Param) (returns : Option Expr)
      (body : List Stmt)
  /-- The definition `class name(bases): body`, decorators outermost first. -/
  | classDef (line : Nat) (name : Ident) (bases decorators : List Expr) (body : List Stmt)
  /-- The assignment `target = value`. -/
  | assign (line : Nat) (target value : Expr)
  /-- The annotated assignment `target: annotation = value`, or a declaration with no value. -/
  | annotated (line : Nat) (target typeExpr : Expr) (value : Option Expr)
  /-- The augmented assignment `target op= value`. -/
  | augmented (line : Nat) (target : Expr) (op : BinOp) (value : Expr)
  /-- An expression evaluated for its effect. -/
  | expr (line : Nat) (value : Expr)
  | ifElse (line : Nat) (test : Expr) (body orelse : List Stmt)
  | forIn (line : Nat) (target : Ident) (iter : Expr) (body : List Stmt)
  | raise (line : Nat) (value : Option Expr)
  | ret (line : Nat) (value : Option Expr)
  | imports (line : Nat) (names : List Ident)
  | pass (line : Nat)

/-- A whole program: its top-level statements in source order. -/
structure Module where
  body : List Stmt

namespace Stmt

/-- The source line of the statement. -/
def line : Stmt → Nat
  | function line _ _ _ _ | classDef line _ _ _ _ | assign line _ _ | annotated line _ _ _
  | augmented line _ _ _ | expr line _ | ifElse line _ _ _ | forIn line _ _ _ | raise line _
  | ret line _ | imports line _ | pass line => line

/-- The same statement at another line. -/
def atLine (line : Nat) : Stmt → Stmt
  | function _ name params returns body => function line name params returns body
  | classDef _ name bases decorators body => classDef line name bases decorators body
  | assign _ target value => assign line target value
  | annotated _ target typeExpr value => annotated line target typeExpr value
  | augmented _ target op value => augmented line target op value
  | expr _ value => expr line value
  | ifElse _ test body orelse => ifElse line test body orelse
  | forIn _ target iter body => forIn line target iter body
  | raise _ value => raise line value
  | ret _ value => ret line value
  | imports _ names => imports line names
  | pass _ => pass line

@[simp] theorem line_atLine (line : Nat) (s : Stmt) : (s.atLine line).line = line := by
  cases s <;> rfl

/-- A string literal standing alone as a statement. -/
def isDocstring : Stmt → Bool
  | expr _ (.literal _ (.str _)) => true
  | _ => false

end Stmt

end Covenant
