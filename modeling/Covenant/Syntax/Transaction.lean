import Covenant.Syntax.Stmt

/-!
# Covenant — where `transaction` is called

An entrypoint keeps a list of pending operations only if its body calls `transaction` somewhere.
Nested function definitions do not count: they cannot reach the list.
-/

namespace Covenant

namespace Expr

mutual

/-- The expression calls `transaction`, at any depth. -/
def callsTransaction : Expr → Bool
  | name _ _ | literal _ _ => false
  | list _ items | tuple _ items | boolean _ _ items => anyCallsTransaction items
  | dict _ entries => anyEntryCallsTransaction entries
  | attr _ value _ => callsTransaction value
  | subscript _ value index => callsTransaction value || callsTransaction index
  | call _ func args keywords =>
    func.name? == some "transaction" || callsTransaction func || anyCallsTransaction args
      || anyKeywordCallsTransaction keywords
  | compare _ left rest => callsTransaction left || anyComparandCallsTransaction rest
  | binary _ left _ right => callsTransaction left || callsTransaction right
  | unary _ _ operand => callsTransaction operand

def anyCallsTransaction : List Expr → Bool
  | [] => false
  | e :: rest => callsTransaction e || anyCallsTransaction rest

def anyEntryCallsTransaction : List (Expr × Expr) → Bool
  | [] => false
  | (k, v) :: rest => callsTransaction k || callsTransaction v || anyEntryCallsTransaction rest

def anyKeywordCallsTransaction : List (Ident × Expr) → Bool
  | [] => false
  | (_, v) :: rest => callsTransaction v || anyKeywordCallsTransaction rest

def anyComparandCallsTransaction : List (CmpOp × Expr) → Bool
  | [] => false
  | (_, e) :: rest => callsTransaction e || anyComparandCallsTransaction rest

end

end Expr

namespace Stmt

mutual

/-- The statement calls `transaction`, nested function definitions not counted. -/
def callsTransaction : Stmt → Bool
  | function .. | classDef .. | imports .. | pass _ => false
  | assign _ target value | augmented _ target _ value =>
    target.callsTransaction || value.callsTransaction
  | annotated _ target _ value => target.callsTransaction || value.any Expr.callsTransaction
  | expr _ value => value.callsTransaction
  | ifElse _ test body orelse =>
    test.callsTransaction || anyCallsTransaction body || anyCallsTransaction orelse
  | forIn _ _ iter body => iter.callsTransaction || anyCallsTransaction body
  | raise _ value | ret _ value => value.any Expr.callsTransaction

def anyCallsTransaction : List Stmt → Bool
  | [] => false
  | s :: rest => callsTransaction s || anyCallsTransaction rest

end

end Stmt

end Covenant
