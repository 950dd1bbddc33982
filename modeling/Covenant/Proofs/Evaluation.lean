import Covenant.Proofs.Machine.Values
import Covenant.Syntax.Stmt

/-!
# Covenant — evaluation of the core language

What a block means, without a stack. Variables are kept in a `Store` by name; expressions are
evaluated over their trees, statements change the store. Arithmetic, comparisons, maps and closures
come from the same `Interpretation` as on the machine.

The core language (`Expr.isCore`, `Stmt.isCore`) has assignments to names, conditionals, loops and
`raise`, over constants, variables, list literals, calls of records and of closures, attributes,
subscripts and operators. Outside of it evaluation is stuck.

The order of evaluation is part of the meaning, since it decides which of two aborts happens. Operands
of arithmetic and comparisons, elements of lists and arguments of records are evaluated last to first.
A map is evaluated before its key. Connectives are strict and go left to right.

A variable that a branch or a round of a loop declares is gone afterwards. A loop variable stands in
front of a variable of the same name for one round.
-/

namespace Covenant

/-! ## Stores -/

/-- A value with the type by which it is taken apart: the attributes of a record, the type of a list's
elements, of a map's values or of a closure's result. Which type a number or a text has does not
matter. -/
structure Val (α : Type) where
  ty : Ty
  datum : Datum α

/-- The variables in scope. -/
abbrev Store (α : Type) := Ident → Option (Val α)

namespace Store

variable {α : Type}

def set (σ : Store α) (name : Ident) (v : Val α) : Store α :=
  fun other => if other = name then some v else σ other

/-- Assigns to a variable. One that exists already keeps its type. -/
def assign (σ : Store α) (name : Ident) (v : Val α) : Store α :=
  σ.set name ⟨((σ name).map Val.ty).getD v.ty, v.datum⟩

/-- Just the variables that an outer store has as well. -/
def within (σ outer : Store α) : Store α :=
  fun name => if (outer name).isSome then σ name else none

/-- One variable as it is in another store. -/
def restoring (σ outer : Store α) (target : Ident) : Store α :=
  fun name => if name = target then outer name else σ name

/-- What a raised expression aborts with: the message of an exception, which is a name that means
nothing else, or the value itself. -/
def raised (σ : Store α) (records : Records) : Expr → Expr
  | .call line (.name funcLine id) [message] keywords =>
    if (σ id).isNone && !records.contains id && !Builtin.isName id then
      message
    else
      .call line (.name funcLine id) [message] keywords
  | e => e

end Store

/-! ## Operations on values -/

/-- The type of the elements of a list. -/
def Ty.element : Ty → Ty
  | .list t => t
  | _ => .unknown

namespace Datum

variable {α : Type}

/-- Part `i` of a right comb of `n` values. -/
def component : Nat → Nat → Datum α → Option (Datum α)
  | 1, 0, d => some d
  | _ + 2, 0, pair a _ => some a
  | n + 2, i + 1, pair _ b => component (n + 1) i b
  | _, _, _ => none

end Datum

namespace Val

variable {α : Type}

def ofLiteral : Literal → Val α
  | .int n => ⟨.int, .int n.toInt⟩
  | .str text => ⟨.string, .string text⟩
  | .bool b => ⟨.bool, .bool b⟩
  | .none => ⟨.unit, .unit⟩

/-- The attribute of a record. -/
def field? (v : Val α) (field : Ident) : Option (Val α) :=
  match v.ty with
  | .record _ fields => do
    let (i, ty) ← Fields.find? field fields
    let d ← v.datum.component fields.length i
    return ⟨ty, d⟩
  | _ => none

/-- A list of values, which has the type of the first. -/
def ofList (items : List (Val α)) : Val α :=
  ⟨.list ((items.head?.map Val.ty).getD .unknown), .list (items.map Val.datum)⟩

end Val

def Outcome.ofOption {α β : Type} : Option β → Outcome α β
  | some b => .ends b
  | none => .stuck

def BoolOp.combine : BoolOp → Bool → Bool → Bool
  | .and => Bool.and
  | .or => Bool.or

/-- Combined with another boolean it gives that one. -/
def BoolOp.neutral : BoolOp → Bool
  | .and => true
  | .or => false

theorem BoolOp.combine_neutral (op : BoolOp) (b : Bool) : op.combine op.neutral b = b := by
  cases op <;> cases b <;> rfl

/-- A boolean that is not neutral decides. -/
theorem BoolOp.combine_of_ne {op : BoolOp} {b : Bool} (h : b ≠ op.neutral) (c : Bool) :
    op.combine b c = b := by
  revert b c
  cases op <;> decide

namespace Interpretation

variable {α : Type} (I : Interpretation α)

/-- The value of a name: of a variable, or else what is built in. -/
def evalName (σ : Store α) (id : Ident) : Outcome α (Val α) :=
  match σ id with
  | some v => .ends v
  | none =>
    match Builtin.constant? id with
    | some (ty, p) => do return ⟨ty, ← I.prim p []⟩
    | none => .stuck

/-- Whether two values are related. In a map one looks for keys. -/
def compared (left : Datum α) (op : CmpOp) (right : Datum α) : Outcome α Bool :=
  match op with
  | .isIn => .ends (I.contains left right)
  | .notIn => .ends !(I.contains left right)
  | .eq => .ends (I.compare left right == 0)
  | .notEq => .ends (I.compare left right != 0)
  | .lt => .ends (I.compare left right < 0)
  | .ltE => .ends (I.compare left right ≤ 0)
  | .gt => .ends (0 < I.compare left right)
  | .gtE => .ends (0 ≤ I.compare left right)
  | .same | .notSame => .stuck

/-- Quotient and remainder, which abort if there are none. -/
def divided (left right : Datum α) : Outcome α (Datum α × Datum α) :=
  match I.divide left right with
  | some parts => .ends parts
  | none => .aborts (.string "Division by 0 not allowed")

/-- Arithmetic. Adding text to text concatenates. -/
def combined (left : Datum α) (op : BinOp) (right : Datum α) : Outcome α (Datum α) :=
  match op with
  | .add =>
    match left with
    | .string _ => .ofExcept (I.concat left right)
    | _ => .ofExcept (I.arithmetic .add left right)
  | .sub | .mult => .ofExcept (I.arithmetic op left right)
  | .floorDiv => do return (← I.divided left right).1
  | .mod => do return (← I.divided left right).2
  | .div | .pow => .stuck

def negated (op : UnOp) (d : Datum α) : Outcome α (Datum α) :=
  match op, d with
  | .not, .bool b => .ends (.bool !b)
  | .minus, d => .ofExcept (I.negate d)
  | _, _ => .stuck

/-- The value under a key of a map, which has to be there. -/
def lookedUp (map key : Val α) : Outcome α (Val α) :=
  match map.ty.keyValue? with
  | some (_, ty) =>
    match I.get key.datum map.datum with
    | some d => .ends ⟨ty, d⟩
    | none => .aborts (.string "Key does not exist")
  | none => .stuck

/-- A call of a variable, which is a closure, or else of a record, which builds one. -/
def called (records : Records) (σ : Store α) (id : Ident) (args : List (Val α)) :
    Outcome α (Val α) :=
  match σ id with
  | some f =>
    match f.ty, args with
    | .lambda _ result, [arg] => do return ⟨result, ← .ofExcept (I.call arg.datum f.datum)⟩
    | _, _ => .stuck
  | none =>
    match records.get? id with
    | some fields => .ends ⟨.record id fields, .comb (args.map Val.datum)⟩
    | none => .stuck

/-! ## Expressions -/

mutual

/-- The value of an expression. -/
def eval (records : Records) (σ : Store α) : Expr → Outcome α (Val α)
  | .name _ id => I.evalName σ id
  | .literal _ value => .ends (.ofLiteral value)
  | .list _ items => do return .ofList (← evalAll records σ items)
  | .attr line value field =>
    if (Expr.attr line value field).isStorage then
      .ofOption (σ Layout.storageName)
    else do
      let v ← eval records σ value
      .ofOption (v.field? field)
  | .subscript _ value index => do
    let map ← eval records σ value
    let key ← eval records σ index
    I.lookedUp map key
  | .call _ (.name _ id) args _ => do I.called records σ id (← evalAll records σ args)
  | .compare _ left [(op, right)] => do
    let r ← eval records σ right
    let l ← eval records σ left
    return ⟨.bool, .bool (← I.compared l.datum op r.datum)⟩
  | .binary _ left op right => do
    let r ← eval records σ right
    let l ← eval records σ left
    return ⟨l.ty, ← I.combined l.datum op r.datum⟩
  | .unary _ op operand => do
    let v ← eval records σ operand
    return ⟨v.ty, ← I.negated op v.datum⟩
  | .boolean _ op operands => do
    return ⟨.bool, .bool (← evalBooleans records σ op op.neutral operands)⟩
  | _ => .stuck

/-- The values of expressions, evaluated last to first. -/
def evalAll (records : Records) (σ : Store α) : List Expr → Outcome α (List (Val α))
  | [] => .ends []
  | e :: es => do
    let vs ← evalAll records σ es
    let v ← eval records σ e
    return v :: vs

/-- Combines a boolean with those of further expressions, first to last. -/
def evalBooleans (records : Records) (σ : Store α) (op : BoolOp) :
    Bool → List Expr → Outcome α Bool
  | b, [] => .ends b
  | b, e :: es => do
    match (← eval records σ e).datum with
    | .bool c => evalBooleans records σ op (op.combine b c) es
    | _ => .stuck

end

/-! ## Statements -/

/-- Does one round for each value of a list. -/
def evalRounds (round : Datum α → Store α → Outcome α (Store α)) :
    List (Datum α) → Store α → Outcome α (Store α)
  | [], σ => .ends σ
  | d :: rest, σ => do evalRounds round rest (← round d σ)

mutual

/-- The store after a statement. -/
def exec (records : Records) : Stmt → Store α → Outcome α (Store α)
  | .assign _ (.name _ name) value, σ => do
    return σ.assign name (← I.eval records σ value)
  | .annotated _ (.name _ name) declared (some value), σ =>
    match TypeExpr.type records declared with
    | .ok ty => do return σ.assign name ⟨ty, (← I.eval records σ value).datum⟩
    | .error _ => .stuck
  | .expr _ value, σ => do
    let _ ← I.eval records σ value
    return σ
  | .ifElse _ test body orelse, σ => do
    match (← I.eval records σ test).datum with
    | .bool true => return (← execAll records body σ).within σ
    | .bool false => return (← execAll records orelse σ).within σ
    | _ => .stuck
  | .forIn _ target iter body, σ => do
    let v ← I.eval records σ iter
    match v.datum with
    | .list items =>
      evalRounds (fun item σ => do
        let inner := σ.set target ⟨v.ty.element, item⟩
        return ((← execAll records body inner).within inner).restoring σ target) items σ
    | _ => .stuck
  | .raise _ (some value), σ => do
    let v ← I.eval records σ (σ.raised records value)
    .aborts v.datum
  | .pass _, σ => .ends σ
  | _, _ => .stuck

/-- The store after statements in order. -/
def execAll (records : Records) : List Stmt → Store α → Outcome α (Store α)
  | [], σ => .ends σ
  | s :: rest, σ => do execAll records rest (← exec records s σ)

end

/-- The store after a block. -/
def execBlock (records : Records) (body : List Stmt) (σ : Store α) : Outcome α (Store α) := do
  return (← I.execAll records body σ).within σ

end Interpretation

/-! ## The core language -/

/-- A name that no shadowed binding is kept under. -/
def Ident.isPlain (name : Ident) : Bool := !name.toList.contains '@'

theorem Ident.isPlain_iff {name : Ident} : Ident.isPlain name = true ↔ '@' ∉ name.toList := by
  simp [isPlain]

mutual

/-- The expression is one of the core language. -/
def Expr.isCore (records : Records) : Expr → Bool
  | .name _ id => Ident.isPlain id
  | .literal _ _ => true
  | .list _ items => Expr.areCore records items
  | .attr _ value _ => value.isCore records
  | .subscript _ value index => value.isCore records && index.isCore records
  | .call _ (.name _ id) args keywords =>
    Ident.isPlain id && (records.contains id || !Builtin.isName id) && keywords.isEmpty &&
      Expr.areCore records args
  | .compare _ left [(_, right)] => left.isCore records && right.isCore records
  | .binary _ left _ right => left.isCore records && right.isCore records
  | .unary _ _ operand => operand.isCore records
  | .boolean _ _ operands => Expr.areCore records operands
  | _ => false

def Expr.areCore (records : Records) : List Expr → Bool
  | [] => true
  | e :: es => e.isCore records && Expr.areCore records es

end

mutual

/-- The statement is one of the core language. -/
def Stmt.isCore (records : Records) : Stmt → Bool
  | .assign _ (.name _ name) value => Ident.isPlain name && value.isCore records
  | .annotated _ (.name _ name) _ (some value) => Ident.isPlain name && value.isCore records
  | .expr _ value => value.isCore records
  | .ifElse _ test body orelse =>
    test.isCore records && Stmt.areCore records body && Stmt.areCore records orelse
  | .forIn _ target iter body =>
    Ident.isPlain target && iter.isCore records && Stmt.areCore records body
  | .raise _ (some value) => value.isCore records
  | .pass _ => true
  | _ => false

def Stmt.areCore (records : Records) : List Stmt → Bool
  | [] => true
  | s :: rest => s.isCore records && Stmt.areCore records rest

end

end Covenant
