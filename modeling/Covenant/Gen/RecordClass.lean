import Covenant.Gen.Basic
import Covenant.Syntax.Printer
import Covenant.Syntax.Stmt

/-!
# Covenant — classes and record types

Class definitions are told apart by decorators, names and bases: a record class declares a record
type, the contract class holds the methods of the contract. A record class declares its attributes
in order, each under a name of its own and with a type that uses only records defined before it.
-/

namespace Covenant

/-- A class decorated with `@dataclass` is a record. -/
def isRecordClass (decorators : List Expr) : Bool :=
  decorators.any fun
    | .call _ func _ _ => func.name? == some "dataclass"
    | e => e.name? == some "dataclass"

/-- A class named `Contract`, or derived from it, is the contract. -/
def isContractClass (name : Ident) (bases : List Expr) : Bool :=
  name == "Contract" || bases.any fun base => base.name? == some "Contract"

/-- The first name that occurs for a second time, given the names before. -/
def duplicate? (before : List Ident) : List Ident → Option Ident
  | [] => none
  | name :: rest => if name ∈ before then some name else duplicate? (name :: before) rest

namespace Gen

/-- The attributes that the body of a record class declares. -/
def recordFields (record : Ident) : List Stmt → Gen Fields
  | [] => pure []
  | s :: rest =>
    match s with
    | .annotated line target ty none =>
      match target.name? with
      | none => failAt line (.unsupported (.notAnAttribute target.text))
      | some field => do
        let ty ← denoted ty
        return (field, ty) :: (← recordFields record rest)
    | .pass _ => recordFields record rest
    | s =>
      if s.isDocstring then
        recordFields record rest
      else
        failAt s.line (.unsupported (.recordMember record))

/-- The attributes of a new record class. -/
def recordClass (name : Ident) (body : List Stmt) : Gen Fields := do
  if (← scope).records.contains name || Builtin.isName name then
    fail (.alreadyDefined name)
  let fields ← recordFields name body
  if fields.isEmpty then
    fail (.unsupported (.emptyRecord name))
  match duplicate? [] (fields.map (·.1)) with
  | some field => fail (.alreadyDefined (name ++ "." ++ field))
  | none => return fields

/-- Defines all record classes among statements, in order, for a step that uses them. -/
def withRecordClasses {α : Type} (step : Gen α) : List Stmt → Gen α
  | [] => step
  | .classDef line name _ decorators body :: rest =>
    if isRecordClass decorators then do
      seen line
      let fields ← recordClass name body
      withRecord name fields (withRecordClasses step rest)
    else
      withRecordClasses step rest
  | _ :: rest => withRecordClasses step rest

end Gen

end Covenant
