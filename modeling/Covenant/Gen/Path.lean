import Covenant.Gen.Expr

/-!
# Covenant — assignment to a place inside a value

An assignment target such as `a.b[k].c` is a path: a root variable and steps from it, each an
attribute of a record or a key of a map. On the way down each container but the last is opened,
with a copy kept beneath; after the value has been pushed each container is rebuilt around what was
written, and the rebuilt root replaces the root variable.
-/

namespace Covenant

/-- A step of an assignment target, as it is written. -/
inductive Place where
  | field (attr : Ident)
  | key (index : Expr)

/-- The root variable of an assignment target and the steps from it, outward. The contract storage
is a root as well. -/
def Expr.places? : Expr → Option (Ident × List Place)
  | .name _ id => some (id, [])
  | .attr line value field =>
    if (Expr.attr line value field).isStorage then
      some (Layout.storageName, [])
    else
      value.places?.map fun (root, places) => (root, places ++ [.field field])
  | .subscript _ value index =>
    value.places?.map fun (root, places) => (root, places ++ [.key index])
  | _ => none

/-- A step of an assignment target with the type of the container it leads into. -/
inductive PathStep where
  | field (record : Ident) (fields : Fields) (attr : Ident)
  | key (index : Operand) (ty : Ty)

/-- The steps that places stand for, starting in a container of the given type, and the type of the
place they lead to. Faults are found at the line of the whole target. -/
def pathSteps (scope : Scope) (line : Nat) : Ty → List Place → Typed (List PathStep × Ty)
  | ty, [] => .ok ([], ty)
  | ty, .field attr :: rest =>
    match ty with
    | .record name fields => do
      let (_, inner) ← fieldNode name fields attr
      let (steps, leaf) ← pathSteps scope line inner rest
      return (.field name fields attr :: steps, leaf)
    | ty => faultAt line (.noSuchAttribute ty.text attr)
  | ty, .key index :: rest =>
    match ty.keyValue? with
    | some (key, inner) => do
      checkElement key (typing scope index)
      let (steps, leaf) ← pathSteps scope line inner rest
      return (.key index.operand key :: steps, leaf)
    | none => faultAt line (.invalidType (.notSubscriptable ty))

/-- The type of the root of a path. -/
def rootType (scope : Scope) (line : Nat) (root : Ident) : Typed Ty :=
  if root = Layout.storageName then
    scope.storageType
  else
    match scope.layout.ty? root with
    | some ty => .ok ty
    | none => faultAt line (.notDefined root)

/-- An assignment target whose steps are typed. -/
structure Path where
  root : Ident
  steps : List PathStep
  /-- The type of the place the path leads to. -/
  leaf : Ty

/-- The path that an assignment target stands for. -/
def Path.resolve (scope : Scope) (target : Expr) : Typed Path :=
  match target.places? with
  | none => faultAt target.line (.unsupported (.notAssignable target.text))
  | some (root, places) => do
    let ty ← rootType scope target.line root
    let (steps, leaf) ← pathSteps scope target.line ty places
    return ⟨root, steps, leaf⟩

namespace Gen

/-- Opens the container on top of the stack, keeping it beneath. -/
def openStep (step : PathStep) : Gen Unit := do
  emit (.dup 1)
  push 1
  match step with
  | .field record fields attr => readField record fields attr
  | .key index ty => lookUp index ty

/-- Writes the top cell into the container beneath it. -/
def closeStep : PathStep → Gen Unit
  | .field record fields attr => writeField record fields attr
  | .key index ty => do
    apply .some
    index.pushAs ty
    apply .mapUpdate

/-- Rebuilds the container on top of the stack with a value written at the end of the steps. -/
def writeSteps (value : Gen Unit) : List PathStep → Gen Unit
  | [] => value
  | [last] => do
    value
    closeStep last
  | step :: rest => do
    openStep step
    writeSteps value rest
    closeStep step

/-- Assigns a value to a place inside a variable. -/
def assignPath (target value : Expr) : Gen Unit := do
  let path ← typed (Path.resolve (← scope) target)
  checkFits value path.leaf
  fetch path.root
  writeSteps (value.operand.pushAs path.leaf) path.steps
  replace path.root

end Gen

end Covenant
