import Covenant.Gen.Operand

/-!
# Covenant — records as right combs

A record with attributes `a₀ .. aₙ₋₁` is the right comb `pair a₀ (pair a₁ (.. aₙ₋₁))`, built by a
single `PAIR n`; a record with one attribute is that attribute. Attribute `i` is node `2i + 1` of
the comb, except the last one, which is node `2i`.
-/

namespace Covenant

/-- The node of the comb at which attribute `i` of `n` sits. A record without attributes has none.
Nodes are not bounded, and neither are depths and slots. -/
def projectionIndex? : Nat → Nat → Option Nat
  | 0, _ => none
  | last + 1, i => some (if i = last then 2 * last else 2 * i + 1)

/-- Node and type of an attribute of a record. -/
def fieldNode (record : Ident) (fields : Fields) (attr : Ident) : Typed (Nat × Ty) :=
  match Fields.find? attr fields with
  | some (i, ty) =>
    match projectionIndex? fields.length i with
    | some node => .ok (node, ty)
    | none => faultAt 0 (.defect .attributeIndex)
  | none => faultAt 0 (.noSuchAttribute record attr)

namespace Gen

/-- Replaces the record on top of the stack by one of its attributes. -/
def readField (record : Ident) (fields : Fields) (attr : Ident) : Gen Unit := do
  let (node, _) ← typed (fieldNode record fields attr)
  apply (.get node)

/-- Writes the top cell into an attribute of the record beneath it. -/
def writeField (record : Ident) (fields : Fields) (attr : Ident) : Gen Unit := do
  let (node, _) ← typed (fieldNode record fields attr)
  apply (.update node)

/-- Builds a record from the values of its attributes, given in declaration order. -/
def buildRecord (fields : Fields) (values : List Operand) : Gen Unit := do
  Operand.pushAllReversed values fields.types
  if 1 < fields.length then
    -- the cells that go: all but one
    let _ ← sound (Defect.noAttributes.pred fields.length)
    apply (.pair fields.length)

end Gen

/-! ## Attributes that exist -/

/-- The node of attribute `i` in a comb of `n` values. -/
def combIndex (n i : Nat) : Nat :=
  if i + 1 = n then 2 * i else 2 * i + 1

/-- Attributes have a node unless there are none. -/
theorem projectionIndex?_succ (n i : Nat) :
    projectionIndex? (n + 1) i = some (combIndex (n + 1) i) := by
  unfold projectionIndex? combIndex
  grind

/-- An attribute that is found has a node. -/
theorem fieldNode_eq (record : Ident) (fields : Fields) (attr : Ident) :
    fieldNode record fields attr =
      match Fields.find? attr fields with
      | some (i, ty) => .ok (combIndex fields.length i, ty)
      | none => faultAt 0 (.noSuchAttribute record attr) := by
  cases fields with
  | nil => rfl
  | cons field rest => simp only [fieldNode, List.length_cons, projectionIndex?_succ]

/-- Several attributes are combined by one instruction. -/
theorem Gen.buildRecord_eq (fields : Fields) (values : List Operand) :
    buildRecord fields values = (do
      Operand.pushAllReversed values fields.types
      if 1 < fields.length then
        apply (.pair fields.length)) := by
  unfold buildRecord
  cases fields with
  | nil => rfl
  | cons field rest => simp only [List.length_cons, Defect.pred, sound, pure_bind]

end Covenant
