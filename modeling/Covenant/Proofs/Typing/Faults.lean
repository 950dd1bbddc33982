import Covenant.Gen.Stmt
import Covenant.Proofs.Translation.Typing

/-!
# Covenant — typing finds faults of the program only

A typing question may fail, but what it blames is always the program: a name that is not defined,
types that do not match, a construct outside the language. It never reports an internal
inconsistency, nor a transaction in the wrong place, which is found when code is emitted.

This has been seen on the way to `agrees_typing`, where a typing is compared with that of a translated
expression. Here it is read off, for the translation that changes nothing.
-/

namespace Covenant

open Except

/-- The translation that changes nothing. -/
def Translation.refl : Translation :=
  { Renaming.refl with
    lines := .refl, traced := false, keep := false, strict := False, map_of_keep := fun _ => rfl }

/-- An outcome that agrees with another one is sane. -/
theorem Lockstep.sane {α : Type} {R : α → α → Prop} {x y : Typed α}
    (h : Lockstep Translation.refl.Moves R x y) : Sane x := by
  cases h with
  | ok => trivial
  | error h =>
    obtain ⟨cause, _, line, rfl, -, -, hcause⟩ := h
    exact hcause

/-- No record is renamed. -/
theorem fixesRecords_refl (records : Records) : Translation.refl.FixesRecords records :=
  fun _ _ => rfl

section

variable (scope : Scope)

theorem sane_typeOf (e : Expr) (expected : Option Ty) : Sane (typeOf scope e expected) :=
  (agrees_typeOf (fixesRecords_refl _) e expected).sane

theorem sane_checkElement (want : Ty) (e : Expr) : Sane (checkElement want (typing scope e)) :=
  (agrees_checkElement want (agrees_typing (fixesRecords_refl _) e)).sane

theorem sane_storageType : Sane scope.storageType := (agrees_storageType .refl scope).sane

theorem TypeExpr.sane_type (records : Records) (e : Expr) : Sane (type records e) :=
  (agrees_type (fixesRecords_refl records) e).sane

/-! ## Assignment targets and raised values -/

theorem sane_fieldNode (record : Ident) (fields : Fields) (attr : Ident) :
    Sane (fieldNode record fields attr) := by
  rw [fieldNode_eq]
  split <;> simp

theorem sane_pathSteps (line : Nat) (ty : Ty) (places : List Place) :
    Sane (pathSteps scope line ty places) := by
  fun_induction pathSteps scope line ty places <;>
    simp_all [sane_fieldNode, sane_checkElement]

theorem Path.sane_resolve (target : Expr) : Sane (Path.resolve scope target) := by
  have hroot (root : Ident) : Sane (rootType scope target.line root) := by
    refine clean_ite.mpr ⟨fun _ => sane_storageType scope, fun _ => ?_⟩
    split <;> simp
  unfold Path.resolve
  split <;> simp [hroot, sane_pathSteps]

theorem Gen.sane_raised (value : Expr) : Sane (Gen.raised scope value) := by
  unfold Gen.raised
  split
  · refine clean_ite.mpr ⟨fun _ => ?_, fun _ => clean_ok _⟩
    split <;> simp
  · simp

end

end Covenant
