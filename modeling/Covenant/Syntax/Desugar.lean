import Covenant.Syntax.Stmt

/-!
# Covenant — augmented assignment as plain assignment

`target op= value` stands for `target = target op value`. The code generator handles plain
assignments only, so modules are desugared before anything is compiled. The new operator node
takes the line of the statement.
-/

namespace Covenant

namespace Stmt

mutual

/-- The statement without augmented assignments, at any depth. -/
def desugar : Stmt → Stmt
  | augmented line target op value => assign line target (.binary line target op value)
  | function line name params returns body =>
    function line name params returns (desugarAll body)
  | classDef line name bases decorators body =>
    classDef line name bases decorators (desugarAll body)
  | ifElse line test body orelse => ifElse line test (desugarAll body) (desugarAll orelse)
  | forIn line target iter body => forIn line target iter (desugarAll body)
  | s => s

/-- Every statement without augmented assignments. -/
def desugarAll : List Stmt → List Stmt
  | [] => []
  | s :: rest => s.desugar :: desugarAll rest

end

theorem desugarAll_eq_map : ∀ body : List Stmt, desugarAll body = body.map desugar
  | [] => rfl
  | s :: rest => by rw [desugarAll, desugarAll_eq_map rest, List.map_cons]

end Stmt

/-- The module without augmented assignments. -/
def Module.desugar (m : Module) : Module :=
  ⟨Stmt.desugarAll m.body⟩

end Covenant
