import Covenant.Syntax.Desugar

/-!
# Covenant — lines in programs

`lines` lists the line of every node of a tree. Desugaring makes up no lines (`lines_desugar_subset`).
A `Relabelling` gives other lines, of which none is a line where there was none.
-/

namespace Covenant

/-- Two functions do the same to the lines in a list. -/
def SameLines (k k' : Nat → Nat) (ns : List Nat) : Prop := ∀ n ∈ ns, k n = k' n

/-- The function leaves the lines in a list alone. -/
abbrev FixesLines (k : Nat → Nat) (ns : List Nat) : Prop := SameLines k id ns

section

variable {k k' : Nat → Nat} {n : Nat} {ns ns' : List Nat}

theorem sameLines_cons : SameLines k k' (n :: ns) ↔ k n = k' n ∧ SameLines k k' ns := by
  simp only [SameLines, List.forall_mem_cons]

theorem sameLines_append : SameLines k k' (ns ++ ns') ↔ SameLines k k' ns ∧ SameLines k k' ns' := by
  simp only [SameLines, List.forall_mem_append]

end

/-! ## Expressions -/

namespace Expr

mutual

/-- The lines of the nodes of an expression. -/
def lines : Expr → List Nat
  | name line _ | literal line _ => [line]
  | list line items | tuple line items | boolean line _ items => line :: allLines items
  | dict line entries => line :: entryLines entries
  | attr line value _ => line :: lines value
  | subscript line value index => line :: (lines value ++ lines index)
  | call line func args keywords => line :: (lines func ++ (allLines args ++ keywordLines keywords))
  | compare line left rest => line :: (lines left ++ comparandLines rest)
  | binary line left _ right => line :: (lines left ++ lines right)
  | unary line _ operand => line :: lines operand

def allLines : List Expr → List Nat
  | [] => []
  | e :: rest => lines e ++ allLines rest

def entryLines : List (Expr × Expr) → List Nat
  | [] => []
  | (k, v) :: rest => lines k ++ (lines v ++ entryLines rest)

def keywordLines : List (Ident × Expr) → List Nat
  | [] => []
  | (_, v) :: rest => lines v ++ keywordLines rest

def comparandLines : List (CmpOp × Expr) → List Nat
  | [] => []
  | (_, e) :: rest => lines e ++ comparandLines rest

end

/-- The lines of an expression that may be absent. -/
def optionLines : Option Expr → List Nat
  | none => []
  | some e => e.lines

end Expr

/-! ## Statements -/

def Param.lines (p : Param) : List Nat := p.line :: Expr.optionLines p.typeExpr

namespace Stmt

mutual

/-- The lines of the nodes of a statement: of the statement itself and of the statements,
expressions and arguments in it. -/
def lines : Stmt → List Nat
  | function line _ params returns body =>
    line :: (params.flatMap Param.lines ++ (Expr.optionLines returns ++ allLines body))
  | classDef line _ bases decorators body =>
    line :: (Expr.allLines bases ++ (Expr.allLines decorators ++ allLines body))
  | assign line target value | augmented line target _ value =>
    line :: (target.lines ++ value.lines)
  | annotated line target typeExpr value =>
    line :: (target.lines ++ (typeExpr.lines ++ Expr.optionLines value))
  | expr line value => line :: value.lines
  | ifElse line test body orelse => line :: (test.lines ++ (allLines body ++ allLines orelse))
  | forIn line _ iter body => line :: (iter.lines ++ allLines body)
  | raise line value | ret line value => line :: Expr.optionLines value
  | imports line _ | pass line => [line]

def allLines : List Stmt → List Nat
  | [] => []
  | s :: rest => lines s ++ allLines rest

end

theorem line_mem_lines (s : Stmt) : s.line ∈ s.lines := by
  cases s <;> exact List.mem_cons_self

theorem lines_subset_of_mem {s : Stmt} {body : List Stmt} (h : s ∈ body) :
    s.lines ⊆ allLines body := by
  induction body with
  | nil => cases h
  | cons first rest ih =>
    rw [allLines]
    rcases List.mem_cons.mp h with rfl | h
    · exact List.subset_append_left _ _
    · exact List.subset_append_of_subset_right _ (ih h)

/-- Desugaring makes up no lines. -/
theorem lines_desugar_subset :
    (∀ s : Stmt, s.desugar.lines ⊆ s.lines) ∧
    ∀ body, allLines (desugarAll body) ⊆ allLines body := by
  apply desugar.mutual_induct <;> intros <;>
    simp only [desugar, desugarAll, lines, allLines, Expr.lines] <;> grind

end Stmt

/-! ## Other lines -/

/-- Other lines. Line zero is no line and stays so. Every other line stays a line, unless all lines
are given up. -/
structure Relabelling where
  map : Nat → Nat
  map_zero : map 0 = 0
  keeps_or_forgets : (∀ n, map n = 0 → n = 0) ∨ ∀ n, map n = 0

namespace Relabelling

instance : CoeFun Relabelling fun _ => Nat → Nat := ⟨map⟩

/-- No line is changed. -/
def refl : Relabelling := ⟨id, rfl, .inl fun _ => id⟩

/-- No line is known. -/
def forget : Relabelling := ⟨fun _ => 0, rfl, .inr fun _ => rfl⟩

/-- The line `line` is moved to the next one, and nothing else changes. -/
def moving (line : Nat) (h : line ≠ 0) : Relabelling where
  map n := if n = line then line + 1 else n
  map_zero := if_neg h.symm
  keeps_or_forgets := .inl fun n hn => by
    split at hn
    · exact absurd hn (Nat.succ_ne_zero line)
    · exact hn

end Relabelling

end Covenant
