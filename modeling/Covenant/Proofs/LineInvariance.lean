import Covenant.Proofs.Translation.Module

/-!
# Covenant — lines do not matter

`lines_do_not_matter` states that two modules which differ in their lines only compile to the same
contract, and to the same code, or are refused for the same cause. A cause holds everything that an
error message says but the line: the message of an error is that of its cause, followed by the line
if there is one.

Both modules are compared with the one that has no lines at all.
-/

namespace Covenant

open Relabelling

/-- Errors that go together say the same up to what a function on errors leaves out. -/
theorem Lockstep.mapError_eq {ε ε' α : Type} {E : ε → ε → Prop} {x x' : Except ε α}
    (h : Lockstep E Eq x x') {g : ε → ε'} (hg : ∀ e e', E e e' → g e' = g e) :
    x'.mapError g = x.mapError g := by
  cases h with
  | ok h => rw [h]
  | error h => exact congrArg Except.error (hg _ _ h)

/-- Where no name is changed, the causes are the same. -/
theorem Relabelling.cause_eq_of_reports {f : Relabelling} {traced : Bool} {strict placed : Prop}
    {e e' : CompileError} (h : (f.translation traced strict).Reports placed e e') :
    e'.cause = e.cause := by
  obtain ⟨cause, cause', line, rfl, rfl, hcause, -⟩ := h
  exact hcause rfl

namespace Module

variable (m : Module) (traced : Bool)

theorem cause_compile_withoutLines :
    (m.withoutLines.compile traced).mapError CompileError.cause =
      (m.compile traced).mapError CompileError.cause := by
  have hrun := follows_compile (m := m) (fixesLabels_translation forget traced False _) id
  exact (hrun.mono (fun _ _ => id) fun _ _ => Eq.symm).mapError_eq fun _ _ => cause_eq_of_reports

theorem cause_compileStatements_withoutLines :
    (m.withoutLines.compileStatements traced).mapError CompileError.cause =
      (m.compileStatements traced).mapError CompileError.cause := by
  have hrun := follows_compileStatements (m := m) (fixesLabels_translation forget traced False _)
  exact (hrun.mono (fun _ _ => id) fun _ _ => Eq.symm).mapError_eq fun _ _ => cause_eq_of_reports

end Module

/-- Lines never influence compilation. Modules that are equal up to the lines at their nodes compile
to the same contract, or are refused for the same cause; so do they as lists of statements. -/
theorem lines_do_not_matter {m m' : Module} (h : m.withoutLines = m'.withoutLines) (traced : Bool) :
    (m.compile traced).mapError CompileError.cause =
        (m'.compile traced).mapError CompileError.cause ∧
      (m.compileStatements traced).mapError CompileError.cause =
        (m'.compileStatements traced).mapError CompileError.cause := by
  constructor
  · rw [← m.cause_compile_withoutLines, h, m'.cause_compile_withoutLines]
  · rw [← m.cause_compileStatements_withoutLines, h, m'.cause_compileStatements_withoutLines]

/-- A contract that reads an undefined name, on lines of its own or all on one line. -/
def Module.misspelt (init method fault : Nat) : Module :=
  ⟨[.classDef 1 "Contract" [] []
    [.function init "deploy" [] none [.ret init (some (.literal init (.int 0)))],
      .function method "add" [⟨"n", some (.name method "int"), method⟩] none
        [.assign fault (.attr fault (.name fault "self") "storage") (.name fault "m")]]]⟩

theorem lines_do_not_matter_misspelt :
    ∃ e e', (Module.misspelt 2 4 5).compile false = .error e ∧
      e.message = "not defined: m at line 5" ∧
      (Module.misspelt 1 1 1).compile false = .error e' ∧ e'.cause = e.cause := by
  have hmessage : (match (Module.misspelt 2 4 5).compile false with
      | .error e => e.message
      | .ok _ => "") = "not defined: m at line 5" := by decide +kernel
  have hlines : (Module.misspelt 1 1 1).withoutLines = (Module.misspelt 2 4 5).withoutLines := rfl
  have hsame := (lines_do_not_matter hlines false).1
  cases hrun : (Module.misspelt 2 4 5).compile false with
  | ok c => simp [hrun] at hmessage
  | error e =>
    rw [hrun] at hmessage hsame
    cases hrun' : (Module.misspelt 1 1 1).compile false with
    | ok c =>
      rw [hrun'] at hsame
      cases hsame
    | error e' =>
      rw [hrun'] at hsame
      exact ⟨e, e', rfl, hmessage, rfl, Except.error.inj hsame⟩

end Covenant
