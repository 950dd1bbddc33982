import Covenant.Proofs.Translation.Module

/-!
# Covenant — notes are annotations

Compiling with notes does what compiling without them does: it gives the same code with notes put
in between, at any depth, or fails with the same error. The generator looks at the code it has
emitted to see whether a block aborts, and notes have no part in that (`diverges_withoutNotes`).

A run with notes is related to the run without them by the simulation of `lockstep_compile`, taken
at the renaming that changes no name.
-/

namespace Covenant

open Renaming

theorem Lockstep.map_eq {ε α : Type} {E : ε → ε → Prop} {x x' : Except ε α} {f : α → α}
    (h : Lockstep E (fun a a' => f a' = a) x x') (herror : ∀ e e', E e e' → e' = e) :
    x'.map f = x := by
  cases h with
  | ok h => exact congrArg Except.ok h
  | error h => exact congrArg Except.error (herror _ _ h)

namespace Module

variable (m : Module) (traced : Bool)

theorem fixesLabels_refl (os : List Occurrence) : Renaming.refl.FixesLabels os := fun _ _ => rfl

/-- Without its notes, the contract is the one compiled without notes. -/
theorem map_withoutNotes_compile :
    (m.compile traced).map Contract.withoutNotes = m.compile false := by
  have hrun := lockstep_compile (fixesLabels_refl m.occurrences) traced
  have hsame : m.relabel Renaming.refl id id = m := m.relabel_id
  rw [hsame] at hrun
  exact hrun.map_eq fun _ _ h => h rfl

theorem map_withoutNotes_compileStatements :
    (m.compileStatements traced).map withoutNotes = m.compileStatements false := by
  have hrun := lockstep_compileStatements (fixesLabels_refl m.occurrences) traced
  have hsame : m.relabel Renaming.refl id id = m := m.relabel_id
  rw [hsame] at hrun
  exact hrun.map_eq fun _ _ h => h rfl

end Module

/-- Notes are the only difference between compiling a module with notes and without, whether it is
compiled as a contract or as statements, and also where compiling fails. -/
theorem tracing_only_adds_notes (m : Module) :
    (m.compile true).map Contract.withoutNotes = m.compile false ∧
      (m.compileStatements true).map withoutNotes = m.compileStatements false :=
  ⟨m.map_withoutNotes_compile true, m.map_withoutNotes_compileStatements true⟩

end Covenant
