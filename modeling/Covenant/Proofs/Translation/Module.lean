import Covenant.Proofs.Translation.Contract

/-!
# Covenant — compiling translated modules

A translated module gives the contract of the module, or fails just if the module does
(`Module.follows_compile`, `Module.follows_compileStatements`). Two kinds of translation are used
later on. One changes names and compares code up to notes (`Module.lockstep_compile`). The other
changes lines, and has it that the line seen last does not matter (`Gen.Follows.of_state`) and that
an error can only be found at a line that the program has (`Gen.error_line_mem`).
-/

namespace Covenant

open Renaming

variable {τ : Translation}

/-- At the start there are no variables, and no line has been seen. -/
theorem Gen.Follows.run {α β : Type} {R : α → β → Prop} {step : Gen α} {step' : Gen β}
    (h : Follows τ R step step') :
    Lockstep (τ.Reports False) (Step.Matches τ False R) (Gen.run (τ.keep && τ.traced) step)
      (Gen.run τ.traced step') := by
  have hrun := h .empty ⟨.empty .module, 0⟩ fun _ h => by cases h
  rw [State.under, τ.lines.map_zero] at hrun
  exact hrun.mono (fun _ _ => .mono False.elim) fun _ _ hdone =>
    ⟨hdone.result, hdone.code, hdone.state, False.elim⟩

namespace Module

variable {m : Module}

/-- The module with other names and lines. -/
def under (τ : Translation) (m : Module) : Module := m.relabel τ id τ.lines

theorem body_desugar_under (τ : Translation) (m : Module) :
    (m.under τ).desugar.body = Stmt.underAll τ m.desugar.body :=
  (Stmt.desugar_relabel τ id τ.lines).2.2 m.body

/-- A translated module compiles just if the module does, to the same contract. -/
theorem follows_compile (h : τ.FixesLabels m.occurrences) (hstrict : ¬ τ.strict) :
    Lockstep (τ.Reports False) (fun c c' => τ.eraseContract c' = c)
      (m.compile (τ.keep && τ.traced)) ((m.under τ).compile τ.traced) := by
  have hlabels := h.of_subset (Stmt.occurrences_desugar_subset.2.2 m.body)
  rw [compile, compile, body_desugar_under]
  exact (Gen.follows_contractProgram hlabels hstrict).run.map fun _ _ hdone => hdone.result

theorem follows_compileStatements (h : τ.FixesLabels m.occurrences) :
    Lockstep (τ.Reports False) (fun code code' => τ.erase code' = code)
      (m.compileStatements (τ.keep && τ.traced)) ((m.under τ).compileStatements τ.traced) := by
  have hlabels := h.of_subset (Stmt.occurrences_desugar_subset.2.2 m.body)
  rw [compileStatements, compileStatements, body_desugar_under]
  exact (Gen.agrees_statements hlabels).run.map fun _ _ hdone => hdone.code

end Module

/-! ## Other names -/

namespace Renaming

/-- Other names, in code that is compared up to notes. -/
def translation (ρ : Renaming) (traced : Bool) : Translation :=
  { ρ with lines := .refl, traced, keep := false, strict := False, map_of_keep := nofun }

variable {ρ : Renaming}

/-- Without changes of names the errors are the same. -/
theorem same_of_reports {traced : Bool} {placed : Prop} {e e' : CompileError}
    (h : (ρ.translation traced).Reports placed e e') : ρ.Same e e' := by
  obtain ⟨cause, cause', line, rfl, rfl, hcause, -⟩ := h
  exact Same.map hcause (CompileError.located · line)

end Renaming

namespace Module

variable {ρ : Renaming} {m : Module}

/-- A renamed module compiles just if the module does, to the same contract up to notes. -/
theorem lockstep_compile (h : ρ.FixesLabels m.occurrences) (traced : Bool) :
    Lockstep ρ.Same (fun c c' => c'.withoutNotes = c) (m.compile false)
      ((m.relabel ρ id id).compile traced) := by
  have hlabels : (ρ.translation traced).FixesLabels m.occurrences := h
  exact (follows_compile hlabels id).mono (fun _ _ => same_of_reports) fun _ _ => id

theorem lockstep_compileStatements (h : ρ.FixesLabels m.occurrences) (traced : Bool) :
    Lockstep ρ.Same (fun code code' => withoutNotes code' = code) (m.compileStatements false)
      ((m.relabel ρ id id).compileStatements traced) := by
  have hlabels : (ρ.translation traced).FixesLabels m.occurrences := h
  exact (follows_compileStatements hlabels).mono (fun _ _ => same_of_reports) fun _ _ => id

end Module

/-! ## Other lines -/

namespace Relabelling

/-- Other lines and no other names. Notes are compared as well. -/
def translation (f : Relabelling) (traced : Bool) (strict : Prop) : Translation :=
  { Renaming.refl with lines := f, traced, keep := true, strict, map_of_keep := fun _ => rfl }

theorem fixesLabels_translation (f : Relabelling) (traced : Bool) (strict : Prop)
    (os : List Occurrence) : (f.translation traced strict).FixesLabels os :=
  fun _ _ => rfl

end Relabelling

open Relabelling

namespace Gen

variable {α β : Type} {R : α → β → Prop} {step : Gen α} {step' : Gen β} {config : Config}
  {l : Layout} {line : Nat}

theorem State.under_translation (f : Relabelling) (traced : Bool) (strict : Prop) (state : State) :
    state.under (f.translation traced strict) = ⟨state.layout, f state.line⟩ :=
  congrArg (State.mk · _) state.layout.mapNames_id

/-- Whether a step succeeds, and with what, does not depend on the line seen last. -/
theorem Follows.of_state (h : Follows (forget.translation config.traced False) R step step')
    (hR : ∀ {a a' b}, R a b → R a' b → a' = a) {done : Step α}
    (hdone : step config ⟨l, line⟩ = .ok done) (line' : Nat) :
    ∃ done', step config ⟨l, line'⟩ = .ok done' ∧ done'.result = done.result ∧
      done'.code = done.code ∧ done'.state.layout = done.state.layout := by
  -- both runs go together with the one that has no lines at all
  have hrun := h config.records ⟨l, line⟩ fun _ _ => rfl
  have hrun' := h config.records ⟨l, line'⟩ fun _ _ => rfl
  change Lockstep _ _ (step config ⟨l, line⟩) _ at hrun
  change Lockstep _ _ (step config ⟨l, line'⟩) _ at hrun'
  rw [hdone, State.under_translation] at hrun
  rw [State.under_translation] at hrun'
  change Lockstep _ _ _ (step' config ⟨l, 0⟩) at hrun hrun'
  generalize step' config ⟨l, 0⟩ = bare at hrun hrun'
  generalize step config ⟨l, line'⟩ = other at hrun' ⊢
  cases hrun with
  | ok hbare =>
    cases hrun' with
    | @ok done' _ hother =>
      have hstates := hother.state.symm.trans hbare.state
      rw [State.under_translation, State.under_translation] at hstates
      exact ⟨done', rfl, hR hbare.result hother.result, hother.code.symm.trans hbare.code,
        (State.mk.inj hstates).1⟩

/-! ## Where errors are found -/

/-- A step that no change of lines outside a list affects fails at one of the lines in the list, if
one of these is the last line seen. -/
theorem error_line_mem {lines : List Nat}
    (h : ∀ (f : Relabelling) (traced : Bool), FixesLines f lines →
      ∃ R, Follows (f.translation traced True) R step step) {e : CompileError} (hline : line ≠ 0)
    (hmem : line ∈ lines) (hrun : step config ⟨l, line⟩ = .error e) (hdefect : e.isDefect = false) :
    ∃ n ∈ lines, e.line = some n := by
  have hmoves (f : Relabelling) (hf : FixesLines f lines) :
      (f.translation config.traced True).Reports (True ∧ line ≠ 0) e e := by
    obtain ⟨R, hstep⟩ := h f config.traced hf
    have hstep := hstep config.records ⟨l, line⟩ fun _ _ => rfl
    rw [State.under_translation, hf line hmem] at hstep
    change Lockstep _ _ (step config ⟨l, line⟩) (step config ⟨l, line⟩) at hstep
    rw [hrun] at hstep
    cases hstep with
    | error hreport => exact hreport
  obtain ⟨cause, -, n, he, -, -, hplaced⟩ := hmoves .refl fun _ _ => rfl
  have hn : n ≠ 0 := by
    intro hzero
    have hcause : cause.isDefect = false := by
      rw [he] at hdefect
      exact hdefect
    rw [hplaced ⟨trivial, hline⟩ hzero] at hcause
    cases hcause
  refine ⟨n, ?_, by rw [he, CompileError.located, if_neg hn]⟩
  -- if only the line of the error is moved, the error is at another line
  by_contra hout
  have hfixed : FixesLines (moving n hn) lines := fun k hk =>
    if_neg fun (heq : k = n) => hout (heq ▸ hk)
  obtain ⟨cause', _, n', he', hmoved, -⟩ := hmoves (moving n hn) hfixed
  have hn' : n' = n := by
    have hlines := congrArg CompileError.line (he'.symm.trans he)
    simp only [CompileError.located, if_neg hn] at hlines
    split at hlines
    · cases hlines
    · exact Option.some.inj hlines
  have hnext : (moving n hn) n = n + 1 := if_pos rfl
  have hlines := congrArg CompileError.line (hmoved.symm.trans he)
  change (CompileError.located _ ((moving n hn) n')).line = _ at hlines
  rw [hn', hnext] at hlines
  simp only [CompileError.located, if_neg hn, if_neg (Nat.succ_ne_zero n)] at hlines
  exact absurd (Option.some.inj hlines) (Nat.succ_ne_self n)

end Gen

end Covenant
