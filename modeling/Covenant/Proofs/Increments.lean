import Covenant.Proofs.Translation.Module
import Covenant.Proofs.NoDefects

/-!
# Covenant — statements are compiled one after the other

Statements that are added to a program leave the code of the statements before them alone, and a
program that is refused is refused because of one of its statements
(`statements_compile_incrementally`). The error is found in that statement: at its own line or at
the line of a node inside it.

`Gen.statement` is what the compiler does with a single statement. `Gen.statements_cons` takes the
first statement off a list, so that all facts about lists are inductions over the list.
-/

namespace Covenant

open Relabelling

namespace Gen

variable {config : Config} {state : State}

/-! ## A single statement -/

/-- What a top-level statement does: a record class defines a record, which is given back, and any
other statement is compiled. -/
def statement (s : Stmt) : Gen (Option (Ident × Fields)) := do
  seen s.line
  match s with
  | .classDef _ name _ decorators body =>
    if isRecordClass decorators then
      return some (name, ← recordClass name body)
    else
      fail (.unsupported (.notARecord name))
  | s =>
    compileStmt s
    return none

/-- The configuration with one more record type in force, if there is one. -/
def Config.declare (config : Config) : Option (Ident × Fields) → Config
  | none => config
  | some (name, fields) => { config with records := config.records.insert name fields }

/-- The first statement of a list comes first; the others are compiled with the record it defines. -/
theorem statements_cons (s : Stmt) (rest : List Stmt) (config : Config) (state : State) :
    statements (s :: rest) config state = statement s config state >>= fun first =>
      statements rest (config.declare first.result) first.state >>= fun last =>
        .ok { last with code := first.code ++ last.code } := by
  cases s with
  | classDef line name bases decorators body =>
    rw [statements, statement, seen_bind, seen_bind]
    dsimp only [Stmt.line]
    split
    · rw [bind_apply, bind_apply]
      cases recordClass name body config (state.seeing line) with
      | error e => rfl
      | ok fields => simp [bind, Except.bind, Config.declare, withRecord]
    · rfl
  | _ =>
    rw [statement, seen_bind, bind_apply]
    · simp only [statements, seen_bind]
      rw [bind_apply, bind_assoc]
      refine congrArg _ (funext fun _ => ?_)
      simp [bind, Except.bind, Config.declare]
    · simp

/-- Before anything else a statement's own line is seen. -/
theorem statement_at_line {s : Stmt} (h : s.line ≠ 0) (config : Config) (state : State) :
    statement s config state = statement s config ⟨state.layout, s.line⟩ := by
  have hseen (state : State) : state.seeing s.line = ⟨state.layout, s.line⟩ := if_neg h
  unfold statement
  rw [seen_bind, seen_bind, hseen, hseen]

theorem agrees_statement {τ : Translation} (s : Stmt) (h : τ.FixesLabels s.occurrences) :
    Agrees τ (statement s) (statement (s.under τ)) := by
  have hs := agrees_compileStmt s h
  cases s with
  | classDef line name bases decorators body =>
    simp only [Stmt.under, Stmt.relabel, statement, isRecordClass_under, id]
    refine (agrees_seen line).bind fun _ => .ite ?_ (follows_fail .rfl)
    exact (agrees_recordClass name body).bind fun fields => agrees_pure _
  | _ => exact (agrees_seen _).bind fun _ => hs.bind fun _ => agrees_pure none

/-- A statement that has a line is refused at a line that it has. -/
theorem statement_error_line {s : Stmt} (hline : s.line ≠ 0) {e : CompileError}
    (h : statement s.desugar config state = .error e) (hdefect : e.isDefect = false) :
    ∃ line ∈ s.lines, e.line = some line := by
  have hdesugar : s.desugar.line = s.line := by cases s <;> rfl
  rw [statement_at_line (hdesugar ▸ hline), hdesugar] at h
  refine error_line_mem (fun f traced hf => ?_) hline s.line_mem_lines h hdefect
  have hstep := agrees_statement s.desugar (fixesLabels_translation f traced True _)
  have hself : s.desugar.under (f.translation traced True) = s.desugar :=
    Stmt.relabel_eq_self fun line hmem => hf line (Stmt.lines_desugar_subset.1 s hmem)
  rw [hself] at hstep
  exact ⟨_, hstep⟩

/-! ## Lists of statements -/

/-- The first statements of a list that compiles compile, to the first part of the code. -/
theorem statements_take_of_ok {body : List Stmt} (n : Nat) {done : Step Unit}
    (h : statements body config state = .ok done) :
    ∃ front, statements (body.take n) config state = .ok front ∧ front.code <+: done.code := by
  induction body generalizing n config state done with
  | nil =>
    rw [List.take_nil]
    exact ⟨done, h, List.prefix_rfl⟩
  | cons s rest ih =>
    cases n with
    | zero => exact ⟨_, rfl, List.nil_prefix⟩
    | succ n =>
      rw [statements_cons] at h
      obtain ⟨first, hfirst, h⟩ := Except.bind_eq_ok_iff.mp h
      obtain ⟨last, hlast, h⟩ := Except.bind_eq_ok_iff.mp h
      cases h
      obtain ⟨front, hfront, hcode⟩ := ih n hlast
      rw [List.take_succ_cons, statements_cons, hfirst]
      simp only [bind, Except.bind, hfront]
      exact ⟨_, rfl, (List.prefix_append_right_inj first.code).mpr hcode⟩

/-- A list that does not compile has a first statement that fails. The statements before it
compile, and with it they fail, whatever comes after. -/
theorem statements_take_of_error {body : List Stmt} {e : CompileError}
    (h : statements body config state = .error e) :
    ∃ i s config' state', body[i]? = some s ∧ statement s config' state' = .error e ∧
      (∀ n ≤ i, ∃ front, statements (body.take n) config state = .ok front) ∧
      ∀ n, i < n → statements (body.take n) config state = .error e := by
  induction body generalizing config state with
  | nil => cases h
  | cons s rest ih =>
    rw [statements_cons] at h
    cases hfirst : statement s config state with
    | error e' =>
      rw [hfirst] at h
      obtain rfl : e' = e := Except.error.inj h
      refine ⟨0, s, config, state, rfl, hfirst, fun n hn => ?_, fun n hn => ?_⟩
      · obtain rfl := Nat.le_zero.mp hn
        exact ⟨_, rfl⟩
      · obtain ⟨n, rfl⟩ := Nat.exists_eq_succ_of_ne_zero (Nat.ne_of_gt hn)
        rw [List.take_succ_cons, statements_cons, hfirst]
        rfl
    | ok first =>
      have hrest : statements rest (config.declare first.result) first.state = .error e := by
        rw [hfirst] at h
        cases hlast : statements rest (config.declare first.result) first.state with
        | error e' => simpa only [bind, Except.bind, hlast] using h
        | ok last => simp [bind, Except.bind, hlast] at h
      obtain ⟨i, s', config', state', hs', herror, hbefore, hafter⟩ := ih hrest
      refine ⟨i + 1, s', config', state', hs', herror, fun n hn => ?_, fun n hn => ?_⟩
      · cases n with
        | zero => exact ⟨_, rfl⟩
        | succ n =>
          obtain ⟨front, hfront⟩ := hbefore n (Nat.le_of_succ_le_succ hn)
          rw [List.take_succ_cons, statements_cons, hfirst]
          simp only [bind, Except.bind, hfront]
          exact ⟨_, rfl⟩
      · cases n with
        | zero => exact absurd hn (Nat.not_lt_zero _)
        | succ n =>
          rw [List.take_succ_cons, statements_cons, hfirst]
          simp only [bind, Except.bind, hafter n (Nat.lt_of_succ_lt_succ hn)]

end Gen

/-! ## Modules -/

namespace Module

variable {m : Module} {traced : Bool} {n : Nat}

theorem body_desugar_take (m : Module) (n : Nat) :
    (m.take n).desugar.body = m.desugar.body.take n := by
  simp only [desugar, take, Stmt.desugarAll_eq_map, List.map_take]

theorem compileStatements_take_eq_ok {front : Gen.Step Unit}
    (h : Gen.statements (m.desugar.body.take n) ⟨.empty, traced⟩ ⟨.empty .module, 0⟩ = .ok front) :
    (m.take n).compileStatements traced = .ok front.code := by
  rw [compileStatements, body_desugar_take, Gen.run, h]
  rfl

/-- The first `i` statements of the module compile, and so do any fewer. Any more fail, with one and
the same error. -/
def FailsAt (m : Module) (traced : Bool) (i : Nat) (e : CompileError) : Prop :=
  (∀ n ≤ i, ∃ code, (m.take n).compileStatements traced = .ok code) ∧
    ∀ n, i < n → (m.take n).compileStatements traced = .error e

/-- There is only one statement that a module can fail at. -/
theorem FailsAt.unique {i j : Nat} {e e' : CompileError} (hi : m.FailsAt traced i e)
    (hj : m.FailsAt traced j e') : j = i := by
  rcases Nat.lt_trichotomy j i with hlt | heq | hgt
  · obtain ⟨code, hcode⟩ := hi.1 (j + 1) hlt
    rw [hj.2 (j + 1) (Nat.lt_succ_self j)] at hcode
    cases hcode
  · exact heq
  · obtain ⟨code, hcode⟩ := hj.1 (i + 1) hgt
    rw [hi.2 (i + 1) (Nat.lt_succ_self i)] at hcode
    cases hcode

end Module

/-- Statements are compiled one after the other. If a module compiles, then so does every beginning
of it, to a beginning of its code. If it does not, there is exactly one statement that it fails at;
and if all its statements have lines, the error is found at a line of that statement, be it the
statement's own or that of a node inside it. -/
theorem statements_compile_incrementally (m : Module) (traced : Bool) :
    (∀ code, m.compileStatements traced = .ok code →
      ∀ n, ∃ front, (m.take n).compileStatements traced = .ok front ∧ front <+: code) ∧
    ∀ e, m.compileStatements traced = .error e →
      ∃ i s, m.body[i]? = some s ∧ m.FailsAt traced i e ∧
        (∀ j e', m.FailsAt traced j e' → j = i) ∧
        ((∀ s ∈ m.body, s.line ≠ 0) → ∃ line ∈ s.lines, e.line = some line) := by
  constructor
  · intro code h n
    obtain ⟨done, hdone, rfl⟩ := Except.map_eq_ok_iff.mp h
    obtain ⟨front, hfront, hcode⟩ := Gen.statements_take_of_ok n hdone
    exact ⟨front.code, Module.compileStatements_take_eq_ok hfront, hcode⟩
  · intro e h
    have hrun : Gen.statements m.desugar.body ⟨.empty, traced⟩ ⟨.empty .module, 0⟩ = .error e := by
      unfold Module.compileStatements Gen.run at h
      generalize Gen.statements m.desugar.body ⟨.empty, traced⟩ ⟨.empty .module, 0⟩ = x at h
      cases x <;> cases h
      rfl
    obtain ⟨i, s', config, state, hs', herror, hbefore, hafter⟩ := Gen.statements_take_of_error hrun
    rw [Module.desugar, Stmt.desugarAll_eq_map, List.getElem?_map] at hs'
    obtain ⟨s, hs, rfl⟩ := Option.map_eq_some_iff.mp hs'
    have hfails : m.FailsAt traced i e := by
      refine ⟨fun n hn => ?_, fun n hn => ?_⟩
      · obtain ⟨front, hfront⟩ := hbefore n hn
        exact ⟨front.code, Module.compileStatements_take_eq_ok hfront⟩
      · rw [Module.compileStatements, Module.body_desugar_take, Gen.run, hafter n hn]
        rfl
    refine ⟨i, s, hs, hfails, fun j e' hj => hfails.unique hj, fun hlines => ?_⟩
    have hdefect : e.isDefect = false :=
      (Gen.yields_statements (Stmt.isPlain_desugar.2 m.body) (.empty .module)).of_error hrun
    exact Gen.statement_error_line (hlines s (List.mem_of_getElem? hs)) herror hdefect

/-- A module that reads an undefined name deep inside its second statement. -/
def Module.unfinished : Module :=
  ⟨[.assign 1 (.name 1 "x") (.literal 1 (.int 1)),
    .ifElse 2 (.literal 2 (.bool true)) [.assign 3 (.name 3 "x") (.name 4 "z")] [],
    .pass 5]⟩

theorem statements_compile_incrementally_unfinished :
    ∃ e i s, Module.unfinished.compileStatements false = .error e ∧
      e.message = "not defined: z at line 4" ∧ Module.unfinished.body[i]? = some s ∧
      Module.unfinished.FailsAt false i e ∧ ∃ line ∈ s.lines, e.line = some line := by
  have hmessage : (match Module.unfinished.compileStatements false with
      | .error e => e.message
      | .ok _ => "") = "not defined: z at line 4" := by decide +kernel
  cases hrun : Module.unfinished.compileStatements false with
  | ok code => simp [hrun] at hmessage
  | error e =>
    rw [hrun] at hmessage
    obtain ⟨i, s, hs, hfails, -, hline⟩ :=
      (statements_compile_incrementally Module.unfinished false).2 e hrun
    exact ⟨e, i, s, rfl, hmessage, hs, hfails, hline (by simp [Module.unfinished, Stmt.line])⟩

end Covenant
