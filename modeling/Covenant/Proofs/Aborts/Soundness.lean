import Covenant.Proofs.Aborts.Code
import Covenant.Proofs.SemanticPreservation

/-!
# Covenant — the divergence analysis is sound

`diverges` only looks at the last instruction of a block, notes not counted. That is enough to know
that no execution reaches the end of the block, whatever the machine: an `Executor` may be
nondeterministic, and only of `FAILWITH` and of branches is anything asked.

* `Executor.fails_of_diverges` — no execution of code that diverges ends normally;
* `Interpretation.executor` — the machine on values is such a machine;
* `Executor.runs_lenient` — of orderly code that does not diverge some execution does end, so in
  orderly code the analysis misses nothing.
-/

namespace Covenant

/-! ## Executions -/

/-- How an execution comes out. -/
inductive Exit (S : Type) where
  | stuck
  | aborts
  | ends (s : S)

/-- The execution does not come to its end. -/
def Exit.Fails {S : Type} (x : Exit S) : Prop := x = .stuck ∨ x = .aborts

/-- Executions of a block, one instruction after the other. Nothing is executed behind an instruction
that does not end normally. -/
inductive Executes {S : Type} (step : Instr → S → Exit S → Prop) : Code → S → Exit S → Prop where
  | done (s : S) : Executes step [] s (.ends s)
  | next {i : Instr} {rest : Code} {s t : S} {x : Exit S} :
      step i s (.ends t) → Executes step rest t x → Executes step (i :: rest) s x
  | halt {i : Instr} {rest : Code} {s : S} {x : Exit S} :
      step i s x → x.Fails → Executes step (i :: rest) s x

/-- A machine of any kind on which `FAILWITH` aborts and a branch runs one of its two blocks. An
instruction that finds the state unfit for it is stuck. Other instructions, notes included, do what
they like. -/
structure Executor (S : Type) where
  /-- How an instruction may come out, from a state. -/
  step : Instr → S → Exit S → Prop
  failwith : ∀ {s : S} {x : Exit S}, step .failwith s x → x.Fails
  ifElse : ∀ {a b : Code} {s : S} {x : Exit S}, step (.ifElse a b) s x →
    x = .stuck ∨ ∃ t, Executes step a t x ∨ Executes step b t x
  ifNone : ∀ {a b : Code} {s : S} {x : Exit S}, step (.ifNone a b) s x →
    x = .stuck ∨ ∃ t, Executes step a t x ∨ Executes step b t x

namespace Executor

variable {S : Type} (M : Executor S)

/-- How a block may come out, from a state. -/
abbrev Runs (code : Code) (s : S) (x : Exit S) : Prop := Executes M.step code s x

/-- Where an execution ends normally. -/
def endings : Endings S where
  step i s t := M.step i s (.ends t)
  run code s t := M.Runs code s (.ends t)
  run_cons h := by
    cases h with
    | next hstep hrest => exact ⟨_, hstep, hrest⟩
    | halt _ hfails => simp [Exit.Fails] at hfails
  failwith h := by simpa [Exit.Fails] using M.failwith h
  ifElse {a b s t} h := by
    rcases M.ifElse h with hstuck | ⟨u, hruns⟩
    · simp at hstuck
    · exact ⟨u, t, hruns⟩
  ifNone {a b s t} h := by
    rcases M.ifNone h with hstuck | ⟨u, hruns⟩
    · simp at hstuck
    · exact ⟨u, t, hruns⟩

theorem fails_of_diverges {code : Code} (hdiv : diverges code = true) {s : S} {x : Exit S}
    (h : M.Runs code s x) : x.Fails := by
  cases x with
  | stuck => exact .inl rfl
  | aborts => exact .inr rfl
  | ends t => exact absurd h (M.endings.not_run code hdiv)

/-- If every instruction comes out in some way, so does every block. -/
theorem exists_runs (htotal : ∀ i s, ∃ x, M.step i s x) (code : Code) (s : S) :
    ∃ x, M.Runs code s x := by
  induction code generalizing s with
  | nil => exact ⟨_, .done s⟩
  | cons i rest ih =>
    obtain ⟨x, hx⟩ := htotal i s
    cases x with
    | stuck => exact ⟨_, .halt hx (.inl rfl)⟩
    | aborts => exact ⟨_, .halt hx (.inr rfl)⟩
    | ends t =>
      obtain ⟨y, hy⟩ := ih t
      exact ⟨y, .next hx hy⟩

end Executor

/-! ## The machine on values -/

namespace Interpretation

variable {α : Type} (I : Interpretation α)

/-- How a run comes out, apart from the value it aborts with. -/
def exit : Outcome α (List (Datum α)) → Exit (List (Datum α))
  | .stuck => .stuck
  | .aborts _ => .aborts
  | .ends s => .ends s

theorem executes_run (code : Code) (s : List (Datum α)) :
    Executes (fun i s x => exit (I.step i s) = x) code s (exit (I.run code s)) := by
  induction code generalizing s with
  | nil =>
    rw [run_nil]
    exact .done s
  | cons i rest ih =>
    rw [run_cons]
    cases hstep : I.step i s with
    | stuck => exact .halt (by rw [hstep]; rfl) (.inl rfl)
    | aborts v => exact .halt (by rw [hstep]; rfl) (.inr rfl)
    | ends t => exact .next (by rw [hstep]; rfl) (ih t)

/-- The machine on values as a machine of any kind. -/
def executor : Executor (List (Datum α)) where
  step i s x := exit (I.step i s) = x
  failwith {s x} h := by
    cases s with
    | nil => exact .inl (by simpa [step, exit] using h.symm)
    | cons d rest => exact .inr (by simpa [step, exit] using h.symm)
  ifElse {a b s x} h := by
    simp only [step] at h
    split at h
    · exact .inr ⟨_, .inl (h ▸ I.executes_run a _)⟩
    · exact .inr ⟨_, .inr (h ▸ I.executes_run b _)⟩
    · exact .inl h.symm
  ifNone {a b s x} h := by
    simp only [step] at h
    split at h
    · exact .inr ⟨_, .inl (h ▸ I.executes_run a _)⟩
    · exact .inr ⟨_, .inr (h ▸ I.executes_run b _)⟩
    · exact .inl h.symm

end Interpretation

/-! ## Nothing is missed -/

mutual

/-- Control may go on past the instruction, if branches are taken to this end. -/
def Instr.goesOn : Instr → Bool
  | .failwith => false
  | .ifElse a b | .ifNone a b => goesOn a || goesOn b
  | _ => true

/-- Control may reach the end of the code, if branches are taken to this end. -/
def goesOn : Code → Bool
  | [] => true
  | i :: rest => i.goesOn && goesOn rest

end

mutual

theorem Instr.goesOn_of_straight : ∀ (i : Instr), i.straight = true → i.goesOn = true
  | .ifElse a b, h | .ifNone a b, h => by
    rw [Instr.straight, Instr.orderly, Instr.diverges, Bool.and_eq_true, Bool.and_eq_true,
      Bool.not_eq_true', Bool.and_eq_false_iff] at h
    obtain ⟨⟨ha, hb⟩, hdiv | hdiv⟩ := h
    · rw [Instr.goesOn, goesOn_of_straight a (straight_of_orderly ha hdiv), Bool.true_or]
    · rw [Instr.goesOn, goesOn_of_straight b (straight_of_orderly hb hdiv), Bool.or_true]
  | .failwith, h => by simp [Instr.straight, Instr.diverges] at h
  | .prim _, _ | .dup _, _ | .dig _, _ | .dug _, _ | .dip _ _, _ | .drop, _ | .swap, _
  | .unpair, _ | .iter _, _ | .lambda _ _ _, _ | .exec, _ | .note _, _ => rfl

/-- Of a branch that does not diverge one block goes on. -/
theorem goesOn_of_straight : ∀ (code : Code), code.all Instr.straight = true →
    goesOn code = true
  | [], _ => rfl
  | i :: rest, h => by
    rw [List.all_cons, Bool.and_eq_true] at h
    rw [goesOn, Instr.goesOn_of_straight i h.1, goesOn_of_straight rest h.2, Bool.and_self]

end

namespace Executor

/-- How code comes out on a machine that takes branches so as to go on. -/
def hopeful (goesOn : Bool) : Exit Unit := if goesOn then .ends () else .aborts

theorem executes_hopeful (code : Code) :
    Executes (fun i _ x => x = hopeful i.goesOn) code () (hopeful (goesOn code)) := by
  induction code with
  | nil => exact .done ()
  | cons i rest ih =>
    rw [goesOn]
    cases hi : i.goesOn with
    | false => exact .halt (by rw [hi, Bool.false_and]) (.inr rfl)
    | true =>
      rw [Bool.true_and]
      exact .next (t := ()) (by rw [hi]; rfl) ih

/-- The machine that takes that block of a branch which goes on, if there is one. -/
def lenient : Executor Unit where
  step i _ x := x = hopeful i.goesOn
  failwith h := .inr h
  ifElse {a b s x} h := by
    refine .inr ⟨(), ?_⟩
    rw [Instr.goesOn] at h
    cases ha : goesOn a with
    | true => exact .inl (by simpa [h, ha] using executes_hopeful a)
    | false => exact .inr (by simpa [h, ha] using executes_hopeful b)
  ifNone {a b s x} h := by
    refine .inr ⟨(), ?_⟩
    rw [Instr.goesOn] at h
    cases ha : goesOn a with
    | true => exact .inl (by simpa [h, ha] using executes_hopeful a)
    | false => exact .inr (by simpa [h, ha] using executes_hopeful b)

theorem runs_lenient {code : Code} (h : orderly code = true) (hdiv : diverges code = false) :
    lenient.Runs code () (.ends ()) := by
  have hruns := executes_hopeful code
  rw [goesOn_of_straight code (straight_of_orderly h hdiv)] at hruns
  exact hruns

end Executor

/-! ## The analysis is sound -/

/-- No execution of code that diverges ends normally, on any machine and from any state: it aborts or
gets stuck, and it does one or the other if every instruction comes out somehow. Of orderly code that
does not diverge an execution does end. Notes have no part in it, wherever they stand. -/
theorem no_execution_of_diverging_code_ends (code : Code) :
    (diverges code = true → ∀ {S : Type} (M : Executor S) (s : S),
      (∀ x, M.Runs code s x → x = .stuck ∨ x = .aborts) ∧
      ((∀ i t, ∃ x, M.step i t x) → ∃ x, M.Runs code s x)) ∧
    (orderly code = true → diverges code = false →
      ∃ M : Executor Unit, M.Runs code () (.ends ())) ∧
    ∀ code', withoutNotes code' = withoutNotes code → diverges code' = diverges code := by
  refine ⟨fun hdiv S M s => ⟨fun x hx => M.fails_of_diverges hdiv hx, ?_⟩, ?_, ?_⟩
  · exact fun htotal => M.exists_runs htotal code s
  · exact fun horderly hdiv => ⟨.lenient, Executor.runs_lenient horderly hdiv⟩
  · intro code' hnotes
    rw [← diverges_withoutNotes code', hnotes, diverges_withoutNotes]

/-- A branch of which either block aborts, one of them from within another branch. -/
def Code.guarded : Code :=
  [.ifElse [.note (.called "fail"), .prim .unit, .failwith, .note (.freed "x")]
    [.ifNone (failWith "absent") [.failwith], .note (.freed "y")], .note (.freed "z")]

theorem no_execution_of_diverging_code_ends_guarded :
    diverges Code.guarded = true ∧ diverges (withoutNotes Code.guarded) = true ∧
    (∃ x, Interpretation.integers.executor.Runs Code.guarded [.bool false, .absent] x ∧
      (x = .stuck ∨ x = .aborts)) ∧
    ∃ M : Executor Unit, M.Runs [.ifElse Code.guarded []] () (.ends ()) := by
  have hdiv : diverges Code.guarded = true := by decide
  obtain ⟨hfails, -, hnotes⟩ := no_execution_of_diverging_code_ends Code.guarded
  obtain ⟨hall, hsome⟩ := hfails hdiv Interpretation.integers.executor [.bool false, .absent]
  obtain ⟨x, hx⟩ := hsome fun i t => ⟨_, rfl⟩
  have hgoes := (no_execution_of_diverging_code_ends [.ifElse Code.guarded []]).2.1
    (by decide) (by decide)
  exact ⟨hdiv, (hnotes _ rfl).trans hdiv, ⟨x, hx, hall x hx⟩, hgoes⟩

end Covenant
