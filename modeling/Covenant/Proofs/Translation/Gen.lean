import Covenant.Gen.Operand
import Covenant.Proofs.Layout.Operations
import Covenant.Proofs.Notes
import Covenant.Proofs.Translation.Typing
import Covenant.Proofs.Typing.Clean

/-!
# Covenant — steps that go together

`Gen.Follows` compares two steps of code generation. The second gets its tree, its layout and its
last line translated, and follows the first. Where the first succeeds so does the second: the code
is the same, the layout afterwards is the translated one, and the results are related. Where the
first fails so does the second, at the translated line. So neither names nor lines have a say in what is
compiled, and an error can only be at a line that the tree has or that was seen before.

The second step may write notes where the first does not. Then the code is the same up to notes.

A comparison may be strict. It then also says that an error has a line as soon as a line has been
seen, internal inconsistencies apart. Only the compilation of a whole program fails in another way,
where the program has no contract class.

Steps in sequence follow steps in sequence (`Follows.bind`). The rest of this module is one lemma
for each step that longer ones are made of.
-/

namespace Covenant

open Renaming Layout

namespace CompileError

theorem orLine_located (cause : Cause) (line last : Nat) :
    (located cause line).orLine last = located cause (if line = 0 then last else line) := by
  by_cases hline : line = 0
  · simp only [located, orLine, hline, if_pos]
  · simp only [located, orLine, if_neg hline]

end CompileError

/-- Where a line is lost, so are all others. -/
theorem Relabelling.ite_map (f : Relabelling) (line last : Nat) :
    (if f line = 0 then f last else f line) = f (if line = 0 then last else line) := by
  by_cases hline : line = 0
  · rw [hline, f.map_zero, if_pos rfl, if_pos rfl]
  · rw [if_neg hline]
    split
    · next hlost =>
      rcases f.keeps_or_forgets with hkeeps | hforgets
      · exact absurd (hkeeps line hlost) hline
      · rw [hforgets, hforgets]
    · rfl

namespace Translation

variable (τ : Translation)

/-- A cause at a line, and the same cause up to names at the line that this one becomes. If errors
are `placed`, there is a line, unless an internal inconsistency is reported. -/
def Reports (placed : Prop) (e e' : CompileError) : Prop :=
  ∃ cause cause' line, e = .located cause line ∧ e' = .located cause' (τ.lines line) ∧
    τ.Same cause cause' ∧ (placed → line = 0 → cause.isDefect = true)

variable {τ}

/-- An error without a line is found at the last line seen, in both runs. -/
theorem reports_orLine {cause cause' : Cause} (h : τ.Same cause cause') (line last : Nat) :
    τ.Reports (last ≠ 0) ((CompileError.located cause line).orLine last)
      ((CompileError.located cause' (τ.lines line)).orLine (τ.lines last)) := by
  refine ⟨cause, cause', _, CompileError.orLine_located cause line last, ?_, h, ?_⟩
  · rw [CompileError.orLine_located, τ.lines.ite_map]
  · intro hlast hzero
    split at hzero
    · exact absurd hzero hlast
    · next hline => exact absurd hzero hline

theorem Reports.mono {placed placed' : Prop} (h : placed' → placed) {e e' : CompileError}
    (hreports : τ.Reports placed e e') : τ.Reports placed' e e' := by
  obtain ⟨cause, cause', line, he, he', hcause, hline⟩ := hreports
  exact ⟨cause, cause', line, he, he', hcause, hline ∘ h⟩

variable (τ)

/-- What the code of the second run is compared by. -/
def erase (code : Code) : Code := if τ.keep then code else withoutNotes code

theorem erase_eq : τ.erase = id ∨ τ.erase = withoutNotes := by
  unfold erase
  cases τ.keep with
  | true => exact .inl rfl
  | false => exact .inr rfl

@[simp] theorem erase_append (code code' : Code) :
    τ.erase (code ++ code') = τ.erase code ++ τ.erase code' := by
  rcases τ.erase_eq with h | h
  · simp only [h, id]
  · simp only [h, withoutNotes_append]

theorem erase_of_withoutNotes {code : Code} (h : withoutNotes code = code) :
    τ.erase code = code := by
  rcases τ.erase_eq with herase | herase
  · rw [herase, id]
  · rw [herase, h]

theorem erase_ifElse (code code' : Code) :
    τ.erase [.ifElse code code'] = [.ifElse (τ.erase code) (τ.erase code')] := by
  rcases τ.erase_eq with h | h <;> rw [h] <;> rfl

@[simp] theorem diverges_erase (code : Code) : diverges (τ.erase code) = diverges code := by
  rcases τ.erase_eq with h | h
  · rw [h, id]
  · rw [h, diverges_withoutNotes]

end Translation

namespace Gen

variable {α β γ δ : Type} {τ : Translation} {R : α → β → Prop} {S : γ → δ → Prop} {step' : Gen β}
  {cause cause' : Cause} {next : α → Gen γ} {step : Gen α}

/-- The state with other names for its variables and another line. -/
def State.under (τ : Translation) (state : State) : State :=
  ⟨state.layout.mapNames τ, τ.lines state.line⟩

/-- What two steps yield is related, and the code and the state correspond. If errors are `placed`,
they still are afterwards. -/
structure Step.Matches (τ : Translation) (placed : Prop) (R : α → β → Prop) (done : Step α)
    (done' : Step β) : Prop where
  result : R done.result done'.result
  code : τ.erase done'.code = done.code
  state : done'.state = done.state.under τ
  placed : placed → done.state.line ≠ 0

/-- From the translated state the second step does what the first one does. -/
def Follows (τ : Translation) (R : α → β → Prop) (step : Gen α) (step' : Gen β) : Prop :=
  ∀ (records : Records) (state : State), τ.FixesRecords records →
    Lockstep (τ.Reports (τ.strict ∧ state.line ≠ 0))
      (Step.Matches τ (τ.strict ∧ state.line ≠ 0) R) (step ⟨records, τ.keep && τ.traced⟩ state)
      (step' ⟨records, τ.traced⟩ (state.under τ))

/-- The second step follows the first and gives the same result. -/
abbrev Agrees (τ : Translation) (step step' : Gen α) : Prop := Follows τ Eq step step'

theorem erase_nil : τ.erase [] = [] := τ.erase_of_withoutNotes rfl

/-! ## Sequences -/

theorem follows_pure {a : α} {b : β} (h : R a b) : Follows τ R (pure a) (pure b) :=
  fun _ _ _ => .ok ⟨h, erase_nil, rfl, And.right⟩

theorem agrees_pure (a : α) : Agrees τ (pure a) (pure a) := follows_pure rfl

theorem Follows.bind (h : Follows τ R step step') {next' : β → Gen δ}
    (hnext : ∀ a b, R a b → Follows τ S (next a) (next' b)) :
    Follows τ S (step >>= next) (step' >>= next') := by
  intro records state hrecords
  rw [bind_apply, bind_apply]
  refine (h records state hrecords).bind fun first first' hfirst => ?_
  have hplaced (hstart : τ.strict ∧ state.line ≠ 0) : τ.strict ∧ first.state.line ≠ 0 :=
    ⟨hstart.1, hfirst.placed hstart⟩
  have hsecond := hnext _ _ hfirst.result records first.state hrecords
  rw [hfirst.state]
  refine (hsecond.mono (fun _ _ => .mono hplaced) fun _ _ => id).bind fun second second' hsecond =>
    .ok ⟨hsecond.result, ?_, hsecond.state, hsecond.placed ∘ hplaced⟩
  rw [τ.erase_append, hfirst.code, hsecond.code]

theorem Agrees.bind {step step' : Gen α} (h : Agrees τ step step') {next' : α → Gen δ}
    (hnext : ∀ a, Follows τ S (next a) (next' a)) :
    Follows τ S (step >>= next) (step' >>= next') :=
  Follows.bind h fun a b hab => by
    subst hab
    exact hnext a

theorem Follows.ite {c : Prop} [Decidable c] {x y : Gen α} {x' y' : Gen β} (h : Follows τ R x x')
    (h' : Follows τ R y y') : Follows τ R (if c then x else y) (if c then x' else y') := by
  split
  · exact h
  · exact h'

/-! ## State -/

theorem follows_layout_bind {next : Layout → Gen α} {next' : Layout → Gen β}
    (h : ∀ l, Follows τ R (next l) (next' (l.mapNames τ))) :
    Follows τ R (layout >>= next) (layout >>= next') :=
  Follows.bind (R := fun l l' => l' = l.mapNames τ)
    (fun _ _ _ => .ok ⟨rfl, erase_nil, rfl, And.right⟩) fun l _ hl => hl ▸ h l

theorem agrees_setLayout (l : Layout) : Agrees τ (setLayout l) (setLayout (l.mapNames τ)) :=
  fun _ _ _ => .ok ⟨rfl, erase_nil, rfl, And.right⟩

theorem agrees_depth : Agrees τ depth depth := follows_layout_bind fun l => agrees_pure l.depth

theorem follows_scope_bind {next : Scope → Gen α} {next' : Scope → Gen β}
    (h : ∀ scope, τ.FixesRecords scope.records →
      Follows τ R (next scope) (next' (scope.mapNames τ))) :
    Follows τ R (scope >>= next) (scope >>= next') := by
  intro records state hrecords
  have hnext := h ⟨records, state.layout⟩ hrecords records state hrecords
  rw [bind_apply, bind_apply]
  exact hnext.bind fun _ _ hmatch => .ok hmatch

/-- A line that is lost is not seen any more, but then no line was. -/
theorem agrees_seen (line : Nat) : Agrees τ (seen line) (seen (τ.lines line)) := by
  intro _ state _
  refine .ok ⟨rfl, erase_nil, ?_, fun hplaced => ?_⟩
  · have hlast := τ.lines.ite_map line state.line
    simp only [State.under] at hlast ⊢
    grind
  · dsimp only
    split
    · exact hplaced.2
    · next hline => exact hline

/-- A record type with a name that is not renamed is in force in both runs. -/
theorem Follows.withRecord (h : Follows τ R step step') {name : Ident} (hname : τ name = name)
    (fields : Fields) :
    Follows τ R (withRecord name fields step) (withRecord name fields step') :=
  fun records state hrecords => h (records.insert name fields) state (hrecords.insert hname fields)

/-! ## Failure -/

theorem follows_typed {outcome : Typed α} {outcome' : Typed β}
    (h : Lockstep τ.Moves R outcome outcome') : Follows τ R (typed outcome) (typed outcome') := by
  intro _ state _
  cases h with
  | ok h => exact .ok ⟨h, erase_nil, rfl, And.right⟩
  | error h =>
    obtain ⟨cause, cause', line, rfl, rfl, hcause, -⟩ := h
    exact .error ((Translation.reports_orLine hcause line state.line).mono And.right)

theorem follows_failAt (line : Nat) (h : τ.Same cause cause') :
    Follows τ R (failAt line cause) (failAt (τ.lines line) cause') :=
  fun _ state _ => .error ((Translation.reports_orLine h line state.line).mono And.right)

/-- Nothing is done after a failure. -/
theorem follows_failAt_bind (line : Nat) (h : τ.Same cause cause') {next : γ → Gen α}
    {next' : δ → Gen β} :
    Follows τ R (failAt line cause >>= next) (failAt (τ.lines line) cause' >>= next') :=
  (follows_failAt (R := fun _ _ => False) line h).bind fun _ _ h => h.elim

theorem follows_fail (h : τ.Same cause cause') :
    Follows τ R (fail cause) (fail cause') := by
  have hfail : Follows τ R (failAt 0 cause) _ := follows_failAt 0 h
  rwa [τ.lines.map_zero] at hfail

theorem follows_fail_bind (h : τ.Same cause cause') {next : γ → Gen α} {next' : δ → Gen β} :
    Follows τ R (fail cause >>= next) (fail cause' >>= next') :=
  (follows_fail (R := fun _ _ => False) h).bind fun _ _ h => h.elim

theorem follows_failNowhere {cause : Cause} (h : τ.strict → cause.isDefect = true) :
    Follows τ R (failNowhere cause) (failNowhere cause) := by
  refine fun _ _ _ => .error ⟨cause, cause, 0, rfl, ?_, .rfl, fun hplaced _ => h hplaced.1⟩
  rw [τ.lines.map_zero]
  rfl

theorem follows_defect (d : Defect) : Follows τ R (defect d) (defect d) :=
  follows_failNowhere fun _ => rfl

/-- An operation on a layout that gives a renamed result for the renamed layout. -/
theorem follows_sound_bind {outcome : Except Defect α} {f : α → β} {next' : β → Gen δ}
    (h : ∀ a, outcome = .ok a → Follows τ S (next a) (next' (f a))) :
    Follows τ S (sound outcome >>= next) (sound (outcome.map f) >>= next') := by
  cases outcome with
  | ok a =>
    change Follows τ S (pure a >>= next) (pure (f a) >>= next')
    rw [pure_bind, pure_bind]
    exact h a rfl
  | error d => exact (follows_defect (R := fun _ _ => False) d).bind fun _ _ h => h.elim

/-! ## Code -/

theorem agrees_emitAll {code code' : Code} (h : τ.erase code' = code) :
    Agrees τ (emitAll code) (emitAll code') :=
  fun _ _ _ => .ok ⟨rfl, h, rfl, And.right⟩

theorem agrees_emit {i i' : Instr} (h : τ.erase [i'] = [i]) : Agrees τ (emit i) (emit i') :=
  agrees_emitAll h

/-- An instruction that is no note and holds none. -/
theorem agrees_emit_plain {i : Instr} (h : withoutNotes [i] = [i]) : Agrees τ (emit i) (emit i) :=
  agrees_emit (τ.erase_of_withoutNotes h)

/-- An instruction with a block in it. -/
theorem agrees_emit_block {i : Code → Instr} (code : Code)
    (h : ∀ code, withoutNotes [i code] = [i (withoutNotes code)]) :
    Agrees τ (emit (i (τ.erase code))) (emit (i code)) := by
  refine agrees_emit ?_
  rcases τ.erase_eq with herase | herase
  · rw [herase, id, id]
  · rw [herase, h]

/-- Notes that are compared may not depend on names. -/
theorem agrees_annotate {n n' : Note} (h : τ.Same n n') : Agrees τ (annotate n) (annotate n') := by
  refine fun _ _ _ => .ok ⟨rfl, ?_, rfl, And.right⟩
  unfold Translation.erase
  cases hkeep : τ.keep with
  | true =>
    rw [h (τ.map_of_keep hkeep)]
    rfl
  | false => cases τ.traced <;> rfl

theorem agrees_push (n : Nat) : Agrees τ (push n) (push n) :=
  follows_layout_bind fun l => agrees_setLayout (l.push n)

theorem agrees_pop (n : Nat) : Agrees τ (pop n) (pop n) := by
  refine follows_layout_bind fun l => ?_
  rw [pop_mapNames]
  exact follows_sound_bind fun l _ => agrees_setLayout l

theorem agrees_apply (p : Prim) : Agrees τ (apply p) (apply p) :=
  (agrees_emit_plain rfl).bind fun _ => (agrees_pop _).bind fun _ => agrees_push 1

/-- The code that a step gives back is the same, like the code it emits. -/
theorem Follows.listen (h : Follows τ R step step') :
    Follows τ (fun p p' => R p.1 p'.1 ∧ τ.erase p'.2 = p.2) (listen step) (listen step') := by
  intro records state hrecords
  rw [listen_apply, listen_apply]
  exact (h records state hrecords).bind fun done done' hdone =>
    .ok ⟨⟨hdone.result, hdone.code⟩, hdone.code, hdone.state, hdone.placed⟩

theorem Follows.apart (h : Follows τ R step step') (start : Layout) :
    Follows τ (Step.Matches τ False R) (apart start step) (apart (start.mapNames τ) step') := by
  intro records state hrecords
  rw [apart_apply, apart_apply]
  refine (h records { state with layout := start } hrecords).bind fun done done' hdone =>
    .ok ⟨⟨hdone.result, hdone.code, hdone.state, False.elim⟩, erase_nil, ?_, hdone.placed⟩
  rw [hdone.state]
  rfl

/-- A block gives the same code and the renamed layout. -/
theorem Follows.block_bind {step step' : Gen Unit} (h : Agrees τ step step') (start : Layout)
    {next : Code × Layout → Gen γ} {next' : Code × Layout → Gen δ}
    (hnext : ∀ code l, Follows τ S (next (τ.erase code, l)) (next' (code, l.mapNames τ))) :
    Follows τ S (block start step >>= next) (block (start.mapNames τ) step' >>= next') := by
  have hblock : Follows τ (fun p p' => p = (τ.erase p'.1, p.2) ∧ p' = (p'.1, p.2.mapNames τ))
      (block start step) (block (start.mapNames τ) step') :=
    (h.apart start).bind fun _ _ hdone => follows_pure
      ⟨congrArg (·, _) hdone.code.symm, congrArg (_, ·.layout) hdone.state⟩
  refine hblock.bind fun p p' hp => ?_
  rw [hp.1, hp.2]
  exact hnext p'.1 p.2

/-! ## Typing -/

theorem agrees_typeOf (e : Expr) (expected : Option Ty) :
    Agrees τ (typeOf e expected) (typeOf (e.under τ) expected) :=
  follows_scope_bind fun _ hrecords => follows_typed (Covenant.agrees_typeOf hrecords e expected)

theorem agrees_checkFits (value : Expr) (want : Ty) :
    Agrees τ (checkFits value want) (checkFits (value.under τ) want) := by
  refine (agrees_typeOf value (some want)).bind fun found => ?_
  rw [Expr.line_under]
  exact .ite (agrees_pure ()) (follows_failAt _ .rfl)

theorem agrees_storageType : Agrees τ storageType storageType :=
  follows_scope_bind fun scope _ => follows_typed (Covenant.agrees_storageType τ scope)

theorem agrees_denoted (e : Expr) : Agrees τ (denoted e) (denoted (e.under τ)) :=
  follows_scope_bind fun _ hrecords => follows_typed (TypeExpr.agrees_type hrecords e)

theorem agrees_mapM_denoted (e : Option Expr) :
    Agrees τ (e.mapM denoted) ((Expr.underOption τ e).mapM denoted) := by
  cases e with
  | none => exact agrees_pure none
  | some e => exact (agrees_denoted e).bind fun ty => agrees_pure (some ty)

/-! ## Named cells -/

theorem agrees_fetch (name : Ident) : Agrees τ (fetch name) (fetch (τ name)) := by
  refine follows_layout_bind fun l => ?_
  cases hslot : l.slot? name with
  | none =>
    simp only [Layout.fetch, Layout.slot?_mapNames, hslot]
    exact follows_fail ((same_name name).map Cause.notDefined)
  | some slot =>
    simp only [Layout.fetch, Layout.slot?_mapNames, hslot, Layout.distance_mapNames]
    cases l.distance slot with
    | error d => exact follows_fail .rfl
    | ok jump =>
      exact (agrees_annotate ((same_name name).map Note.fetched)).bind fun _ =>
        (agrees_emit_plain (i := .dup (jump + 1)) rfl).bind fun _ => agrees_setLayout (l.push 1)

theorem agrees_bindTop (name : Ident) (ty : Ty) :
    Agrees τ (bindTop name ty) (bindTop (τ name) ty) := by
  refine (agrees_annotate ((same_name name).map Note.bound)).bind fun _ =>
    follows_layout_bind fun l => ?_
  rw [bind_mapNames]
  exact follows_sound_bind fun l _ => agrees_setLayout l

@[simp] theorem withoutNotes_dropAt (jump : Nat) (code : Code) :
    withoutNotes (dropAt jump :: code) = dropAt jump :: withoutNotes code := by
  cases jump <;> rfl

theorem withoutNotes_settleCode (jump : Nat) :
    withoutNotes (settleCode jump) = settleCode jump := by
  rw [settleCode, withoutNotes_dropAt]
  split
  · rfl
  · rfl

theorem agrees_free (name : Ident) : Agrees τ (free name) (free (τ name)) := by
  refine follows_layout_bind fun l => ?_
  rw [free_mapNames]
  refine follows_sound_bind fun freed hfreed => ?_
  obtain ⟨c, -, -, hdrop, -⟩ := Layout.free_eq_ok_iff.mp hfreed
  refine (agrees_annotate ((same_name name).map Note.freed)).bind fun _ =>
    (agrees_emit_plain ?_).bind fun _ => agrees_setLayout _
  rw [hdrop]
  exact withoutNotes_dropAt _ []

theorem agrees_freeAll (names : List Ident) : Agrees τ (freeAll names) (freeAll (names.map τ)) := by
  refine follows_layout_bind fun l => ?_
  rw [freeAll_mapNames]
  refine follows_sound_bind fun freed hfreed => ?_
  obtain ⟨order, -, hdrop⟩ := freeAll_eq_ok hfreed
  have hcode := code_of_dropNames (P := fun code => withoutNotes code = code) rfl
    (fun n rest hrest => by rw [withoutNotes_dropAt, hrest]) hdrop
  exact (agrees_emitAll (τ.erase_of_withoutNotes hcode)).bind fun _ => agrees_setLayout _

theorem agrees_replace (name : Ident) : Agrees τ (replace name) (replace (τ name)) := by
  refine (agrees_annotate ((same_name name).map Note.replaced)).bind fun _ =>
    follows_layout_bind fun l => ?_
  rw [replace_mapNames]
  refine follows_sound_bind fun replaced hreplaced => ?_
  obtain ⟨c, -, -, hcode, -⟩ := Layout.replace_eq_ok_iff.mp hreplaced
  refine (agrees_emitAll (τ.erase_of_withoutNotes ?_)).bind fun _ => agrees_setLayout _
  rw [hcode]
  exact withoutNotes_settleCode _

end Gen

end Covenant
