import Covenant.Proofs.Gen.Counted
import Covenant.Proofs.Layout.WellFormed
import Covenant.Proofs.Typing.Faults

/-!
# Covenant — steps whose transactions are foretold

Whether a body calls `transaction` is decided by looking at its syntax, before any code is emitted.
The generator decides anew at every call, by what the called expression means there. This module has
the property in which the two are compared.

`Gen.Foretold C` says of a step that a condition `C` holds wherever the step transfers tokens, and
wherever it fails for want of the list of pending operations; and that it does fail so only where
there is no such list. A sequence needs one thing more, that its first step does not lose the list:
`Gen.Heeds C` adds this. Blocks of statements are only foretold. What they do to the list is undone
where they end, as their layout is given up.
-/

namespace Covenant

/-! ## Transfers -/

mutual

/-- The instruction transfers tokens, itself or in one of its blocks. -/
def Instr.transfers : Instr → Bool
  | .prim p => p == .transferTokens
  | .dip _ body | .iter body | .lambda _ _ body => transfers body
  | .ifElse a b | .ifNone a b => transfers a || transfers b
  | _ => false

/-- An instruction of the block transfers tokens, at any depth. -/
def transfers : Code → Bool
  | [] => false
  | i :: rest => i.transfers || transfers rest

end

@[simp] theorem transfers_nil : transfers [] = false := rfl

@[simp] theorem transfers_cons (i : Instr) (rest : Code) :
    transfers (i :: rest) = (i.transfers || transfers rest) := rfl

@[simp] theorem transfers_append (code code' : Code) :
    transfers (code ++ code') = (transfers code || transfers code') := by
  induction code with
  | nil => rw [List.nil_append, transfers_nil, Bool.false_or]
  | cons i rest ih => rw [List.cons_append, transfers_cons, transfers_cons, ih, Bool.or_assoc]

@[simp] theorem transfers_notes (config : Gen.Config) (n : Note) :
    transfers (config.notes n) = false := by
  unfold Gen.Config.notes
  split <;> rfl

@[simp] theorem transfers_unwrapOr (message : String) : (unwrapOr message).transfers = false := rfl

namespace Layout

@[simp] theorem transfers_dropAt (n : Nat) : (dropAt n).transfers = false := by
  cases n <;> rfl

theorem transfers_settleCode (jump : Nat) : transfers (settleCode jump) = false := by
  unfold settleCode
  split <;> simp [Instr.transfers]

/-- A variable that is given a new value takes no name away. -/
theorem binds_settled {l : Layout} {name other : Ident} {c : Cell} (h : l.binds other = true) :
    (l.settled name c).binds other = true := by
  rw [binds_eq_isSome, slot?_settled, slot?_without]
  split
  · rfl
  · rwa [Option.isSome_map, Option.isSome_map]

theorem isStray_of_fetch {l : Layout} {name : Ident} {cause : Cause}
    (h : l.fetch name = .error cause) : cause.isStray = false := by
  unfold fetch at h
  split at h
  · cases h
    rfl
  · split at h
    · cases h
      rfl
    · cases h

end Layout

namespace Gen

open Layout (operationsName)

variable {α β : Type} {C C' c : Prop} {config : Config} {state : State} {l l' : Layout}
  {step : Gen α} {next : α → Gen β} {cause : Cause} {line : Nat}

/-! ## The property -/

/-- The outcome of a step that starts from a layout: if tokens are transferred or the list of pending
operations is missing, the condition holds, and the list is missing only if the layout has none. -/
def ForetoldAt (C : Prop) (l : Layout) : Except CompileError (Step α) → Prop
  | .ok done => transfers done.code = true → C
  | .error e => e.isStray = true → C ∧ l.binds operationsName = false

/-- Wherever the step starts, its transactions are foretold by the condition. -/
def Foretold (C : Prop) (step : Gen α) : Prop :=
  ∀ config state, ForetoldAt C state.layout (step config state)

/-- The step's transactions are foretold, and it does not lose the list of pending operations. -/
structure Heeds (C : Prop) (step : Gen α) : Prop where
  foretold : Foretold C step
  keeps : Each (fun l _ l' => l.binds operationsName = true → l'.binds operationsName = true) step

theorem ForetoldAt.mono {outcome : Except CompileError (Step α)} (h : ForetoldAt C l outcome)
    (hC : C → C') (hl : l'.binds operationsName = true → l.binds operationsName = true) :
    ForetoldAt C' l' outcome := by
  cases outcome with
  | ok done => exact fun htransfers => hC (h htransfers)
  | error e =>
    intro hstray
    obtain ⟨hcond, hnone⟩ := h hstray
    refine ⟨hC hcond, ?_⟩
    cases hbinds : l'.binds operationsName with
    | false => rfl
    | true => exact (hl hbinds).symm.trans hnone

/-- Without transactions it does not matter where the list is. -/
theorem ForetoldAt.of_false {outcome : Except CompileError (Step α)}
    (h : ForetoldAt False l outcome) : ForetoldAt C l' outcome := by
  cases outcome with
  | ok done => exact fun htransfers => (h htransfers).elim
  | error e => exact fun hstray => (h hstray).1.elim

/-! ## Sequences -/

theorem ForetoldAt.bind (h : ForetoldAt C l (step config state))
    (hnext : ∀ first, step config state = .ok first →
      ForetoldAt C l (next first.result config first.state)) :
    ForetoldAt C l ((step >>= next) config state) := by
  cases hstep : step config state with
  | error e =>
    rw [hstep] at h
    rw [bind_of_error hstep]
    exact h
  | ok first =>
    have hrest := hnext first hstep
    rw [hstep] at h
    rw [bind_of_ok hstep]
    cases hlast : next first.result config first.state with
    | error e =>
      rw [hlast] at hrest
      exact hrest
    | ok last =>
      rw [hlast] at hrest
      show transfers (first.code ++ last.code) = true → C
      rw [transfers_append, Bool.or_eq_true]
      exact Or.rec h hrest

/-- The second step starts with the list if the sequence does. -/
theorem Heeds.bind_foretold (h : Heeds C step) (hnext : ∀ a, Foretold C (next a)) :
    Foretold C (step >>= next) :=
  fun config state => (h.foretold config state).bind fun first hfirst =>
    (hnext first.result config first.state).mono id (h.keeps hfirst)

/-- What follows has to have the property only for results that the first step gives. -/
theorem Heeds.bind_of_ok (h : Heeds C step) (hnext : ∀ ⦃config state first⦄,
    step config state = .ok first → Heeds C (next first.result)) : Heeds C (step >>= next) where
  foretold config state := (h.foretold config state).bind fun first hfirst =>
    ((hnext hfirst).foretold config first.state).mono id (h.keeps hfirst)
  keeps := by
    intro config state done hdone hbinds
    obtain ⟨first, last, hfirst, hlast, rfl⟩ := bind_eq_ok_iff.mp hdone
    have hlater := (hnext hfirst).keeps hlast
    exact hlater (h.keeps hfirst hbinds)

theorem Heeds.bind (h : Heeds C step) (hnext : ∀ a, Heeds C (next a)) : Heeds C (step >>= next) :=
  h.bind_of_ok fun _ _ first _ => hnext first.result

/-- A second step without transactions does not need the list. -/
theorem Foretold.bind (h : Foretold C step) (hnext : ∀ a, Foretold False (next a)) :
    Foretold C (step >>= next) :=
  fun config state => (h config state).bind fun first _ =>
    (hnext first.result config first.state).of_false

theorem Heeds.ite {step' : Gen α} [Decidable c] (h : Heeds C step) (h' : Heeds C step') :
    Heeds C (if c then step else step') := by
  split
  · exact h
  · exact h'

/-! ## Steps that emit nothing -/

/-- A step that asks something and goes on. -/
theorem heeds_of_silent (h : ∀ config state, ∃ a state', step config state = .ok ⟨a, [], state'⟩ ∧
    state'.layout = state.layout) : Heeds C step where
  foretold config state := by
    obtain ⟨a, state', hstep, -⟩ := h config state
    rw [hstep]
    show transfers [] = true → C
    simp
  keeps config state done hdone hbinds := by
    obtain ⟨a, state', hstep, hlayout⟩ := h config state
    cases hstep.symm.trans hdone
    rw [hlayout, hbinds]

theorem heeds_pure (a : α) : Heeds C (pure a : Gen α) :=
  heeds_of_silent fun _ state => ⟨a, state, rfl, rfl⟩

theorem heeds_layout : Heeds C layout :=
  heeds_of_silent fun _ state => ⟨state.layout, state, rfl, rfl⟩

theorem heeds_depth : Heeds C depth :=
  heeds_of_silent fun _ state => ⟨state.layout.depth, state, rfl, rfl⟩

theorem heeds_scope : Heeds C scope :=
  heeds_of_silent fun config state => ⟨⟨config.records, state.layout⟩, state, rfl, rfl⟩

theorem heeds_seen (line : Nat) : Heeds C (seen line) :=
  heeds_of_silent fun _ state => ⟨(), state.seeing line, seen_apply line, state.layout_seeing line⟩

/-! ## Failure -/

theorem isStray_orLine (e : CompileError) (line : Nat) : (e.orLine line).isStray = e.isStray := by
  unfold CompileError.orLine
  split <;> rfl

theorem heeds_failAt (h : cause.isStray = false) :
    Heeds C (failAt line cause : Gen α) where
  foretold config state hstray := by
    rw [isStray_orLine] at hstray
    have hcause : cause.isStray = true := hstray
    rw [h] at hcause
    cases hcause
  keeps _ _ _ hdone := absurd hdone failAt_ne_ok

theorem heeds_fail (h : cause.isStray = false) : Heeds C (fail cause : Gen α) :=
  heeds_failAt h

theorem heeds_defect (d : Defect) : Heeds C (defect d : Gen α) where
  foretold _ _ hstray := by cases hstray
  keeps _ _ _ hdone := absurd hdone defect_ne_ok

theorem heeds_sound (outcome : Except Defect α) : Heeds C (sound outcome) := by
  cases outcome with
  | ok a => exact heeds_pure a
  | error d => exact heeds_defect d

theorem foretoldAt_sound_bind {outcome : Except Defect α}
    (hnext : ∀ a, outcome = .ok a → ForetoldAt C l (next a config state)) :
    ForetoldAt C l ((sound outcome >>= next) config state) := by
  cases outcome with
  | ok a =>
    rw [sound, pure_bind]
    exact hnext a rfl
  | error d =>
    intro hstray
    cases hstray

theorem foretold_sound_bind {outcome : Except Defect α}
    (hnext : ∀ a, outcome = .ok a → Foretold C (next a)) : Foretold C (sound outcome >>= next) :=
  fun config state => foretoldAt_sound_bind fun a ha => hnext a ha config state

/-- A typing question that the program fails is not about transactions. -/
theorem heeds_typed {outcome : Typed α} (hsane : Sane outcome) : Heeds C (typed outcome) := by
  cases outcome with
  | ok a => exact heeds_pure a
  | error e =>
    have hother := (CompileError.beyondTyping_eq_false_iff.mp hsane).2
    refine ⟨fun config state hstray => ?_, fun _ _ _ hdone => ?_⟩
    · rw [isStray_orLine, hother] at hstray
      cases hstray
    · cases hdone

theorem heeds_typed_bind {outcome : Typed α} (hsane : Sane outcome)
    (hnext : ∀ a, outcome = .ok a → Heeds C (next a)) : Heeds C (typed outcome >>= next) := by
  refine (heeds_typed hsane).bind_of_ok fun config state first hfirst => ?_
  obtain ⟨a, ha, rfl⟩ := typed_eq_ok_iff.mp hfirst
  exact hnext a ha

/-! ## Checks -/

theorem foretold_ensure [Decidable c] {next : Unit → Gen β} (hcause : cause.isStray = false)
    (hnext : Foretold C (next ())) :
    Foretold C (if c then next () else failAt line cause >>= next) := by
  split
  · exact hnext
  · exact (heeds_failAt hcause).bind_foretold fun _ => hnext

theorem heeds_ensure [Decidable c] {next : Unit → Gen β} (hcause : cause.isStray = false)
    (hnext : Heeds C (next ())) :
    Heeds C (if c then next () else failAt line cause >>= next) :=
  .ite hnext ((heeds_failAt hcause).bind fun _ => hnext)

/-! ## Typing -/

theorem heeds_typeOf (e : Expr) (expected : Option Ty) : Heeds C (typeOf e expected) :=
  heeds_scope.bind fun scope => heeds_typed (sane_typeOf scope e expected)

theorem heeds_denoted (e : Expr) : Heeds C (denoted e) :=
  heeds_scope.bind fun scope => heeds_typed (TypeExpr.sane_type scope.records e)

theorem heeds_mapM_denoted (declared : Option Expr) : Heeds C (declared.mapM denoted) := by
  cases declared with
  | none => exact heeds_pure none
  | some e => exact (heeds_denoted e).bind fun ty => heeds_pure (some ty)

/-! ## Code -/

theorem heeds_emitAll {code : Code} (h : transfers code = true → C) : Heeds C (emitAll code) where
  foretold _ _ := h
  keeps _ _ _ hdone hbinds := by
    obtain rfl := emitAll_eq_ok_iff.mp hdone
    exact hbinds

theorem heeds_emit {i : Instr} (h : i.transfers = true → C) : Heeds C (emit i) :=
  have hcode : transfers [i] = true → C := by simpa using h
  heeds_emitAll hcode

theorem heeds_annotate (n : Note) : Heeds C (annotate n) where
  foretold config _ := fun htransfers => by
    have hnotes : transfers (config.notes n) = true := htransfers
    simp at hnotes
  keeps _ _ _ hdone hbinds := by
    obtain rfl := annotate_eq_ok_iff.mp hdone
    exact hbinds

theorem foretold_setLayout (l : Layout) : Foretold C (setLayout l) := by
  intro config state
  show transfers [] = true → C
  simp

theorem heeds_push (n : Nat) : Heeds C (push n) where
  foretold := heeds_layout.bind_foretold fun _ => foretold_setLayout _
  keeps _ _ _ hdone hbinds := by
    rw [push_apply] at hdone
    cases hdone
    exact hbinds

theorem heeds_pop (n : Nat) : Heeds C (pop n) where
  foretold := heeds_layout.bind_foretold fun _ => (heeds_sound _).bind_foretold fun _ =>
    foretold_setLayout _
  keeps _ _ _ hdone hbinds := by
    obtain ⟨-, rfl⟩ := pop_eq_ok_iff.mp hdone
    exact hbinds

theorem heeds_apply {p : Prim} (hp : p = .transferTokens → C) : Heeds C (apply p) :=
  (heeds_emit (by simpa [Instr.transfers] using hp)).bind fun _ => (heeds_pop _).bind fun _ =>
    heeds_push 1

theorem ForetoldAt.listen (h : ForetoldAt C l (step config state)) :
    ForetoldAt C l (listen step config state) := by
  unfold Gen.listen
  cases hout : step config state with
  | ok | error =>
    rw [hout] at h
    exact h

theorem Foretold.listen (h : Foretold C step) : Foretold C (listen step) :=
  fun config state => (h config state).listen

theorem Heeds.listen (h : Heeds C step) : Heeds C (listen step) where
  foretold := h.foretold.listen
  keeps _ _ _ hdone hbinds := by
    obtain ⟨inner, hinner, rfl⟩ := listen_eq_ok_iff.mp hdone
    exact h.keeps hinner hbinds

/-! ## Blocks -/

/-- A block is foretold where it starts, and what follows where it ends. -/
theorem ForetoldAt.block {start : Layout} {body : Gen Unit} {next : Code × Layout → Gen β}
    (hbody : ForetoldAt C l (body config { state with layout := start }))
    (hnext : ∀ inner : Step Unit, (transfers inner.code = true → C) →
      ForetoldAt C l (next (inner.code, inner.state.layout) config
        { inner.state with layout := state.layout })) :
    ForetoldAt C l ((block start body >>= next) config state) := by
  rw [Gen.block, bind_assoc]
  refine ForetoldAt.bind ?_ fun first hfirst => ?_
  · unfold apart
    cases hout : body config { state with layout := start } with
    | ok inner =>
      show transfers [] = true → C
      simp
    | error e =>
      rw [hout] at hbody
      exact hbody
  · unfold apart at hfirst
    cases hout : body config { state with layout := start } with
    | ok inner =>
      rw [hout] at hbody hfirst
      cases hfirst
      rw [pure_bind]
      exact hnext inner hbody
    | error e =>
      rw [hout] at hfirst
      cases hfirst

/-! ## Named cells -/

theorem heeds_fetch (name : Ident) : Heeds C (fetch name) where
  foretold config state := by
    rw [fetch, layout_bind]
    cases hfetch : state.layout.fetch name with
    | error cause => exact (heeds_fail (Layout.isStray_of_fetch hfetch)).foretold config state
    | ok found =>
      obtain ⟨i, l⟩ := found
      obtain ⟨slot, -, -, rfl, -⟩ := (Layout.fetch_eq_ok_iff state.layout).mp hfetch
      have hcopied : Foretold C (do
          annotate (.fetched name)
          emit (.dup (state.layout.depth - slot))
          setLayout l) :=
        (heeds_annotate _).bind_foretold fun _ =>
          (heeds_emit (by simp [Instr.transfers])).bind_foretold fun _ => foretold_setLayout l
      exact hcopied config state
  keeps _ _ _ hdone hbinds := by
    obtain ⟨slot, -, -, rfl⟩ := fetch_eq_ok_iff.mp hdone
    exact hbinds

theorem heeds_bindTop (name : Ident) (ty : Ty) : Heeds C (bindTop name ty) where
  foretold := (heeds_annotate _).bind_foretold fun _ => heeds_layout.bind_foretold fun _ =>
    (heeds_sound _).bind_foretold fun _ => foretold_setLayout _
  keeps _ _ _ hdone hbinds := by
    obtain ⟨l, hbind, rfl⟩ := bindTop_eq_ok_iff.mp hdone
    exact Layout.binds_of_bind hbind (by decide) hbinds

/-- Code that the layout asks for is emitted and the new layout taken over. -/
theorem foretold_settle {outcome : Except Defect (Code × Layout)}
    (h : ∀ code l, outcome = .ok (code, l) → transfers code = false) : Foretold C (do
      let (code, l) ← sound outcome
      emitAll code
      setLayout l) :=
  foretold_sound_bind fun (code, l) houtcome =>
    (heeds_emitAll (by simp [h code l houtcome])).bind_foretold fun _ => foretold_setLayout l

theorem heeds_replace (name : Ident) : Heeds C (replace name) where
  foretold := (heeds_annotate _).bind_foretold fun _ => heeds_layout.bind_foretold fun l =>
    foretold_settle fun code l' hreplace => by
      obtain ⟨c, -, -, rfl, -⟩ := Layout.replace_eq_ok_iff.mp hreplace
      exact Layout.transfers_settleCode _
  keeps _ _ _ hdone hbinds := by
    obtain ⟨c, -, -, rfl⟩ := replace_eq_ok_iff.mp hdone
    exact Layout.binds_settled hbinds

theorem foretold_freeAll (names : List Ident) : Foretold C (freeAll names) :=
  heeds_layout.bind_foretold fun l => foretold_settle fun code l' hfree => by
    obtain ⟨order, -, hdrop⟩ := Layout.freeAll_eq_ok hfree
    exact Layout.code_of_dropNames (P := fun code => transfers code = false) transfers_nil
      (fun n rest hrest => by
        rw [transfers_cons, Layout.transfers_dropAt, hrest, Bool.or_false]) hdrop

theorem foretold_free (name : Ident) : Foretold C (free name) :=
  heeds_layout.bind_foretold fun l => foretold_sound_bind fun (i, l') hfree => by
    obtain ⟨c, -, -, rfl, -⟩ := Layout.free_eq_ok_iff.mp hfree
    exact (heeds_annotate _).bind_foretold fun _ =>
      (heeds_emit (by simp)).bind_foretold fun _ => foretold_setLayout _

end Gen

end Covenant
