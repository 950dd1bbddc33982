import Covenant.Proofs.Gen.Rules
import Covenant.Proofs.Layout.WellFormed
import Covenant.Proofs.Typing.Faults

/-!
# Covenant — steps that never run into an inconsistency

`Gen.Yields step config state post` says two things of a step from a state: it does not fail with an
internal inconsistency, and if it succeeds, its result and the layout after it are as `post` says.
The second half is what the next step relies on, so the two are carried together through sequences
(`Yields.bind`). Failures that blame the program are of no concern here.

The module has one lemma for each basic step. Steps on named cells need a well-formed layout; cells
can be taken off as long as there are enough of them.
-/

namespace Covenant

namespace Gen

variable {α β : Type} {config : Config} {state state' : State} {name : Ident} {c : Prop} {n : Nat}

/-- The step runs into no inconsistency, and what it yields is as described. -/
def Yields (step : Gen α) (config : Config) (state : State) (post : α → Layout → Prop) : Prop :=
  match step config state with
  | .ok done => post done.result done.state.layout
  | .error e => e.isDefect = false

variable {step : Gen α} {next : α → Gen β} {P P' : α → Layout → Prop} {Q : β → Layout → Prop}
  {line : Nat} {cause : Cause}

/-- What the step yields is known once it has succeeded. -/
theorem Yields.of_ok (h : Yields step config state P) {done : Step α}
    (hdone : step config state = .ok done) : P done.result done.state.layout := by
  unfold Yields at h
  rw [hdone] at h
  exact h

theorem Yields.of_error (h : Yields step config state P) {e : CompileError}
    (he : step config state = .error e) : e.isDefect = false := by
  unfold Yields at h
  rw [he] at h
  exact h

theorem Yields.mono (h : Yields step config state P) (hpost : ∀ a l, P a l → P' a l) :
    Yields step config state P' := by
  unfold Yields at h ⊢
  split
  · next done hdone =>
    rw [hdone] at h
    exact hpost _ _ h
  · next e he =>
    rw [he] at h
    exact h

/-- What follows a step that succeeds is all that matters, whatever code the step emits. -/
theorem yields_bind_of_ok {first : Step α} (hstep : step config state = .ok first)
    (h : Yields (next first.result) config first.state Q) :
    Yields (step >>= next) config state Q := by
  unfold Yields at h ⊢
  rw [bind_of_ok hstep]
  cases hnext : next first.result config first.state with
  | error | ok =>
    rw [hnext] at h
    exact h

/-- A sequence goes on from what its first step yields. -/
theorem Yields.bind (h : Yields step config state P)
    (hnext : ∀ a state', P a state'.layout → Yields (next a) config state' Q) :
    Yields (step >>= next) config state Q := by
  cases hstep : step config state with
  | error e =>
    unfold Yields
    rw [bind_of_error hstep]
    exact h.of_error hstep
  | ok first => exact yields_bind_of_ok hstep (hnext first.result first.state (h.of_ok hstep))

/-- Steps that do the same from the states at hand yield the same. -/
theorem Yields.congr {step' : Gen α} (heq : step config state = step' config state')
    (h : Yields step' config state' P) : Yields step config state P := by
  unfold Yields at h ⊢
  rw [heq]
  exact h

theorem Yields.ite {step' : Gen α} [Decidable c] (h : c → Yields step config state P)
    (h' : ¬c → Yields step' config state P) :
    Yields (if c then step else step') config state P := by
  split
  · next hc => exact h hc
  · next hc => exact h' hc

/-! ## Steps that emit nothing -/

theorem yields_pure {a : α} (h : P a state.layout) : Yields (pure a) config state P := h

/-! ## Failure -/

theorem isDefect_orLine (e : CompileError) (line : Nat) : (e.orLine line).isDefect = e.isDefect := by
  unfold CompileError.orLine
  split <;> rfl

/-- Typing never reports an inconsistency of the compiler. -/
theorem yields_typed {outcome : Typed α} (hsane : Sane outcome)
    (h : ∀ a, outcome = .ok a → P a state.layout) : Yields (typed outcome) config state P := by
  cases outcome with
  | error e =>
    unfold Yields typed
    dsimp only
    rw [isDefect_orLine]
    exact (CompileError.beyondTyping_eq_false_iff.mp hsane).1
  | ok a => exact h a rfl

/-- What follows a question about types may rely on the answer. -/
theorem yields_typed_bind {outcome : Typed α} (hsane : Sane outcome)
    (h : ∀ a, outcome = .ok a → Yields (next a) config state Q) :
    Yields (typed outcome >>= next) config state Q := by
  cases outcome with
  | error e =>
    exact (yields_typed hsane (P := fun _ _ => False) (by simp)).bind fun _ _ hfalse => hfalse.elim
  | ok a => exact (h a rfl).congr (bind_of_silent (typed_ok a))

theorem yields_failAt (h : cause.isDefect = false) : Yields (failAt line cause) config state P := by
  unfold Yields failAt typed faultAt
  dsimp only
  rw [isDefect_orLine]
  exact h

theorem yields_fail (h : cause.isDefect = false) : Yields (fail cause) config state P :=
  yields_failAt h

theorem yields_failAt_bind (h : cause.isDefect = false) :
    Yields (failAt line cause >>= next) config state Q :=
  (yields_failAt h (P := fun _ _ => False)).bind fun _ _ hfalse => hfalse.elim

theorem yields_fail_bind (h : cause.isDefect = false) :
    Yields (fail cause >>= next) config state Q :=
  yields_failAt_bind h

/-- A requirement on the program: what follows may rely on it. -/
theorem yields_unless [Decidable c] {next : Unit → Gen β} (hcause : cause.isDefect = false)
    (h : c → Yields (next ()) config state Q) :
    Yields (if c then next () else failAt line cause >>= next) config state Q :=
  .ite h fun _ => yields_failAt_bind hcause

/-- The same for what the program must not do. -/
theorem yields_when [Decidable c] {next : Unit → Gen β} (hcause : cause.isDefect = false)
    (h : ¬c → Yields (next ()) config state Q) :
    Yields (if c then failAt line cause >>= next else next ()) config state Q :=
  .ite (fun _ => yields_failAt_bind hcause) h

/-- A check that cannot fail here is no inconsistency. -/
theorem yields_sound_bind {outcome : Except Defect α} {a : α} (hok : outcome = .ok a)
    (h : Yields (next a) config state Q) : Yields (sound outcome >>= next) config state Q := by
  subst hok
  exact h.congr (bind_of_silent rfl)

/-! ## Typing -/

theorem yields_typeOf_bind {e : Expr} {expected : Option Ty} {next : Ty → Gen β}
    (h : ∀ ty, Covenant.typeOf ⟨config.records, state.layout⟩ e expected = .ok ty →
      Yields (next ty) config state Q) :
    Yields (typeOf e expected >>= next) config state Q := by
  rw [typeOf, bind_assoc]
  exact .congr scope_bind (yields_typed_bind (sane_typeOf _ e expected) h)

/-- What follows the check may rely on the value being of a type that fits. -/
theorem yields_checkFits_bind {value : Expr} {want : Ty} {next : Unit → Gen β}
    (h : ∀ found, Covenant.typeOf ⟨config.records, state.layout⟩ value (some want) = .ok found →
      found.fits want = true → Yields (next ()) config state Q) :
    Yields (checkFits value want >>= next) config state Q := by
  rw [checkFits, bind_assoc]
  refine yields_typeOf_bind fun found hfound => ?_
  by_cases hfits : found.fits want = true
  · rw [if_pos hfits, pure_bind]
    exact h found hfound hfits
  · rw [if_neg hfits]
    exact yields_failAt_bind rfl

theorem yields_denoted_bind {e : Expr} {next : Ty → Gen β}
    (h : ∀ ty, Yields (next ty) config state Q) : Yields (denoted e >>= next) config state Q := by
  rw [denoted, bind_assoc]
  exact .congr scope_bind (yields_typed_bind (TypeExpr.sane_type _ e) fun ty _ => h ty)

/-! ## Code -/

section Effects

variable {P : Unit → Layout → Prop}

theorem yields_emit {i : Instr} (h : P () state.layout) :
    Yields (emit i) config state P := h

theorem yields_emit_bind {i : Instr} {next : Unit → Gen β} (h : Yields (next ()) config state Q) :
    Yields (emit i >>= next) config state Q :=
  yields_bind_of_ok (rfl : emit i config state = .ok ⟨(), [i], state⟩) h

theorem yields_annotate_bind {n : Note} {next : Unit → Gen β}
    (h : Yields (next ()) config state Q) : Yields (annotate n >>= next) config state Q :=
  yields_bind_of_ok (rfl : annotate n config state = .ok ⟨(), config.notes n, state⟩) h

/-- Cells can be taken off if there are that many. -/
theorem yields_pop (hn : n ≤ state.layout.depth)
    (h : P () (state.layout.atDepth (state.layout.depth - n))) :
    Yields (pop n) config state P := by
  unfold Yields
  rw [pop_eq_ok_iff.mpr ⟨hn, rfl⟩]
  exact h

theorem yields_pop_bind {next : Unit → Gen β} (hn : n ≤ state.layout.depth)
    (h : Yields (next ()) config (state.atDepth (state.layout.depth - n)) Q) :
    Yields (pop n >>= next) config state Q :=
  h.congr (bind_of_silent (pop_eq_ok_iff.mpr ⟨hn, rfl⟩))

/-- A primitive replaces the cells it consumes by one. -/
theorem yields_apply {p : Prim} (hp : p.arity ≤ state.layout.depth)
    (h : P () (state.layout.atDepth (state.layout.depth - p.arity + 1))) :
    Yields (apply p) config state P := by
  unfold Yields
  rw [apply_eq_ok_iff.mpr ⟨hp, rfl⟩]
  exact h

theorem Yields.listen {P : α → Layout → Prop} (h : Yields step config state P) :
    Yields (listen step) config state fun result l => P result.1 l := by
  unfold Yields Gen.listen at *
  cases hstep : step config state with
  | error | ok =>
    rw [hstep] at h
    exact h

/-- A step that runs apart leaves the layout alone. -/
theorem Yields.apart {P : α → Layout → Prop} {start : Layout}
    (h : Yields step config { state with layout := start } P) :
    Yields (apart start step) config state fun done l =>
      P done.result done.state.layout ∧ l = state.layout := by
  unfold Yields Gen.apart at *
  cases hstep : step config { state with layout := start } with
  | error e =>
    rw [hstep] at h
    exact h
  | ok done =>
    rw [hstep] at h
    exact ⟨h, rfl⟩

theorem Yields.block {start : Layout} {step : Gen Unit}
    (h : Yields step config { state with layout := start } P) :
    Yields (block start step) config state fun result l => P () result.2 ∧ l = state.layout :=
  h.apart.bind fun _ _ hdone => yields_pure hdone

/-! ## Named cells -/

/-- A named cell lies below the top of a well-formed layout, so it can be copied. -/
theorem yields_fetch (hl : state.layout.WellFormed)
    (hname : state.layout.binds name = true)
    (h : P () (state.layout.atDepth (state.layout.depth + 1))) :
    Yields (fetch name) config state P := by
  obtain ⟨slot, hslot⟩ := Layout.binds_iff.mp hname
  unfold Yields
  rw [fetch_eq_ok_iff.mpr ⟨slot, hslot, hl.slots_below hslot, rfl⟩]
  exact h

/-- The cell on top can be named if there is one. -/
theorem yields_bindTop {ty : Ty} (hpos : 0 < state.layout.depth)
    (h : ∀ l, state.layout.bind name ty = .ok l → P () l) :
    Yields (bindTop name ty) config state P := by
  have hbind : state.layout.bind name ty = .ok _ := Layout.bind_eq_ok_iff.mpr ⟨hpos, rfl⟩
  unfold Yields
  rw [bindTop_eq_ok_iff.mpr ⟨_, hbind, rfl⟩]
  exact h _ hbind

/-- A variable of a well-formed layout can be dropped. -/
theorem yields_free (hl : state.layout.WellFormed)
    (hname : state.layout.binds name = true)
    (h : ∀ slot, state.layout.slot? name = some slot →
      P () ((state.layout.without name slot).unhide name)) :
    Yields (free name) config state P := by
  obtain ⟨slot, hslot⟩ := Layout.binds_iff.mp hname
  unfold Yields
  rw [free_eq_ok_iff.mpr ⟨slot, hslot, hl.slots_below hslot, rfl⟩]
  exact h slot hslot

/-- Distinct variables can be dropped together, from the top down. -/
theorem yields_freeAll {names : List Ident}
    (hl : state.layout.WellFormed) (hnodup : names.Nodup)
    (hbound : ∀ name ∈ names, state.layout.binds name = true)
    (h : ∀ order code l, order.Perm names → state.layout.dropNames order = .ok (code, l) → P () l) :
    Yields (freeAll names) config state P := by
  obtain ⟨code, l, hfree⟩ := hl.freeAll hnodup hbound
  obtain ⟨order, hperm, hdrop⟩ := Layout.freeAll_eq_ok hfree
  unfold Yields
  rw [freeAll_eq_ok_iff.mpr ⟨code, l, hfree, rfl⟩]
  exact h order code l hperm hdrop

/-- A variable can be given the value on top if that value has no name itself. -/
theorem yields_replace (hl : state.layout.WellFormed)
    (htop : state.layout.TopFree) (hname : state.layout.binds name = true)
    (h : ∀ c, state.layout.cell? name = some c → P () (state.layout.settled name c)) :
    Yields (replace name) config state P := by
  obtain ⟨c, hc⟩ := hl.cell?_of_binds hname
  unfold Yields
  rw [replace_eq_ok_iff.mpr ⟨c, hc, htop (Layout.slot?_of_cell? hc), rfl⟩]
  exact h c hc

end Effects

end Gen

end Covenant
