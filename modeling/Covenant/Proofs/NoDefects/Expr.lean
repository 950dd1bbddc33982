import Covenant.Proofs.Gen.Calls
import Covenant.Proofs.Gen.Yields

/-!
# Covenant — expressions run into no inconsistency

The generator relies on agreements that it does not check again: that an expression which has a type
is of a kind it can emit at that type, that variables with a type have a cell, that cells it consumes
are there. Where such an agreement fails it reports a defect.

That steps run into no defect follows from how many cells there are on top of the named ones
(`tracked_yields`, where `Layout.After` counts them). So from a well-formed layout an expression runs
into no defect. It keeps the named cells and leaves at most one cell on top of them
(`Expr.yields_compile`), exactly one if it is used as a value (`Expr.yields_value`).
-/

namespace Covenant

/-! ## Cells on top of a layout -/

namespace Gen

variable {config : Config} {state : State} {l : Layout} {n : Nat}

/-- A primitive leaves the cells that it does not consume, and one more. -/
theorem yields_apply_after (m : Nat) {p : Prim} (h : l.After n state.layout)
    (hm : m + p.arity = n) :
    Yields (apply p) config state fun _ l' => l.After (m + 1) l' := by
  have hdepth := h.depth
  exact yields_apply (by omega) (h.atDepth (by omega))

theorem yields_fetch_after {name : Ident} (hl : l.WellFormed) (h : l.After n state.layout)
    (hname : l.binds name = true) :
    Yields (fetch name) config state fun _ l' => l.After (n + 1) l' := by
  have hdepth := h.depth
  exact yields_fetch (h.wellFormed hl) (by rw [h.keeps.binds, hname]) (h.atDepth (by omega))

theorem yields_replace_after {name : Ident} (hl : l.WellFormed) (h : l.After (n + 1) state.layout)
    (hname : l.binds name = true) :
    Yields (replace name) config state fun _ l' => l.After n l' :=
  yields_replace (h.wellFormed hl) (h.topFree hl) (by rw [h.keeps.binds, hname])
    fun _ hc => h.settled hl hc

theorem yields_copy (h : l.After (n + 1) state.layout) :
    Yields (do emit (.dup 1); push 1) config state fun _ l' => l.After (n + 2) l' := by
  have hdepth := h.depth
  have hcopied : l.After (n + 2) (state.layout.atDepth (state.layout.depth + 1)) :=
    h.atDepth (by omega)
  exact yields_emit_bind hcopied

/-- A value that is missing is computed in the place of the option. -/
theorem yields_orElse {step : Gen Unit} (h : l.After (n + 1) state.layout)
    (hstep : ∀ ⦃state : State⦄, l.After n state.layout →
      Yields step config state fun _ l' => l.After (n + 1) l') :
    Yields (orElse step) config state fun _ l' => l.After (n + 1) l' := by
  have hdepth := h.depth
  have hpop := (Layout.pop_eq_ok_iff state.layout (n := 1)).mpr ⟨by omega, rfl⟩
  refine .congr layout_bind (yields_sound_bind hpop ?_)
  have hstart : l.After n (state.layout.atDepth (state.layout.depth - 1)) := h.atDepth (by omega)
  have hblock : Yields step config
      { state with layout := state.layout.atDepth (state.layout.depth - 1) } fun _ l' =>
        l.After (n + 1) l' := hstep hstart
  refine hblock.block.bind fun _ s hs => yields_emit ?_
  rw [hs.2]
  exact h

/-- A transfer leaves as many cells as there were. -/
theorem yields_transfer (hl : l.WellFormed) (h : l.After n state.layout) {line : Nat}
    {push : Gen Unit} (hpush : ∀ ⦃state : State⦄, l.After (n + 1) state.layout →
      Yields push config state fun _ l' => l.After (n + 4) l') :
    Yields (transfer line push) config state fun _ l' => l.After n l' := by
  refine .congr layout_bind (yields_unless rfl fun hbound => ?_)
  rw [h.keeps.binds] at hbound
  exact (yields_fetch_after hl h hbound).bind fun _ _ hs => (hpush hs).bind fun _ _ hs =>
    (yields_apply_after (n + 1) hs rfl).bind fun _ _ hs =>
      (yields_apply_after n hs rfl).bind fun _ _ hs => yields_replace_after hl hs hbound

/-- The step runs into no defect on so many cells as there are types, and leaves as many cells as
types. -/
def Counts (config : Config) (l : Layout) : Triple := fun _ t step post =>
  ∀ ⦃state : State⦄, l.After t.length state.layout →
    Yields step config state fun a l' => ∃ u, post a u ∧ l.After u.length l'

/-- That steps run into no defect follows from how many cells there are. -/
theorem tracked_yields (hl : l.WellFormed) :
    Tracked ⟨config.records, l⟩ False True (Counts config l) where
  known := False.elim
  mono h hpost _ hafter := (h hafter).mono fun a l' ⟨u, hu, hl'⟩ => by
    obtain ⟨u', hu', hlength, -⟩ := hpost a u hu
    exact ⟨u', hu', hlength ▸ hl'⟩
  bind h hnext _ hafter := (h hafter).bind fun a _ ⟨u, hu, hs⟩ => hnext a u hu hs
  pure ha _ hafter := yields_pure ⟨_, ha, hafter⟩
  ask h state hafter := .congr scope_bind (h state.layout hafter.keeps.alike hafter)
  typed_bind hsane h _ hafter := yields_typed_bind hsane fun a ha => h a ha hafter
  seen line state hafter := by
    unfold Yields
    rw [seen_apply]
    exact ⟨_, rfl, state.layout_seeing line ▸ hafter⟩
  annotate _ _ hafter := ⟨_, rfl, hafter⟩
  apply args t p _ hargs _ _ _ hafter := by
    rw [List.length_append, hargs, Nat.add_comm] at hafter
    exact (yields_apply_after t.length hafter rfl).mono fun _ _ hl' => ⟨_, rfl, hl'⟩
  fetch hty _ hafter := (yields_fetch_after hl hafter (hl.binds_of_ty? hty)).mono
    fun _ _ hl' => ⟨_, rfl, hl'⟩
  emitName {t _ _} hid _ hafter := by
    refine .congr layout_bind ?_
    rw [hafter.keeps.binds]
    rcases nameType_of_wellFormed hl hid with ⟨hbound, hty⟩ | ⟨hfree, p, hconstant⟩
    · rw [if_pos hbound]
      exact (yields_fetch_after hl hafter hbound).mono fun _ _ hl' => ⟨_, ⟨False.elim, rfl⟩, hl'⟩
    · obtain ⟨-, harity, -, -⟩ := Builtin.typed_of_constant? hconstant
      rw [if_neg (by simp [hfree]), hconstant]
      exact (yields_apply_after t.length hafter (by rw [harity]; rfl)).mono
        fun _ _ hl' => ⟨_, ⟨False.elim, rfl⟩, hl'⟩
  replace hty _ hafter := (yields_replace_after hl hafter (hl.binds_of_ty? hty)).mono
    fun _ _ hl' => ⟨_, rfl, hl'⟩
  copy {t x} _ hafter := (yields_copy hafter).mono fun _ _ hl' => ⟨x :: x :: t, rfl, hl'⟩
  unwrap _ _ hafter := yields_emit ⟨_, rfl, hafter⟩
  exec {t _ r} _ hafter := by
    have hdepth := hafter.depth
    rw [List.length_cons, List.length_cons] at hdepth
    exact yields_emit_bind (yields_pop (by omega)
      ⟨r :: t, rfl, hafter.atDepth (by rw [List.length_cons]; omega)⟩)
  value h hpost _ hafter := by
    have hdepth := hafter.depth
    refine .congr depth_bind ((h hafter).bind fun ty s ⟨u, hu, hs⟩ => .congr depth_bind
      (.ite (fun hone => ?_) fun _ => yields_failAt rfl))
    obtain ⟨u', hu', hlength, -⟩ := hpost ty u hu
    exact yields_pure ⟨u', hu', hs.keeps, by omega⟩
  orElse {t x step} h _ hafter := by
    refine (yields_orElse hafter fun _ hstart => (h hstart).mono ?_).mono
      fun _ _ hl' => ⟨x :: t, rfl, hl'⟩
    rintro _ _ ⟨_, rfl, hl'⟩
    exact hl'
  transfer {t param line push} _ hpush _ hafter := by
    refine (yields_transfer hl hafter fun _ hs => (hpush (param :: t) hs).mono ?_).mono
      fun _ _ hl' => ⟨t, rfl, hl'⟩
    rintro _ _ ⟨_, rfl, hl'⟩
    exact hl'

theorem Counts.yields {α : Type} {step : Gen α} {v : List StackTy}
    (h : Counts config state.layout [] step fun _ u => u = v) :
    Yields step config state fun _ l => state.layout.After v.length l := by
  refine (h (.refl _)).mono ?_
  rintro _ _ ⟨_, rfl, hafter⟩
  exact hafter

end Gen

/-! ## Expressions -/

namespace Expr

open Gen

variable {config : Config} {state : State} {l : Layout} {n : Nat} (e : Expr)

theorem counts_operand (hl : l.WellFormed) :
    e.operand.Tracked ⟨config.records, l⟩ False (Counts config l) :=
  (tracked_yields hl).operand e fun _ => trivial

/-- Compiling an expression leaves at most one cell on top of the named ones, unless it calls `now`
on a value. -/
theorem yields_compile (hl : state.layout.WellFormed) (expected : Option Ty) :
    Yields (e.operand.compile expected) config state fun _ l => state.layout.Keeps l ∧
      (NowOnValue ⟨config.records, state.layout⟩ e ∨ l.depth ≤ state.layout.depth + 1) := by
  refine ((e.counts_operand hl).compile (t := []) (tracked_yields hl) (.refl _)).mono ?_
  rintro _ l ⟨u, ⟨-, -, hu⟩, hafter⟩
  refine ⟨hafter.keeps, ?_⟩
  have hdepth := hafter.depth
  rcases hu with rfl | rfl | ⟨-, hvalue⟩
  · exact .inr (Nat.le_of_eq hdepth)
  · exact .inr (by rw [hdepth, List.length_nil]; omega)
  · exact .inl hvalue

/-- A value is one more cell on top. -/
theorem yields_value (hl : l.WellFormed) (hafter : l.After n state.layout)
    (expected : Option Ty) :
    Yields (e.operand.value expected) config state fun _ l' => l.After (n + 1) l' := by
  have hwf := hafter.wellFormed hl
  refine ((e.counts_operand hwf).value (t := []) (tracked_yields hwf) (.refl _)).mono ?_
  rintro _ l' ⟨_, ⟨-, -, rfl⟩, hone⟩
  rw [Nat.add_comm]
  exact hafter.trans hone

theorem yields_pushAs (hl : l.WellFormed) (hafter : l.After n state.layout) (want : Ty) :
    Yields (e.operand.pushAs want) config state fun _ l' => l.After (n + 1) l' :=
  (e.yields_value hl hafter (some want)).bind fun _ _ hvalue => yields_pure hvalue

end Expr

end Covenant
