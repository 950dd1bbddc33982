import Covenant.Proofs.Gen.Calls
import Covenant.Proofs.Gen.Steady
import Covenant.Proofs.Transactions.Gen

/-!
# Covenant — transactions in expressions

An expression calls `transaction` in the eyes of the scan if a call of this name stands in it
anywhere. The generator comes upon a transaction where a called expression denotes the built-in one,
and only the name `transaction` does. As every expression that is compiled on the way is a part that
the scan has seen too, the code of an expression heeds the scan (`Expr.heeds_compile`). The rules of
expressions are gone through on top of one layout (`tracked_foretells`), as they start from what
names mean there.
-/

namespace Covenant

namespace Gen

open Layout (operationsName)

variable {α β : Type} {C : Prop} {config : Config} {l : Layout} {t : List StackTy} {step : Gen α}

/-- Where names mean what they do on the layout, the step is foretold and leaves them so. -/
def Foretells (C : Prop) (config : Config) (l : Layout) : Triple := fun _ _ step post =>
  ∀ ⦃state : State⦄, l.Alike state.layout → ForetoldAt C l (step config state) ∧
    ∀ ⦃done⦄, step config state = .ok done → l.Alike done.state.layout ∧ ∃ u, post done.result u

theorem Heeds.foretells {post : α → List StackTy → Prop} (h : Heeds C step) (hsteady : Steady step)
    (hpost : ∀ ⦃state done⦄, step config state = .ok done → ∃ u, post done.result u) :
    Foretells C config l t step post := by
  intro state hlike
  refine ⟨(h.foretold config state).mono id fun hbinds => ?_, fun done hdone => ?_⟩
  · rwa [hlike.binds]
  · exact ⟨hlike.trans (hsteady hdone), hpost hdone⟩

/-- A property of runs from one layout is a property of all runs. -/
theorem heeds_of_foretells {post : Config → Layout → α → List StackTy → Prop}
    (h : ∀ config l, Foretells C config l t step (post config l)) : Heeds C step where
  foretold config state := (h config state.layout (.refl _)).1
  keeps config state _ hdone hbinds := by
    rw [((h config state.layout (.refl _)).2 hdone).1.binds, hbinds]

theorem Foretells.bind {next : α → Gen β} {post : α → List StackTy → Prop}
    {post' : β → List StackTy → Prop} (h : Foretells C config l t step post)
    (hnext : ∀ a u, post a u → Foretells C config l u (next a) post') :
    Foretells C config l t (step >>= next) post' := by
  intro state hlike
  obtain ⟨hforetold, hdone⟩ := h hlike
  constructor
  · refine hforetold.bind fun first hfirst => ?_
    obtain ⟨hlike, u, hu⟩ := hdone hfirst
    exact (hnext _ u hu hlike).1
  · intro done hrun
    obtain ⟨first, last, hfirst, hlast, rfl⟩ := bind_eq_ok_iff.mp hrun
    obtain ⟨hlike, u, hu⟩ := hdone hfirst
    have hend := (hnext _ u hu hlike).2 hlast
    exact hend

/-- A variable is copied, and no constant is a transfer. -/
theorem heeds_emitName (id : Ident) : Heeds C (emitName id) := by
  refine heeds_layout.bind fun l => .ite (heeds_fetch id) ?_
  split
  · next p hconstant =>
    have hplain := (Builtin.typed_of_constant? hconstant).2.2.1
    exact heeds_apply fun h => absurd h (Prim.of_isPlain hplain).2
  · exact heeds_defect _

/-- A default is compiled where the names are those around it. -/
theorem foretells_orElse {x : StackTy} {step : Gen Unit}
    (h : Foretells C config l t step fun _ u => u = x :: t) :
    Foretells C config l (.option x :: t) (orElse step) fun _ u => u = x :: t := by
  intro state hlike
  constructor
  · rw [orElse, layout_bind]
    refine foretoldAt_sound_bind fun start hstart => ?_
    obtain ⟨-, rfl⟩ := (Layout.pop_eq_ok_iff _).mp hstart
    have hstart : l.Alike (state.layout.atDepth (state.layout.depth - 1)) :=
      hlike.trans (Layout.alike_atDepth _ _)
    have hblock : ForetoldAt C l
        (step config { state with layout := state.layout.atDepth (state.layout.depth - 1) }) :=
      (h hstart).1
    refine hblock.block fun inner hinner => ?_
    show transfers [.ifNone inner.code []] = true → C
    simpa [Instr.transfers] using hinner
  · intro done hdone
    obtain ⟨inner, -, -, rfl⟩ := orElse_eq_ok hdone
    exact ⟨hlike, _, rfl⟩

/-- A transfer fulfils the condition, and is refused only if there is no list of pending
operations. -/
theorem foretells_transfer (hC : C) {param : StackTy} {line : Nat} {push : Gen Unit}
    (hpush : ∀ t, Foretells C config l t push fun _ u =>
      u = param :: Ty.mutez.stack :: .contract param :: t) :
    Foretells C config l t (transfer line push) fun _ u => u = t := by
  have hstep {step : Gen Unit} (h : Heeds C step) (hsteady : Steady step) {t u : List StackTy} :
      Foretells C config l t step fun _ u' => u' = u :=
    h.foretells hsteady fun _ _ _ => ⟨u, rfl⟩
  have hrest : Foretells C config l t (do
      fetch operationsName
      push
      apply .transferTokens
      apply .cons
      replace operationsName) fun _ u => u = t :=
    (hstep (heeds_fetch _) (steady_fetch _)).bind fun _ _ hu => hu ▸ (hpush t).bind fun _ _ _ =>
      (hstep (u := t) (heeds_apply fun _ => hC) (steady_apply _)).bind fun _ _ _ =>
        (hstep (u := t) (heeds_apply (by simp)) (steady_apply _)).bind fun _ _ _ =>
          hstep (heeds_replace _) (steady_replace _)
  intro state hlike
  rw [transfer, layout_bind]
  split
  · exact hrest hlike
  · next hnone =>
    refine ⟨fun _ => ⟨hC, ?_⟩, fun done hdone => ?_⟩
    · rw [← hlike.binds]
      exact Bool.eq_false_iff.mpr hnone
    · obtain ⟨_, _, hfail, -, -⟩ := bind_eq_ok_iff.mp hdone
      exact absurd hfail failAt_ne_ok

/-- That transfers are foretold follows from what names mean on one layout. -/
theorem tracked_foretells : Tracked ⟨config.records, l⟩ False C (Foretells C config l) where
  known := False.elim
  mono h hpost _ hlike := by
    refine ⟨(h hlike).1, fun done hdone => ?_⟩
    obtain ⟨hlike, u, hu⟩ := (h hlike).2 hdone
    obtain ⟨u', hu', -, -⟩ := hpost _ u hu
    exact ⟨hlike, u', hu'⟩
  bind := Foretells.bind
  pure {_ _ a _} ha := (heeds_pure a).foretells (closed_steady.pure a) fun _ _ hdone => by
    cases hdone
    exact ⟨_, ha⟩
  ask h state hlike := by
    rw [scope_bind]
    exact h state.layout hlike hlike
  typed_bind {_ _ t outcome _ _} hsane h := by
    have htyped : Foretells C config l t (typed outcome) fun a u => outcome = .ok a ∧ u = t :=
      (heeds_typed hsane).foretells (closed_steady.typed outcome) fun _ _ hdone => by
        obtain ⟨a, ha, rfl⟩ := typed_eq_ok_iff.mp hdone
        exact ⟨t, ha, rfl⟩
    exact htyped.bind fun a u hu => hu.2 ▸ h a hu.1
  seen line := (heeds_seen line).foretells (closed_steady.seen line) fun _ _ _ => ⟨_, rfl⟩
  annotate n := (heeds_annotate n).foretells (steady_annotate n) fun _ _ _ => ⟨_, rfl⟩
  apply _ _ _ _ _ hp _ := (heeds_apply fun h => absurd h hp).foretells (steady_apply _)
    fun _ _ _ => ⟨_, rfl⟩
  fetch _ := (heeds_fetch _).foretells (steady_fetch _) fun _ _ _ => ⟨_, rfl⟩
  emitName {_ id _} hid := by
    refine (heeds_emitName id).foretells (closed_steady.counted.emitName (n := 0) id)
      fun _ _ _ => ⟨_, False.elim, rfl⟩
  replace _ := (heeds_replace _).foretells (steady_replace _) fun _ _ _ => ⟨_, rfl⟩
  copy := by
    intro t x
    exact ((heeds_emit (by simp [Instr.transfers])).bind fun _ => heeds_push 1).foretells
      ((steady_emit _).bind fun _ => steady_push 1) fun _ _ _ => ⟨x :: x :: t, rfl⟩
  unwrap message := (heeds_emit (by simp)).foretells (steady_emit _) fun _ _ _ => ⟨_, rfl⟩
  exec := by
    intro t _ r
    exact ((heeds_emit (by simp [Instr.transfers])).bind fun _ => heeds_pop 1).foretells
      ((steady_emit _).bind fun _ => steady_pop 1) fun _ _ _ => ⟨r :: t, rfl⟩
  value {t o expected post post'} h hpost := by
    have hdepth {u : List StackTy} : Foretells C config l u depth fun _ u' => u' = u :=
      heeds_depth.foretells closed_steady.depth fun _ _ _ => ⟨u, rfl⟩
    refine hdepth.bind fun before u hu => hu ▸ h.bind fun ty u hu => hdepth.bind fun _ _ hsame => ?_
    obtain ⟨u', hu', -, -⟩ := hpost ty u hu
    split
    · exact (heeds_pure ty).foretells (closed_steady.pure ty) fun _ _ hdone => by
        cases hdone
        exact ⟨u', hu'⟩
    · exact (heeds_failAt rfl).foretells (closed_steady.failAt _ _)
        fun _ _ hdone => absurd hdone failAt_ne_ok
  orElse := foretells_orElse
  transfer hC hpush := foretells_transfer hC hpush

end Gen

/-! ## Expressions -/

namespace Expr

open Gen

variable {C : Prop}

section

variable (e : Expr) (hC : e.callsTransaction = true → C)
include hC

theorem foretells_operand (config : Config) (l : Layout) :
    e.operand.Tracked ⟨config.records, l⟩ False (Foretells C config l) :=
  tracked_foretells.operand e hC

/-- The code of an expression heeds what the scan says of it. -/
theorem heeds_compile (expected : Option Ty) : Heeds C (e.operand.compile expected) :=
  heeds_of_foretells (t := []) fun config l =>
    (e.foretells_operand hC config l).compile tracked_foretells

theorem heeds_value (expected : Option Ty) : Heeds C (e.operand.value expected) :=
  heeds_depth.bind fun _ => (e.heeds_compile hC expected).bind fun _ => heeds_depth.bind fun _ =>
    .ite (heeds_pure _) (heeds_failAt rfl)

theorem heeds_pushAs (want : Ty) : Heeds C (e.operand.pushAs want) :=
  (e.heeds_value hC _).bind fun _ => heeds_pure _

end

end Expr

end Covenant
