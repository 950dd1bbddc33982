import Covenant.Proofs.Gen.Calls
import Covenant.Proofs.TypeSoundness.Leaves

/-!
# Covenant — expressions leave values of their types

An operand is *sound* if its code, emitted at a type that the operand has, leaves one cell of that
type on the stack. There are two exceptions, which the rules that need a value refuse: a transfer
leaves no cell, and `now` called on a value leaves the value as well. What steps leave on a layout
whose types are settled follows the types (`tracked_leaves`), so every expression is sound
(`Expr.sound_operand`).

That emission succeeds also settles the type: a type with unknown parts is refused by whatever would
have to put it into an instruction.
-/

namespace Covenant

open Gen StackTy

/-! ## Steps that expressions are put together from -/

namespace Gen

variable {config : Config} {l : Layout} {s t : List StackTy}

/-- The argument and the closure beneath it make room for the result. -/
theorem leaves_exec {a r : StackTy} :
    Leaves config l s (a :: .lambda a r :: t) (do emit .exec; pop 1) fun _ u => u = r :: t := by
  intro state done hafter hdone
  obtain ⟨-, rfl⟩ := emit_pop_eq_ok_iff.mp hdone
  have hdepth := hafter.depth
  refine ⟨r :: t, rfl, hafter.atDepth ?_, ?_, by simp [AllClosuresTyped, ClosuresTyped]⟩
  · simp only [List.length_cons] at hdepth ⊢
    omega
  · show StackTy.run [.exec] _ = _
    rw [run_singleton]
    simp [StackTy.step]

/-- A copy of the top cell. -/
theorem leaves_copy {x : StackTy} :
    Leaves config l s (x :: t) (do emit (.dup 1); push 1) fun _ u => u = x :: x :: t := by
  intro state done hafter hdone
  obtain ⟨_, hpush, rfl⟩ := emit_bind_eq_ok_iff.mp hdone
  cases hpush
  have hdepth := hafter.depth
  refine ⟨x :: x :: t, rfl, hafter.atDepth ?_, ?_, by simp [AllClosuresTyped, ClosuresTyped]⟩
  · simp only [List.length_cons] at hdepth ⊢
    omega
  · show StackTy.run [.dup 1] _ = _
    rw [run_singleton]
    rfl

/-- The value of an option, or else a default, which is evaluated in the place of the option. -/
theorem leaves_orElse {x : StackTy} {step : Gen Unit}
    (hstep : Leaves config l s t step fun _ u => u = x :: t) :
    Leaves config l s (.option x :: t) (orElse step) fun _ u => u = x :: t := by
  intro state done hafter hdone
  obtain ⟨inner, -, hinner, rfl⟩ := orElse_eq_ok hdone
  have hdepth := hafter.depth
  rw [List.length_cons] at hdepth
  have hstart : l.After t.length (state.layout.atDepth (state.layout.depth - 1)) :=
    hafter.atDepth (by omega)
  obtain ⟨_, rfl, -, hrun, hclosures⟩ := hstep hstart hinner
  refine ⟨x :: t, rfl, hafter, ?_, ?_⟩
  · rw [run_singleton, List.cons_append]
    simp only [StackTy.step, hrun, run_nil, Option.bind_some]
    simp [Flow.join]
  · simp [AllClosuresTyped, ClosuresTyped, hclosures]

/-- A transfer is prepended to the pending operations, which are a list of operations. -/
theorem leaves_transfer (hground : Ground config l s) {param : StackTy} {line : Nat}
    {push : Gen Unit} (hpush : ∀ t, Leaves config l s t push fun _ u =>
      u = param :: Ty.mutez.stack :: .contract param :: t) :
    Leaves config l s t (transfer line push) fun _ u => u = t := by
  refine leaves_layout_bind fun l' hkeeps => .ite (fun hbound => ?_)
    fun _ _ _ _ hdone => absurd hdone failAt_bind_ne_ok
  rw [hkeeps.binds] at hbound
  obtain ⟨c, hc⟩ := hground.wellFormed.cell?_of_binds hbound
  -- the list that the transfer goes into is one of operations
  have hoperations := hground.settled.operations hc
  refine (leaves_fetch hground hc).bind fun _ u hu => ?_
  subst hu
  refine (hpush _).bind fun _ u hu => ?_
  subst hu
  refine Leaves.bind (leaves_apply [param, Ty.mutez.stack, .contract param] rfl (if_pos rfl))
    fun _ u hu => ?_
  subst hu
  rw [hoperations]
  refine Leaves.bind (leaves_apply [Ty.operation.stack, .list Ty.operation.stack] rfl rfl)
    fun _ u hu => ?_
  obtain rfl : u = c.ty.stack :: t := by
    rw [hu, hoperations]
    rfl
  exact leaves_replace hground hc

/-- What steps leave follows the types, if these are settled. -/
theorem tracked_leaves (hground : Ground config l s) :
    Tracked ⟨config.records, l⟩ True True fun _ t step post => Leaves config l s t step post where
  known _ := by
    refine ⟨hground.records, fun hty => ?_⟩
    obtain ⟨slot, hc⟩ := hground.wellFormed.cell?_of_ty? hty
    exact hground.settled.known hc
  mono h hpost := h.mono fun a u hu => by
    obtain ⟨u', hu', -, hsame⟩ := hpost a u hu
    exact hsame trivial ▸ hu'
  bind := Leaves.bind
  pure := leaves_pure
  ask h state done hafter hdone := by
    rw [scope_bind] at hdone
    exact h _ hafter.keeps.alike hafter hdone
  typed_bind _ h state done hafter hdone := by
    obtain ⟨a, ha, hdone⟩ := typed_bind_eq_ok_iff.mp hdone
    exact h a ha hafter hdone
  seen line := leaves_of_silent fun {state done} _ hdone => by
    rw [seen_apply, Except.ok.injEq] at hdone
    subst hdone
    exact ⟨rfl, state.layout_seeing line, rfl⟩
  annotate _ := leaves_annotate
  apply args _ _ _ hargs _ hresult := leaves_apply args hargs (hresult trivial).1
  fetch hty := by
    obtain ⟨slot, hc⟩ := hground.wellFormed.cell?_of_ty? hty
    exact leaves_fetch hground hc
  emitName hid := by
    unfold Pushes
    refine leaves_layout_bind fun l' hkeeps => ?_
    rw [hkeeps.binds]
    rcases nameType_of_wellFormed hground.wellFormed hid with
      ⟨hbound, hty⟩ | ⟨hfree, p, hconstant⟩
    · obtain ⟨slot, hc⟩ := hground.wellFormed.cell?_of_ty? hty
      rw [if_pos hbound]
      exact (leaves_fetch hground hc).mono fun _ _ hu => ⟨fun _ => hground.settled.known hc, hu⟩
    · obtain ⟨hknown, harity, -, hresult⟩ := Builtin.typed_of_constant? hconstant
      rw [if_neg (by simp [hfree]), hconstant]
      exact (leaves_apply [] harity.symm hresult).mono fun _ _ hu => ⟨fun _ => hknown, hu⟩
  replace hty := by
    obtain ⟨slot, hc⟩ := hground.wellFormed.cell?_of_ty? hty
    exact leaves_replace hground hc
  copy := @leaves_copy config l s
  unwrap message := leaves_unwrapOr message
  exec := @leaves_exec config l s
  value {t _ _ _ _} h hpost := by
    refine leaves_depth_bind (h.bind fun ty u hu => leaves_depth_bind (.ite (fun hone => ?_)
      fun _ => leaves_failAt))
    obtain ⟨u', hu', -, hsame⟩ := hpost ty u hu
    exact leaves_pure (hsame trivial (by omega) ▸ hu')
  orElse := leaves_orElse
  transfer _ hpush := leaves_transfer hground hpush

end Gen

/-! ## Operands -/

namespace Operand

/-- Emitting the operand at a type it has leaves a cell of that type, the two exceptions apart. -/
def Sound (o : Operand) : Prop :=
  ∀ ⦃config : Config⦄ ⦃l : Layout⦄ ⦃s : List StackTy⦄, Ground config l s →
    o.Tracked ⟨config.records, l⟩ True fun _ t step post => Leaves config l s t step post

variable {o : Operand} {config : Config} {l : Layout} {s t : List StackTy} {expected : Option Ty}

/-- The two exceptions are left to the rules that need a value. -/
theorem Sound.compile (h : o.Sound) (hground : Ground config l s) :
    Leaves config l s t (o.compile expected) fun ty u => ty.hasUnknown = false ∧
      (u = ty.stack :: t ∨ u = t ∨
        (t.length + 1 < u.length ∧ NowOnValue ⟨config.records, l⟩ o.expr)) :=
  ((h hground).compile (tracked_leaves hground)).mono fun _ _ hu => ⟨hu.2.1 trivial, hu.2.2⟩

/-- A value is one more cell, of the type that the value has. -/
theorem Sound.value (h : o.Sound) (hground : Ground config l s) :
    Leaves config l s t (o.value expected) fun ty u =>
      typeOf ⟨config.records, l⟩ o.expr expected = .ok ty ∧ ty.hasUnknown = false ∧
        u = ty.stack :: t :=
  ((h hground).value (tracked_leaves hground)).mono fun _ _ hu => ⟨hu.1, hu.2.1 trivial, hu.2.2⟩

/-- A value is pushed as one of the type that it has. -/
theorem Sound.pushAs (h : o.Sound) (hground : Ground config l s) {want : Ty}
    (hwant : typeOf ⟨config.records, l⟩ o.expr (some want) = .ok want) :
    Leaves config l s t (o.pushAs want) fun _ u =>
      want.hasUnknown = false ∧ u = want.stack :: t := by
  refine (h.value hground).bind fun ty u hu => leaves_pure ?_
  obtain ⟨hty, hknown, rfl⟩ := hu
  cases hty.symm.trans hwant
  exact ⟨hknown, rfl⟩

end Operand

/-- Every expression is sound. -/
theorem Expr.sound_operand (e : Expr) : e.operand.Sound :=
  fun _ _ _ hground => (tracked_leaves hground).operand e fun _ => trivial

end Covenant
