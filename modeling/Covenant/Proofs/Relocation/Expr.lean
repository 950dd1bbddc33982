import Covenant.Proofs.Gen.Counted
import Covenant.Proofs.Relocation.Gen

/-!
# Covenant — expressions further up the stack

The steps that expressions are put together from shift, and so does every operand that leaves one
cell (`Expr.shifts_operand`). What an expression evaluates to on one stack, it evaluates to on every
stack that has more cells on top of the same variables (`Interpretation.Pushes.above`).
-/

namespace Covenant

open Gen Lift

variable {α : Type} {L : Lift α} {n : Nat}

/-! ## The steps of expressions -/

namespace Lift

theorem shifts_seen (line : Nat) : L.Shifts n n (seen line) (seen line) := by
  intro state state' done done' hafter hafter' hdone hdone'
  rw [seen_apply, Except.ok.injEq] at hdone hdone'
  subst hdone hdone'
  exact ⟨rfl, by rwa [State.layout_seeing], by rwa [State.layout_seeing], parallel_nil⟩

/-- The block for a missing value runs without the option. -/
theorem shifts_orElse {step : Gen Unit} (h : L.Shifts n (n + 1) step step) :
    L.Shifts (n + 1) (n + 1) (orElse step) (orElse step) := by
  intro state state' done done' hafter hafter' hdone hdone'
  obtain ⟨inner, -, hinner, rfl⟩ := orElse_eq_ok hdone
  obtain ⟨inner', -, hinner', rfl⟩ := orElse_eq_ok hdone'
  have hdepth := hafter.depth
  have hdepth' := hafter'.depth
  have hinside : L.base.After n (state.layout.atDepth (state.layout.depth - 1)) :=
    hafter.atDepth (by omega)
  have hinside' : L.base.After (L.extra.length + n)
      (state'.layout.atDepth (state'.layout.depth - 1)) := hafter'.atDepth (by omega)
  have hboth := h hinside hinside' hinner hinner'
  exact ⟨rfl, hafter, hafter', hboth.parallel.ifNone⟩

/-- The steps that expressions are put together from do the same on both stacks. -/
theorem counted_shifts (L : Lift α) : Counted fun _ n m step => L.Shifts n m step step where
  bind h hnext := h.bind hnext
  narrow hwider h _ _ _ _ hafter hafter' hdone hdone' :=
    h hafter hafter' (hwider _ _ _ hdone) (hwider _ _ _ hdone')
  fails h := .of_fails h
  pure b := shifts_pure b
  ask hsame h := by
    refine shifts_scope_bind fun l l' hkeeps hkeeps' => ?_
    rw [hsame _ _ _ hkeeps, hsame _ _ _ hkeeps']
    exact h _
  seen := shifts_seen
  annotate := shifts_annotate
  apply n p _ := shifts_apply p n
  fetch := shifts_fetch
  unwrap n message := shifts_emit (Code.works_unwrapOr message n)
  exec := shifts_exec
  orElse := shifts_orElse

end Lift

/-- Where the operand leaves one cell, on both stacks, it does the same there. -/
def Operand.Shifts (L : Lift α) (o : Operand) : Prop :=
  o.Meets fun _ n m step => L.Shifts n m step step

theorem Operand.Shifts.pushAs {o : Operand} (h : o.Shifts L) (want : Ty) :
    L.Shifts n (n + 1) (o.pushAs want) (o.pushAs want) :=
  Meets.pushAs h (counted_shifts L) want n

theorem Expr.shifts_operand (e : Expr) : e.operand.Shifts L := (counted_shifts L).operand e

/-! ## Evaluation -/

namespace Interpretation

/-- On the stack of a layout, the code of the operand pushes a value of the type that is wanted. -/
def Pushes (I : Interpretation α) (config : Config) (l : Layout) (s : List (Datum α))
    (o : Operand) (want : Ty) (d : Datum α) : Prop :=
  I.Has want d ∧ ∃ line done, o.pushAs want config ⟨l, line⟩ = .ok done ∧
    I.run done.code s = .ends (d :: s)

variable {I : Interpretation α} {config : Config} {l : Layout} {s : List (Datum α)} {want : Ty}
  {d : Datum α}

/-- With more cells on top the code of an operand comes to the same end. -/
theorem run_above {o : Operand} (ho : ∀ L : Lift α, o.Shifts L) (hl : l.WellFormed)
    (hlength : s.length = l.depth) {line : Nat} {first done : Step Unit}
    (hfirst : o.pushAs want config ⟨l, line⟩ = .ok first) {t : List (Datum α)} {state : State}
    (hafter : l.After t.length state.layout) (hdone : o.pushAs want config state = .ok done) :
    l.After (t.length + 1) done.state.layout ∧ ∃ x : Outcome α (Datum α),
      (I.run first.code s = x >>= fun d => .ends (d :: s)) ∧
        I.run done.code (t ++ s) = x >>= fun d => .ends (d :: (t ++ s)) := by
  let L : Lift α := ⟨I, config, l, s, t, hl, hlength⟩
  have hboth : L.Shifted 0 1 first done :=
    (ho L).pushAs want (Layout.After.refl l) hafter hfirst hdone
  obtain ⟨o, hbelow, habove, hone⟩ := hboth.parallel [] rfl
  refine ⟨hboth.after', ?_⟩
  cases o with
  | stuck => exact ⟨.stuck, hbelow, habove⟩
  | aborts v => exact ⟨.aborts v, hbelow, habove⟩
  | ends top =>
    obtain ⟨d, rfl⟩ := List.length_eq_one_iff.mp (hone top rfl)
    exact ⟨.ends d, hbelow, habove⟩

/-- With more cells on top the code pushes the same value. -/
theorem Pushes.above {o : Operand} (h : I.Pushes config l s o want d)
    (ho : ∀ L : Lift α, o.Shifts L) (hl : l.WellFormed) (hlength : s.length = l.depth)
    {t : List (Datum α)} {state : State} {done : Step Unit} (hafter : l.After t.length state.layout)
    (hdone : o.pushAs want config state = .ok done) :
    I.run done.code (t ++ s) = .ends (d :: (t ++ s)) ∧
      l.After (t.length + 1) done.state.layout := by
  obtain ⟨-, line, first, hfirst, hrun⟩ := h
  obtain ⟨hend, x, hbelow, habove⟩ := run_above ho hl hlength hfirst hafter hdone
  obtain ⟨d', rfl, hd⟩ := Outcome.ends_of_bind (hbelow.symm.trans hrun)
  obtain ⟨rfl, -⟩ := List.cons.inj (Outcome.ends.inj hd)
  exact ⟨habove, hend⟩

end Interpretation

end Covenant
