import Covenant.Proofs.Machine.Values
import Covenant.Proofs.SemanticPreservation.Computes

/-!
# Covenant — steps that do the same further up the stack

An expression may be compiled more than once, with more or fewer cells on top of the variables. The
two codes differ in the distances to the variables and in nothing else.

A `Lift` is a stack under a layout, together with further cells for a second stack. Two codes are
*parallel* (`Lift.Parallel`) if the one does to the top cells of the first stack what the other does
to those of the second, whose bottom is the first stack with the further cells on top of it. Two
steps *shift* (`Lift.Shifts`) if, whenever both succeed, with so many cells on top in the one layout
as in the other, their results are the same and their codes are parallel.
-/

namespace Covenant

open Gen Interpretation

/-! ## Outcomes on top of a stack -/

namespace Outcome

variable {α β : Type}

/-- The outcome with further cells underneath. -/
def atop (o : Outcome α (List β)) (bottom : List β) : Outcome α (List β) :=
  o >>= fun top => .ends (top ++ bottom)

end Outcome

/-! ## Code that works on the top cells -/

namespace Code

variable {α : Type} {I : Interpretation α}

/-- The code looks at the `n` cells on top only, and leaves `m` in their place. -/
def Works (I : Interpretation α) (code : Code) (n m : Nat) : Prop :=
  ∀ x : List (Datum α), x.length = n → ∃ o : Outcome α (List (Datum α)),
    (∀ bottom, I.run code (x ++ bottom) = o.atop bottom) ∧ ∀ y, o = .ends y → y.length = m

theorem works_prim (p : Prim) (n : Nat) : Works I [.prim p] (p.arity + n) (n + 1) := by
  intro x hx
  obtain ⟨args, rest, rfl, hargs, hrest⟩ : ∃ args rest : List (Datum α),
      x = args ++ rest ∧ args.length = p.arity ∧ rest.length = n :=
    ⟨x.take p.arity, x.drop p.arity, (List.take_append_drop _ x).symm,
      by rw [List.length_take]; omega, by rw [List.length_drop]; omega⟩
  refine ⟨I.prim p args >>= fun d => .ends (d :: rest), fun bottom => ?_, fun y hy => ?_⟩
  · rw [run_singleton, List.append_assoc, step_prim args hargs]
    cases I.prim p args <;> rfl
  · obtain ⟨d, -, hd⟩ := Outcome.ends_of_bind hy
    obtain rfl := Outcome.ends.inj hd
    rw [List.length_cons, hrest]

theorem works_exec (n : Nat) : Works I [.exec] (n + 2) (n + 1) := by
  intro x hx
  match x, hx with
  | arg :: func :: rest, hx =>
  refine ⟨.ofExcept (I.call arg func) >>= fun d => .ends (d :: rest), fun bottom => ?_, ?_⟩
  · rw [run_singleton]
    simp only [List.cons_append, step]
    cases I.call arg func <;> rfl
  · intro y hy
    obtain ⟨d, -, hd⟩ := Outcome.ends_of_bind hy
    obtain rfl := Outcome.ends.inj hd
    simpa using hx

theorem works_unwrapOr (message : String) (n : Nat) :
    Works I [unwrapOr message] (n + 1) (n + 1) := by
  intro x hx
  match x, hx with
  | d :: rest, hx =>
  cases d with
  | absent =>
    refine ⟨.aborts (.string message), fun bottom => ?_, fun _ hy => by cases hy⟩
    rw [run_singleton, List.cons_append]
    exact step_unwrapOr message none _
  | present inner =>
    refine ⟨.ends (inner :: rest), fun bottom => ?_, ?_⟩
    · rw [run_singleton, List.cons_append]
      exact step_unwrapOr message (some inner) _
    · rintro y ⟨⟩
      simpa using hx
  | _ =>
    refine ⟨.stuck, fun bottom => ?_, fun _ hy => by cases hy⟩
    rw [run_singleton, List.cons_append]
    simp only [unwrapOr, step]
    rfl

theorem works_notes (config : Config) (note : Note) (n : Nat) :
    Works I (config.notes note) n n := by
  intro x hx
  refine ⟨.ends x, fun bottom => I.run_notes config note _, ?_⟩
  rintro y ⟨⟩
  exact hx

end Code

/-! ## Two stacks -/

/-- A stack under a layout, and the cells that a second stack has in addition. -/
structure Lift (α : Type) where
  I : Interpretation α
  config : Config
  base : Layout
  stack : List (Datum α)
  extra : List (Datum α)
  wellFormed : base.WellFormed
  length : stack.length = base.depth

namespace Lift

variable {α β γ : Type} (L : Lift α)

/-- From the same `n` cells on top, the two codes come to the same end, with `m` cells on top. -/
def Parallel (n m : Nat) (code code' : Code) : Prop :=
  ∀ x : List (Datum α), x.length = n → ∃ o : Outcome α (List (Datum α)),
    L.I.run code (x ++ L.stack) = o.atop L.stack ∧
      L.I.run code' (x ++ (L.extra ++ L.stack)) = o.atop (L.extra ++ L.stack) ∧
      ∀ y, o = .ends y → y.length = m

variable {L} {n m k : Nat} {a a' b b' code code' : Code}

theorem parallel_of_works (h : Code.Works L.I code n m) : L.Parallel n m code code := by
  intro x hx
  obtain ⟨o, hrun, hlength⟩ := h x hx
  exact ⟨o, hrun _, hrun _, hlength⟩

theorem parallel_nil : L.Parallel n n [] [] := by
  intro x hx
  refine ⟨.ends x, L.I.run_nil _, L.I.run_nil _, ?_⟩
  rintro y ⟨⟩
  exact hx

theorem Parallel.append (h : L.Parallel n m a a') (h' : L.Parallel m k b b') :
    L.Parallel n k (a ++ b) (a' ++ b') := by
  intro x hx
  obtain ⟨o, hrun, hrun', hlength⟩ := h x hx
  rw [run_append, run_append, hrun, hrun']
  cases o with
  | stuck => exact ⟨.stuck, rfl, rfl, fun _ hy => by cases hy⟩
  | aborts v => exact ⟨.aborts v, rfl, rfl, fun _ hy => by cases hy⟩
  | ends y => exact h' y (hlength y rfl)

/-- A variable is copied from the same slot. -/
theorem parallel_dup {slot : Nat} (hslot : slot < L.base.depth) :
    L.Parallel n (n + 1) [.dup (L.base.depth + n - slot)]
      [.dup (L.base.depth + (L.extra.length + n) - slot)] := by
  obtain ⟨d, hd⟩ : ∃ d, Stack.atSlot L.stack slot = some d := by
    rw [Stack.atSlot_eq_getElem? (by rw [L.length]; exact hslot)]
    exact ⟨_, List.getElem?_eq_getElem (by have := L.length; omega)⟩
  have hcopy (top : List (Datum α)) :
      L.I.run [.dup (L.base.depth + top.length - slot)] (top ++ L.stack) =
        .ends (d :: (top ++ L.stack)) := by
    rw [run_singleton, ← L.length]
    exact step_dup_atSlot hd (by rw [L.length]; exact hslot) top
  intro x hx
  refine ⟨.ends (d :: x), ?_, ?_, ?_⟩
  · rw [← hx]
    exact hcopy x
  · have hsecond := hcopy (x ++ L.extra)
    rw [List.length_append, hx, Nat.add_comm n, List.append_assoc] at hsecond
    exact hsecond
  · rintro y ⟨⟩
    rw [List.length_cons, hx]

/-- An option gives way to what is in it, or to what the block makes in its place. -/
theorem Parallel.ifNone (h : L.Parallel n (n + 1) code code') :
    L.Parallel (n + 1) (n + 1) [.ifNone code []] [.ifNone code' []] := by
  intro x hx
  match x, hx with
  | d :: rest, hx =>
  simp only [run_singleton, List.cons_append]
  cases d with
  | absent =>
    simp only [step]
    exact h rest (by simpa using hx)
  | present inner =>
    refine ⟨.ends (inner :: rest), ?_, ?_, ?_⟩
    · simp only [step, run_nil]
      rfl
    · simp only [step, run_nil]
      rfl
    · rintro y ⟨⟩
      simpa using hx
  | _ =>
    refine ⟨.stuck, ?_, ?_, fun _ hy => by cases hy⟩
    · simp only [step]
      rfl
    · simp only [step]
      rfl

/-! ## Steps -/

/-- The two runs have the same result, have left `m` cells in place of `n`, and their codes are
parallel. -/
structure Shifted (L : Lift α) (n m : Nat) (done done' : Step β) : Prop where
  result : done'.result = done.result
  after : L.base.After m done.state.layout
  after' : L.base.After (L.extra.length + m) done'.state.layout
  parallel : L.Parallel n m done.code done'.code

/-- If both steps succeed, the second one above the further cells, they do the same. -/
def Shifts (L : Lift α) (n m : Nat) (step step' : Gen β) : Prop :=
  ∀ ⦃state state' : State⦄ ⦃done done' : Step β⦄, L.base.After n state.layout →
    L.base.After (L.extra.length + n) state'.layout → step L.config state = .ok done →
    step' L.config state' = .ok done' → L.Shifted n m done done'

variable {step step' : Gen β} {next next' : β → Gen γ}

theorem Shifts.bind (h : L.Shifts n m step step') (hnext : ∀ b, L.Shifts m k (next b) (next' b)) :
    L.Shifts n k (step >>= next) (step' >>= next') := by
  intro state state' done done' hafter hafter' hdone hdone'
  obtain ⟨first, last, hfirst, hlast, rfl⟩ := bind_eq_ok_iff.mp hdone
  obtain ⟨first', last', hfirst', hlast', rfl⟩ := bind_eq_ok_iff.mp hdone'
  have hboth := h hafter hafter' hfirst hfirst'
  rw [hboth.result] at hlast'
  have hrest := hnext first.result hboth.after hboth.after' hlast hlast'
  exact ⟨hrest.result, hrest.after, hrest.after', hboth.parallel.append hrest.parallel⟩

theorem Shifts.of_fails (h : ∀ config state done, step config state ≠ .ok done) :
    L.Shifts n m step step' :=
  fun _ _ _ _ _ _ hdone _ => absurd hdone (h _ _ _)

theorem shifts_pure (b : β) : L.Shifts n n (pure b) (pure b) := by
  intro state state' done done' hafter hafter' hdone hdone'
  cases hdone
  cases hdone'
  exact ⟨rfl, hafter, hafter', parallel_nil⟩

/-! ### Questions -/

/-- What is asked about the scope has the same answer in both layouts. -/
theorem shifts_scope_bind {next next' : Scope → Gen γ}
    (h : ∀ l l', L.base.Keeps l → L.base.Keeps l' →
      L.Shifts n m (next ⟨L.config.records, l⟩) (next' ⟨L.config.records, l'⟩)) :
    L.Shifts n m (scope >>= next) (scope >>= next') := by
  intro state state' done done' hafter hafter' hdone hdone'
  rw [scope_bind] at hdone hdone'
  exact h _ _ hafter.keeps hafter'.keeps hafter hafter' hdone hdone'

/-! ### Code -/

theorem shifts_emit {i : Instr} (h : Code.Works L.I [i] n n) :
    L.Shifts n n (emit i) (emit i) := by
  intro state state' done done' hafter hafter' hdone hdone'
  obtain rfl := emit_eq_ok_iff.mp hdone
  obtain rfl := emit_eq_ok_iff.mp hdone'
  exact ⟨rfl, hafter, hafter', parallel_of_works h⟩

theorem shifts_annotate (note : Note) : L.Shifts n n (annotate note) (annotate note) := by
  intro state state' done done' hafter hafter' hdone hdone'
  obtain rfl := annotate_eq_ok_iff.mp hdone
  obtain rfl := annotate_eq_ok_iff.mp hdone'
  exact ⟨rfl, hafter, hafter', parallel_of_works (Code.works_notes _ _ n)⟩

/-- A primitive leaves the cells that it does not consume, and one more. -/
theorem shifts_apply (p : Prim) (n : Nat) :
    L.Shifts (n + p.arity) (n + 1) (apply p) (apply p) := by
  intro state state' done done' hafter hafter' hdone hdone'
  obtain ⟨harity, rfl⟩ := apply_eq_ok_iff.mp hdone
  obtain ⟨harity', rfl⟩ := apply_eq_ok_iff.mp hdone'
  have hdepth := hafter.depth
  have hdepth' := hafter'.depth
  refine ⟨rfl, hafter.atDepth (by omega), hafter'.atDepth (by omega), ?_⟩
  rw [Nat.add_comm n]
  exact parallel_of_works (Code.works_prim p n)

theorem shifts_exec (n : Nat) :
    L.Shifts (n + 2) (n + 1) (do emit .exec; pop 1) (do emit .exec; pop 1) := by
  intro state state' done done' hafter hafter' hdone hdone'
  obtain ⟨-, rfl⟩ := emit_pop_eq_ok_iff.mp hdone
  obtain ⟨-, rfl⟩ := emit_pop_eq_ok_iff.mp hdone'
  have hdepth := hafter.depth
  have hdepth' := hafter'.depth
  exact ⟨rfl, hafter.atDepth (by omega), hafter'.atDepth (by omega),
    parallel_of_works (Code.works_exec n)⟩

theorem shifts_fetch (name : Ident) : L.Shifts n (n + 1) (fetch name) (fetch name) := by
  intro state state' done done' hafter hafter' hdone hdone'
  obtain ⟨slot, hslot, -, rfl⟩ := fetch_eq_ok_iff.mp hdone
  obtain ⟨slot', hslot', -, rfl⟩ := fetch_eq_ok_iff.mp hdone'
  rw [hafter.keeps.slots] at hslot
  rw [hafter'.keeps.slots] at hslot'
  cases hslot.symm.trans hslot'
  have hdepth := hafter.depth
  have hdepth' := hafter'.depth
  refine ⟨rfl, hafter.atDepth (by omega), hafter'.atDepth (by omega), ?_⟩
  refine (parallel_of_works (Code.works_notes _ _ n)).append ?_
  rw [hdepth, hdepth']
  exact parallel_dup (L.wellFormed.slots_below hslot)

end Lift

end Covenant
