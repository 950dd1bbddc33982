import Covenant.Proofs.Machine.Execution

/-!
# Covenant — counting cells

The simplest view of a program of the stack machine: how many cells are on the stack. `Depth.run`
follows a block from a depth and answers with the depth at its end, or says that the block aborts.
It has no answer if some instruction reaches below the stack, if two branches that both go on
disagree, if a loop body leaves more or less than it found beneath its element, or if a closure
does not turn its argument into one result.

* `Depth.run_append` — a block followed by another one;
* `Depth.run_raise` — cells underneath the whole run do not matter;
* `Depth.run_of_diverges` — code that diverges has no depth at its end.
-/

namespace Covenant

namespace Depth

variable {code a b : Code} {d d' : Nat}

/-- How a block ends: it aborts, or control goes on with some number of cells. -/
inductive Flow where
  | aborts
  | ends (depth : Nat)
  deriving DecidableEq

/-- The end of a branch. Blocks that abort have no say; those that go on have to agree. -/
def Flow.join : Flow → Flow → Option Flow
  | .aborts, flow => some flow
  | .ends a, .aborts => some (.ends a)
  | .ends a, .ends b => if a = b then some (.ends a) else none

/-- The same end with more cells underneath. -/
def Flow.raise (n : Nat) : Flow → Flow
  | .aborts => .aborts
  | .ends d => .ends (d + n)

/-- The end of an instruction that needs some number of cells. -/
def needing (n d : Nat) (flow : Flow) : Option Flow := if n ≤ d then some flow else none

mutual

/-- What one instruction does to the depth. -/
def step : Instr → Nat → Option Flow
  | .prim p, d => if p = .pair 0 then none else needing p.arity d (.ends (d - p.arity + 1))
  | .dup n, d => if n = 0 then none else needing n d (.ends (d + 1))
  | .dig n, d | .dug n, d => needing (n + 1) d (.ends d)
  | .dip n body, d =>
    if n ≤ d then (run body (d - n)).map (Flow.raise n) else none
  | .drop, d => needing 1 d (.ends (d - 1))
  | .swap, d => needing 2 d (.ends d)
  | .unpair, d => needing 1 d (.ends (d + 1))
  | .ifElse onTrue onFalse, d =>
    match d with
    | 0 => none
    | d + 1 => (run onTrue d).bind fun a => (run onFalse d).bind fun b => a.join b
  | .ifNone onNone onSome, d =>
    match d with
    | 0 => none
    | d + 1 => (run onNone d).bind fun a => (run onSome (d + 1)).bind fun b => a.join b
  | .iter body, d =>
    match d with
    | 0 => none
    | d + 1 => (run body (d + 1)).bind fun a => a.join (.ends d)
  | .lambda _ _ body, d => (run body 1).bind fun a => (a.join (.ends 1)).map fun _ => .ends (d + 1)
  | .exec, d => needing 2 d (.ends (d - 1))
  | .failwith, d => needing 1 d .aborts
  | .note _, d => some (.ends d)

/-- What a block does to the depth. What stands behind an abort is not looked at. -/
def run : Code → Nat → Option Flow
  | [], d => some (.ends d)
  | i :: rest, d =>
    match step i d with
    | some (.ends e) => run rest e
    | other => other

end

/-! ## Blocks in sequence -/

@[simp] theorem run_nil (d : Nat) : run [] d = some (.ends d) := rfl

theorem run_cons_ends {i : Instr} {rest : Code} {d e : Nat} (h : step i d = some (.ends e)) :
    run (i :: rest) d = run rest e := by
  show (match step i d with | some (.ends e) => run rest e | other => other) = _
  rw [h]

theorem run_cons_aborts {i : Instr} {rest : Code} {d : Nat} (h : step i d = some .aborts) :
    run (i :: rest) d = some .aborts := by
  show (match step i d with | some (.ends e) => run rest e | other => other) = _
  rw [h]

theorem run_singleton (i : Instr) (d : Nat) : run [i] d = step i d := by
  show (match step i d with | some (.ends e) => run [] e | other => other) = _
  rcases step i d with _ | _ | _ <;> rfl

/-- A block followed by another one goes on where the first one ends, if it does. -/
theorem run_append (a b : Code) (d : Nat) :
    run (a ++ b) d =
      match run a d with
      | some (.ends e) => run b e
      | other => other := by
  induction a generalizing d with
  | nil => simp
  | cons i rest ih =>
    rw [List.cons_append, run, run]
    cases hstep : step i d with
    | none => rfl
    | some flow =>
      cases flow with
      | aborts => rfl
      | ends e => exact ih e

theorem run_append_ends {d e : Nat} (h : run a d = some (.ends e)) : run (a ++ b) d = run b e := by
  rw [run_append, h]

theorem run_append_aborts {d : Nat} (h : run a d = some .aborts) :
    run (a ++ b) d = some .aborts := by
  rw [run_append, h]

/-! ## More cells underneath -/

theorem needing_eq_some {n d : Nat} {flow flow' : Flow} (h : needing n d flow = some flow') :
    n ≤ d ∧ flow' = flow := by
  unfold needing at h
  split at h
  · next hle => exact ⟨hle, (Option.some.inj h).symm⟩
  · simp at h

/-- A branch ends like one of its blocks, and like every one that goes on. -/
theorem of_join {a b flow : Flow} (h : a.join b = some flow) :
    (a = .aborts ∨ a = flow) ∧ (b = .aborts ∨ b = flow) ∧ (a = flow ∨ b = flow) := by
  cases a <;> cases b <;> grind [Flow.join]

theorem join_raise {a b flow : Flow} (k : Nat) (h : a.join b = some flow) :
    (a.raise k).join (b.raise k) = some (flow.raise k) := by
  cases a <;> cases b <;> grind [Flow.join, Flow.raise]

mutual

theorem step_raise (k : Nat) : ∀ (i : Instr) {d : Nat} {flow : Flow},
    step i d = some flow → step i (d + k) = some (flow.raise k)
  | .dip n body, d, flow, h => by
    simp only [step] at h ⊢
    split at h
    · next hle =>
      obtain ⟨inner, hinner, rfl⟩ := Option.map_eq_some_iff.mp h
      have hbody := run_raise k body hinner
      rw [if_pos (by omega), show d + k - n = d - n + k by omega, hbody]
      cases inner with
      | aborts => rfl
      | ends e => simp [Flow.raise, show e + k + n = e + n + k by omega]
    · simp at h
  | .ifElse first second, d + 1, flow, h | .ifNone first second, d + 1, flow, h => by
    simp only [step, Option.bind_eq_some_iff] at h
    obtain ⟨a, ha, b, hb, hjoin⟩ := h
    have ha := run_raise k first ha
    have hb := run_raise k second hb
    rw [Nat.add_right_comm d 1 k] at *
    simp only [step, ha, hb, Option.bind_some]
    exact join_raise k hjoin
  | .iter body, d + 1, flow, h => by
    simp only [step, Option.bind_eq_some_iff] at h
    obtain ⟨a, ha, hjoin⟩ := h
    have ha := run_raise k body ha
    rw [Nat.add_right_comm] at ha ⊢
    simp only [step, ha, Option.bind_some]
    exact join_raise k hjoin
  | .ifElse .., 0, _, h | .ifNone .., 0, _, h | .iter _, 0, _, h => by simp [step] at h
  | .lambda _ _ body, d, flow, h => by
    simp only [step, Option.bind_eq_some_iff, Option.map_eq_some_iff] at h
    obtain ⟨a, ha, b, hb, rfl⟩ := h
    simp [step, ha, hb, Flow.raise, Nat.add_right_comm]
  -- instructions without blocks
  | .prim _, d, flow, h | .dup _, d, flow, h | .dig _, d, flow, h | .dug _, d, flow, h
  | .drop, d, flow, h | .swap, d, flow, h | .unpair, d, flow, h | .exec, d, flow, h
  | .failwith, d, flow, h | .note _, d, flow, h => by
    simp only [step, needing] at h ⊢
    grind [Flow.raise]

/-- A run does not notice cells underneath the ones it starts from. -/
theorem run_raise (k : Nat) : ∀ (code : Code) {d : Nat} {flow : Flow},
    run code d = some flow → run code (d + k) = some (flow.raise k)
  | [], d, flow, h => by
    rw [run_nil, Option.some.injEq] at h
    subst h
    simp [Flow.raise]
  | i :: rest, d, flow, h => by
    rw [run] at h
    split at h
    · next e hstep =>
      rw [run_cons_ends (step_raise k i hstep)]
      exact run_raise k rest h
    · next other hother =>
      cases hflow : flow with
      | ends e => exact absurd (hflow ▸ h) (hother e)
      | aborts => exact run_cons_aborts (step_raise k i (hflow ▸ h))

end

/-! ## Code that diverges -/

/-- Where a run ends at a depth. -/
def endings : Endings Nat where
  step i d e := step i d = some (.ends e)
  run code d e := run code d = some (.ends e)
  run_cons {i rest d e} h := by
    rw [run] at h
    split at h
    · next u hstep => exact ⟨u, hstep, h⟩
    · next hother => exact absurd h (hother e)
  failwith {d e} h := by
    simp only [step] at h
    exact absurd (needing_eq_some h).2 (by simp)
  ifElse {a b d e} h := by
    cases d with
    | zero => simp [step] at h
    | succ d =>
      simp only [step, Option.bind_eq_some_iff] at h
      obtain ⟨x, hx, y, hy, hjoin⟩ := h
      obtain ⟨-, -, rfl | rfl⟩ := of_join hjoin
      · exact ⟨d, e, .inl hx⟩
      · exact ⟨d, e, .inr hy⟩
  ifNone {a b d e} h := by
    cases d with
    | zero => simp [step] at h
    | succ d =>
      simp only [step, Option.bind_eq_some_iff] at h
      obtain ⟨x, hx, y, hy, hjoin⟩ := h
      obtain ⟨-, -, rfl | rfl⟩ := of_join hjoin
      · exact ⟨d, e, .inl hx⟩
      · exact ⟨d + 1, e, .inr hy⟩

/-- If code diverges and its run has an answer, the answer is that it aborts. -/
theorem run_of_diverges (code : Code) {d : Nat} {flow : Flow} (hdiv : diverges code = true)
    (h : run code d = some flow) : flow = .aborts := by
  cases flow with
  | aborts => rfl
  | ends e => exact absurd h (endings.not_run code hdiv)

/-! ## Balance -/

/-- The code goes from one depth to another: its run aborts, or ends at exactly that depth. -/
def Balanced (code : Code) (d d' : Nat) : Prop :=
  run code d = some .aborts ∨ run code d = some (.ends d')

theorem Balanced.of_ends (h : run code d = some (.ends d')) : Balanced code d d' := .inr h

theorem Balanced.nil (d : Nat) : Balanced [] d d := .of_ends (run_nil d)

theorem Balanced.append {d e f : Nat} (ha : Balanced a d e) (hb : Balanced b e f) :
    Balanced (a ++ b) d f := by
  rcases ha with ha | ha
  · exact .inl (run_append_aborts ha)
  · rw [Balanced, run_append_ends ha]
    exact hb

/-- A diverging block is balanced between any two depths, if it is balanced at all. -/
theorem Balanced.of_diverges (h : Balanced code d d') (hdiv : diverges code = true) :
    run code d = some .aborts := by
  rcases h with h | h
  · exact h
  · exact absurd (run_of_diverges code hdiv h) (by simp)

theorem Balanced.raise (h : Balanced code d d') (k : Nat) :
    Balanced code (d + k) (d' + k) := by
  rcases h with h | h
  · exact .inl (run_raise k code h)
  · exact .inr (run_raise k code h)

end Depth

end Covenant
