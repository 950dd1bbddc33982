import Covenant.Proofs.MapLiterals

/-!
# Covenant — connectives evaluate all their operands

`BoolOp.shortCircuit` is the evaluation of `and` and `or` that stops as soon as an operand decides: a
false one for `and`, a true one for `or`. The code of a connective does not stop. It pushes one operand
after the other and combines them (`BoolOp.combineAll`), so it aborts wherever some operand aborts, also
one that need not have been looked at (`connective_runs_every_operand`): the test `k in m` does not
guard `m[k]` in `k in m and m[k] > 0` (`membership_does_not_guard`).

If no operand aborts, both give the same boolean. They agree just if no operand aborts behind one that
decides.

What an operand comes to is given by its own code on the stack of the variables
(`Interpretation.Answers`). In the code of a connective it runs above the boolean that has been found
so far, and comes to the same (`Interpretation.run_above`).
-/

namespace Covenant

open Gen Outcome

variable {α : Type}

/-! ## Two ways to evaluate -/

namespace BoolOp

/-- What the operands come to if evaluation stops at the first one that decides. -/
def shortCircuit (op : BoolOp) : List (Outcome α Bool) → Outcome α Bool
  | [] => .ends op.neutral
  | x :: rest => do
    let b ← x
    if b = op.neutral then shortCircuit op rest else return b

/-- What a boolean and operands come to if all of them are evaluated. -/
def combineAll (op : BoolOp) : Bool → List (Outcome α Bool) → Outcome α Bool
  | b, [] => .ends b
  | b, x :: rest => do combineAll op (op.combine b (← x)) rest

/-- One of the operands decides, and those in front of it are neutral. -/
def Decides (op : BoolOp) (operands : List (Outcome α Bool)) : Prop :=
  ∃ before b after, operands = before ++ .ends b :: after ∧ b ≠ op.neutral ∧
    ∀ x ∈ before, x = .ends op.neutral

variable {op : BoolOp} {b c : Bool} {x : Outcome α Bool} {rest operands : List (Outcome α Bool)}

theorem decides_cons_iff : op.Decides (x :: rest) ↔
    (∃ b, x = .ends b ∧ b ≠ op.neutral) ∨ x = .ends op.neutral ∧ op.Decides rest := by
  constructor
  · rintro ⟨before, b, after, heq, hb, hbefore⟩
    cases before with
    | nil => exact .inl ⟨b, (List.cons.inj heq).1, hb⟩
    | cons y before =>
      obtain ⟨rfl, rfl⟩ := List.cons.inj heq
      obtain ⟨hx, hbefore⟩ := List.forall_mem_cons.mp hbefore
      exact .inr ⟨hx, before, b, after, rfl, hb, hbefore⟩
  · rintro (⟨b, rfl, hb⟩ | ⟨rfl, before, b, after, rfl, hb, hbefore⟩)
    · exact ⟨[], b, rest, rfl, hb, by simp⟩
    · exact ⟨.ends op.neutral :: before, b, after, rfl, hb, List.forall_mem_cons.mpr ⟨rfl, hbefore⟩⟩

/-- Evaluation of all operands ends just if all of them do. -/
theorem combineAll_ends_iff :
    (∃ c, op.combineAll b operands = .ends c) ↔ ∀ x ∈ operands, ∃ c, x = .ends c := by
  induction operands generalizing b with
  | nil => simp [combineAll]
  | cons x rest ih =>
    rw [List.forall_mem_cons]
    cases x with
    | ends c => simp [combineAll, ih]
    | _ => simp [combineAll]

/-- It aborts with the value of the first operand that does. -/
theorem combineAll_aborts_iff {v : Datum α} : op.combineAll b operands = .aborts v ↔
    ∃ before after, operands = before ++ .aborts v :: after ∧ ∀ x ∈ before, ∃ c, x = .ends c := by
  induction operands generalizing b with
  | nil => simp [combineAll]
  | cons x rest ih =>
    constructor
    · intro h
      cases x with
      | stuck => simp [combineAll] at h
      | aborts w =>
        obtain rfl : w = v := by simpa [combineAll] using h
        exact ⟨[], rest, rfl, by simp⟩
      | ends c =>
        obtain ⟨before, after, rfl, hbefore⟩ := ih.mp h
        exact ⟨.ends c :: before, after, rfl, List.forall_mem_cons.mpr ⟨⟨c, rfl⟩, hbefore⟩⟩
    · rintro ⟨before, after, heq, hbefore⟩
      cases before with
      | nil =>
        obtain ⟨rfl, -⟩ := List.cons.inj heq
        rfl
      | cons y before =>
        obtain ⟨rfl, rfl⟩ := List.cons.inj heq
        obtain ⟨⟨c, rfl⟩, hrest⟩ := List.forall_mem_cons.mp hbefore
        exact ih.mpr ⟨before, after, rfl, hrest⟩

/-- Operands behind one that decides change nothing, if they end. -/
theorem combineAll_eq_ends_iff_of_ne (h : b ≠ op.neutral) :
    op.combineAll b operands = .ends b ↔ ∀ x ∈ operands, ∃ c, x = .ends c := by
  rw [← combineAll_ends_iff]
  refine ⟨fun heq => ⟨b, heq⟩, fun hends => ?_⟩
  induction operands with
  | nil => rfl
  | cons x rest ih =>
    obtain ⟨c, hc⟩ := hends
    obtain ⟨d, rfl, hrest⟩ := Outcome.ends_of_bind hc
    rw [combine_of_ne h] at hrest
    rw [combineAll, Outcome.ends_bind, combine_of_ne h]
    exact ih ⟨c, hrest⟩

/-- The two evaluations agree just if no operand aborts, or gets stuck, behind one that decides. -/
theorem combineAll_eq_shortCircuit_iff : op.combineAll op.neutral operands = op.shortCircuit operands ↔
    ∀ before x after, operands = before ++ x :: after → op.Decides before → ∃ c, x = .ends c := by
  induction operands with
  | nil => simp [combineAll, shortCircuit]
  | cons y rest ih =>
    -- what stands behind the first operand stands behind it in the rest
    have hsplit : (∀ before x after, y :: rest = before ++ x :: after → op.Decides before →
        ∃ c, x = .ends c) ↔ ∀ before x after, rest = before ++ x :: after →
        op.Decides (y :: before) → ∃ c, x = .ends c := by
      constructor
      · intro h before x after heq
        exact h (y :: before) x after (by rw [heq]; rfl)
      · intro h before x after heq hdecides
        cases before with
        | nil =>
          obtain ⟨before, b, after, heq, -⟩ := hdecides
          simp at heq
        | cons z before =>
          obtain ⟨rfl, hrest⟩ := List.cons.inj heq
          exact h before x after hrest hdecides
    rw [hsplit]
    cases y with
    | stuck | aborts => simp [combineAll, shortCircuit, decides_cons_iff]
    | ends b =>
      rw [combineAll, shortCircuit, Outcome.ends_bind, Outcome.ends_bind, combine_neutral]
      by_cases hb : b = op.neutral
      · rw [if_pos hb, hb, ih]
        simp [decides_cons_iff]
      · -- everything else stands behind an operand that decides
        rw [if_neg hb, Outcome.pure_eq_ends, combineAll_eq_ends_iff_of_ne hb]
        constructor
        · rintro h before x after rfl -
          exact h x (by simp)
        · intro h x hx
          obtain ⟨before, after, heq⟩ := List.append_of_mem hx
          exact h before x after heq (decides_cons_iff.mpr (.inl ⟨b, rfl, hb⟩))

end BoolOp

/-! ## The code of a connective -/

variable {I : Interpretation α} {config : Config} {l : Layout} {s t : List (Datum α)}
  {outcomes : List (Outcome α Bool)} {values : List Expr} {op : BoolOp}

/-- On the stack of a layout, the code of the operand pushes a boolean or aborts. -/
def Interpretation.Answers (I : Interpretation α) (config : Config) (l : Layout)
    (s : List (Datum α)) (o : Operand) (x : Outcome α Bool) : Prop :=
  x ≠ .stuck ∧ ∃ line done, o.pushAs .bool config ⟨l, line⟩ = .ok done ∧
    I.run done.code s = x >>= fun b => .ends (.bool b :: s)

namespace Gen

/-- What an operand comes to on the stack, it comes to above other cells too. -/
theorem computes_answer (hl : l.WellFormed) (hlength : s.length = l.depth) {e : Expr}
    {x : Outcome α Bool} (h : I.Answers config l s e.operand x) :
    Computes I config l s t (e.operand.pushAs .bool) x fun _ u b => u = .bool b :: t := by
  intro state done hafter hdone
  obtain ⟨hmoves, line, first, hfirst, hrun⟩ := h
  obtain ⟨hend, y, hbelow, habove⟩ := Interpretation.run_above (I := I) (fun _ => e.shifts_operand) hl
    hlength hfirst hafter hdone
  -- with and without the cells in between, the code comes to the same `y`
  rw [hbelow] at hrun
  rw [habove]
  cases x with
  | stuck => exact absurd rfl hmoves
  | aborts v =>
    cases y with
    | aborts w =>
      obtain rfl := Outcome.aborts.inj hrun
      exact .aborts w
    | _ => cases hrun
  | ends b =>
    obtain ⟨d, rfl, hd⟩ := Outcome.ends_of_bind hrun
    obtain ⟨rfl, -⟩ := List.cons.inj (Outcome.ends.inj hd)
    exact .ends ⟨.bool b :: t, rfl, hend, rfl⟩

theorem computes_combineAll (hl : l.WellFormed) (hlength : s.length = l.depth)
    (h : List.Forall₂ (fun e x => I.Answers config l s (Expr.operand e) x) values outcomes) {b : Bool} :
    Computes I config l s [.bool b] (connectAll op (operands values)) (op.combineAll b outcomes)
      fun _ u c => u = [.bool c] := by
  induction h generalizing b with
  | nil => exact computes_pure rfl
  | cons hvalue _ ih =>
    refine (computes_answer hl hlength hvalue).bind fun _ u c hu => ?_
    subst hu
    obtain ⟨harity, hprim⟩ := prim_connective op b c (I := I)
    exact computes_apply_bind [.bool c, .bool b] harity hprim ih

theorem computes_emitBoolean (hl : l.WellFormed) (hlength : s.length = l.depth)
    (h : List.Forall₂ (fun e x => I.Answers config l s (Expr.operand e) x) values outcomes) :
    Computes I config l s [] (emitBoolean op (operands values)) (op.combineAll op.neutral outcomes)
      fun _ u c => u = [.bool c] := by
  cases h with
  | nil => exact computes_defect
  | cons hvalue hrest =>
    refine (computes_answer hl hlength hvalue).bind fun _ u b hu => ?_
    subst hu
    rw [BoolOp.combine_neutral]
    exact computes_combineAll hl hlength hrest

end Gen

/-- The outcome of code that pushes a boolean says which boolean. -/
theorem Outcome.bind_bool_inj {x y : Outcome α Bool} :
    (x >>= fun b => .ends (.bool b :: s)) = (y >>= fun b => .ends (.bool b :: s)) ↔ x = y := by
  cases x <;> cases y <;> simp

variable {state : State} {done : Step Ty} {line : Nat} {expected : Option Ty}

theorem Gen.run_boolean (hl : state.layout.WellFormed) (hlength : s.length = state.layout.depth)
    (hdone : (Expr.boolean line op values).operand.value expected config state = .ok done)
    (hvalues : List.Forall₂ (fun e x => I.Answers config state.layout s (Expr.operand e) x) values
      outcomes) :
    I.run done.code s = op.combineAll op.neutral outcomes >>= fun b => .ends (.bool b :: s) := by
  obtain ⟨ty, inner, -, hinner, -, rfl⟩ := Operand.value_eq_ok_iff.mp hdone
  have hstart : state.layout.After 0 (state.seeing line).layout := by
    rw [state.layout_seeing]
    exact .refl _
  have hcomputes : Computes I config state.layout s [] (emitBoolean op (operands values))
      (op.combineAll op.neutral outcomes) fun _ u c => u = [.bool c] :=
    computes_emitBoolean hl hlength hvalues
  have hconcurs := hcomputes hstart hinner
  show I.run inner.code ([] ++ s) = _
  generalize I.run inner.code ([] ++ s) = x at hconcurs ⊢
  generalize op.combineAll op.neutral outcomes = y at hconcurs ⊢
  cases hconcurs with
  | aborts v => rfl
  | ends hends =>
    obtain ⟨_, rfl, -, rfl⟩ := hends
    rfl

/-- The code of a connective runs all of its operands, first to last. It aborts as the first of them
that does. If none does, it pushes the boolean that evaluation with short circuits gives. It comes to
what that evaluation comes to just if no operand aborts behind one that decides. -/
theorem connective_runs_every_operand (hl : state.layout.WellFormed)
    (hlength : s.length = state.layout.depth)
    (hdone : (Expr.boolean line op values).operand.value expected config state = .ok done)
    (hvalues : List.Forall₂ (fun e x => I.Answers config state.layout s (Expr.operand e) x) values
      outcomes) :
    (∀ v, I.run done.code s = .aborts v ↔ ∃ before after,
        outcomes = before ++ .aborts v :: after ∧ ∀ x ∈ before, ∃ b, x = .ends b) ∧
      ((∀ x ∈ outcomes, ∃ b, x = .ends b) → ∃ b, op.shortCircuit outcomes = .ends b ∧
        I.run done.code s = .ends (.bool b :: s)) ∧
      ((I.run done.code s = op.shortCircuit outcomes >>= fun b => .ends (.bool b :: s)) ↔
        ∀ before x after, outcomes = before ++ x :: after → op.Decides before →
          ∃ b, x = .ends b) := by
  rw [run_boolean hl hlength hdone hvalues, Outcome.bind_bool_inj, BoolOp.combineAll_eq_shortCircuit_iff]
  refine ⟨fun v => ?_, fun hends => ?_, Iff.rfl⟩
  · rw [← BoolOp.combineAll_aborts_iff (b := op.neutral)]
    cases op.combineAll op.neutral outcomes <;> simp
  · obtain ⟨b, hb⟩ := BoolOp.combineAll_ends_iff.mpr hends
    refine ⟨b, ?_, by rw [hb]; rfl⟩
    rw [← hb, eq_comm, BoolOp.combineAll_eq_shortCircuit_iff]
    rintro before x after rfl -
    exact hends x (by simp)

/-! ## A guard -/

/-- The operands of `x in m and m[x] > 0`. -/
def Expr.guarded : List Expr :=
  [.compare 1 (.name 1 "x") [(.isIn, .name 1 "m")],
    .compare 1 (.subscript 1 (.name 1 "m") (.name 1 "x")) [(.gt, .literal 1 (.int 0))]]

theorem Interpretation.answers_of_code {o : Operand} {x : Outcome α Bool} {code : Code}
    (hcode : (o.pushAs .bool config ⟨l, 0⟩).toOption.map (·.code) = some code) (hx : x ≠ .stuck)
    (hrun : I.run code s = x >>= fun b => .ends (.bool b :: s)) : I.Answers config l s o x := by
  obtain ⟨done, hdone, rfl⟩ := Except.exists_ok_of_map hcode
  exact ⟨hx, 0, done, hdone, hrun⟩

/-- If there is something under `x`, it is tested. If there is not, the test aborts, although the first
operand has decided. -/
theorem connective_runs_every_operand_guarded : ∃ done,
    (Expr.boolean 1 .and Expr.guarded).operand.value none ⟨.empty, false⟩ ⟨.tally, 0⟩ = .ok done ∧
      Interpretation.tables.run done.code [.foreign [(1, 3)], .int 1] =
        .ends [.bool true, .foreign [(1, 3)], .int 1] ∧
      Interpretation.tables.run done.code [.foreign [], .int 1] =
        .aborts (.string "Key does not exist") := by
  have hmember : ((Expr.compare 1 (.name 1 "x") [(.isIn, .name 1 "m")]).operand.pushAs .bool
      ⟨.empty, false⟩ ⟨.tally, 0⟩).toOption.map (·.code) = some [.dup 1, .dup 3, .prim .mem] := by
    simp only [Expr.operand, emitExpr]
    rfl
  have hpositive : ((Expr.compare 1 (.subscript 1 (.name 1 "m") (.name 1 "x"))
      [(.gt, .literal 1 (.int 0))]).operand.pushAs .bool
      ⟨.empty, false⟩ ⟨.tally, 0⟩).toOption.map (·.code) = some [.prim (.push .int (.int 0)), .dup 2,
        .dup 4, .prim .mapGet, unwrapOr "Key does not exist", .prim .compare, .prim .gt] := by
    simp only [Expr.operand, emitExpr]
    rfl
  have hfound : List.Forall₂ (fun e x => Interpretation.tables.Answers ⟨.empty, false⟩ .tally
      [.foreign [(1, 3)], .int 1] (Expr.operand e) x) Expr.guarded [.ends true, .ends true] :=
    .cons (Interpretation.answers_of_code hmember (by simp) rfl)
      (.cons (Interpretation.answers_of_code hpositive (by simp) rfl) .nil)
  have hmissing : List.Forall₂ (fun e x => Interpretation.tables.Answers ⟨.empty, false⟩ .tally
      [.foreign [], .int 1] (Expr.operand e) x) Expr.guarded
      [.ends false, .aborts (.string "Key does not exist")] :=
    .cons (Interpretation.answers_of_code hmember (by simp) rfl)
      (.cons (Interpretation.answers_of_code hpositive (by simp) rfl) .nil)
  have hcompiles : ((Expr.boolean 1 .and Expr.guarded).operand.value none ⟨.empty, false⟩
      ⟨.tally, 0⟩).toOption.isSome = true := by
    decide +kernel
  obtain ⟨done, hdone⟩ := Except.exists_ok_of_isSome hcompiles
  obtain ⟨-, hends, -⟩ := connective_runs_every_operand Layout.wellFormed_tally rfl hdone hfound
  obtain ⟨haborts, -⟩ := connective_runs_every_operand Layout.wellFormed_tally rfl hdone hmissing
  obtain ⟨b, hb, hrun⟩ := hends (by simp)
  obtain rfl : true = b := Outcome.ends.inj hb
  exact ⟨done, hdone, hrun, (haborts _).mpr ⟨[.ends false], [], rfl, by simp⟩⟩

/-- The boolean on top of the stack at the end, or the text that the run aborts with. -/
def Outcome.verdict? : Outcome α (List (Datum α)) → Option (Bool ⊕ String)
  | .ends (.bool b :: _) => some (.inl b)
  | .aborts (.string text) => some (.inr text)
  | _ => none

/-- After `m = {2: 1}`, the test `1 in m` is false, but `1 in m and m[1] > 0` aborts. -/
theorem membership_does_not_guard :
    (Module.compileStatements ⟨[.assign 1 (.name 1 "m") (.dict 1 [(.literal 1 (.int 2),
          .literal 1 (.int 1))]),
        .assign 1 (.name 1 "b") (.compare 1 (.literal 1 (.int 1)) [(.isIn, .name 1 "m")])]⟩
      false).toOption.bind (fun code => (Interpretation.tables.run code []).verdict?) =
        some (.inl false) ∧
    (Module.compileStatements ⟨[.assign 1 (.name 1 "m") (.dict 1 [(.literal 1 (.int 2),
          .literal 1 (.int 1))]),
        .assign 1 (.name 1 "b") (.boolean 1 .and
          [.compare 1 (.literal 1 (.int 1)) [(.isIn, .name 1 "m")],
            .compare 1 (.subscript 1 (.name 1 "m") (.literal 1 (.int 1)))
              [(.gt, .literal 1 (.int 0))]])]⟩
      false).toOption.bind (fun code => (Interpretation.tables.run code []).verdict?) =
        some (.inr "Key does not exist") := by
  decide +kernel

end Covenant
