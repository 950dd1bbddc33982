import Covenant.Proofs.Gen.Assembly
import Covenant.Proofs.Gen.Closed
import Covenant.Proofs.Machine.Depth

/-!
# Covenant — the generator counts cells correctly

Code generation keeps the depth of the stack by hand, next to the instructions it emits. Here the
two are compared: the depth the layout reports after a step is the depth at which `Depth.run` ends
on the code of that step.

* `Gen.Exact` — the code of the step never aborts in the count and ends at the layout's depth.
  Expressions are exact.
* `Gen.Accounts` — the code of the step aborts, or ends at the layout's depth. Statements, blocks
  and entrypoints account for their cells in this sense.

Both are closed under sequencing. Nothing is assumed of the layout a step starts from: a slot that
is not on the stack makes the step fail rather than emit an instruction that reaches too far.
-/

namespace Covenant

open Layout Depth

/-! ## Code of the generator, counted -/

namespace Depth

theorem step_prim {p : Prim} (hp : p ≠ .pair 0) {d : Nat} (hd : p.arity ≤ d) :
    step (.prim p) d = some (.ends (d - p.arity + 1)) := by
  simp only [step, if_neg hp, needing, if_pos hd]

/-- Unwrapping an option leaves the depth as it is: the block that aborts has no say. -/
theorem step_unwrapOr (message : String) {d : Nat} (hd : 0 < d) :
    step (unwrapOr message) d = some (.ends d) := by
  obtain ⟨d, rfl⟩ := Nat.exists_eq_succ_of_ne_zero (Nat.pos_iff_ne_zero.mp hd)
  have hfail : run (failWith message) d = some .aborts := by
    rw [failWith, run_cons_ends (step_prim (by simp) (Nat.zero_le _)), run_singleton]
    simp [step, needing, Prim.arity]
  simp [unwrapOr, step, hfail, Flow.join]

theorem step_dropAt {jump d : Nat} (h : jump < d) :
    step (dropAt jump) d = some (.ends (d - 1)) := by
  cases jump with
  | zero => simp [dropAt, step, needing, show 1 ≤ d by omega]
  | succ n =>
    have hinner : run [.drop] (d - (n + 1)) = some (.ends (d - (n + 1) - 1)) := by
      rw [run_singleton]
      simp only [step, needing, if_pos (show 1 ≤ d - (n + 1) by omega)]
    simp only [dropAt, step, if_pos (show n + 1 ≤ d by omega), hinner,
      Option.map_some, Flow.raise]
    rw [show d - (n + 1) - 1 + (n + 1) = d - 1 by omega]

theorem run_settleCode {jump d : Nat} (h : jump + 1 < d) :
    run (settleCode jump) d = some (.ends (d - 1)) := by
  rw [settleCode, run_cons_ends (step_dropAt h)]
  split
  · rw [run_singleton]
    simp only [step, needing, if_pos (show jump + 1 ≤ d - 1 by omega)]
  · exact run_nil _

/-- Notes in front of code change nothing. -/
theorem run_notes (config : Gen.Config) (n : Note) (code : Code) (d : Nat) :
    run (config.notes n ++ code) d = run code d := by
  unfold Gen.Config.notes
  split
  · exact run_cons_ends rfl
  · rfl

theorem run_dropNames {names : List Ident} {l l' : Layout} {code : Code}
    (h : l.dropNames names = .ok (code, l')) :
    run code l.depth = some (.ends l'.depth) := by
  induction names generalizing l code with
  | nil =>
    cases h
    exact run_nil _
  | cons name rest ih =>
    obtain ⟨c, tail, -, hlt, hrest, rfl⟩ := dropNames_cons_eq_ok_iff.mp h
    rw [run_cons_ends (step_dropAt (by omega))]
    exact ih hrest

end Depth

namespace Gen

variable {α β : Type} {step : Gen α} {body : Gen Unit}

/-- The emitted code ends at exactly the depth that the layout reports. -/
def Exact (step : Gen α) : Prop :=
  ∀ ⦃config : Config⦄ ⦃state : State⦄ ⦃done : Step α⦄, step config state = .ok done →
    Depth.run done.code state.layout.depth = some (.ends done.state.layout.depth)

/-- The emitted code aborts, or ends at exactly the depth that the layout reports. -/
def Accounts (step : Gen α) : Prop :=
  ∀ ⦃config : Config⦄ ⦃state : State⦄ ⦃done : Step α⦄, step config state = .ok done →
    Balanced done.code state.layout.depth done.state.layout.depth

theorem Exact.accounts (h : Exact step) : Accounts step :=
  fun _ _ _ hdone => .of_ends (h hdone)

/-! ## Sequences -/

theorem Exact.bind {next : α → Gen β} (hstep : Exact step) (hnext : ∀ a, Exact (next a)) :
    Exact (step >>= next) := by
  intro config state done h
  obtain ⟨first, second, hfirst, hsecond, rfl⟩ := bind_eq_ok_iff.mp h
  rw [Depth.run_append_ends (hstep hfirst)]
  exact hnext _ hsecond

theorem Accounts.bind {next : α → Gen β} (hstep : Accounts step) (hnext : ∀ a, Accounts (next a)) :
    Accounts (step >>= next) := by
  intro config state done h
  obtain ⟨first, second, hfirst, hsecond, rfl⟩ := bind_eq_ok_iff.mp h
  exact (hstep hfirst).append (hnext _ hsecond)

/-! ## Instructions -/

theorem exact_apply {p : Prim} (hp : p ≠ .pair 0) : Exact (apply p) := by
  intro config state done h
  obtain ⟨harity, rfl⟩ := apply_eq_ok_iff.mp h
  rw [run_singleton, Depth.step_prim hp harity]
  rfl

theorem exact_drop : Exact (do emit .drop; pop 1) := by
  intro config state done h
  obtain ⟨hone, rfl⟩ := emit_pop_eq_ok_iff.mp h
  rw [Depth.run_singleton]
  simp only [step, needing, if_pos hone]
  rfl

theorem exact_annotate (note : Note) : Exact (annotate note) := by
  intro config state done h
  obtain rfl := annotate_eq_ok_iff.mp h
  rw [← List.append_nil (config.notes note), run_notes, Depth.run_nil]

/-! ## Named cells -/

theorem exact_fetch (name : Ident) : Exact (fetch name) := by
  intro config state done h
  obtain ⟨slot, -, hlt, rfl⟩ := fetch_eq_ok_iff.mp h
  rw [run_notes, run_singleton]
  simp only [Depth.step, if_neg (show ¬ state.layout.depth - slot = 0 by omega), needing,
    if_pos (Nat.sub_le _ _)]
  rfl

theorem exact_bindTop (name : Ident) (ty : Ty) : Exact (bindTop name ty) := by
  intro config state done h
  obtain ⟨l, hl, rfl⟩ := bindTop_eq_ok_iff.mp h
  rw [← List.append_nil (config.notes _), Depth.run_notes, run_nil, depth_of_bind hl]

theorem exact_free (name : Ident) : Exact (free name) := by
  intro config state done h
  obtain ⟨c, -, hlt, rfl⟩ := free_eq_ok_iff.mp h
  rw [Depth.run_notes, Depth.run_singleton, Depth.step_dropAt (by omega)]
  simp

theorem exact_freeAll (names : List Ident) : Exact (freeAll names) := by
  intro config state done h
  obtain ⟨code, l, hfree, rfl⟩ := freeAll_eq_ok_iff.mp h
  obtain ⟨order, -, hdrop⟩ := freeAll_eq_ok hfree
  exact Depth.run_dropNames hdrop

theorem exact_replace (name : Ident) : Exact (replace name) := by
  intro config state done h
  obtain ⟨c, -, habove, rfl⟩ := replace_eq_ok_iff.mp h
  rw [Depth.run_notes, Depth.run_settleCode (by omega)]
  simp

/-! ## Expressions and simple statements -/

/-- Where there are `n` cells, the code replaces them by `m` and ends at the depth that the layout
reports. -/
def Tallies (n m : Nat) (l : Layout) (code : Code) (l' : Layout) : Prop :=
  n ≤ l.depth → l'.depth + n = l.depth + m ∧ Depth.run code l.depth = some (.ends l'.depth)

theorem counted_tallies : Counted fun _ n m step => Each (Tallies n m) step := by
  refine counted_each (R := Tallies) ?nil ?append ?annotate ?apply ?fetch ?unwrap ?exec ?orElse
  case nil => exact fun n l _ => ⟨rfl, run_nil _⟩
  case append =>
    intro n m k l l' l'' code code' h h' hn
    obtain ⟨hdepth, hrun⟩ := h hn
    obtain ⟨hdepth', hrun'⟩ := h' (by omega)
    exact ⟨by omega, by rw [Depth.run_append_ends hrun, hrun']⟩
  case annotate =>
    intro n note config state done h _
    exact ⟨counted_depth.annotate note h, exact_annotate note h⟩
  case apply =>
    intro n p hp config state done h _
    exact ⟨counted_depth.apply n hp h, exact_apply hp h⟩
  case fetch =>
    intro n name config state done h _
    exact ⟨counted_depth.fetch name h, exact_fetch name h⟩
  case unwrap =>
    intro n message config state done h hn
    obtain rfl := emit_eq_ok_iff.mp h
    refine ⟨rfl, ?_⟩
    rw [run_singleton, step_unwrapOr _ (by omega)]
  case exec =>
    intro n config state done h hn
    refine ⟨counted_depth.exec n h, ?_⟩
    obtain ⟨-, rfl⟩ := emit_pop_eq_ok_iff.mp h
    rw [run_singleton]
    simp only [step, needing, if_pos (show 2 ≤ state.layout.depth by omega)]
    rfl
  case orElse =>
    -- the block starts without the option and pushes one value, so both ways end at one depth
    intro n l code l' hpos h hn
    obtain ⟨hdepth, hrun⟩ := h (by simp only [depth_atDepth]; omega)
    simp only [depth_atDepth] at hdepth hrun
    refine ⟨rfl, ?_⟩
    obtain ⟨d, hd⟩ : ∃ d, l.depth = d + 1 := ⟨l.depth - 1, by omega⟩
    rw [hd, Nat.add_sub_cancel, show l'.depth = d + 1 by omega] at hrun
    rw [run_singleton, hd]
    simp [step, hrun, Flow.join]

/-- Expressions and simple statements never abort in the count and end at the layout's depth. -/
theorem closed_exact : Closed (fun _ n m step => Each (Tallies n m) step) @Exact where
  counted := counted_tallies
  copy n config state done h hn := by
    obtain ⟨rest, hrest, rfl⟩ := emit_bind_eq_ok_iff.mp h
    rw [push_apply, Except.ok.injEq] at hrest
    subst hrest
    simp only [State.layout_atDepth, depth_atDepth]
    refine ⟨by omega, ?_⟩
    rw [Depth.run_singleton]
    simp [Depth.step, Depth.needing, show 1 ≤ state.layout.depth by omega]
  settle n name config state done h hn := by
    refine ⟨?_, exact_replace name h⟩
    obtain ⟨c, -, habove, rfl⟩ := replace_eq_ok_iff.mp h
    show (state.layout.settled name c).depth + (n + 1) = state.layout.depth + n
    rw [Layout.depth_settled]
    omega
  of_counted h config state done hdone := (h hdone (Nat.zero_le _)).2
  bind h hnext := h.bind hnext
  silent h config state done hdone := by
    obtain ⟨hcode, hlayout⟩ := h config state done hdone
    rw [hcode, hlayout, Depth.run_nil]
  apply hp := exact_apply hp
  drop := exact_drop
  replace := exact_replace

theorem accounts_failwith : Accounts (do emit .failwith; pop 1) := by
  intro config state done h
  obtain ⟨hone, rfl⟩ := emit_pop_eq_ok_iff.mp h
  refine Or.inl ?_
  rw [run_singleton]
  simp only [step, needing, if_pos hone]

theorem accounts_raise (value : Option Expr) : Accounts (raise value) := by
  cases value with
  | none => exact (closed_exact.fail _).accounts
  | some value =>
    exact closed_exact.scope.accounts.bind fun _ => (closed_exact.typed _).accounts.bind
      fun message => (closed_exact.value message none).accounts.bind fun _ => accounts_failwith

/-! ## Blocks -/

theorem Accounts.ite {g g' : Gen α} {c : Prop} [Decidable c] (h : Accounts g) (h' : Accounts g') :
    Accounts (if c then g else g') := by
  split
  · exact h
  · exact h'

theorem Accounts.listen (h : Accounts step) : Accounts (listen step) := by
  intro config state done hdone
  obtain ⟨inner, hinner, rfl⟩ := listen_eq_ok_iff.mp hdone
  exact h hinner

theorem Accounts.fromHere {body : Layout → Gen Unit} (h : ∀ l, Accounts (body l)) :
    Accounts (fromHere body) :=
  closed_exact.layout.accounts.bind h

theorem Accounts.freeingAfter (h : Accounts body) (name : Ident) :
    Accounts (freeingAfter name body) :=
  h.listen.bind fun _ => .ite (closed_exact.pure _).accounts (exact_free name).accounts

/-- Two branches that end at the depths their layouts report make a conditional that ends at the
depth the join of the layouts reports. -/
theorem balanced_ifElse {onTrue onFalse : Step Unit} {d e : Nat}
    (htrue : Balanced onTrue.code d onTrue.state.layout.depth)
    (hfalse : Balanced onFalse.code d onFalse.state.layout.depth)
    (hjoin : JoinedDepth onTrue onFalse e) :
    Balanced [.ifElse onTrue.code onFalse.code] (d + 1) e := by
  unfold Depth.Balanced
  rw [run_singleton]
  simp only [step]
  rcases hjoin with ⟨hsame | hdiv, rfl⟩ | ⟨hdiv, rfl⟩
  · rcases htrue with ht | ht <;> rcases hfalse with hf | hf <;>
      simp [ht, hf, Flow.join, hsame]
  · rw [hfalse.of_diverges hdiv]
    rcases htrue with ht | ht <;> simp [ht, Flow.join]
  · rw [htrue.of_diverges hdiv]
    rcases hfalse with hf | hf <;> simp [hf, Flow.join]

theorem Accounts.ifElse {body orelse : Gen Unit} (hbody : Accounts body)
    (horelse : Accounts orelse) (test : Expr) : Accounts (ifElse test body orelse) := by
  intro config state done h
  obtain ⟨pushed, onTrue, onFalse, depth, -, hpushed, htrue, hfalse, hjoin, rfl⟩ := ifElse_eq_ok h
  have htest := closed_exact.pushAs test .bool hpushed
  rw [Operand.depth_of_pushAs hpushed] at htest
  have hthen := hbody htrue
  have helse := horelse hfalse
  exact (Depth.Balanced.of_ends htest).append (balanced_ifElse hthen helse hjoin)

theorem Accounts.forIn (hbody : Accounts body) (target : Ident) (iter : Expr) :
    Accounts (forIn target iter body) := by
  intro config state done h
  obtain ⟨element, pushed, inner, -, hpushed, hinner, hend, rfl⟩ := forIn_eq_ok h
  have hiter := closed_exact.value iter none hpushed
  have hdepth := Operand.depth_of_value hpushed
  have hloop := ((exact_bindTop target element).accounts.bind fun _ => hbody).freeingAfter target
    hinner
  rw [hdepth] at hiter hloop
  refine (Depth.Balanced.of_ends hiter).append (.of_ends ?_)
  rw [Depth.run_singleton]
  simp only [Depth.step]
  rcases hend with hend | hdiv
  · rcases hloop with hl | hl <;> simp [hl, hend, Depth.Flow.join]
  · simp [hloop.of_diverges hdiv, Depth.Flow.join]

/-- The body of a function starts from its argument alone, whatever is on the stack around the
definition. -/
theorem Accounts.function (hbody : Accounts body) (name : Ident) (params : List Param)
    (returns : Option Expr) :
    Accounts (function name params returns body) := by
  intro config state done h
  obtain ⟨param, -, -, argTy, resultTy, start, inner, bound, -, -, -, -, -, -, hstart, hinner, hend,
    hbound, rfl⟩ := function_eq_ok h
  have hclosure := hbody.freeingAfter param.name hinner
  rw [show ({ state with layout := start } : State).layout.depth = 1 from
    depth_of_bind hstart] at hclosure
  have hlambda : Depth.step (.lambda argTy resultTy inner.code) state.layout.depth =
      some (.ends (state.layout.depth + 1)) := by
    simp only [Depth.step]
    rcases hend with hdiv | hone
    · simp [hclosure.of_diverges hdiv, Depth.Flow.join]
    · rcases hclosure with hc | hc <;> simp [hc, hone, Depth.Flow.join]
  refine .of_ends ?_
  rw [Depth.run_cons_ends hlambda]
  exact exact_bindTop _ _ hbound

end Gen

/-! ## The recursion over statements -/

open Gen in
mutual

theorem accounts_compileStmt (s : Stmt) : Accounts (compileStmt s) := by
  have hseen (line : Nat) := (closed_exact.seen line).accounts
  cases s <;> simp only [compileStmt]
  case imports line _ | pass line => exact hseen line
  all_goals refine (hseen _).bind (Function.const _ ?_)
  case function line name params returns body =>
    exact (Accounts.fromHere (accounts_compileBody body)).function name params returns
  case classDef => exact closed_exact.layout.accounts.bind fun _ => (closed_exact.fail _).accounts
  case assign target value => exact (closed_exact.assign exact_bindTop target none value).accounts
  case annotated target declared value =>
    cases value with
    | none => exact (closed_exact.fail _).accounts
    | some value => exact (closed_exact.assign exact_bindTop target (some declared) value).accounts
  case augmented => exact (closed_exact.defect _).accounts
  case expr value => exact (closed_exact.evaluate value).accounts
  case ifElse test body orelse =>
    exact (Accounts.fromHere (accounts_compileBody body)).ifElse
      (.fromHere (accounts_compileBody orelse)) test
  case forIn target iter body =>
    exact (Accounts.fromHere (accounts_compileBody body)).forIn target iter
  case raise value => exact accounts_raise value
  case ret value => exact (closed_exact.ret value).accounts

theorem accounts_compileBody : ∀ (body : List Stmt) (outer : Layout),
    Accounts (compileBody body outer)
  | [], outer => by
    rw [compileBody]
    exact (closed_exact.layout.bind fun _ => exact_freeAll _).accounts
  | s :: rest, outer => by
    rw [compileBody]
    exact (accounts_compileStmt s).listen.bind fun _ =>
      .ite (closed_exact.pure _).accounts (accounts_compileBody rest outer)

end

theorem accounts_compileBlock (body : List Stmt) : Gen.Accounts (compileBlock body) :=
  .fromHere (accounts_compileBody body)

/-! ## Programs -/

namespace Gen

theorem Accounts.withRecord {step : Gen α} (h : Accounts step) (name : Ident) (fields : Fields) :
    Accounts (withRecord name fields step) :=
  fun _ _ _ hdone => h hdone

theorem accounts_statements (body : List Stmt) : Accounts (statements body) := by
  induction body with
  | nil => exact (closed_exact.pure _).accounts
  | cons s rest hrest =>
    cases s with
    | classDef line name bases decorators body =>
      simp only [statements]
      exact (closed_exact.seen line).accounts.bind fun _ =>
        .ite ((closed_exact.recordClass name body).accounts.bind fun fields =>
          hrest.withRecord name fields) (closed_exact.fail _).accounts
    | _ =>
      simp only [statements]
      exact (closed_exact.seen _).accounts.bind fun _ =>
        (accounts_compileStmt _).bind fun _ => hrest

theorem accounts_prologue {contract : Option (List Stmt)} {body : List Stmt} :
    Accounts (prologue contract body) := by
  intro config state done h
  induction body generalizing contract state done with
  | nil => exact (closed_exact.pure _).accounts h
  | cons s rest ih =>
    rcases prologue_cons_eq_ok h with ⟨-, -, hskip⟩ | ⟨first, last, -, -, hfirst, hlast, rfl⟩
    · simpa using ih hskip
    · have hstmt := accounts_compileStmt s hfirst
      rw [State.layout_seeing] at hstmt
      exact hstmt.append (ih hlast)

theorem exact_epilogue : Exact epilogue := by
  refine closed_exact.layout.bind fun _ => (exact_freeAll _).bind fun _ =>
    closed_exact.layout.bind fun _ => ?_
  exact Closed.ite (exact_apply (by simp))
    ((exact_apply (by simp)).bind fun _ => exact_apply (by simp))

theorem accounts_entrypointCode (method : Method) : Accounts (entrypointCode method) := by
  have hblock := accounts_compileBlock method.body
  have hbody : Accounts (do
      annotate (.entered method.name)
      if Stmt.anyCallsTransaction method.body then
        apply (.nil .operation)
        bindTop operationsName (.list .operation)
      compileBlock method.body) :=
    (exact_annotate _).accounts.bind fun _ =>
      .ite ((exact_apply (by simp)).accounts.bind fun _ =>
        (exact_bindTop _ _).accounts.bind fun _ => hblock) hblock
  exact hbody.listen.bind fun _ => .ite (closed_exact.pure _).accounts exact_epilogue.accounts

/-- The module-level statements are compiled from an empty stack, but run above parameter and
storage. -/
theorem balanced_preamble {code : Code} {k : Nat} (h : Balanced code 0 k) :
    Balanced (preamble code k) 1 (k + 2) := by
  have hunpair : Balanced [.unpair] 1 2 := .of_ends rfl
  have hdig : Balanced (if 0 < k then [.dig k] else []) (k + 2) (k + 2) := by
    split
    · refine .of_ends ?_
      rw [run_singleton]
      simp only [step, needing, if_pos (show k + 1 ≤ k + 2 by omega)]
    · exact .nil _
  have hbody := h.raise 2
  rw [Nat.zero_add] at hbody
  exact hunpair.append (hbody.append hdig)

theorem run_deploy {method : Method} {config : Config} {state : State} {done : Step (Ty × Code)}
    (h : deploy method config state = .ok done) :
    Depth.run done.result.2 0 = some (.ends 1) := by
  obtain ⟨line, init, declared, inner, -, -, -, hinner, -, hresult⟩ := deploy_eq_ok h
  have hrun := closed_exact.value init declared hinner
  rw [Operand.depth_of_value hinner] at hrun
  rw [hresult]
  exact hrun

end Gen

/-! ## The whole compiler -/

/-- The generator counts cells correctly, for every program and from every state. The code of an
expression, of a statement and of a block ends at the depth that the layout reports after it, or
aborts. So does the code of a module; the code of the initial storage leaves one cell on an empty
stack; the preamble turns the incoming pair into the stack that every entrypoint starts from. -/
theorem emitted_code_balances :
    (∀ (e : Expr) (ty : Ty), Gen.Exact (emitExpr e ty)) ∧
    (∀ (e : Expr) (expected : Option Ty), Gen.Exact (e.operand.compile expected)) ∧
    (∀ s : Stmt, Gen.Accounts (compileStmt s)) ∧
    (∀ body : List Stmt, Gen.Accounts (compileBlock body)) ∧
    ∀ (m : Module) (traced : Bool),
      (∀ code, m.compileStatements traced = .ok code → ∃ done : Gen.Step Unit,
        Gen.run traced (Gen.statements m.desugar.body) = .ok done ∧ done.code = code ∧
        Depth.Balanced code 0 done.state.layout.depth) ∧
      ∀ c, m.compile traced = .ok c →
        Depth.run c.storageInit 0 = some (.ends 1) ∧
        ∃ d members, Depth.Balanced c.preamble 1 d ∧
          m.desugar.body.filterMap Stmt.contract? = [members] ∧
          ∀ name e, (name, e) ∈ c.entrypoints → ∃ method ∈ Stmt.entryMethods members,
            ∃ (config : Gen.Config) (state : Gen.State) (done : Gen.Step Unit),
              method.name = name ∧ state.layout.depth = d ∧
              Gen.entrypointCode method config state = .ok done ∧ done.code = e.code ∧
              Depth.Balanced e.code d done.state.layout.depth := by
  refine ⟨Gen.closed_exact.emitExpr, Gen.closed_exact.compile, accounts_compileStmt,
    accounts_compileBlock, fun m traced => ⟨?_, ?_⟩⟩
  · intro code hcode
    obtain ⟨done, hdone, rfl⟩ := Module.compileStatements_eq_ok_iff.mp hcode
    exact ⟨done, hdone, rfl, Gen.accounts_statements _ hdone⟩
  · intro c hc
    obtain ⟨config, module, init, methods, -, -, parts⟩ := Module.compile_eq_ok hc
    obtain ⟨state, deployed, hdeploy, hresult⟩ := parts.deploy
    obtain ⟨line, hprologue⟩ := parts.prologue
    have hinit := Gen.run_deploy hdeploy
    rw [hresult] at hinit
    obtain ⟨members, hclass, -, rfl⟩ := parts.members
    refine ⟨hinit, module.state.layout.depth + 2, members, ?_, hclass, ?_⟩
    · rw [parts.preamble]
      exact Gen.balanced_preamble (Gen.accounts_prologue hprologue)
    · intro name e hmem
      obtain ⟨method, hmethod, hname, state, compiled, hcompiled, rfl⟩ := parts.entrypoints name e hmem
      obtain ⟨named, start, inner, -, hstart, hinner, hresult⟩ := Gen.entrypoint_eq_ok hcompiled
      have hdepth : start.depth = module.state.layout.depth + 2 := Layout.depth_of_bind hstart
      have hbalanced := Gen.accounts_entrypointCode method hinner
      refine ⟨method, hmethod, config, _, inner, hname, hdepth, hinner, ?_, ?_⟩
      · rw [hresult]
      · rw [hresult, ← hdepth]
        exact hbalanced

/-- A contract that adds positive amounts to its storage and aborts on all others. -/
def Module.counter : Module :=
  ⟨[.classDef 1 "Contract" [] []
    [.function 2 "deploy" [] none [.ret 3 (some (.literal 3 (.int 0)))],
      .function 4 "add" [⟨"n", some (.name 4 "int"), 4⟩] none
        [.ifElse 5 (.compare 5 (.name 5 "n") [(.lt, .literal 5 (.int 1))])
          [.raise 6 (some (.literal 6 (.str "too small")))] [],
        .assign 7 (.attr 7 (.name 7 "self") "storage")
          (.binary 7 (.attr 7 (.name 7 "self") "storage") .add (.name 7 "n"))]]]⟩

/-- A variable and its use, outside any contract. -/
def Module.constant : Module :=
  ⟨[.assign 1 (.name 1 "k") (.literal 1 (.int 2)), .expr 2 (.name 2 "k")]⟩

theorem emitted_code_balances_counter :
    (∃ done, (Expr.literal 3 (.int 0)).operand.compile none ⟨.empty, false⟩ ⟨.empty .deploy, 0⟩ =
        .ok done ∧ Depth.run done.code 0 = some (.ends done.state.layout.depth)) ∧
    (∃ code d, Module.constant.compileStatements false = .ok code ∧ Depth.Balanced code 0 d) ∧
    ∃ c e d d', Module.counter.compile false = .ok c ∧ ("add", e) ∈ c.entrypoints ∧
      Depth.run c.storageInit 0 = some (.ends 1) ∧ Depth.Balanced c.preamble 1 d ∧
      Depth.Balanced e.code d d' := by
  obtain ⟨-, hcompile, -, -, hmodules⟩ := emitted_code_balances
  refine ⟨⟨_, rfl, hcompile (.literal 3 (.int 0)) none rfl⟩, ?_, ?_⟩
  · have hok : (Module.constant.compileStatements false).toOption.isSome = true := by
      decide +kernel
    obtain ⟨code, hcode⟩ := Except.exists_ok_of_isSome hok
    obtain ⟨done, -, -, hbalanced⟩ := (hmodules Module.constant false).1 code hcode
    exact ⟨code, _, hcode, hbalanced⟩
  · have hadd : (Module.counter.compile false).toOption.map (fun c => c.entrypoints.map (·.1)) =
        some ["add"] := by decide +kernel
    obtain ⟨c, hc, hnames⟩ := Except.exists_ok_of_map hadd
    have hmem : "add" ∈ c.entrypoints.map (·.1) := by simp [hnames]
    obtain ⟨⟨name, e⟩, hmem, rfl⟩ := List.mem_map.mp hmem
    obtain ⟨hinit, d, members, hpreamble, -, hentries⟩ := (hmodules Module.counter false).2 c hc
    obtain ⟨method, -, config, state, done, -, -, -, -, hbalanced⟩ := hentries _ e hmem
    exact ⟨c, e, d, _, hc, hmem, hinit, hpreamble, hbalanced⟩

end Covenant
