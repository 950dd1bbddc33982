import Covenant.Compile
import Covenant.Proofs.Layout.Operations
import Covenant.Proofs.Typing.Inversion

/-!
# Covenant — what the rules of code generation do when they succeed

The rules for operands, assignment targets and statements, opened once. Each lemma starts from a run
of a rule that succeeded and names the runs it was put together from, the checks that passed, the
code and the state at the end. The order of the parts is the order in which the rule runs them.

* `Operand.value_eq_ok_iff`, `Operand.pushAs_eq_ok_iff` — an operand that leaves one cell;
* `pathSteps_field_eq_ok_iff`, `pathSteps_key_eq_ok_iff` — one step of an assignment target;
* `Gen.ifElse_eq_ok`, `Gen.forIn_eq_ok`, `Gen.function_eq_ok` — statements that hold blocks.
-/

namespace Covenant

/-! ## Operands -/

namespace Operand

open Gen

variable {o : Operand} {config : Config} {state : State} {expected : Option Ty} {done : Step Ty}

/-- The code of an operand is emitted for the type that it has, at its line. -/
theorem compile_eq_ok_iff :
    o.compile expected config state = .ok done ↔
      ∃ ty inner, typeOf ⟨config.records, state.layout⟩ o.expr expected = .ok ty ∧
        o.emit ty config (state.seeing o.expr.line) = .ok inner ∧
        done = ⟨ty, inner.code, inner.state⟩ := by
  rw [compile, typeOf_bind_eq_ok_iff]
  simp only [seen_bind, bind_eq_ok_iff, pure_apply, Except.ok.injEq]
  constructor
  · rintro ⟨ty, hty, inner, _, hinner, rfl, rfl⟩
    exact ⟨ty, inner, hty, hinner, by simp⟩
  · rintro ⟨ty, inner, hty, hinner, rfl⟩
    exact ⟨ty, hty, inner, _, hinner, rfl, by simp⟩

/-- An operand is a value exactly if its code leaves one new cell. -/
theorem value_eq_ok_iff :
    o.value expected config state = .ok done ↔
      ∃ ty inner, typeOf ⟨config.records, state.layout⟩ o.expr expected = .ok ty ∧
        o.emit ty config (state.seeing o.expr.line) = .ok inner ∧
        inner.state.layout.depth = state.layout.depth + 1 ∧
        done = ⟨ty, inner.code, inner.state⟩ := by
  simp only [value, depth_bind, bind_eq_ok_iff, compile_eq_ok_iff]
  constructor
  · rintro ⟨_, last, ⟨ty, inner, hty, hinner, rfl⟩, hlast, rfl⟩
    -- the number of cells is compared with the one before
    split at hlast
    · next hdepth =>
      cases hlast
      exact ⟨ty, inner, hty, hinner, hdepth, by simp⟩
    · exact absurd hlast failAt_ne_ok
  · rintro ⟨ty, inner, hty, hinner, hdepth, rfl⟩
    refine ⟨_, ⟨ty, [], inner.state⟩, ⟨ty, inner, hty, hinner, rfl⟩, ?_, by simp⟩
    rw [if_pos hdepth, pure_apply]

/-- An operand is pushed as a value of the type that is expected of it. -/
theorem pushAs_eq_ok_iff {want : Ty} {done : Step Unit} :
    o.pushAs want config state = .ok done ↔
      ∃ ty inner, typeOf ⟨config.records, state.layout⟩ o.expr (some want) = .ok ty ∧
        o.emit ty config (state.seeing o.expr.line) = .ok inner ∧
        inner.state.layout.depth = state.layout.depth + 1 ∧
        done = ⟨(), inner.code, inner.state⟩ := by
  simp only [pushAs, bind_eq_ok_iff, value_eq_ok_iff, pure_apply, Except.ok.injEq]
  constructor
  · rintro ⟨_, _, ⟨ty, inner, hty, hinner, hdepth, rfl⟩, rfl, rfl⟩
    exact ⟨ty, inner, hty, hinner, hdepth, by simp⟩
  · rintro ⟨ty, inner, hty, hinner, hdepth, rfl⟩
    exact ⟨_, _, ⟨ty, inner, hty, hinner, hdepth, rfl⟩, rfl, by simp⟩

theorem depth_of_value (h : o.value expected config state = .ok done) :
    done.state.layout.depth = state.layout.depth + 1 := by
  obtain ⟨ty, inner, -, -, hdepth, rfl⟩ := value_eq_ok_iff.mp h
  exact hdepth

theorem depth_of_pushAs {want : Ty} {done : Step Unit}
    (h : o.pushAs want config state = .ok done) :
    done.state.layout.depth = state.layout.depth + 1 := by
  obtain ⟨ty, inner, -, -, hdepth, rfl⟩ := pushAs_eq_ok_iff.mp h
  exact hdepth

end Operand

/-! ## Parts of expressions -/

/-- Lists of operands are made one by one. -/
theorem operands_eq_map (es : List Expr) : operands es = es.map Expr.operand := by
  induction es with
  | nil => rfl
  | cons e es ih => rw [operands, ih, List.map_cons, Expr.operand]

theorem entryOperands_eq_map (entries : List (Expr × Expr)) :
    entryOperands entries = entries.map fun e => (e.1.operand, e.2.operand) := by
  induction entries with
  | nil => rfl
  | cons e entries ih => rw [entryOperands, ih, List.map_cons, Expr.operand, Expr.operand]

/-- What holds of the operands of all items holds of a list of operands. -/
theorem forall_mem_operands {P : Operand → Prop} {es : List Expr} (h : ∀ e ∈ es, P e.operand) :
    ∀ o ∈ operands es, P o := by
  rw [operands_eq_map]
  exact List.forall_mem_map.mpr h

theorem forall_mem_entryOperands {P : Operand → Prop} {entries : List (Expr × Expr)}
    (h : ∀ part ∈ entries.flatMap fun e => [e.1, e.2], P part.operand) :
    ∀ e ∈ entryOperands entries, P e.1 ∧ P e.2 := by
  rw [entryOperands_eq_map]
  refine List.forall_mem_map.mpr fun e he => ?_
  exact ⟨h _ (List.mem_flatMap.mpr ⟨e, he, by simp⟩), h _ (List.mem_flatMap.mpr ⟨e, he, by simp⟩)⟩

theorem keywordOperands_eq_map (keywords : List (Ident × Expr)) :
    keywordOperands keywords = keywords.map fun k => (k.1, k.2.operand) := by
  induction keywords with
  | nil => rfl
  | cons k keywords ih => rw [keywordOperands, ih, List.map_cons, Expr.operand]

/-- The expression is a call. -/
def Expr.isCall : Expr → Bool
  | .call _ _ _ _ => true
  | _ => false

/-- The expression in front of the attribute. -/
def Expr.receiver? : Expr → Option Expr
  | .attr _ value _ => some value
  | _ => none

/-- The expressions that are compiled on the way to the code of an expression. -/
def Expr.parts : Expr → List Expr
  | .name _ _ | .literal _ _ => []
  | .list _ items | .tuple _ items | .boolean _ _ items => items
  | .dict _ entries => entries.flatMap fun e => [e.1, e.2]
  | .attr _ value _ => [value]
  | .subscript _ value index => [value, index]
  | .call _ func args keywords => func :: func.receiver?.toList ++ args ++ keywords.map (·.2)
  | .compare _ left rest => left :: rest.map (·.2)
  | .binary _ left _ right => [left, right]
  | .unary _ _ operand => [operand]

/-- Parts are smaller, also the value in front of an attribute that is called. -/
theorem Expr.sizeOf_lt_of_mem_parts {part e : Expr} (h : part ∈ e.parts) :
    sizeOf part < sizeOf e := by
  have hsecond {β : Type} [SizeOf β] {xs : List (β × Expr)} (hmem : part ∈ xs.map (·.2)) :
      sizeOf part < sizeOf xs := by
    obtain ⟨⟨b, e⟩, hx, rfl⟩ := List.mem_map.mp hmem
    have hsize := List.sizeOf_lt_of_mem hx
    simp only [Prod.mk.sizeOf_spec] at hsize ⊢
    omega
  have hpair {a b : Expr} (hmem : part ∈ [a, b]) : part = a ∨ part = b := by simpa using hmem
  cases e with
  | name _ _ | literal _ _ => simp [parts] at h
  | list _ items | tuple _ items | boolean _ _ items =>
    have hsize := List.sizeOf_lt_of_mem (show part ∈ items from h)
    simp +arith only [list.sizeOf_spec, tuple.sizeOf_spec, boolean.sizeOf_spec]
    omega
  | dict _ entries =>
    obtain ⟨⟨key, value⟩, hentry, hpart⟩ := List.mem_flatMap.mp h
    have hsize := List.sizeOf_lt_of_mem hentry
    simp only [Prod.mk.sizeOf_spec, dict.sizeOf_spec] at hsize ⊢
    rcases hpair hpart with rfl | rfl <;> omega
  | attr _ value _ | unary _ _ value =>
    obtain rfl := List.mem_singleton.mp h
    simp only [attr.sizeOf_spec, unary.sizeOf_spec]
    omega
  | subscript _ a b | binary _ a _ b =>
    simp only [subscript.sizeOf_spec, binary.sizeOf_spec]
    rcases hpair h with rfl | rfl <;> omega
  | compare _ left rest =>
    simp only [compare.sizeOf_spec]
    rcases List.mem_cons.mp h with rfl | h
    · omega
    · have hsize := hsecond h
      omega
  | call _ func args keywords =>
    simp only [parts, List.cons_append, List.mem_cons, List.mem_append, Option.mem_toList] at h
    simp only [call.sizeOf_spec]
    rcases h with rfl | (h | h) | h
    · omega
    · cases func <;> simp only [receiver?, reduceCtorEq] at h
      cases h
      simp only [attr.sizeOf_spec]
      omega
    · have hsize := List.sizeOf_lt_of_mem h
      omega
    · have hsize := hsecond h
      omega

/-- What an expression inherits from its parts holds of all expressions. -/
theorem Expr.induction_parts {motive : Expr → Prop}
    (step : ∀ e, (∀ part ∈ e.parts, motive part) → motive e) (e : Expr) : motive e :=
  step e fun part hpart =>
    have := sizeOf_lt_of_mem_parts hpart
    induction_parts step part
termination_by sizeOf e

/-! ## Methods of maps -/

open Gen in
/-- What a method of a map does with its two arguments, of which the first is a key. -/
def Invocation.keyed (body : Operand → Operand → Ty → Ty → Gen Unit) (args : List Operand)
    (types : List Ty) : Gen Unit :=
  match args, types with
  | [key, other], [keyTy, valueTy] => body key other keyTy valueTy
  | [_, _], _ => defect .mapMethod
  | _, _ => defect .arity

/-! ## Calls of built-ins -/

/-- What a call of a built-in does once its arguments are checked. -/
def Gen.invoke (line : Nat) (name : Ident) (signature : Signature) (target : Builtin)
    (receiver : Option (Operand × Ty)) (args : List Operand) (keywords : List (Ident × Operand)) :
    Gen Unit := do
  annotate (.called name)
  if let some (operand, _) := receiver then
    let _ ← operand.value none
  let call : Invocation :=
    ⟨name, line, signature, args, keywords.map fun (k, o) => (k, o.expr)⟩
  call.emit target

/-! ## Parameters of entrypoints -/

/-- The parameter of an entrypoint, given those that it takes beside the contract itself. -/
def Gen.soleParam (entrypoint : Ident) : List Param → Gen (Ident × Ty)
  | [] => pure (Layout.parameterName, .unit)
  | [param] => do return (param.name, ← paramType param)
  | params => fail (.badArgument (.entrypointParams entrypoint params.length))

/-! ## Assignment targets -/

variable {scope : Scope} {line : Nat} {ty leaf : Ty} {rest : List Place} {steps : List PathStep}

/-- A step to an attribute starts in a record that has it. -/
theorem pathSteps_field_eq_ok_iff {attr : Ident} :
    pathSteps scope line ty (.field attr :: rest) = .ok (steps, leaf) ↔
      ∃ name fields node inner tail, ty = .record name fields ∧
        fieldNode name fields attr = .ok (node, inner) ∧
        pathSteps scope line inner rest = .ok (tail, leaf) ∧
        steps = .field name fields attr :: tail := by
  constructor
  · intro h
    cases ty with
    | record name fields =>
      rw [pathSteps] at h
      obtain ⟨⟨node, inner⟩, hnode, h⟩ := Except.bind_eq_ok_iff.mp h
      obtain ⟨⟨tail, leaf'⟩, htail, h⟩ := Except.bind_eq_ok_iff.mp h
      cases h
      exact ⟨name, fields, node, inner, tail, rfl, hnode, htail, rfl⟩
    | _ => simp [pathSteps, faultAt_ne_ok] at h
  · rintro ⟨name, fields, node, inner, tail, rfl, hnode, htail, rfl⟩
    simp [pathSteps, hnode, htail, Bind.bind, Except.bind, pure, Except.pure]

/-- A step to a key starts in a map and checks the key against its key type. -/
theorem pathSteps_key_eq_ok_iff {index : Expr} :
    pathSteps scope line ty (.key index :: rest) = .ok (steps, leaf) ↔
      ∃ key inner tail, ty.keyValue? = some (key, inner) ∧
        checkElement key (typing scope index) = .ok () ∧
        pathSteps scope line inner rest = .ok (tail, leaf) ∧
        steps = .key index.operand key :: tail := by
  rw [pathSteps]
  constructor
  · intro h
    split at h
    · next key inner hty =>
      obtain ⟨⟨⟩, hkey, h⟩ := Except.bind_eq_ok_iff.mp h
      obtain ⟨⟨tail, leaf'⟩, htail, h⟩ := Except.bind_eq_ok_iff.mp h
      cases h
      exact ⟨key, inner, tail, hty, hkey, htail, rfl⟩
    · exact absurd h faultAt_ne_ok
  · rintro ⟨key, inner, tail, hty, hkey, htail, rfl⟩
    simp [hty, hkey, htail, Bind.bind, Except.bind, pure, Except.pure]

/-- A target that can be assigned to starts at a variable and goes on in steps. -/
theorem Path.resolve_eq_ok {target : Expr} {path : Path}
    (h : Path.resolve scope target = .ok path) :
    ∃ places root, target.places? = some (path.root, places) ∧
      rootType scope target.line path.root = .ok root ∧
      pathSteps scope target.line root places = .ok (path.steps, path.leaf) := by
  unfold Path.resolve at h
  split at h
  · exact absurd h faultAt_ne_ok
  · next root places hplaces =>
    obtain ⟨ty, hroot, h⟩ := Except.bind_eq_ok_iff.mp h
    obtain ⟨⟨steps, leaf⟩, hsteps, h⟩ := Except.bind_eq_ok_iff.mp h
    cases h
    exact ⟨places, ty, hplaces, hroot, hsteps⟩

/-! ## Assignment -/

namespace Gen

variable {config : Config} {state : State} {done : Step Unit} {body : Gen Unit} {name : Ident}

/-- An assignment to a variable of a known type, declared or its own, or to a new one that takes its
type from the value. -/
theorem assignName_eq_ok {target : Expr} {declared : Option Ty} {value : Operand}
    (h : assignName target name declared value config state = .ok done) :
    (∃ want, (∀ ty, state.layout.ty? name = some ty → want = ty) ∧
        (∀ ty, declared = some ty → want = ty) ∧
        (declared = none → state.layout.ty? name = some want) ∧
        (do
          checkFits value.expr want
          value.pushAs want
          if (← layout).binds name then
            replace name
          else
            bindTop name want : Gen Unit) config state = .ok done) ∨
      (declared = none ∧ state.layout.ty? name = none ∧
        (do
          let ty ← value.value none
          bindTop name ty : Gen Unit) config state = .ok done) := by
  rw [assignName, layout_bind] at h
  -- the declared type comes first, then the one that the variable has
  cases declared with
  | none =>
    cases hty : state.layout.ty? name with
    | none =>
      rw [hty] at h
      exact .inr ⟨rfl, rfl, h⟩
    | some own =>
      rw [hty] at h
      exact .inl ⟨own, fun ty => Option.some.inj, by simp, fun _ => rfl, h⟩
  | some want =>
    cases hty : state.layout.ty? name with
    | none =>
      rw [hty] at h
      exact .inl ⟨want, by simp, by simp, by simp, h⟩
    | some own =>
      rw [hty] at h
      obtain ⟨heq, h⟩ := unless_failAt_eq_ok_iff.mp h
      exact .inl ⟨want, fun ty hown => heq.trans (Option.some.inj hown), by simp, by simp, h⟩

/-- An assignment goes to a variable, to the storage or to a place inside a variable. -/
theorem assign_eq_ok {target : Expr} {declared : Option Expr} {value : Expr}
    (h : assign target declared value config state = .ok done) :
    (∃ line name ty, target = .name line name ∧
        assignName target name ty value.operand config state = .ok done) ∨
      (target.name? = none ∧ (if target.isStorage then assignStorage value.operand
        else assignPath target value : Gen Unit) config state = .ok done) := by
  cases declared with
  | none =>
    rw [assign, Option.mapM_none, pure_bind] at h
    cases target with
    | name line name => exact .inl ⟨line, name, none, rfl, h⟩
    | attr | subscript => exact .inr ⟨rfl, h⟩
    | _ => exact absurd h failAt_ne_ok
  | some e =>
    simp only [assign, Option.mapM_some, map_eq_pure_bind, bind_assoc, pure_bind] at h
    obtain ⟨ty, -, h⟩ := denoted_bind_eq_ok_iff.mp h
    cases target with
    | name line name => exact .inl ⟨line, name, some ty, rfl, h⟩
    | attr | subscript => exact .inr ⟨rfl, h⟩
    | _ => exact absurd h failAt_ne_ok

/-- An expression statement has no code if it is a docstring. Otherwise its value is dropped, if it
leaves one. -/
theorem evaluate_eq_ok {value : Operand} (h : evaluate value config state = .ok done) :
    (∃ line text, value.expr = .literal line (.str text) ∧ done = ⟨(), [], state⟩) ∨
      (do
        let _ ← value.compile none
        if state.layout.depth < (← depth) then
          emit .drop
          pop 1 : Gen Unit) config state = .ok done := by
  have hcases : (∃ line text, value.expr = .literal line (.str text) ∧ evaluate value = pure ()) ∨
      evaluate value = (do
        let before ← depth
        let _ ← value.compile none
        if before < (← depth) then
          emit .drop
          pop 1) := by
    unfold evaluate
    split
    · next line text heq => exact .inl ⟨line, text, heq, rfl⟩
    · exact .inr rfl
  rcases hcases with ⟨line, text, heq, hpure⟩ | hcompiled
  · rw [hpure] at h
    exact .inl ⟨line, text, heq, (Except.ok.inj h).symm⟩
  · rw [hcompiled, depth_bind] at h
    exact .inr h

/-! ## Statements that hold blocks -/

/-- The number of cells after a conditional, given its branches. -/
def JoinedDepth (onTrue onFalse : Step Unit) (depth : Nat) : Prop :=
  ((onTrue.state.layout.depth = onFalse.state.layout.depth ∨ diverges onFalse.code = true) ∧
      depth = onTrue.state.layout.depth) ∨
    (diverges onTrue.code = true ∧ depth = onFalse.state.layout.depth)

/-- A conditional evaluates its test and compiles both branches from the layout beneath it. -/
theorem ifElse_eq_ok {test : Expr} {body orelse : Gen Unit}
    (h : ifElse test body orelse config state = .ok done) :
    ∃ (pushed onTrue onFalse : Step Unit) (depth : Nat),
      Covenant.typeOf ⟨config.records, state.layout⟩ test (some .bool) = .ok .bool ∧
      test.operand.pushAs .bool config state = .ok pushed ∧
      body config (pushed.state.atDepth state.layout.depth) = .ok onTrue ∧
      orelse config { onTrue.state with
        layout := pushed.state.layout.atDepth state.layout.depth } = .ok onFalse ∧
      JoinedDepth onTrue onFalse depth ∧
      done = ⟨(), pushed.code ++ [.ifElse onTrue.code onFalse.code],
        { onFalse.state with layout := pushed.state.layout.atDepth depth }⟩ := by
  obtain ⟨found, hfound, h⟩ := typeOf_bind_eq_ok_iff.mp h
  obtain ⟨rfl, h⟩ := unless_failAt_eq_ok_iff.mp h
  obtain ⟨pushed, rest, hpushed, hrest, rfl⟩ := bind_eq_ok_iff.mp h
  have hdepth := Operand.depth_of_pushAs hpushed
  obtain ⟨-, hrest⟩ := pop_bind_eq_ok_iff.mp hrest
  -- the test is gone when the branches start
  rw [hdepth, Nat.add_sub_cancel, layout_bind] at hrest
  obtain ⟨onTrue, htrue, hrest⟩ := block_bind_eq_ok_iff.mp hrest
  obtain ⟨onFalse, hfalse, hrest⟩ := block_bind_eq_ok_iff.mp hrest
  refine ⟨pushed, onTrue, onFalse, rest.state.layout.depth, hfound, hpushed, htrue, hfalse, ?_⟩
  dsimp only at hrest
  split at hrest
  · next hjoin =>
    simp only [pure_bind, setLayout_bind, emit_eq_ok_iff] at hrest
    subst hrest
    rw [Bool.or_eq_true, decide_eq_true_iff] at hjoin
    exact ⟨.inl ⟨hjoin, rfl⟩, rfl⟩
  · split at hrest
    · next hdiv =>
      simp only [pure_bind, setLayout_bind, emit_eq_ok_iff] at hrest
      subst hrest
      exact ⟨.inr ⟨hdiv, rfl⟩, rfl⟩
    · exact absurd hrest fail_bind_ne_ok

/-- A loop evaluates its list and compiles its body from the layout with one element in the list's
place. -/
theorem forIn_eq_ok {target : Ident} {iter : Expr}
    (h : forIn target iter body config state = .ok done) :
    ∃ (element : Ty) (pushed : Step Ty) (inner : Step Unit),
      Covenant.typeOf ⟨config.records, state.layout⟩ iter none = .ok (.list element) ∧
      iter.operand.value none config state = .ok pushed ∧
      freeingAfter target (do bindTop target element; body) config pushed.state = .ok inner ∧
      (inner.state.layout.depth = state.layout.depth ∨ diverges inner.code = true) ∧
      done = ⟨(), pushed.code ++ [.iter inner.code],
        { inner.state with layout := pushed.state.layout.atDepth state.layout.depth }⟩ := by
  obtain ⟨found, hfound, h⟩ := typeOf_bind_eq_ok_iff.mp h
  cases found with
  | list element =>
    obtain ⟨pushed, rest, hpushed, hrest, rfl⟩ := bind_eq_ok_iff.mp h
    have hdepth := Operand.depth_of_value hpushed
    rw [layout_bind] at hrest
    obtain ⟨-, hrest⟩ := pop_bind_eq_ok_iff.mp hrest
    obtain ⟨inner, hinner, hrest⟩ := block_bind_eq_ok_iff.mp hrest
    dsimp only at hrest
    rw [depth_bind, hdepth, Nat.add_sub_cancel] at hrest
    obtain ⟨hend, hrest⟩ := unless_failAt_eq_ok_iff.mp hrest
    obtain rfl := emit_eq_ok_iff.mp hrest
    rw [Bool.or_eq_true, decide_eq_true_iff] at hend
    exact ⟨element, pushed, inner, hfound, hpushed, hinner, hend, rfl⟩
  | _ => exact absurd h failAt_ne_ok

/-- A parameter has a type if it is annotated with one. -/
theorem paramType_bind_eq_ok_iff {β : Type} {param : Param} {next : Ty → Gen β} {done : Step β} :
    (paramType param >>= next) config state = .ok done ↔
      ∃ e ty, param.typeExpr = some e ∧ TypeExpr.type config.records e = .ok ty ∧
        next ty config state = .ok done := by
  unfold paramType
  cases param.typeExpr with
  | none | some => simp

/-- A function is compiled from a stack of its own with just the argument, and becomes a closure
bound to its name. -/
theorem function_eq_ok {params : List Param} {returns : Option Expr}
    (h : function name params returns body config state = .ok done) :
    ∃ (param : Param) (paramExpr result : Expr) (argTy resultTy : Ty) (start : Layout)
      (inner bound : Step Unit),
      state.layout.binds name = false ∧ params = [param] ∧
      param.typeExpr = some paramExpr ∧ TypeExpr.type config.records paramExpr = .ok argTy ∧
      returns = some result ∧ TypeExpr.type config.records result = .ok resultTy ∧
      ((state.layout.frame (.function name resultTy)).push 1).bind param.name argTy = .ok start ∧
      freeingAfter param.name body config { state with layout := start } = .ok inner ∧
      (diverges inner.code = true ∨ inner.state.layout.depth = 1) ∧
      bindTop name (.lambda argTy resultTy) config { inner.state with
        layout := (state.layout.push 1).setFormals name [param.name] } = .ok bound ∧
      done = ⟨(), .lambda argTy resultTy inner.code :: bound.code, bound.state⟩ := by
  unfold function at h
  rw [layout_bind] at h
  obtain ⟨hfresh, h⟩ := when_failAt_eq_ok_iff.mp h
  match params, h with
  | [], h | _ :: _ :: _, h => exact absurd h fail_ne_ok
  | [param], h =>
    obtain ⟨paramExpr, argTy, hparam, hargTy, h⟩ := paramType_bind_eq_ok_iff.mp h
    cases returns with
    | none => exact absurd h fail_bind_ne_ok
    | some result =>
      obtain ⟨resultTy, hresultTy, h⟩ := denoted_bind_eq_ok_iff.mp h
      dsimp only at h
      rw [layout_bind] at h
      obtain ⟨start, hstart, h⟩ := sound_bind_eq_ok_iff.mp h
      obtain ⟨inner, hinner, h⟩ := block_bind_eq_ok_iff.mp h
      -- a body that goes on has to leave just its result
      have hrest : (diverges inner.code = true ∨ inner.state.layout.depth = 1) ∧
          (do
            emit (.lambda argTy resultTy inner.code)
            push 1
            setLayout ((← layout).setFormals name [param.name])
            bindTop name (.lambda argTy resultTy)) config
              { inner.state with layout := state.layout } = .ok done := by
        dsimp only at h
        split at h
        · next hdiv => exact ⟨.inl hdiv, h⟩
        · obtain ⟨-, h⟩ := when_failAt_eq_ok_iff.mp h
          obtain ⟨hone, h⟩ := unless_failAt_eq_ok_iff.mp h
          exact ⟨.inr hone, h⟩
      obtain ⟨hend, h⟩ := hrest
      obtain ⟨bound, hbound, rfl⟩ := emit_bind_eq_ok_iff.mp h
      rw [push_bind, layout_bind, setLayout_bind] at hbound
      exact ⟨param, paramExpr, result, argTy, resultTy, start, inner, bound, by simpa using hfresh,
        rfl, hparam, hargTy, rfl, hresultTy, hstart, hinner, hend, hbound, rfl⟩

/-- What follows a step that aborts is left out, be it the rest of a block or what frees the variable
of a loop. -/
theorem unlessDiverges_eq_ok {first last : Gen Unit}
    (h : (do
      let ((), code) ← listen first
      unless diverges code do
        last) config state = .ok done) :
    ∃ inner, first config state = .ok inner ∧
      ((diverges inner.code = true ∧ done = inner) ∨
        (diverges inner.code = false ∧ ∃ rest, last config inner.state = .ok rest ∧
          done = ⟨(), inner.code ++ rest.code, rest.state⟩)) := by
  obtain ⟨_, rest, hlisten, hrest, rfl⟩ := bind_eq_ok_iff.mp h
  obtain ⟨inner, hinner, rfl⟩ := listen_eq_ok_iff.mp hlisten
  refine ⟨inner, hinner, ?_⟩
  dsimp only at hrest
  split at hrest
  · next hdiv =>
    cases hrest
    exact .inl ⟨hdiv, by simp⟩
  · next hdiv => exact .inr ⟨by simpa using hdiv, rest, hrest, rfl⟩

end Gen

end Covenant
