import Covenant.Gen.Stmt
import Covenant.Proofs.Translation.Expr

/-!
# Covenant — code of translated statements

The code of a translated statement follows the code of the statement (`agrees_compileStmt`). Whether
a statement aborts is read off its code, in which notes do not count, so a block of translated
statements stops where the block does.
-/

namespace Covenant

open Renaming Translation Layout

/-- The parameter with other names and lines. -/
def Param.under (τ : Translation) (p : Param) : Param := p.relabel τ id τ.lines

def Param.underAll (τ : Translation) (params : List Param) : List Param :=
  params.map (under τ)

/-- The statement with other names and lines. -/
def Stmt.under (τ : Translation) (s : Stmt) : Stmt := s.relabel τ id τ.lines

def Stmt.underAll (τ : Translation) (body : List Stmt) : List Stmt :=
  relabelAll τ id τ.lines body

variable {τ : Translation}

/-! ## Paths -/

namespace Place

/-- The names in a step of an assignment target. -/
def occurrences : Place → List Occurrence
  | field attr => [.label attr]
  | key index => index.occurrences

def under (τ : Translation) : Place → Place
  | field attr => field attr
  | key index => key (index.under τ)

end Place

theorem Expr.places?_under (τ : Translation) : ∀ e : Expr,
    (e.under τ).places? = e.places?.map fun (root, places) => (τ root, places.map (Place.under τ))
  | .name _ _ => rfl
  | .attr line value field => by
    have hstorage := isStorage_under τ (.attr line value field)
    change (attr (τ.lines line) (value.under τ) field).isStorage = _ at hstorage
    change (attr (τ.lines line) (value.under τ) field).places? = _
    rw [places?, places?, hstorage, places?_under τ value]
    by_cases h : (attr line value field).isStorage = true
    · have hroot := τ.storageName_eq
      rw [if_pos h, if_pos h, Option.map_some]
      exact congrArg (fun root => some (root, [])) hroot.symm
    · rw [if_neg h, if_neg h]
      cases value.places? with
      | none => rfl
      | some found => simp [Place.under]
  | .subscript line value index => by
    change (subscript (τ.lines line) (value.under τ) (index.under τ)).places? = _
    rw [places?, places?, places?_under τ value]
    cases value.places? with
    | none => rfl
    | some found => simp [Place.under]
  | .literal .. | .list .. | .tuple .. | .dict .. | .call .. | .compare .. | .binary .. | .unary ..
  | .boolean .. => rfl

/-- The steps of a target have no names that the target does not have. -/
theorem Expr.occurrences_places?_subset : ∀ {e : Expr} {root : Ident} {places : List Place},
    e.places? = some (root, places) → places.flatMap Place.occurrences ⊆ e.occurrences
  | .name _ _, _, _, h => by
    cases h
    exact List.nil_subset _
  | .attr line value field, root, places, h => by
    rw [places?] at h
    split at h
    · cases h
      exact List.nil_subset _
    · obtain ⟨⟨root', places'⟩, hvalue, heq⟩ := Option.map_eq_some_iff.mp h
      cases heq
      have hsub := occurrences_places?_subset hvalue
      intro o ho
      rw [List.flatMap_append, List.mem_append, List.flatMap_singleton] at ho
      rcases ho with ho | ho
      · exact List.mem_cons_of_mem _ (hsub ho)
      · exact List.mem_cons.mpr (.inl (List.mem_singleton.mp ho))
  | .subscript _ value index, root, places, h => by
    rw [places?] at h
    obtain ⟨⟨root', places'⟩, hvalue, heq⟩ := Option.map_eq_some_iff.mp h
    cases heq
    have hsub := occurrences_places?_subset hvalue
    intro o ho
    rw [List.flatMap_append, List.mem_append, List.flatMap_singleton] at ho
    exact List.mem_append.mpr (ho.imp (@hsub o) id)

/-- The same step, into a container of the same type; keys agree. -/
inductive PathStep.Agrees (τ : Translation) : PathStep → PathStep → Prop where
  | field (record : Ident) (fields : Fields) (attr : Ident) :
    Agrees τ (.field record fields attr) (.field record fields attr)
  | key {index index' : Operand} (h : index.Agrees τ index') (ty : Ty) :
    Agrees τ (.key index ty) (.key index' ty)

/-- Paths from the renamed variable through the same containers. -/
structure Path.Agrees (τ : Translation) (p p' : Path) : Prop where
  root : p'.root = τ p.root
  steps : List.Forall₂ (PathStep.Agrees τ) p.steps p'.steps
  leaf : p'.leaf = p.leaf

theorem agrees_pathSteps {scope : Scope} (hrecords : τ.FixesRecords scope.records) (line : Nat) :
    ∀ (ty : Ty) (places : List Place), τ.FixesLabels (places.flatMap Place.occurrences) →
      Lockstep τ.Moves (fun p p' => List.Forall₂ (PathStep.Agrees τ) p.1 p'.1 ∧ p'.2 = p.2)
        (pathSteps scope line ty places)
        (pathSteps (scope.mapNames τ) (τ.lines line) ty (places.map (Place.under τ)))
  | ty, [], _ => .ok ⟨.nil, rfl⟩
  | ty, .field attr :: rest, h => by
    rw [List.flatMap_cons, fixesLabels_append] at h
    cases ty with
    | record name fields =>
      refine (Gen.agrees_fieldNode name fields attr).andThen fun found => ?_
      refine (agrees_pathSteps hrecords line found.2 rest h.2).bind fun p p' hp => ?_
      exact .ok ⟨.cons (.field name fields attr) hp.1, hp.2⟩
    | _ => exact agrees_fault rfl
  | ty, .key index :: rest, h => by
    rw [List.flatMap_cons, fixesLabels_append] at h
    have hindex := Expr.agrees_operand (e := index) h.1
    cases hkeys : ty.keyValue? with
    | none =>
      simp only [List.map_cons, Place.under, pathSteps, hkeys]
      exact agrees_fault rfl
    | some found =>
      simp only [List.map_cons, Place.under, pathSteps, hkeys]
      refine (agrees_checkElement found.1 (agrees_typing hrecords index)).andThen fun _ => ?_
      refine (agrees_pathSteps hrecords line found.2 rest h.2).bind fun p p' hp => ?_
      exact .ok ⟨.cons (.key hindex found.1) hp.1, hp.2⟩

theorem agrees_rootType (τ : Translation) (scope : Scope) (line : Nat) (root : Ident) :
    τ.Agrees (rootType scope line root) (rootType (scope.mapNames τ) (τ.lines line) (τ root)) := by
  have hroot : (τ root = storageName) = (root = storageName) :=
    propext (τ.spares τ.storageName_eq root)
  simp only [rootType, hroot, Scope.mapNames, ty?_mapNames]
  refine .ite (agrees_storageType τ scope) ?_
  cases scope.layout.ty? root with
  | some ty => exact .ok rfl
  | none => exact agrees_faultAt line ((same_name root).map Cause.notDefined) rfl

theorem agrees_resolve {scope : Scope} (hrecords : τ.FixesRecords scope.records) {target : Expr}
    (h : τ.FixesLabels target.occurrences) :
    Lockstep τ.Moves (Path.Agrees τ) (Path.resolve scope target)
      (Path.resolve (scope.mapNames τ) (target.under τ)) := by
  have hplaces := Expr.places?_under τ target
  cases hfound : target.places? with
  | none =>
    rw [hfound, Option.map_none] at hplaces
    simp only [Path.resolve, hfound, hplaces, Expr.line_under]
    exact agrees_faultAt target.line
      ((Expr.same_text τ target).map fun text => Cause.unsupported (.notAssignable text)) rfl
  | some found =>
    obtain ⟨root, places⟩ := found
    have hsub := Expr.occurrences_places?_subset hfound
    rw [hfound, Option.map_some] at hplaces
    simp only [Path.resolve, hfound, hplaces, Expr.line_under]
    refine (agrees_rootType τ scope target.line root).andThen fun ty => ?_
    refine (agrees_pathSteps hrecords target.line ty places (h.of_subset hsub)).bind
      fun p p' hp => ?_
    exact .ok ⟨rfl, hp.1, hp.2⟩

namespace Gen

variable {value value' : Operand} {body body' : Gen Unit}

theorem agrees_openStep {step step' : PathStep} (h : step.Agrees τ step') :
    Agrees τ (openStep step) (openStep step') := by
  refine (agrees_emit_plain rfl).bind fun _ => (agrees_push 1).bind fun _ => ?_
  cases h with
  | field record fields attr => exact agrees_readField record fields attr
  | key hindex ty => exact agrees_lookUp hindex ty

theorem agrees_closeStep {step step' : PathStep} (h : step.Agrees τ step') :
    Agrees τ (closeStep step) (closeStep step') := by
  cases h with
  | field record fields attr =>
    exact Agrees.bind (follows_typed (agrees_fieldNode record fields attr)) fun _ => agrees_apply _
  | key hindex ty =>
    exact (agrees_apply .some).bind fun _ => (hindex.pushAs ty).bind fun _ =>
      agrees_apply .mapUpdate

theorem agrees_writeSteps {value value' : Gen Unit} (hvalue : Agrees τ value value')
    {steps steps' : List PathStep} (h : List.Forall₂ (PathStep.Agrees τ) steps steps') :
    Agrees τ (writeSteps value steps) (writeSteps value' steps') := by
  induction h with
  | nil => exact hvalue
  | cons hstep hrest ih =>
    -- the last container is not opened
    cases hrest with
    | nil => exact hvalue.bind fun _ => agrees_closeStep hstep
    | cons _ _ =>
      exact (agrees_openStep hstep).bind fun _ => ih.bind fun _ => agrees_closeStep hstep

theorem agrees_assignPath {target value : Expr} (htarget : τ.FixesLabels target.occurrences)
    (hvalue : τ.FixesLabels value.occurrences) :
    Agrees τ (assignPath target value) (assignPath (target.under τ) (value.under τ)) := by
  refine follows_scope_bind fun scope hrecords =>
    (follows_typed (agrees_resolve hrecords htarget)).bind fun p p' hp => ?_
  rw [hp.root, hp.leaf]
  exact (agrees_checkFits value p.leaf).bind fun _ => (agrees_fetch p.root).bind fun _ =>
    (agrees_writeSteps ((Expr.agrees_operand hvalue).pushAs p.leaf) hp.steps).bind fun _ =>
      agrees_replace p.root

/-! ## Assignment -/

theorem agrees_store (name : Ident) (want : Ty) :
    Agrees τ (do if (← layout).binds name then replace name else bindTop name want)
      (do if (← layout).binds (τ name) then replace (τ name) else bindTop (τ name) want) := by
  refine follows_layout_bind fun l => ?_
  rw [binds_mapNames]
  exact .ite (agrees_replace name) (agrees_bindTop name want)

theorem agrees_assignName (target : Expr) (name : Ident) (declared : Option Ty)
    (h : value.Agrees τ value') :
    Agrees τ (assignName target name declared value)
      (assignName (target.under τ) (τ name) declared value') := by
  unfold assignName
  rw [h.expr, Expr.line_under]
  refine follows_layout_bind fun l => ?_
  rw [ty?_mapNames]
  have hnew := (h.value none).bind fun ty => agrees_bindTop name ty
  have hold (want : Ty) := (agrees_checkFits value.expr want).bind fun _ =>
    (h.pushAs want).bind fun _ => agrees_store name want
  cases declared with
  | none =>
    cases l.ty? name with
    | none => exact hnew
    | some existing => exact hold existing
  | some declared =>
    cases l.ty? name with
    | none => exact hold declared
    | some existing => exact .ite (hold declared) (follows_failAt_bind _ .rfl)

theorem agrees_assignStorage (h : value.Agrees τ value') :
    Agrees τ (assignStorage value) (assignStorage value') := by
  have hreplace : Agrees τ _ _ := agrees_replace storageName
  rw [τ.storageName_eq] at hreplace
  unfold assignStorage
  rw [h.expr]
  exact agrees_storageType.bind fun want => (agrees_checkFits value.expr want).bind fun _ =>
    (h.pushAs want).bind fun _ => hreplace

theorem agrees_assign {target : Expr} (htarget : τ.FixesLabels target.occurrences)
    (declared : Option Expr) {value : Expr} (hvalue : τ.FixesLabels value.occurrences) :
    Agrees τ (assign target declared value)
      (assign (target.under τ) (Expr.underOption τ declared) (value.under τ)) := by
  have hoperand := Expr.agrees_operand hvalue
  have hstorage := Expr.isStorage_under τ target
  refine (agrees_mapM_denoted declared).bind fun declared => ?_
  cases target with
  | name line name => exact agrees_assignName _ name declared hoperand
  | attr | subscript =>
    change Agrees τ _ (if (Expr.under τ _).isStorage = true then _ else _)
    rw [hstorage]
    exact .ite (agrees_assignStorage hoperand) (agrees_assignPath htarget hvalue)
  | _ =>
    exact follows_failAt _
      ((Expr.same_text τ _).map fun text => Cause.unsupported (.notAssignable text))

/-! ## Simple statements -/

theorem agrees_evaluate (h : value.Agrees τ value') :
    Agrees τ (evaluate value) (evaluate value') := by
  have hdrop : Agrees τ (do emit .drop; pop 1) (do emit .drop; pop 1) :=
    (agrees_emit_plain rfl).bind fun _ => agrees_pop 1
  have hcode := agrees_depth.bind fun before => (h.compile none).bind fun _ =>
    agrees_depth.bind fun after =>
      Follows.ite (c := before < after) hdrop (agrees_pure ())
  unfold evaluate
  rw [h.expr]
  cases value.expr with
  | literal line literal =>
    cases literal with
    | str s => exact agrees_pure ()
    | _ => exact hcode
  | _ => exact hcode

theorem isException_under {scope : Scope} (hrecords : τ.FixesRecords scope.records) (e : Expr) :
    isException (scope.mapNames τ) (e.under τ) = isException scope e := by
  cases e with
  | name line name =>
    simp only [Expr.under, Expr.relabel, isException, Scope.mapNames, binds_mapNames,
      hrecords.contains, τ.isName_eq]
  | _ => rfl

theorem agrees_raised {scope : Scope} (hrecords : τ.FixesRecords scope.records) {value : Expr}
    (h : τ.FixesLabels value.occurrences) :
    Lockstep τ.Moves (fun e e' => e' = e.under τ ∧ τ.FixesLabels e.occurrences)
      (raised scope value) (raised (scope.mapNames τ) (value.under τ)) := by
  cases value with
  | call line func args keywords =>
    have hwhole : Lockstep τ.Moves (fun e e' => e' = e.under τ ∧ τ.FixesLabels e.occurrences)
        (.ok (.call line func args keywords) : Typed Expr)
        (.ok ((Expr.call line func args keywords).under τ)) := .ok ⟨rfl, h⟩
    rw [Expr.occurrences, fixesLabels_append, fixesLabels_append] at h
    change Lockstep τ.Moves _ _ (raised _ (.call (τ.lines line) (func.under τ)
      (Expr.underAll τ args) (Expr.underKeywords τ keywords)))
    simp only [raised, isException_under hrecords]
    refine .ite ?_ hwhole
    have hfault : τ.Same _ _ := (Expr.same_text τ func).map fun text =>
      Cause.badArgument (.exceptionArguments text)
    match args with
    | [message] =>
      have hmessage := h.2.1
      rw [Expr.allOccurrences, fixesLabels_append] at hmessage
      exact .ok ⟨rfl, hmessage.1⟩
    | [] | _ :: _ :: _ => exact agrees_faultAt line hfault rfl
  | _ => exact .ok ⟨rfl, h⟩

theorem agrees_raise {value : Option Expr}
    (h : τ.FixesLabels (Expr.optionOccurrences value)) :
    Agrees τ (raise value) (raise (Expr.underOption τ value)) := by
  cases value with
  | none => exact follows_fail .rfl
  | some value =>
    refine follows_scope_bind fun scope hrecords =>
      (follows_typed (agrees_raised hrecords h)).bind fun message message' hmessage => ?_
    obtain ⟨rfl, hlabels⟩ := hmessage
    exact ((Expr.agrees_operand hlabels).value none).bind fun _ =>
      (agrees_emit_plain rfl).bind fun _ => agrees_pop 1

theorem agrees_ret {value : Option Expr} (h : τ.FixesLabels (Expr.optionOccurrences value)) :
    Agrees τ (ret value) (ret (Expr.underOption τ value)) := by
  refine follows_layout_bind fun l => ?_
  rw [context_mapNames]
  cases l.context with
  | function name want =>
    cases value with
    | none => exact .ite (agrees_apply .unit) (follows_fail .rfl)
    | some value =>
      refine (Gen.agrees_typeOf value (some want)).bind fun found => ?_
      rw [Expr.line_under]
      exact .ite ((Expr.agrees_operand h).pushAs want) (follows_failAt_bind _ .rfl)
  | entrypoint name =>
    cases value with
    | none => exact follows_fail .rfl
    | some value => exact agrees_assignStorage (Expr.agrees_operand h)
  | module | deploy => exact follows_fail .rfl

/-! ## Blocks -/

theorem agrees_fromHere {body body' : Layout → Gen Unit}
    (h : ∀ l, Agrees τ (body l) (body' (l.mapNames τ))) :
    Agrees τ (fromHere body) (fromHere body') :=
  follows_layout_bind h

theorem agrees_paramType (param : Param) :
    Agrees τ (paramType param) (paramType (param.under τ)) := by
  obtain ⟨name, typeExpr, line⟩ := param
  cases typeExpr with
  | some e => exact agrees_denoted e
  | none =>
    exact follows_failAt line
      ((same_name name).map fun name => Cause.invalidType (.untypedParam name))

/-- What comes after a step unless it aborts. -/
theorem agrees_listen_bind {step step' next next' : Gen Unit} (h : Agrees τ step step')
    (hnext : Agrees τ next next') :
    Agrees τ (do let ((), code) ← listen step; unless diverges code do next)
      (do let ((), code) ← listen step'; unless diverges code do next') := by
  refine h.listen.bind fun p p' hp => ?_
  obtain ⟨⟨⟩, code⟩ := p
  obtain ⟨⟨⟩, code'⟩ := p'
  obtain ⟨-, rfl⟩ := hp
  dsimp only
  rw [τ.diverges_erase]
  exact .ite (agrees_pure ()) hnext

theorem agrees_freeingAfter (name : Ident) (h : Agrees τ body body') :
    Agrees τ (freeingAfter name body) (freeingAfter (τ name) body') :=
  agrees_listen_bind h (agrees_free name)

theorem agrees_ifElse {test : Expr} (htest : τ.FixesLabels test.occurrences)
    {body body' orelse orelse' : Gen Unit} (hbody : Agrees τ body body')
    (horelse : Agrees τ orelse orelse') :
    Agrees τ (ifElse test body orelse) (ifElse (test.under τ) body' orelse') := by
  unfold ifElse
  rw [Expr.line_under]
  refine (Gen.agrees_typeOf test (some .bool)).bind fun found =>
    .ite ?_ (follows_failAt_bind _ .rfl)
  refine ((Expr.agrees_operand htest).pushAs .bool).bind fun _ => (agrees_pop 1).bind fun _ =>
    follows_layout_bind fun start => ?_
  refine .block_bind hbody start fun trueCode trueEnd => ?_
  refine .block_bind horelse start fun falseCode falseEnd => ?_
  have hjoin (depth : Nat) : Agrees τ
      (do setLayout { start with depth := depth }
          emit (.ifElse (τ.erase trueCode) (τ.erase falseCode)))
      (do setLayout { start.mapNames τ with depth := depth }
          emit (.ifElse trueCode falseCode)) :=
    (agrees_setLayout { start with depth := depth }).bind fun _ =>
      agrees_emit (τ.erase_ifElse trueCode falseCode)
  simp only [Translation.diverges_erase, depth_mapNames]
  exact .ite (hjoin _) (.ite (hjoin _) (follows_fail_bind .rfl))

theorem agrees_forIn (target : Ident) {iter : Expr} (hiter : τ.FixesLabels iter.occurrences)
    (hbody : Agrees τ body body') :
    Agrees τ (forIn target iter body) (forIn (τ target) (iter.under τ) body') := by
  unfold forIn
  rw [Expr.line_under]
  refine (Gen.agrees_typeOf iter none).bind fun ty => ?_
  split
  · next element =>
    refine ((Expr.agrees_operand hiter).value none).bind fun _ =>
      follows_layout_bind fun start => (agrees_pop 1).bind fun _ => ?_
    have hloop := agrees_freeingAfter target ((agrees_bindTop target element).bind fun _ => hbody)
    refine .block_bind hloop start fun code final => agrees_depth.bind fun depth => ?_
    simp only [Translation.diverges_erase, depth_mapNames]
    exact .ite (agrees_emit_block code fun _ => rfl) (follows_fail_bind .rfl)
  · exact follows_failAt _ .rfl

/-- The closure is bound to the renamed function and takes the renamed argument. -/
theorem agrees_bindClosure (name formal : Ident) {i i' : Instr} (h : Agrees τ (emit i) (emit i'))
    (ty : Ty) :
    Agrees τ
      (do emit i; push 1; setLayout ((← layout).setFormals name [formal]); bindTop name ty)
      (do emit i'; push 1; setLayout ((← layout).setFormals (τ name) [τ formal])
          bindTop (τ name) ty) := by
  refine h.bind fun _ => (agrees_push 1).bind fun _ => follows_layout_bind fun l => ?_
  have hformals := setFormals_mapNames τ l name [formal]
  rw [List.map_singleton] at hformals
  rw [hformals]
  exact (agrees_setLayout _).bind fun _ => agrees_bindTop name ty

theorem agrees_function (name : Ident) (params : List Param) (returns : Option Expr)
    (hbody : Agrees τ body body') :
    Agrees τ (function name params returns body)
      (function (τ name) (Param.underAll τ params) (Expr.underOption τ returns)
        body') := by
  have hparams (found : Nat) : τ.Same _ _ := (same_name name).map fun name =>
    Cause.badArgument (.functionParams name found)
  unfold function
  refine follows_layout_bind fun l => ?_
  rw [binds_mapNames]
  refine .ite (follows_fail_bind ((same_name name).map Cause.alreadyDefined)) ?_
  match params with
  | [] => exact follows_fail (hparams 0)
  | _ :: _ :: rest =>
    simp only [Param.underAll, List.map_cons, List.length_cons, List.length_map]
    exact follows_fail (hparams _)
  | [param] =>
    refine (agrees_paramType param).bind fun argTy => ?_
    cases returns with
    | none =>
      exact follows_fail_bind ((same_name name).map fun name =>
        Cause.invalidType (.untypedResult name))
    | some e =>
      refine (agrees_denoted e).bind fun resultTy => follows_layout_bind fun l => ?_
      have hstart : (((l.mapNames τ).frame (.function (τ name) resultTy)).push 1).bind
          (τ param.name) argTy =
          (((l.frame (.function name resultTy)).push 1).bind param.name argTy).map
            (mapNames τ) :=
        bind_mapNames τ ((l.frame (.function name resultTy)).push 1) param.name argTy
      simp only [Param.under, Param.relabel, hstart]
      refine follows_sound_bind fun start _ => ?_
      refine .block_bind (agrees_freeingAfter param.name hbody) start fun code final => ?_
      have hbind : Agrees τ _ _ := agrees_bindClosure name param.name
        (agrees_emit_block (i := .lambda argTy resultTy) code fun _ => rfl) (.lambda argTy resultTy)
      simp only [Translation.diverges_erase, depth_mapNames]
      refine .ite hbind (.ite (follows_fail_bind .rfl) (.ite hbind ?_))
      exact follows_fail_bind ((same_name name).map fun name =>
        Cause.unsupported (.extraValues name))

end Gen

/-! ## The recursion over statements -/

open Gen

mutual

/-- The code of a translated statement follows the code of the statement. -/
theorem agrees_compileStmt : ∀ s : Stmt, τ.FixesLabels s.occurrences →
    Gen.Agrees τ (compileStmt s) (compileStmt (s.under τ))
  | .function line name params returns body, h => by
    rw [Stmt.occurrences, fixesLabels_var_cons, fixesLabels_append, fixesLabels_append] at h
    exact (agrees_seen line).bind fun _ => agrees_function name params returns
      (agrees_fromHere (agrees_compileBody body h.2.2))
  | .classDef line _ _ _ _, _ =>
    (agrees_seen line).bind fun _ => follows_layout_bind fun l =>
      follows_fail ((same_context l.context).map Cause.invalidStatement)
  | .assign line target value, h => by
    rw [Stmt.occurrences, fixesLabels_append] at h
    exact (agrees_seen line).bind fun _ => agrees_assign h.1 none h.2
  | .annotated line target declared value, h => by
    rw [Stmt.occurrences, fixesLabels_append, fixesLabels_append] at h
    refine (agrees_seen line).bind fun _ => ?_
    cases value with
    | none => exact follows_fail .rfl
    | some value => exact agrees_assign h.1 (some declared) h.2.2
  | .augmented line _ _ _, _ => (agrees_seen line).bind fun _ => follows_defect _
  | .expr line value, h =>
    (agrees_seen line).bind fun _ => agrees_evaluate (Expr.agrees_operand h)
  | .ifElse line test body orelse, h => by
    rw [Stmt.occurrences, fixesLabels_append, fixesLabels_append] at h
    exact (agrees_seen line).bind fun _ => agrees_ifElse h.1
      (agrees_fromHere (agrees_compileBody body h.2.1))
      (agrees_fromHere (agrees_compileBody orelse h.2.2))
  | .forIn line target iter body, h => by
    rw [Stmt.occurrences, fixesLabels_var_cons, fixesLabels_append] at h
    exact (agrees_seen line).bind fun _ => agrees_forIn target h.1
      (agrees_fromHere (agrees_compileBody body h.2))
  | .raise line value, h => (agrees_seen line).bind fun _ => agrees_raise h
  | .ret line value, h => (agrees_seen line).bind fun _ => agrees_ret h
  | .imports line _, _ | .pass line, _ => agrees_seen line

/-- A block of translated statements stops where the block does and frees the renamed variables. -/
theorem agrees_compileBody : ∀ body : List Stmt, τ.FixesLabels (Stmt.allOccurrences body) →
    ∀ outer : Layout, Gen.Agrees τ (compileBody body outer)
      (compileBody (Stmt.underAll τ body) (outer.mapNames τ))
  | [], _, outer => by
    refine follows_layout_bind fun l => ?_
    rw [declaredSince_mapNames]
    exact agrees_freeAll _
  | s :: rest, h, outer => by
    rw [Stmt.allOccurrences, fixesLabels_append] at h
    exact agrees_listen_bind (agrees_compileStmt s h.1) (agrees_compileBody rest h.2 outer)

end

theorem agrees_compileBlock {body : List Stmt} (h : τ.FixesLabels (Stmt.allOccurrences body)) :
    Gen.Agrees τ (compileBlock body) (compileBlock (Stmt.underAll τ body)) :=
  agrees_fromHere (agrees_compileBody body h)

end Covenant
