import Covenant.Proofs.Gen.Rules
import Covenant.Proofs.Typing.Stable

/-!
# Covenant — how a contract is put together

A compiled contract, taken apart again. `contractProgram_eq_ok` names the runs behind the parts of
the contract: the module-level statements behind its preamble, the storage initializer behind its
initial storage, and one method behind each entrypoint. All of them run under one configuration,
which holds every record class of the program.

`Module.compile_eq_ok` and `Module.compileStatements_eq_ok_iff` start from the compiler itself.
-/

namespace Covenant

namespace Gen

variable {α : Type} {config : Config} {state : State}

/-! ## Record classes -/

/-- Declared attributes have settled types. -/
theorem known_of_recordFields (hrecords : config.records.Settled) {record : Ident}
    {body : List Stmt} {done : Step Fields}
    (hdone : recordFields record body config state = .ok done) :
    Ty.hasUnknownField done.result = false := by
  induction body generalizing state done with
  | nil =>
    cases hdone
    rfl
  | cons s rest ih =>
    unfold recordFields at hdone
    split at hdone
    · next target _ =>
      cases hname : target.name? <;> rw [hname] at hdone
      case none => exact absurd hdone failAt_ne_ok
      case some field =>
        obtain ⟨fieldTy, hty, hdone⟩ := denoted_bind_eq_ok_iff.mp hdone
        obtain ⟨others, last, hothers, hlast, rfl⟩ := bind_eq_ok_iff.mp hdone
        cases hlast
        have hknown := TypeExpr.known_of_type hrecords hty
        show Ty.hasUnknownField ((field, fieldTy) :: others.result) = false
        rw [Ty.hasUnknownField, hknown, ih hothers]
        rfl
    · exact ih hdone
    · split at hdone
      · exact ih hdone
      · exact absurd hdone failAt_ne_ok

/-- A new record class has attributes, and these have settled types. -/
theorem settled_of_recordClass (hrecords : config.records.Settled) {name : Ident}
    {body : List Stmt} {done : Step Fields} (hdone : recordClass name body config state = .ok done) :
    Records.Settled (config.records.insert name done.result) := by
  intro other fields hfields
  rw [Table.get?_insert] at hfields
  split at hfields
  · cases hfields
    unfold recordClass at hdone
    rw [scope_bind] at hdone
    split at hdone
    · exact absurd hdone fail_bind_ne_ok
    obtain ⟨found, last, hfound, hlast, rfl⟩ := bind_eq_ok_iff.mp hdone
    have hknown := known_of_recordFields hrecords hfound
    split at hlast
    · exact absurd hlast fail_bind_ne_ok
    · next hsome =>
      split at hlast
      · exact absurd hlast fail_ne_ok
      · cases hlast
        exact ⟨by simpa using hsome, hknown⟩
  · exact hrecords hfields

/-- Defining record classes changes the configuration only, one new record at a time. -/
theorem withRecordClasses_eq_ok (hstart : config.records.Settled) {step : Gen α} {body : List Stmt}
    {done : Step α} (h : withRecordClasses step body config state = .ok done) :
    ∃ (config' : Config) (state' : State) (inner : Step α), config'.records.Settled ∧
      config'.traced = config.traced ∧ step config' state' = .ok inner ∧
      done.result = inner.result := by
  induction body generalizing config state done with
  | nil => exact ⟨config, state, done, hstart, rfl, h, rfl⟩
  | cons s rest ih =>
    cases s with
    | classDef line name bases decorators body =>
      rw [withRecordClasses] at h
      split at h
      · rw [seen_bind] at h
        obtain ⟨fields, last, hfields, hlast, rfl⟩ := bind_eq_ok_iff.mp h
        have hrest : withRecordClasses step rest
            { config with records := config.records.insert name fields.result } fields.state =
            .ok last := hlast
        obtain ⟨config', state', inner, hrecords, htraced, hinner, heq⟩ :=
          ih (settled_of_recordClass hstart hfields) hrest
        exact ⟨config', state', inner, hrecords, htraced, hinner, heq⟩
      · exact ih hstart h
    | _ =>
      rw [withRecordClasses] at h
      · exact ih hstart h
      · simp

/-! ## Module-level statements -/

end Gen

namespace Stmt

/-- A class that is the contract, with its members. -/
def contract? : Stmt → Option (List Stmt)
  | classDef _ name bases decorators body =>
    if !isRecordClass decorators && isContractClass name bases then some body else none
  | _ => none

/-- A statement that is compiled where it stands, at the top level of a module. -/
def isCode (s : Stmt) : Bool :=
  match s with
  | classDef .. | imports .. | pass _ => false
  | s => !s.isDocstring

/-- What is wrong with a class, where there has been a contract class before or not. -/
def refusal? (found : Bool) : Stmt → Option Cause
  | classDef _ name bases decorators _ =>
    if isRecordClass decorators then none
    else if isContractClass name bases then if found then some (.alreadyDefined name) else none
    else some (.unsupported (.unknownClass name))
  | _ => none

theorem eq_classDef_of_contract? {s : Stmt} {members : List Stmt}
    (h : s.contract? = some members) :
    ∃ line name bases decorators, s = classDef line name bases decorators members ∧
      isRecordClass decorators = false ∧ isContractClass name bases = true := by
  cases s with
  | classDef line name bases decorators body =>
    rw [contract?] at h
    split at h
    · next hclass =>
      cases h
      exact ⟨line, name, bases, decorators, rfl, by simpa using hclass⟩
    · cases h
  | _ => cases h

theorem contract?_eq_none {s : Stmt} (h : s.refusal? true = none) : s.contract? = none := by
  cases s with
  | classDef line name bases decorators body =>
    cases hrecord : isRecordClass decorators <;> cases hcontract : isContractClass name bases <;>
      simp_all [refusal?, contract?]
  | _ => rfl

end Stmt

namespace Gen

/-- What the prologue does with one statement: it compiles code, and looks for the contract class
otherwise. -/
theorem prologue_cons {contract : Option (List Stmt)} {s : Stmt} {rest : List Stmt} :
    prologue contract (s :: rest) = (do
      seen s.line
      if s.isCode then
        if contract.isSome then fail (.unsupported .afterContract)
        else do
          compileStmt s
          prologue contract rest
      else match s.refusal? contract.isSome with
        | some cause => fail cause
        | none => prologue (contract.or s.contract?) rest) := by
  cases s with
  | classDef line name bases decorators body =>
    cases hrecord : isRecordClass decorators <;> cases hcontract : isContractClass name bases <;>
      cases contract <;>
      simp [prologue, Stmt.isCode, Stmt.refusal?, Stmt.contract?, hrecord, hcontract]
  | imports | pass => simp [prologue, Stmt.isCode, Stmt.refusal?, Stmt.contract?]
  | _ =>
    simp only [prologue]
    cases hdoc : Stmt.isDocstring _ <;> simp [Stmt.isCode, Stmt.refusal?, Stmt.contract?, hdoc]

variable {contract : Option (List Stmt)} {body : List Stmt} {done : Step (Option (List Stmt))}

theorem prologue_cons_eq_ok {s : Stmt} {rest : List Stmt}
    (h : prologue contract (s :: rest) config state = .ok done) :
    (s.isCode = false ∧ (contract = none ∨ s.contract? = none) ∧
      prologue (contract.or s.contract?) rest config (state.seeing s.line) = .ok done) ∨
    ∃ first last, s.isCode = true ∧ contract = none ∧
      compileStmt s config (state.seeing s.line) = .ok first ∧
      prologue none rest config first.state = .ok last ∧
      done = { last with code := first.code ++ last.code } := by
  rw [prologue_cons, seen_bind] at h
  split at h
  · next hcode =>
    cases contract with
    | some members => exact absurd h fail_ne_ok
    | none =>
      obtain ⟨first, last, hfirst, hlast, rfl⟩ := bind_eq_ok_iff.mp h
      exact .inr ⟨first, last, hcode, rfl, hfirst, hlast, rfl⟩
  · next hcode =>
    cases hclass : s.refusal? contract.isSome with
    | some cause =>
      rw [hclass] at h
      exact absurd h fail_ne_ok
    | none =>
      rw [hclass] at h
      refine .inl ⟨by simpa using hcode, ?_, h⟩
      cases contract with
      | none => exact .inl rfl
      | some members => exact .inr (Stmt.contract?_eq_none hclass)

/-- The contract class is the only one of the program. -/
theorem prologue_result (h : prologue contract body config state = .ok done) :
    done.result.toList = contract.toList ++ body.filterMap Stmt.contract? := by
  induction body generalizing contract state done with
  | nil =>
    cases h
    simp
  | cons s rest ih =>
    rcases prologue_cons_eq_ok h with ⟨-, hnone, hrest⟩ | ⟨first, last, hcode, rfl, -, hrest, rfl⟩
    · rw [ih hrest, List.filterMap_cons]
      rcases hnone with rfl | hnone
      · cases s.contract? <;> rfl
      · rw [hnone, Option.or_none]
    · have hnone : s.contract? = none := by cases s <;> first | rfl | cases hcode
      rw [List.filterMap_cons_none hnone, ← ih hrest]

/-- The contract class is a class of the program. -/
theorem exists_of_prologue {members : List Stmt} (h : prologue none body config state = .ok done)
    (hmembers : done.result = some members) :
    ∃ line name bases decorators, .classDef line name bases decorators members ∈ body ∧
      isRecordClass decorators = false ∧ isContractClass name bases = true := by
  have hresult := prologue_result h
  rw [hmembers, Option.toList_none, List.nil_append] at hresult
  obtain ⟨s, hs, hcontract⟩ : ∃ s ∈ body, s.contract? = some members := by
    rw [← List.mem_filterMap, ← hresult]
    exact List.mem_singleton_self members
  obtain ⟨line, name, bases, decorators, rfl, hclass⟩ := Stmt.eq_classDef_of_contract? hcontract
  exact ⟨line, name, bases, decorators, hs, hclass⟩

end Gen

/-! ## The members of a contract class -/

/-- The statement that defines a method. -/
def Method.stmt (m : Method) : Stmt := .function m.line m.name m.params m.returns m.body

namespace Stmt

/-- The method that a member of the contract class defines. -/
def method? : Stmt → Option Method
  | .function line name params returns body => some ⟨line, name, params, returns, body⟩
  | _ => none

/-- The statements that may stand in the contract class. -/
def isMember : Stmt → Bool
  | .function .. | .pass _ => true
  | s => s.isDocstring

/-- The storage initializers among the members of a class. -/
def initializers (body : List Stmt) : List Method :=
  (body.filterMap method?).filter (·.name = "deploy")

/-- The methods of a class that become entrypoints. -/
def entryMethods (body : List Stmt) : List Method :=
  (body.filterMap method?).filter (·.name ≠ "deploy")

theorem eq_stmt_of_method? {s : Stmt} {m : Method} (h : s.method? = some m) : s = m.stmt := by
  cases s with
  | function line name params returns body =>
    cases h
    rfl
  | _ => cases h

variable {s : Stmt} {m : Method} {rest : List Stmt}

theorem entryMethods_cons_of_none (h : s.method? = none) :
    entryMethods (s :: rest) = entryMethods rest := by
  rw [entryMethods, List.filterMap_cons_none h, entryMethods]

theorem initializers_cons_stmt :
    initializers (m.stmt :: rest) =
      if m.name = "deploy" then m :: initializers rest else initializers rest := by
  simp [initializers, Method.stmt, method?, List.filter_cons]

theorem entryMethods_cons_stmt :
    entryMethods (m.stmt :: rest) =
      if m.name = "deploy" then entryMethods rest else m :: entryMethods rest := by
  simp [entryMethods, Method.stmt, method?, List.filter_cons]

end Stmt

open Stmt

namespace Gen

variable {init : Option Method} {body : List Stmt} {method : Method}

/-- The state after the lines of all statements have been seen, one after the other. -/
def State.seeingAll (state : State) (body : List Stmt) : State :=
  body.foldl (fun seen s => seen.seeing s.line) state

theorem State.layout_seeingAll (state : State) (body : List Stmt) :
    (state.seeingAll body).layout = state.layout := by
  induction body generalizing state with
  | nil => rfl
  | cons s rest ih => exact (ih _).trans (state.layout_seeing s.line)

variable {config : Config} {state : State}

/-- A member that defines no method is passed over. -/
theorem members_cons_of_none {s : Stmt} {rest : List Stmt} (h : s.method? = none) :
    members init (s :: rest) config state =
      (if s.isMember then members init rest else fail (.unsupported .contractMember))
        config (state.seeing s.line) := by
  cases s with
  | function => cases h
  | _ =>
    simp only [members, seen_bind]
    rfl

theorem members_cons_stmt {m : Method} {rest : List Stmt} :
    members init (m.stmt :: rest) config state =
      (if m.name = "deploy" then
        if init.isSome then fail (.alreadyDefined "deploy") else members (some m) rest
      else do
        let (init, methods) ← members init rest
        return (init, m :: methods)) config (state.seeing m.line) := by
  simp only [Method.stmt, members, seen_bind]
  rfl

/-- The members of a class are methods, `pass` and strings. They are looked at in order, and at most
one of them is the storage initializer. -/
theorem members_eq_ok_iff {done : Step (Option Method × List Method)} :
    members init body config state = .ok done ↔ (∀ s ∈ body, s.isMember = true) ∧
      done.result.1.toList = init.toList ++ initializers body ∧
      done.result.2 = entryMethods body ∧ done.code = [] ∧ done.state = state.seeingAll body := by
  induction body generalizing init state done with
  | nil =>
    obtain ⟨⟨found, methods⟩, code, after⟩ := done
    constructor
    · rintro ⟨⟩
      simp [initializers, entryMethods, State.seeingAll]
    · rintro ⟨-, hinit, rfl, rfl, rfl⟩
      obtain rfl : found = init := by
        cases found <;> cases init <;> simp_all [initializers]
      rfl
  | cons s rest ih =>
    cases hmethod : s.method? with
    | none =>
      rw [members_cons_of_none hmethod, entryMethods_cons_of_none hmethod, initializers,
        List.filterMap_cons_none hmethod, ← initializers, List.forall_mem_cons]
      split
      · next hmember => simp [ih, hmember, State.seeingAll]
      · next hmember => simp [hmember, fail_ne_ok]
    | some m =>
      obtain rfl := eq_stmt_of_method? hmethod
      have hmember : m.stmt.isMember = true := rfl
      have hline : m.stmt.line = m.line := rfl
      rw [members_cons_stmt, initializers_cons_stmt, entryMethods_cons_stmt, List.forall_mem_cons]
      by_cases hname : m.name = "deploy"
      · simp only [if_pos hname]
        cases init with
        | some first =>
          obtain ⟨⟨found, methods⟩, code, after⟩ := done
          cases found <;> simp [fail_ne_ok]
        | none => simp [ih, hmember, hline, State.seeingAll]
      · simp only [if_neg hname, bind_eq_ok_iff]
        obtain ⟨⟨found, methods⟩, code, after⟩ := done
        constructor
        · rintro ⟨tail, last, htail, hlast, heq⟩
          cases hlast
          obtain ⟨hmembers, hinit, hmethods, hcode, hstate⟩ := ih.mp htail
          cases heq
          exact ⟨⟨rfl, hmembers⟩, hinit, congrArg (m :: ·) hmethods, by simp [hcode], hstate⟩
        · rintro ⟨⟨-, hmembers⟩, hinit, hmethods, rfl, rfl⟩
          refine ⟨⟨(found, entryMethods rest), [], _⟩, _, ih.mpr ⟨hmembers, hinit, rfl, rfl, rfl⟩,
            rfl, ?_⟩
          cases hmethods
          rfl

/-- The methods of a contract are functions of its class. -/
theorem stmt_mem_of_members {done : Step (Option Method × List Method)}
    (h : members none body config state = .ok done) {m : Method}
    (hm : m ∈ done.result.1 ∨ m ∈ done.result.2) : m.stmt ∈ body := by
  obtain ⟨-, hinit, hmethods, -⟩ := members_eq_ok_iff.mp h
  have hmem : m ∈ body.filterMap method? := by
    rcases hm with hm | hm
    · exact (List.mem_filter.mp (hinit ▸ Option.mem_toList.mpr hm)).1
    · exact (List.mem_filter.mp (hmethods ▸ hm)).1
  obtain ⟨s, hs, hmethod⟩ := List.mem_filterMap.mp hmem
  exact eq_stmt_of_method? hmethod ▸ hs

/-! ## The storage initializer -/

/-- A storage initializer evaluates one expression on a stack of its own, as the declared storage
type if there is one. -/
theorem deploy_eq_ok {done : Step (Ty × Code)} (h : deploy method config state = .ok done) :
    ∃ (line : Nat) (init : Expr) (declared : Option Ty) (inner : Step Ty),
      Stmt.ret line (some init) ∈ method.body ∧
      (∀ want, declared = some want → ∃ e, TypeExpr.type config.records e = .ok want) ∧
      (∀ want, declared = some want → ∃ found,
        Covenant.typeOf ⟨config.records, .empty .deploy⟩ init (some want) = .ok found ∧
          found.fits want = true) ∧
      init.operand.value declared config ⟨.empty .deploy, state.line⟩ = .ok inner ∧
      done.state.layout = state.layout ∧
      done.result = (declared.getD inner.result, inner.code) := by
  unfold deploy at h
  generalize hbody : (method.body.filter fun s => !s.isDocstring) = body at h
  split at h
  · next line init =>
    have hmem : Stmt.ret line (some init) ∈ method.body := by
      have hmem : Stmt.ret line (some init) ∈ method.body.filter fun s => !s.isDocstring := by
        rw [hbody]
        exact List.mem_singleton_self _
      exact (List.mem_filter.mp hmem).1
    cases hreturns : method.returns with
    | none =>
      rw [hreturns] at h
      simp only [Option.mapM_none, pure_bind] at h
      obtain ⟨inner, hinner, h⟩ := apart_bind_eq_ok_iff.mp h
      cases h
      exact ⟨line, init, none, inner, hmem, by simp, by simp, hinner, rfl, rfl⟩
    | some e =>
      rw [hreturns] at h
      simp only [Option.mapM_some, map_eq_pure_bind, bind_assoc, pure_bind] at h
      obtain ⟨want, hwant, h⟩ := denoted_bind_eq_ok_iff.mp h
      obtain ⟨inner, hinner, h⟩ := apart_bind_eq_ok_iff.mp h
      cases h
      obtain ⟨found, hfound, hfits, hinner⟩ := checkFits_bind_eq_ok_iff.mp hinner
      refine ⟨line, init, some want, inner, hmem, ?_, ?_, hinner, rfl, rfl⟩
      · rintro _ ⟨⟩
        exact ⟨e, hwant⟩
      · rintro _ ⟨⟩
        exact ⟨found, hfound, hfits⟩
  · exact absurd h fail_ne_ok

/-! ## Entrypoints -/

/-- The parameter of an entrypoint is one of its method's, or there is none. -/
theorem entrypointParam_eq_ok {done : Step (Ident × Ty)}
    (h : entrypointParam method config state = .ok done) :
    done.state = state ∧ (done.result = (Layout.parameterName, .unit) ∨ ∃ param ∈ method.params, ∃ e,
      TypeExpr.type config.records e = .ok done.result.2 ∧ done.result.1 = param.name) := by
  -- whichever parameters there are beside the contract itself
  have hchosen (params : List Param) (h : soleParam method.name params config state = .ok done)
      (hsub : params ⊆ method.params) : done.state = state ∧
      (done.result = (Layout.parameterName, .unit) ∨ ∃ param ∈ method.params, ∃ e,
        TypeExpr.type config.records e = .ok done.result.2 ∧ done.result.1 = param.name) := by
    unfold soleParam at h
    split at h
    · cases h
      exact ⟨rfl, .inl rfl⟩
    · next param =>
      obtain ⟨e, ty, -, hty, h⟩ := paramType_bind_eq_ok_iff.mp h
      cases h
      refine ⟨rfl, .inr ?_⟩
      exact ⟨param, hsub (List.mem_singleton_self param), e, hty, rfl⟩
    · exact absurd h fail_ne_ok
  unfold entrypointParam at h
  cases hparams : method.params with
  | nil =>
    rw [hparams] at h
    exact hparams ▸ hchosen [] h (List.nil_subset _)
  | cons first rest =>
    rw [hparams] at h
    rw [← hparams]
    dsimp only at h
    by_cases hself : first.name = "self"
    · rw [if_pos hself] at h
      exact hchosen rest h (by simp [hparams])
    · rw [if_neg hself] at h
      exact hchosen (first :: rest) h (by simp [hparams])

/-- At its end an entrypoint drops all variables but two, in some order, and pairs these. The names
of the two are not dropped: the layout after the pair has a cell less and still binds them. -/
theorem epilogue_eq_ok {done : Step Unit} (h : epilogue config state = .ok done) :
    ∃ (order : List Ident) (code : Code) (l : Layout),
      (∀ name ∈ order, name ≠ Layout.storageName ∧ name ≠ Layout.operationsName) ∧
      (∀ name, l.binds name = true → name = Layout.storageName ∨ name = Layout.operationsName) ∧
      state.layout.dropNames order = .ok (code, l) ∧
      done.code = code ++ ((if l.binds Layout.operationsName then [] else [.prim (.nil .operation)]) ++
        [.prim (.pair 2)]) ∧
      done.state.layout =
        l.atDepth (if l.binds Layout.operationsName then l.depth - 1 else l.depth) := by
  rw [epilogue, layout_bind] at h
  obtain ⟨first, rest, hfirst, hrest, rfl⟩ := bind_eq_ok_iff.mp h
  obtain ⟨code, l, hfree, rfl⟩ := freeAll_eq_ok_iff.mp hfirst
  obtain ⟨order, hperm, hdrop⟩ := Layout.freeAll_eq_ok hfree
  have horder (name : Ident) : name ∈ order ↔ state.layout.binds name = true ∧
      name ≠ Layout.storageName ∧ name ≠ Layout.operationsName := by
    rw [hperm.mem_iff, List.mem_filter, Layout.mem_names_iff]
    simp
  refine ⟨order, code, l, fun name hname => ((horder name).mp hname).2, fun name hname => ?_, hdrop,
    ?_⟩
  · -- whatever is bound and neither of the two has been dropped
    obtain ⟨hbound, hkept⟩ := Layout.binds_of_dropNames hdrop hname
    by_cases hstorage : name = Layout.storageName
    · exact .inl hstorage
    · by_cases hoperations : name = Layout.operationsName
      · exact .inr hoperations
      · exact absurd ((horder name).mpr ⟨hbound, hstorage, hoperations⟩) hkept
  · rw [layout_bind] at hrest
    dsimp only at hrest ⊢
    split at hrest
    · next hbound =>
      obtain ⟨htwo, rfl⟩ := apply_eq_ok_iff.mp hrest
      have hdepth : l.depth - 2 + 1 = l.depth - 1 := by
        have htwo : 2 ≤ l.depth := htwo
        omega
      rw [if_pos hbound, if_pos hbound]
      exact ⟨rfl, congrArg l.atDepth hdepth⟩
    · next hfree =>
      obtain ⟨-, last, hlast, rfl⟩ := apply_bind_eq_ok_iff.mp hrest
      obtain ⟨htwo, rfl⟩ := apply_eq_ok_iff.mp hlast
      have hdepth : l.depth - 0 + 1 - 2 + 1 = l.depth := by
        have htwo : 2 ≤ l.depth - 0 + 1 := htwo
        omega
      rw [if_neg hfree, if_neg hfree]
      exact ⟨rfl, congrArg l.atDepth hdepth⟩

/-- An entrypoint is compiled from the layout with its parameter on top. -/
theorem entrypoint_eq_ok {base : Layout} {storage : Ty} {done : Step Entrypoint}
    (h : entrypoint method base storage config state = .ok done) :
    ∃ (named : Step (Ident × Ty)) (start : Layout) (inner : Step Unit),
      entrypointParam method config state = .ok named ∧
      (({ base with context := .entrypoint method.name } : Layout).push 1).bind named.result.1
        named.result.2 = .ok start ∧
      entrypointCode method config { named.state with layout := start } = .ok inner ∧
      done.result = ⟨named.result.2, storage, inner.code⟩ := by
  obtain ⟨named, rest, hnamed, hrest, rfl⟩ := bind_eq_ok_iff.mp h
  obtain ⟨start, hstart, hrest⟩ := sound_bind_eq_ok_iff.mp hrest
  obtain ⟨inner, hinner, hrest⟩ := block_bind_eq_ok_iff.mp hrest
  cases hrest
  exact ⟨named, start, inner, hnamed, hstart, hinner, rfl⟩

theorem addEntrypoint_eq_ok_iff {c c' : Contract} {name : Ident} {e : Entrypoint} :
    c.addEntrypoint name e = .ok c' ↔ name ∉ c.entrypoints.map Prod.fst ∧
      { c with entrypoints := c.entrypoints ++ [(name, e)] } = c' := by
  have hbound : (c.entrypoint? name).isSome ↔ name ∈ c.entrypoints.map Prod.fst := by
    rw [Contract.entrypoint?, List.lookup_isSome_iff]
    simp [@eq_comm _ name]
  unfold Contract.addEntrypoint
  split
  · next h => simp [hbound.mp h]
  · next h => simp [mt hbound.mpr h]

/-- Adding entrypoints leaves the rest of the contract alone, and each new entrypoint comes from a
method. -/
theorem entrypoints_eq_ok {base : Layout} {start : Contract} {methods : List Method}
    {done : Step Contract} (h : entrypoints base start methods config state = .ok done) :
    done.result.storageTy = start.storageTy ∧ done.result.storageInit = start.storageInit ∧
      done.result.preamble = start.preamble ∧
      ∀ name e, (name, e) ∈ done.result.entrypoints → (name, e) ∈ start.entrypoints ∨
        ∃ method ∈ methods, method.name = name ∧ ∃ (state : State) (compiled : Step Entrypoint),
          entrypoint method base start.storageTy config state = .ok compiled ∧
            compiled.result = e := by
  induction methods generalizing start state done with
  | nil =>
    cases h
    exact ⟨rfl, rfl, rfl, fun name e hmem => .inl hmem⟩
  | cons method rest ih =>
    rw [entrypoints, seen_bind] at h
    obtain ⟨compiled, last, hcompiled, hlast, rfl⟩ := bind_eq_ok_iff.mp h
    cases hadd : start.addEntrypoint method.name compiled.result with
    | error duplicate =>
      rw [hadd] at hlast
      exact absurd hlast failAt_ne_ok
    | ok next =>
      rw [hadd] at hlast
      obtain ⟨-, rfl⟩ := addEntrypoint_eq_ok_iff.mp hadd
      obtain ⟨hty, hinit, hpreamble, hentries⟩ := ih hlast
      refine ⟨hty, hinit, hpreamble, fun name e hmem => ?_⟩
      rcases hentries name e hmem with hold | ⟨m, hm, hname, s, d, hd, heq⟩
      · rcases List.mem_append.mp hold with hold | hnew
        · exact .inl hold
        · obtain ⟨rfl, rfl⟩ := Prod.mk.inj (List.mem_singleton.mp hnew)
          exact .inr ⟨method, by simp, rfl, _, compiled, hcompiled, rfl⟩
      · exact .inr ⟨m, List.mem_cons_of_mem _ hm, hname, s, d, hd, heq⟩

/-! ## The whole contract -/

/-- The runs behind a compiled contract: `module` is the run of the module-level statements, `init`
the storage initializer and `methods` the other methods of the contract class. -/
structure Assembled (config : Config) (body : List Stmt) (c : Contract)
    (module : Step (Option (List Stmt))) (init : Method) (methods : List Method) : Prop where
  prologue : ∃ line, prologue none body config ⟨.empty .module, line⟩ = .ok module
  preamble : c.preamble = preamble module.code module.state.layout.depth
  members : ∃ members, body.filterMap Stmt.contract? = [members] ∧
    init ∈ initializers members ∧ methods = entryMethods members
  deploy : ∃ (state : State) (done : Step (Ty × Code)), deploy init config state = .ok done ∧
    done.result = (c.storageTy, c.storageInit)
  entrypoints : ∀ name e, (name, e) ∈ c.entrypoints → ∃ method ∈ methods, method.name = name ∧
    ∃ (state : State) (done : Step Entrypoint),
      entrypoint method (entryLayout module.state.layout c.storageTy) c.storageTy config state =
        .ok done ∧ done.result = e

/-- The methods of a contract are functions of a class of the program. -/
theorem Assembled.exists_class {c : Contract} {module : Step (Option (List Stmt))} {init : Method}
    {methods : List Method} (h : Assembled config body c module init methods) :
    ∃ line name bases decorators members,
      Stmt.classDef line name bases decorators members ∈ body ∧ ∀ m ∈ methods, m.stmt ∈ members := by
  obtain ⟨members, hclass, -, rfl⟩ := h.members
  obtain ⟨s, hs, hcontract⟩ : ∃ s ∈ body, s.contract? = some members := by
    rw [← List.mem_filterMap, hclass]
    exact List.mem_singleton_self members
  obtain ⟨line, name, bases, decorators, rfl, -⟩ := eq_classDef_of_contract? hcontract
  refine ⟨line, name, bases, decorators, members, hs, fun m hm => ?_⟩
  obtain ⟨s, hs, hmethod⟩ := List.mem_filterMap.mp (List.mem_filter.mp hm).1
  exact eq_stmt_of_method? hmethod ▸ hs

/-- A contract is put together once all record classes are known. -/
theorem contractProgram_eq_ok (hstart : config.records.Settled) {done : Step Contract}
    (h : contractProgram body config state = .ok done) :
    ∃ (config' : Config) (module : Step (Option (List Stmt))) (init : Method)
      (methods : List Method), config'.records.Settled ∧ config'.traced = config.traced ∧
      Assembled config' body done.result module init methods := by
  obtain ⟨config', state', inner, hrecords, htraced, hinner, hresult⟩ :=
    withRecordClasses_eq_ok hstart h
  obtain ⟨module, hmodule, hinner⟩ := apart_bind_eq_ok_iff.mp hinner
  cases hclass : module.result with
  | none =>
    rw [hclass] at hinner
    exact absurd hinner failNowhere_ne_ok
  | some members =>
    rw [hclass] at hinner
    obtain ⟨found, rest, hfound, hrest, rfl⟩ := bind_eq_ok_iff.mp hinner
    obtain ⟨⟨deploys, methods⟩, code, after⟩ := found
    cases deploys with
    | none => exact absurd hrest fail_ne_ok
    | some init =>
      obtain ⟨⟨⟨storage, initCode⟩, code', after'⟩, last, hdeploy, hlast, rfl⟩ :=
        bind_eq_ok_iff.mp hrest
      obtain ⟨hty, hinit, hpreamble, hentries⟩ := entrypoints_eq_ok hlast
      refine ⟨config', module, init, methods, hrecords, htraced, ?_⟩
      rw [hresult]
      refine ⟨⟨_, hmodule⟩, hpreamble, ?_, ⟨_, _, hdeploy, ?_⟩, ?_⟩
      · obtain ⟨-, hinit, hmethods, -⟩ := members_eq_ok_iff.mp hfound
        have honly := prologue_result hmodule
        rw [hclass, Option.toList_none, List.nil_append] at honly
        rw [Option.toList_none, List.nil_append] at hinit
        exact ⟨members, honly.symm, hinit ▸ List.mem_singleton_self init, hmethods⟩
      · exact Prod.ext hty.symm hinit.symm
      · intro name e hmem
        rcases hentries name e hmem with hold | hnew
        · exact absurd hold (by simp)
        · rw [show (_ : Contract).storageTy = _ from hty]
          exact hnew

end Gen

namespace Module

variable {m : Module} {traced : Bool}

theorem compile_eq_ok {c : Contract} (h : m.compile traced = .ok c) :
    ∃ (config : Gen.Config) (module : Gen.Step (Option (List Stmt))) (init : Method)
      (methods : List Method), config.records.Settled ∧ config.traced = traced ∧
      Gen.Assembled config m.desugar.body c module init methods := by
  obtain ⟨done, hdone, rfl⟩ := Except.map_eq_ok_iff.mp h
  exact Gen.contractProgram_eq_ok Records.settled_empty hdone

theorem compileStatements_eq_ok_iff {code : Code} :
    m.compileStatements traced = .ok code ↔
      ∃ done, Gen.run traced (Gen.statements m.desugar.body) = .ok done ∧ done.code = code :=
  Except.map_eq_ok_iff

end Module

end Covenant
