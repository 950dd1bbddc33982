import Covenant.Compile
import Covenant.Proofs.TypeCache.Stmt

/-!
# Covenant — the type cache is transparent

`Module.cachedCompile` and `Module.cachedCompileStatements` are the two ways of compiling a module,
with the types of expressions kept in a memory. The memory is cleared at the start of each statement
and nowhere else. They also give the questions that were asked, with the answers they got.

Main statement: `type_cache_is_transparent`. If no two nodes of the module share an address, both
give the result of plain compilation, and every question gets the answer of plain typing.

Every answer that a statement uses is from that statement. The storage initializer is another
matter: it is compiled without clearing the memory, from a layout in which names mean something else
than in the statement before. But its nodes are not among those of the statements before the class,
so what is left over is not about them (`Fresh`).
-/

namespace Covenant

variable {κ : Type}

/-! ## Nodes that were not asked for -/

/-- No two expressions inside the node share an address, and no answer is kept about any of them. -/
structure Fresh (n : Node) (a : Addresses κ) (mem : Memory κ) : Prop where
  distinct : a.Distinct n
  unasked : ∀ entry ∈ mem.entries, ∀ e, ¬a.Stores n entry.key e

theorem Fresh.part {n n' : Node} {a : Addresses κ} {mem : Memory κ} (h : Fresh n a mem)
    (edge : Edge) (hpart : n.part? edge = some n') : Fresh n' (a.part edge) mem where
  distinct := h.distinct.part edge hpart
  unasked entry hentry e hstores := h.unasked entry hentry e (hstores.of_part hpart)

namespace Region

variable {n : Node} {a : Addresses κ}

/-- Only expressions inside the node are asked for, and there are no answers about others. -/
def inside (h : a.Distinct n) : Region κ where
  live := a.Stores n
  stale _ := False
  unique _ _ _ hlive hlive' := h.unique hlive hlive'
  apart _ _ _ hstale := hstale

/-- Only expressions inside the node are asked for, and there may be answers about others. -/
def around (h : a.Distinct n) : Region κ where
  live := a.Stores n
  stale key := ∀ e, ¬a.Stores n key e
  unique _ _ _ hlive hlive' := h.unique hlive hlive'
  apart _ _ hlive hstale := hstale _ hlive

end Region

namespace Cached

open Gen CachedGen

variable {α β : Type} {n : Node} {a : Addresses κ} {P : Memory κ → Prop}

theorem placed_around (h : a.Distinct n) : Placed (Region.around h) a n :=
  fun _ _ hstores => hstores

/-- An answer is about an expression inside the node or about another one. -/
theorem within_around (h : a.Distinct n) (scope : Scope) (mem : Memory κ) :
    Within (Region.around h) scope mem := by
  intro entry _
  by_cases hlive : ∃ e, a.Stores n entry.key e
  · exact .inr hlive
  · exact .inl fun e hstores => hlive ⟨e, hstores⟩

/-- Answers about expressions of one part are not about expressions of another one. -/
theorem fresh_of_within {edge edge' : Edge} {n' n'' : Node} (h : a.Distinct n) (hne : edge ≠ edge')
    (hpart : n.part? edge = some n') (hpart' : n.part? edge' = some n'') {scope : Scope}
    {mem : Memory κ} (hmem : Within (Region.inside (h.part edge hpart)) scope mem) :
    Fresh n'' (a.part edge') mem where
  distinct := h.part edge' hpart'
  unasked entry hentry e := by
    obtain hfalse | ⟨e', hlive⟩ := hmem entry hentry
    · exact hfalse.elim
    · exact h.disjoint hne hpart hpart' hlive

/-! ## Steps for any memory -/

/-- From any memory the step does what the plain step does. -/
abbrev AlwaysMirrors (step : CachedGen κ α) (plain : Gen α) : Prop :=
  Mirrors id (fun _ _ => True) (fun _ _ _ => True) step plain

theorem mirrors_any (plain : Gen α) : Mirrors id (fun _ => P) (fun _ _ => P) (liftM plain) plain :=
  mirrors_lift fun _ _ _ _ _ hmem => hmem

theorem Mirrors.withRecord {f : α → β} {Q : α → Memory κ → Prop} {step : CachedGen κ α}
    {plain : Gen β} (h : Mirrors f (fun _ => P) (fun a _ => Q a) step plain) (name : Ident)
    (fields : Fields) :
    Mirrors f (fun _ => P) (fun a _ => Q a) (CachedGen.withRecord name fields step)
      (Gen.withRecord name fields plain) :=
  fun _ _ _ hmem hhonest => h hmem hhonest

/-- Defines all record classes among statements, in order, for a step that uses them. -/
def withRecordClasses (step : CachedGen κ α) : List Stmt → CachedGen κ α
  | [] => step
  | .classDef line name _ decorators body :: rest =>
    if isRecordClass decorators then do
      seen line
      let fields ← recordClass name body
      withRecord name fields (withRecordClasses step rest)
    else
      withRecordClasses step rest
  | _ :: rest => withRecordClasses step rest

theorem Mirrors.withRecordClasses {f : α → β} {Q : α → Memory κ → Prop} {step : CachedGen κ α}
    {plain : Gen β} (h : Mirrors f (fun _ => P) (fun a _ => Q a) step plain) (body : List Stmt) :
    Mirrors f (fun _ => P) (fun a _ => Q a) (withRecordClasses step body)
      (Gen.withRecordClasses plain body) := by
  induction body with
  | nil => exact h
  | cons s rest hrest =>
    cases s with
    | classDef line name bases decorators body =>
      refine .ite ?_ hrest
      exact (mirrors_any (seen line)).andThen fun _ =>
        (mirrors_any (recordClass name body)).andThen fun fields => hrest.withRecord name fields
    | _ => exact hrest

variable [DecidableEq κ]

/-! ## Preamble -/

/-- Compiles the module-level statements of a contract program and gives the body of the contract
class, with its addresses. -/
def prologue : Option (List Stmt × Addresses κ) → List Stmt → Addresses κ →
    CachedGen κ (Option (List Stmt × Addresses κ))
  | contract, [], _ => pure contract
  | contract, s :: rest, a => do
    seen s.line
    match s with
    | .classDef _ name bases decorators body =>
      if isRecordClass decorators then
        prologue contract rest (a.part .second)
      else if isContractClass name bases then
        if contract.isSome then
          fail (.alreadyDefined name)
        else
          prologue (some (body, (a.part .first).part .first)) rest (a.part .second)
      else
        fail (.unsupported (.unknownClass name))
    | .imports .. | .pass _ => prologue contract rest (a.part .second)
    | s =>
      if s.isDocstring then
        prologue contract rest (a.part .second)
      else if contract.isSome then
        fail (.unsupported .afterContract)
      else
        compileStmt s (a.part .first)
        prologue contract rest (a.part .second)

/-- No answer is kept about the body of the contract class, if it is known. -/
def FreshClass (contract : Option (List Stmt × Addresses κ)) (mem : Memory κ) : Prop :=
  ∀ found ∈ contract, Fresh (.block found.1) found.2 mem

/-- Statements before the contract class leave answers, but none about the class or about the
statements after them. Once the class is known no statement is compiled any more. -/
theorem mirrors_prologue : ∀ (contract : Option (List Stmt × Addresses κ)) (body : List Stmt)
    (a : Addresses κ), Mirrors (Option.map Prod.fst)
      (fun _ mem => Fresh (.block body) a mem ∧ FreshClass contract mem)
      (fun found _ => FreshClass found) (prologue contract body a)
      (Gen.prologue (contract.map Prod.fst) body)
  | contract, [], a => mirrors_pure rfl fun _ _ hmem => hmem.2
  | contract, s :: rest, a => by
    have hskip := (mirrors_prologue contract rest (a.part .second)).weaken
      (P := fun _ mem => Fresh (.block (s :: rest)) a mem ∧ FreshClass contract mem)
      fun _ _ hmem => ⟨hmem.1.part .second rfl, hmem.2⟩
    cases s with
    | classDef line name bases decorators body =>
      refine (mirrors_any (seen line)).andThen fun _ => .ite hskip (.ite ?_ (mirrors_fail _))
      cases contract with
      | some found => exact mirrors_fail _
      | none =>
        refine (mirrors_prologue (some (body, _)) rest (a.part .second)).weaken
          fun _ mem hmem => ⟨hmem.1.part .second rfl, fun found hfound => ?_⟩
        cases hfound
        exact (hmem.1.part .first rfl).part .first rfl
    | imports | pass => exact (mirrors_any (seen _)).andThen fun _ => hskip
    | _ =>
      refine (mirrors_any (seen _)).andThen fun _ => .ite hskip ?_
      cases contract with
      | some found => exact mirrors_fail _
      | none =>
        refine .assuming (fun _ _ hmem => hmem.1.distinct) fun hdistinct => ?_
        -- what the statement leaves is about its own nodes, so the rest of the block is fresh
        have hs := starts_compileStmt (r := .inside (hdistinct.part .first rfl)) _ fun _ _ => id
        refine (hs.weaken fun _ _ _ => trivial).andThen fun _ => ?_
        exact (mirrors_prologue none rest (a.part .second)).weaken fun _ _ hmem =>
          ⟨fresh_of_within hdistinct (by decide) rfl rfl hmem, fun _ hfound => by cases hfound⟩

/-! ## Methods -/

/-- A method of the contract class, with the addresses of its body. -/
structure Method (κ : Type) extends Covenant.Method where
  addresses : Addresses κ

/-- The storage initializer and the other methods among the members of the contract class. -/
def members : Option (Method κ) → List Stmt → Addresses κ →
    CachedGen κ (Option (Method κ) × List (Method κ))
  | deploy, [], _ => pure (deploy, [])
  | deploy, s :: rest, a => do
    seen s.line
    match s with
    | .function line name params returns body =>
      let method : Method κ := ⟨⟨line, name, params, returns, body⟩, (a.part .first).part .first⟩
      if name = "deploy" then
        if deploy.isSome then
          fail (.alreadyDefined "deploy")
        else
          members (some method) rest (a.part .second)
      else
        let (deploy, methods) ← members deploy rest (a.part .second)
        return (deploy, method :: methods)
    | .pass _ => members deploy rest (a.part .second)
    | s =>
      if s.isDocstring then
        members deploy rest (a.part .second)
      else
        fail (.unsupported .contractMember)

/-- No answer is kept about the body of the method. -/
def FreshMethod (m : Method κ) (mem : Memory κ) : Prop := Fresh (.block m.body) m.addresses mem

omit [DecidableEq κ] in
theorem mirrors_members : ∀ (deploy : Option (Method κ)) (body : List Stmt) (a : Addresses κ),
    Mirrors (fun found => (found.1.map Method.toMethod, found.2.map Method.toMethod))
      (fun _ mem => Fresh (.block body) a mem ∧ ∀ m ∈ deploy, FreshMethod m mem)
      (fun found _ mem => (∀ m ∈ found.1, FreshMethod m mem) ∧
        ∀ m ∈ found.2, m.addresses.Distinct (.block m.body))
      (members deploy body a) (Gen.members (deploy.map Method.toMethod) body)
  | deploy, [], a => mirrors_pure rfl fun _ _ hmem => ⟨hmem.2, nofun⟩
  | deploy, s :: rest, a => by
    have hskip := (mirrors_members deploy rest (a.part .second)).weaken
      (P := fun _ mem => Fresh (.block (s :: rest)) a mem ∧ ∀ m ∈ deploy, FreshMethod m mem)
      fun _ _ hmem => ⟨hmem.1.part .second rfl, hmem.2⟩
    cases s with
    | function line name params returns body =>
      refine (mirrors_any (seen line)).andThen fun _ => .ite ?_ ?_
      · cases deploy with
        | some found => exact mirrors_fail _
        | none =>
          refine (mirrors_members (some ⟨⟨line, name, params, returns, body⟩, _⟩) rest
            (a.part .second)).weaken fun _ mem hmem => ⟨hmem.1.part .second rfl, fun m hm => ?_⟩
          cases hm
          exact (hmem.1.part .first rfl).part .first rfl
      · -- What is kept about a later entrypoint does not matter: its statements clear the memory.
        refine .assuming (fun _ _ hmem => hmem.1.distinct) fun hdistinct => ?_
        have hbody := (hdistinct.part .first rfl).part .first rfl
        exact hskip.bind fun found => mirrors_pure rfl fun _ _ hmem =>
          ⟨hmem.1, List.forall_mem_cons.mpr ⟨hbody, hmem.2⟩⟩
    | pass line => exact (mirrors_any (seen line)).andThen fun _ => hskip
    | expr line value =>
      exact (mirrors_any (seen line)).andThen fun _ => .ite hskip (mirrors_fail _)
    | _ => exact (mirrors_any (seen _)).andThen fun _ => mirrors_fail _

/-- The statements of a block with their addresses. -/
def located : List Stmt → Addresses κ → List (Stmt × Addresses κ)
  | [], _ => []
  | s :: rest, a => (s, a.part .first) :: located rest (a.part .second)

omit [DecidableEq κ] in
theorem fst_located : ∀ (body : List Stmt) (a : Addresses κ), (located body a).map Prod.fst = body
  | [], _ => rfl
  | s :: rest, a => congrArg (s :: ·) (fst_located rest (a.part .second))

omit [DecidableEq κ] in
theorem placed_located {r : Region κ} : ∀ {body : List Stmt} {a : Addresses κ},
    Placed r a (.block body) → ∀ p ∈ located body a, Placed r p.2 (.stmt p.1)
  | [], _, _ => nofun
  | _ :: _, _, h => List.forall_mem_cons.mpr
    ⟨h.part .first rfl, placed_located (h.part .second rfl)⟩

/-- The storage type and the code of the initial storage. The memory is not cleared. -/
def deploy (method : Method κ) : CachedGen κ (Ty × Code) := do
  match (located method.body method.addresses).filter fun p => !p.1.isDocstring with
  | [(.ret _ (some init), a)] => do
    let declared ← liftM (method.returns.mapM denoted)
    let done ← CachedGen.apart (.empty .deploy) (do
      if let some want := declared then
        checkFits (operand init (a.part .first)) want
      (operand init (a.part .first)).value declared)
    match declared.or (some done.result) with
    | some storage => return (storage, done.code)
    | none => liftM (Gen.defect .untypedStorage : Gen (Ty × Code))
  | _ => fail (.unsupported .deployBody)

/-- The code of an initial value, which is asked for in a layout without names. -/
theorem mirrors_initial {r : Region κ} {init : Expr} {a : Addresses κ} (h : Placed r a (.expr init))
    (hsound : ∀ scope mem, P mem → mem.Sound r scope) (returns : Option Expr) :
    Mirrors id (fun _ => P) (fun _ _ _ => True)
      (do
        let declared ← liftM (returns.mapM denoted)
        let done ← CachedGen.apart (.empty .deploy) (do
          if let some want := declared then
            checkFits (operand init a) want
          (operand init a).value declared)
        match declared.or (some done.result) with
        | some storage => return (storage, done.code)
        | none => liftM (Gen.defect .untypedStorage : Gen (Ty × Code)))
      (do
        let declared ← returns.mapM denoted
        let done ← Gen.apart (.empty .deploy) (do
          if let some want := declared then
            Gen.checkFits init want
          init.operand.value declared)
        match declared.or (some done.result) with
        | some storage => return (storage, done.code)
        | none => Gen.defect .untypedStorage) := by
  have htracks := tracks_operand h
  refine (mirrors_any (returns.mapM denoted)).andThen fun declared => ?_
  -- With a declared type the value is asked for twice; the second answer may be the kept one.
  have hvalue : Copies r
      (do
        if let some want := declared then
          checkFits (operand init a) want
        (operand init a).value declared)
      (do
        if let some want := declared then
          Gen.checkFits init want
        init.operand.value declared) := by
    cases declared with
    | none => exact htracks.value none
    | some want => exact (copies_checkFits htracks want).andThen fun _ => htracks.value (some want)
  exact ((hvalue (.empty .deploy)).apart (R := fun _ _ _ => True)
    (fun _ mem hmem => ⟨.refl _, hsound _ mem hmem⟩) fun _ _ _ _ _ _ => trivial).bind fun done => by
      cases declared <;> exact mirrors_pure rfl fun _ _ _ => trivial

theorem mirrors_deploy (method : Method κ) :
    Mirrors id (fun _ => FreshMethod method) (fun _ _ _ => True) (deploy method)
      (Gen.deploy method.toMethod) := by
  refine .assuming (fun _ _ hmem => hmem.distinct) fun hdistinct => ?_
  have hfilter : method.body.filter (fun s => !s.isDocstring) =
      ((located method.body method.addresses).filter fun p => !p.1.isDocstring).map Prod.fst := by
    conv_lhs => rw [← fst_located method.body method.addresses]
    rw [List.filter_map]
    rfl
  have hplaced : ∀ p ∈ (located method.body method.addresses).filter fun p => !p.1.isDocstring,
      Placed (Region.around hdistinct) p.2 (.stmt p.1) := fun p hp =>
    placed_located (placed_around hdistinct) p (List.mem_of_mem_filter hp)
  -- Whatever is kept is about other expressions.
  have hsound : ∀ scope mem, FreshMethod method mem → mem.Sound (Region.around hdistinct) scope :=
    fun _ _ hmem entry hentry => .inl (hmem.unasked entry hentry)
  unfold deploy Gen.deploy
  rw [hfilter]
  generalize ((located method.body method.addresses).filter fun p => !p.1.isDocstring) = body
    at hplaced
  match body, hplaced with
  | [], _ => exact mirrors_fail _
  | (s, a) :: rest, hplaced =>
    have hs := hplaced (s, a) List.mem_cons_self
    cases s with
    | ret line value =>
      cases value with
      | none => exact mirrors_fail _
      | some init =>
        cases rest with
        | nil => exact mirrors_initial (hs.part .first rfl) hsound method.returns
        | cons _ _ => exact mirrors_fail _
    | _ => exact mirrors_fail _

/-! ## Entrypoints -/

/-- The code of an entrypoint, from a layout with the parameter on top. -/
def entrypointCode (method : Method κ) : CachedGen κ Unit := do
  let ((), code) ← CachedGen.listen (do
    annotate (.entered method.name)
    if Stmt.anyCallsTransaction method.body then
      apply (.nil .operation)
      bindTop Layout.operationsName (.list .operation)
    compileBlock method.body method.addresses)
  unless diverges code do
    epilogue

/-- Compiles a method into an entrypoint that starts from the given layout. -/
def entrypoint (method : Method κ) (base : Layout) (storage : Ty) : CachedGen κ Entrypoint := do
  let (param, paramTy) ← entrypointParam method.toMethod
  let entry := { base with context := .entrypoint method.name }
  let start ← sound ((entry.push 1).bind param paramTy)
  let (code, _) ← CachedGen.block start (entrypointCode method)
  return ⟨paramTy, storage, code⟩

/-- Compiles methods into further entrypoints of a contract, in order. -/
def entrypoints (base : Layout) : Contract → List (Method κ) → CachedGen κ Contract
  | contract, [] => pure contract
  | contract, method :: rest => do
    seen method.line
    let e ← entrypoint method base contract.storageTy
    match contract.addEntrypoint method.name e with
    | .error duplicate => failAt method.line (.alreadyDefined duplicate.name)
    | .ok contract => entrypoints base contract rest

theorem alwaysMirrors_entrypoint {method : Method κ}
    (h : method.addresses.Distinct (.block method.body)) (base : Layout) (storage : Ty) :
    AlwaysMirrors (entrypoint method base storage)
      (Gen.entrypoint method.toMethod base storage) := by
  have hbody := passes_fromHere (passes_compileBody method.body (placed_around h))
  have hcode : Passes (Region.around h) (entrypointCode method)
      (Gen.entrypointCode method.toMethod) := by
    refine Passes.unlessDiverges ((passes_lift _).andThen fun _ => .ite ?_ hbody) (passes_lift _)
    exact (passes_lift _).andThen fun _ => (passes_lift _).andThen fun _ => hbody
  -- An empty body leaves the memory as it was: the region has room for any answers.
  refine (mirrors_any _).andThen fun _ => (mirrors_any _).andThen fun start => ?_
  exact (Mirrors.block hcode (fun scope mem _ => within_around h _ mem)
    fun _ _ _ _ _ _ => trivial).andThen fun _ => mirrors_pure rfl fun _ _ _ => trivial

theorem alwaysMirrors_entrypoints (base : Layout) : ∀ {methods : List (Method κ)},
    (∀ m ∈ methods, m.addresses.Distinct (.block m.body)) → ∀ contract : Contract,
    AlwaysMirrors (entrypoints base contract methods)
      (Gen.entrypoints base contract (methods.map Method.toMethod))
  | [], _, contract => mirrors_pure rfl fun _ _ _ => trivial
  | method :: rest, h, contract => by
    obtain ⟨hmethod, hrest⟩ := List.forall_mem_cons.mp h
    refine (mirrors_any _).andThen fun _ =>
      (alwaysMirrors_entrypoint hmethod base contract.storageTy).andThen fun e => ?_
    cases contract.addEntrypoint method.name e with
    | error duplicate => exact mirrors_failAt _ _
    | ok contract' => exact alwaysMirrors_entrypoints base hrest contract'

/-! ## The whole contract -/

/-- Assembles a contract from the body of its class and the compiled module-level statements. -/
def contract (body : List Stmt) (a : Addresses κ) (prologue : Code) (module : Layout) :
    CachedGen κ Contract := do
  match ← members none body a with
  | (none, _) => fail (.notDefined "deploy")
  | (some init, methods) => do
    let (storage, code) ← deploy init
    let start : Contract := ⟨storage, code, preamble prologue module.depth, []⟩
    entrypoints (entryLayout module storage) start methods

/-- Compiles the statements of a contract program. -/
def contractProgram (body : List Stmt) (a : Addresses κ) : CachedGen κ Contract :=
  withRecordClasses (do
    let done ← CachedGen.apart (.empty .module) (prologue none body a)
    match done.result with
    | none => failNowhere (.notDefined "Contract")
    | some (members, a) => contract members a done.code done.state.layout) body

/-- Compiles module-level statements in order. A record class is in force from its definition on. -/
def statements : List Stmt → Addresses κ → CachedGen κ Unit
  | [], _ => pure ()
  | .classDef line name _ decorators body :: rest, a => do
    seen line
    if isRecordClass decorators then
      let fields ← recordClass name body
      withRecord name fields (statements rest (a.part .second))
    else
      fail (.unsupported (.notARecord name))
  | s :: rest, a => do
    seen s.line
    compileStmt s (a.part .first)
    statements rest (a.part .second)

theorem mirrors_contract (body : List Stmt) (a : Addresses κ) (code : Code) (l : Layout) :
    Mirrors id (fun _ => Fresh (.block body) a) (fun _ _ _ => True) (contract body a code l)
      (Gen.contract body code l) := by
  refine ((mirrors_members none body a).weaken fun _ _ hmem => ⟨hmem, nofun⟩).bind
    fun found => ?_
  obtain ⟨init, methods⟩ := found
  refine .assuming (fun _ _ hmem => hmem.2) fun hmethods => ?_
  cases init with
  | none => exact mirrors_fail _
  | some init =>
    exact ((mirrors_deploy init).weaken fun _ _ hmem => hmem.1 init rfl).andThen fun _ =>
      alwaysMirrors_entrypoints _ hmethods _

theorem mirrors_contractProgram (body : List Stmt) (a : Addresses κ) :
    Mirrors id (fun _ => Fresh (.block body) a) (fun _ _ _ => True) (contractProgram body a)
      (Gen.contractProgram body) := by
  refine Mirrors.withRecordClasses (Q := fun _ _ => True) ?_ body
  refine ((mirrors_prologue none body a).apart
    (R := fun done _ => FreshClass done.result) (fun _ _ hmem => ⟨hmem, nofun⟩)
    fun _ _ _ _ _ hmem => hmem).bind fun done => ?_
  obtain ⟨found, code, state⟩ := done
  cases found with
  | none => exact mirrors_failNowhere _
  | some found =>
    exact (mirrors_contract found.1 found.2 code state.layout).weaken fun _ _ hmem =>
      hmem found rfl

theorem alwaysMirrors_statements : ∀ (body : List Stmt) {a : Addresses κ},
    a.Distinct (.block body) → AlwaysMirrors (statements body a) (Gen.statements body)
  | [], _, _ => mirrors_pure rfl fun _ _ _ => trivial
  | s :: rest, a, h => by
    have hrest := alwaysMirrors_statements rest (h.part .second rfl)
    have hs := starts_compileStmt s (placed_around (h.part .first rfl))
    cases s with
    | classDef line name bases decorators body =>
      refine (mirrors_any (seen line)).andThen fun _ => .ite ?_ (mirrors_fail _)
      exact (mirrors_any (recordClass name body)).andThen fun fields =>
        hrest.withRecord (P := fun _ => True) (Q := fun _ _ => True) name fields
    | _ =>
      exact (mirrors_any (seen _)).andThen fun _ =>
        (hs.mono (fun _ _ _ => trivial) fun _ _ _ _ => trivial).andThen fun _ => hrest

end Cached

/-! ## Compiling a module -/

/-- Runs a step on an empty stack and with an empty memory, and gives the questions as well. -/
def CachedGen.run {α : Type} (traced : Bool) (step : CachedGen κ α) :
    Except CompileError (Gen.Step α) × List Question :=
  let done := step ⟨.empty, traced⟩ ⟨.empty .module, 0⟩ .empty
  (done.1, done.2.log)

variable [DecidableEq κ]

namespace Module

/-- Compiles a module into a contract with a memory of types. Gives all questions as well. -/
def cachedCompile (m : Module) (a : Addresses κ) (traced : Bool) :
    Except CompileError Contract × List Question :=
  ((Cached.contractProgram m.desugar.body a).run traced).map (·.map (·.result)) id

/-- Compiles a module that has no contract class with a memory of types. Gives all questions as
well. -/
def cachedCompileStatements (m : Module) (a : Addresses κ) (traced : Bool) :
    Except CompileError Code × List Question :=
  ((Cached.statements m.desugar.body a).run traced).map (·.map (·.code)) id

end Module

omit [DecidableEq κ] in
/-- A step that does what a plain step does from an empty memory runs like it. -/
theorem Cached.Mirrors.run {α : Type} {P : Memory κ → Prop} {Q : α → Cached.Condition κ}
    {step : CachedGen κ α} {plain : Gen α} (h : Mirrors id (fun _ => P) Q step plain)
    (hempty : P .empty) (traced : Bool) :
    (step.run traced).1 = Gen.run traced plain ∧
    ∀ q ∈ (step.run traced).2, q.answer = typeOf q.scope q.expr q.expected := by
  obtain ⟨hout, hhonest, -⟩ := @h ⟨.empty, traced⟩ ⟨.empty .module, 0⟩ .empty hempty
    fun _ hq => nomatch hq
  refine ⟨?_, hhonest⟩
  rw [Gen.run, ← hout]
  unfold CachedGen.run
  dsimp only
  cases (step ⟨.empty, traced⟩ ⟨.empty .module, 0⟩ .empty).1 <;> rfl

/-- The memory of types makes no difference. Suppose that no two nodes of the module, with all its
sugar expanded, are stored at one address. Then a compiler that keeps the types it has worked out,
by address and expected type, and forgets them at the start of each statement gives the contract,
the code or the error that plain compilation gives. Moreover each single question gets the answer
that plain typing gives for the expression, the expected type and the meaning of names at the point
of the question, be it answered from the memory or not, with a type or with an error. -/
theorem type_cache_is_transparent (m : Module) (traced : Bool) (a : Addresses κ)
    (hdistinct : a.Distinct (.block m.desugar.body)) :
    (m.cachedCompile a traced).1 = m.compile traced ∧
    (m.cachedCompileStatements a traced).1 = m.compileStatements traced ∧
    ∀ q ∈ (m.cachedCompile a traced).2 ++ (m.cachedCompileStatements a traced).2,
      q.answer = typeOf q.scope q.expr q.expected := by
  have hfresh : Fresh (.block m.desugar.body) a .empty := ⟨hdistinct, nofun⟩
  obtain ⟨hprogram, hasked⟩ := (Cached.mirrors_contractProgram m.desugar.body a).run hfresh traced
  have halways := Cached.alwaysMirrors_statements m.desugar.body hdistinct
  obtain ⟨hstatements, hasked'⟩ := halways.run (P := fun _ => True) trivial traced
  refine ⟨congrArg (·.map (·.result)) hprogram, congrArg (·.map (·.code)) hstatements,
    fun q hq => ?_⟩
  rcases List.mem_append.mp hq with hq | hq
  · exact hasked q hq
  · exact hasked' q hq

/-- A variable, an initial storage of another type, and a parameter that hides the variable. -/
def Module.greeting : Module :=
  ⟨[.assign 1 (.name 1 "v") (.literal 1 (.int 1)),
    .classDef 2 "Contract" [] []
      [.function 3 "deploy" [] none [.ret 4 (some (.literal 4 (.str "hello")))],
        .function 5 "refuse" [⟨"v", some (.name 5 "str"), 5⟩] none
          [.annotated 6 (.name 6 "w") (.name 6 "str") (some (.name 6 "v")),
            .raise 7 (some (.name 7 "w"))]]]⟩

/-- Nodes stored under their paths. -/
theorem type_cache_is_transparent_greeting :
    Addresses.Distinct (fun path => path) (.block Module.greeting.desugar.body) ∧
    (Module.greeting.compile true).toOption.map Contract.storageTy = some .string ∧
    (Module.greeting.cachedCompile (fun path => path) true).1 = Module.greeting.compile true ∧
    (Module.greeting.cachedCompile (fun path => path) true).2.length = 5 ∧
    ∀ q ∈ (Module.greeting.cachedCompile (fun path => path) true).2,
      q.answer = typeOf q.scope q.expr q.expected := by
  have hdistinct : Addresses.Distinct (fun path => path) (.block Module.greeting.desugar.body) :=
    fun _ _ _ _ _ _ heq => heq
  obtain ⟨hcompile, -, hasked⟩ := type_cache_is_transparent Module.greeting true _ hdistinct
  exact ⟨hdistinct, by decide +kernel, hcompile, by decide +kernel,
    fun q hq => hasked q (List.mem_append_left _ hq)⟩

/-- With one address for all nodes the memory takes the initial storage for the number before. -/
example : (Module.greeting.cachedCompile (fun _ => ()) true).1.toOption.map Contract.storageTy =
    some .int := by decide +kernel

end Covenant
