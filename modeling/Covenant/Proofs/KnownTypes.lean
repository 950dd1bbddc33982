import Covenant.Proofs.KnownTypes.Expr
import Covenant.Proofs.Scoping

/-!
# Covenant — unknown types never get out

The type of an empty container is unknown for as long as nothing settles it, and the machine has no
such type. `unknown_types_never_get_out` says that none is left where it could do harm: not in the
code of a module that is accepted, at any depth of nesting, not in the types that a contract
declares, and, at whatever point of the compilation of whatever module, not in the type of a
variable nor in a record.

Every statement hands settled types on (`settles_compileStmt`). What a module that is accepted emits
follows from that alone; the rest is an induction over the points that the compiler gets to
(`Point.Settled`, `Next.settled`).
-/

namespace Covenant

open Gen

variable {config : Config}

/-! ## Statements -/

namespace Gen

variable {config : Config} {state : State} {body : Gen Unit}

theorem settles_assignStorage (value : Expr) : HandsOn (assignStorage value.operand) config state :=
  settles_given fun hrecords hl => ((tracked_settling hrecords hl).assignStorage (t := [])
    (value.settling_operand hrecords hl) (.refl _)).mono fun _ _ _ => trivial

theorem settles_assignPath {target : Expr} (hstorage : target.isStorage = false)
    (hname : target.name? = none) (value : Expr) :
    HandsOn (assignPath target value) config state :=
  settles_given fun hrecords hl => ((tracked_settling hrecords hl).assignPath (t := []) hstorage
    hname (fun _ => trivial) (value.settling_operand hrecords hl) (.refl _)).mono
      fun _ _ _ => trivial

/-- A new variable has the type it is declared with, or that of its value, which its code has shown
to be settled. -/
theorem settles_assignName (target : Expr) (name : Ident) {declared : Option Ty}
    (hdeclared : ∀ ty ∈ declared, ty.hasUnknown = false) (value : Expr) :
    HandsOn (assignName target name declared value.operand) config state := by
  intro hrecords hl done hdone
  rcases assignName_eq_ok hdone with ⟨want, -, hsame, hbound, hrun⟩ | ⟨-, -, hrun⟩
  · have hwant : want.hasUnknown = false := by
      cases declared with
      | some ty => exact hsame ty rfl ▸ hdeclared ty rfl
      | none => exact hl (hbound rfl)
    obtain ⟨-, -, -, hrun⟩ := checkFits_bind_eq_ok_iff.mp hrun
    have hstore : HandsOn (do
        value.operand.pushAs want
        if (← layout).binds name then
          replace name
        else
          bindTop name want) config state :=
      (value.settles_pushAs want).bind fun _ _ _ => .congr layout_bind rfl
        (.ite (fun _ => settles_replace name) fun _ => settles_bindTop name hwant)
    exact hstore hrecords hl hrun
  · have hnew : HandsOn (do
        let ty ← value.operand.value none
        bindTop name ty) config state :=
      (value.settles_value none).bind fun _ _ hty => settles_bindTop name hty.2
    exact hnew hrecords hl hrun

/-- The types that annotations denote are settled. -/
theorem settles_mapM_denoted_bind {β : Type} {Q : β → Layout → Prop} {declared : Option Expr}
    {next : Option Ty → Gen β} (h : ∀ found : Option Ty, (∀ ty ∈ found, ty.hasUnknown = false) →
      Settles (next found) config state Q) :
    Settles (declared.mapM denoted >>= next) config state Q := by
  intro hrecords hl done hdone
  cases declared with
  | none =>
    rw [Option.mapM_none, pure_bind] at hdone
    exact h none (by simp) hrecords hl hdone
  | some e =>
    simp only [Option.mapM_some, map_eq_pure_bind, bind_assoc, pure_bind] at hdone
    obtain ⟨ty, hty, hdone⟩ := denoted_bind_eq_ok_iff.mp hdone
    exact h (some ty) (by simpa using TypeExpr.known_of_type hrecords hty) hrecords hl hdone

theorem settles_assign (target : Expr) (declared : Option Expr) (value : Expr) :
    HandsOn (assign target declared value) config state := by
  refine settles_mapM_denoted_bind fun found hfound => ?_
  have hplace (hname : target.name? = none) : HandsOn (if target.isStorage then
      assignStorage value.operand else assignPath target value) config state :=
    .ite (fun _ => settles_assignStorage value) fun hstorage =>
      settles_assignPath (Bool.eq_false_iff.mpr hstorage) hname value
  cases target with
  | name line name => exact settles_assignName _ name hfound value
  | attr | subscript => exact hplace rfl
  | _ => exact settles_failAt

theorem settles_evaluate (value : Expr) : HandsOn (evaluate value.operand) config state := by
  unfold evaluate
  split
  · exact settles_pure trivial
  · refine .congr depth_bind rfl ((value.settles_compile none).bind fun _ _ _ =>
      .congr depth_bind rfl ?_)
    refine .ite (fun _ => ?_) fun _ => settles_pure trivial
    exact (settles_emit (by simp [Instr.types])).bind fun _ _ _ => settles_pop 1

theorem settles_raise (value : Option Expr) : HandsOn (raise value) config state := by
  cases value with
  | none => exact settles_fail
  | some value =>
    refine .congr scope_bind rfl (settles_typed_bind fun message _ =>
      (message.settles_value none).bind fun _ _ _ => ?_)
    exact (settles_emit (by simp [Instr.types])).bind fun _ _ _ => settles_pop 1

theorem settles_ret (value : Option Expr) : HandsOn (ret value) config state := by
  refine .congr layout_bind rfl ?_
  cases state.layout.context with
  | function name want =>
    cases value with
    | none => exact .ite (fun _ => settles_apply_plain rfl) fun _ => settles_fail
    | some value =>
      intro hrecords hl done hdone
      obtain ⟨_, -, hdone⟩ := typeOf_bind_eq_ok_iff.mp hdone
      exact settles_unless (fun _ => value.settles_pushAs want) hrecords hl hdone
  | entrypoint name =>
    cases value with
    | none => exact settles_fail
    | some value => exact settles_assignStorage value
  | _ => exact settles_fail

/-! ### Blocks -/

theorem settles_listen_bind {α β : Type} {Q : β → Layout → Prop} {step : Gen α}
    {next : α × Code → Gen β} (hstep : HandsOn step config state)
    (hnext : ∀ (a : α × Code) (s : State), Settles (next a) config s Q) :
    Settles (listen step >>= next) config state Q := by
  refine Settles.bind (P := fun _ _ => True) ?_ fun a s _ => hnext a s
  intro hrecords hl done hdone
  obtain ⟨inner, hinner, rfl⟩ := listen_eq_ok_iff.mp hdone
  exact hstep hrecords hl hinner

theorem settles_freeAll (names : List Ident) : HandsOn (freeAll names) config state := by
  intro hrecords hl done hdone
  obtain ⟨code, l, hfree, rfl⟩ := freeAll_eq_ok_iff.mp hdone
  obtain ⟨order, -, hdrop⟩ := Layout.freeAll_eq_ok hfree
  obtain ⟨hknown, hcode⟩ := hl.dropNames hdrop
  exact ⟨hcode, hknown, trivial⟩

theorem settles_freeingAfter (name : Ident) (hbody : HandsOn body config state) :
    HandsOn (freeingAfter name body) config state := by
  refine settles_listen_bind hbody fun _ _ => .ite (fun _ => settles_pure trivial) fun _ => ?_
  intro hrecords hl done hdone
  obtain ⟨slot, -, -, rfl⟩ := free_eq_ok_iff.mp hdone
  refine ⟨(Instr.allKnown_notes config _).append (Instr.allKnown_singleton ?_),
    (hl.without name slot).unhide name, trivial⟩
  simp [Instr.types_dropAt]

theorem settles_fromHere {body : Layout → Gen Unit}
    (h : ∀ outer, HandsOn (body outer) config state) : HandsOn (fromHere body) config state :=
  .congr layout_bind rfl (h state.layout)

/-- A function starts from its argument alone, and its closure has the two types that are written in
its head. -/
theorem settles_function (name : Ident) (params : List Param) (returns : Option Expr)
    (hbody : ∀ state, HandsOn body config state) :
    HandsOn (function name params returns body) config state := by
  intro hrecords hl done hdone
  obtain ⟨param, paramExpr, result, argTy, resultTy, start, inner, bound, -, rfl, -, hargTy, -,
    hresultTy, hstart, hinner, -, hbound, rfl⟩ := function_eq_ok hdone
  have harg := TypeExpr.known_of_type hrecords hargTy
  have hresult := TypeExpr.known_of_type hrecords hresultTy
  -- The frame has no variables of its own.
  have hframe : ((state.layout.frame (.function name resultTy)).push 1).Known :=
    .empty (.function name resultTy)
  obtain ⟨hcode, -⟩ := settles_freeingAfter param.name (hbody _) hrecords
    (hframe.bind harg hstart) hinner
  have hclosure : (Ty.lambda argTy resultTy).hasUnknown = false := by
    rw [Ty.hasUnknown, harg, hresult]
    rfl
  have hbinds : HandsOn (bindTop name (.lambda argTy resultTy)) config { inner.state with
      layout := (state.layout.push 1).setFormals name [param.name] } :=
    settles_bindTop name hclosure
  obtain ⟨hnotes, hend⟩ := hbinds hrecords hl hbound
  have hlambda : Instr.AllKnown [.lambda argTy resultTy inner.code] :=
    Instr.allKnown_singleton (by simpa [Instr.types] using ⟨harg, hresult, hcode⟩)
  exact ⟨hlambda.append hnotes, hend⟩

theorem settles_ifElse (test : Expr) {body orelse : Gen Unit}
    (hbody : ∀ state, HandsOn body config state)
    (horelse : ∀ state, HandsOn orelse config state) :
    HandsOn (ifElse test body orelse) config state := by
  intro hrecords hl done hdone
  obtain ⟨pushed, onTrue, onFalse, depth, -, hpushed, htrue, hfalse, -, rfl⟩ := ifElse_eq_ok hdone
  obtain ⟨htest, hknown, -⟩ := test.settles_pushAs .bool hrecords hl hpushed
  have hbeneath : (pushed.state.layout.atDepth state.layout.depth).Known := hknown
  obtain ⟨hthen, -⟩ := hbody (pushed.state.atDepth state.layout.depth) hrecords hbeneath htrue
  obtain ⟨helse, -⟩ := horelse { onTrue.state with
    layout := pushed.state.layout.atDepth state.layout.depth } hrecords hbeneath hfalse
  refine ⟨htest.append (Instr.allKnown_singleton ?_), hknown, trivial⟩
  intro ty hty
  rw [Instr.types, List.mem_append] at hty
  exact hty.elim (hthen ty) (helse ty)

/-- The variable of a loop has the element type of its list, which has been shown to be settled. -/
theorem settles_forIn (target : Ident) (iter : Expr)
    (hbody : ∀ state, HandsOn body config state) :
    HandsOn (forIn target iter body) config state := by
  intro hrecords hl done hdone
  obtain ⟨element, pushed, inner, hty, hpushed, hinner, -, rfl⟩ := forIn_eq_ok hdone
  obtain ⟨hlist, hknown, hfound, hsettled⟩ := iter.settles_value none hrecords hl hpushed
  have helement : element.hasUnknown = false := by
    rw [Except.ok.inj (hfound.symm.trans hty)] at hsettled
    rwa [Ty.hasUnknown] at hsettled
  have hloop : HandsOn (freeingAfter target (do bindTop target element; body)) config pushed.state :=
    settles_freeingAfter target ((settles_bindTop target helement).bind fun _ s _ => hbody s)
  obtain ⟨hcode, -⟩ := hloop hrecords hknown hinner
  exact ⟨hlist.append (Instr.allKnown_singleton (by simpa [Instr.types] using hcode)), hknown,
    trivial⟩

end Gen

mutual

/-- A statement that is accepted hands settled types on. -/
theorem settles_compileStmt : ∀ (s : Stmt) (state : State),
    HandsOn (compileStmt s) config state
  | .function _ name params returns body, _ => settles_seen_bind <|
      settles_function name params returns fun _ => settles_fromHere fun outer =>
        settles_compileBody body outer _
  | .classDef .., _ => settles_seen_bind (.congr layout_bind rfl settles_fail)
  | .assign _ target value, _ => settles_seen_bind (settles_assign target none value)
  | .annotated _ target declared (some value), _ =>
      settles_seen_bind (settles_assign target (some declared) value)
  | .annotated _ _ _ none, _ => settles_seen_bind settles_fail
  | .augmented .., _ => settles_seen_bind fun _ _ _ hdone => absurd hdone defect_ne_ok
  | .expr _ value, _ => settles_seen_bind (settles_evaluate value)
  | .ifElse _ test body orelse, _ => settles_seen_bind <|
      settles_ifElse test (fun _ => settles_fromHere fun outer => settles_compileBody body outer _)
        fun _ => settles_fromHere fun outer => settles_compileBody orelse outer _
  | .forIn _ target iter body, _ => settles_seen_bind <|
      settles_forIn target iter fun _ => settles_fromHere fun outer =>
        settles_compileBody body outer _
  | .raise _ value, _ => settles_seen_bind (settles_raise value)
  | .ret _ value, _ => settles_seen_bind (settles_ret value)
  | .imports line _, _ | .pass line, _ => settles_seen line

theorem settles_compileBody : ∀ (body : List Stmt) (outer : Layout) (state : State),
    HandsOn (compileBody body outer) config state
  | [], _, _ => .congr layout_bind rfl (settles_freeAll _)
  | s :: rest, outer, state => settles_listen_bind (settles_compileStmt s state) fun _ s' =>
      .ite (fun _ => settles_pure trivial) fun _ => settles_compileBody rest outer s'

end

/-! ## Modules and contracts -/

namespace Gen

variable {config : Config} {state : State}

theorem settles_compileBlock (body : List Stmt) : HandsOn (compileBlock body) config state :=
  settles_fromHere fun outer => settles_compileBody body outer _

theorem settles_recordFields (record : Ident) (body : List Stmt) :
    HandsOn (recordFields record body) config state := by
  induction body generalizing state with
  | nil => exact settles_pure trivial
  | cons s rest ih =>
    unfold recordFields
    split
    · split
      · exact settles_failAt
      · rw [denoted, bind_assoc]
        exact .congr scope_bind rfl (settles_typed_bind fun _ _ => ih.bind fun _ _ _ =>
          settles_pure trivial)
    · exact ih
    · exact .ite (fun _ => ih) fun _ => settles_failAt

theorem settles_recordClass (name : Ident) (body : List Stmt) :
    HandsOn (recordClass name body) config state := by
  refine .congr scope_bind rfl (settles_when fun _ =>
    (settles_recordFields name body).bind fun _ _ _ =>
    settles_when fun _ => ?_)
  split
  · exact settles_fail
  · exact settles_pure trivial

/-- Record classes are settled, so the statements after them find settled records. -/
theorem settles_statements (body : List Stmt) : HandsOn (statements body) config state := by
  induction body generalizing config state with
  | nil => exact settles_pure trivial
  | cons s rest ih =>
    cases s with
    | classDef line name bases decorators inner =>
      rw [statements]
      refine settles_seen_bind (.ite (fun _ => ?_) fun _ => settles_fail)
      intro hrecords hl done hdone
      obtain ⟨fields, last, hfields, hlast, rfl⟩ := bind_eq_ok_iff.mp hdone
      obtain ⟨hcode, hknown, -⟩ := settles_recordClass name inner hrecords hl hfields
      obtain ⟨hcode', hend⟩ := ih (settled_of_recordClass hrecords hfields) hknown hlast
      exact ⟨hcode.append hcode', hend⟩
    | _ =>
      rw [statements]
      · exact settles_seen_bind ((settles_compileStmt _ _).bind fun _ _ _ => ih)
      · simp

theorem settles_prologue {contract : Option (List Stmt)} {body : List Stmt} :
    HandsOn (prologue contract body) config state := by
  induction body generalizing contract state with
  | nil => exact settles_pure trivial
  | cons s rest ih =>
    intro hrecords hl done hdone
    have hseen : (state.seeing s.line).layout.Known := (state.layout_seeing s.line).symm ▸ hl
    rcases prologue_cons_eq_ok hdone with ⟨-, -, hskip⟩ | ⟨first, last, -, -, hfirst, hlast, rfl⟩
    · exact ih hrecords hseen hskip
    · obtain ⟨hcode, hknown, -⟩ := settles_compileStmt s _ hrecords hseen hfirst
      obtain ⟨hcode', hend⟩ := ih hrecords hknown hlast
      exact ⟨hcode.append hcode', hend⟩

/-- The storage has the type that is written in the head of its initializer, or that of its value.
-/
theorem known_of_deploy (hrecords : config.records.Settled) {method : Method}
    {done : Step (Ty × Code)}
    (h : deploy method config state = .ok done) :
    done.result.1.hasUnknown = false ∧ Instr.AllKnown done.result.2 := by
  obtain ⟨line, init, declared, inner, -, hdeclared, -, hinner, -, hresult⟩ := deploy_eq_ok h
  obtain ⟨hcode, -, -, hknown⟩ := init.settles_value declared hrecords
    (.empty .deploy) hinner
  rw [hresult]
  refine ⟨?_, hcode⟩
  -- Without an annotation the storage has the type of the value that has been pushed.
  cases declared with
  | none => exact hknown
  | some want =>
    obtain ⟨e, he⟩ := hdeclared want rfl
    exact TypeExpr.known_of_type hrecords he

theorem known_of_entrypointParam (hrecords : config.records.Settled) {method : Method}
    {done : Step (Ident × Ty)} (h : entrypointParam method config state = .ok done) :
    done.result.2.hasUnknown = false := by
  rcases (entrypointParam_eq_ok h).2 with heq | ⟨_, _, e, he, -⟩
  · rw [heq]
    rfl
  · exact TypeExpr.known_of_type hrecords he

theorem settles_pending (method : Method) : HandsOn (pending method) config state := by
  refine .ite (fun _ => ?_) fun _ => settles_pure trivial
  exact (settles_apply (by simp [Prim.types, Ty.hasUnknown])).bind fun _ _ _ =>
    settles_bindTop Layout.operationsName rfl

theorem settles_epilogue : HandsOn epilogue config state := by
  refine .congr layout_bind rfl ((settles_freeAll _).bind fun _ _ _ => .congr layout_bind rfl ?_)
  refine .ite (fun _ => settles_apply_plain rfl) fun _ => ?_
  exact Settles.bind (settles_apply (by simp [Prim.types, Ty.hasUnknown])) fun _ _ _ =>
    settles_apply_plain rfl

theorem settles_entrypointCode (method : Method) :
    HandsOn (entrypointCode method) config state := by
  refine settles_listen_bind ((settles_annotate _).bind fun _ _ _ => .ite (fun _ => ?_)
    fun _ => settles_compileBlock _)
    fun _ _ => .ite (fun _ => settles_pure trivial) fun _ => settles_epilogue
  exact Settles.bind (settles_apply (by simp [Prim.types, Ty.hasUnknown])) fun _ _ _ =>
    (settles_bindTop Layout.operationsName rfl).bind fun _ _ _ => settles_compileBlock _

end Gen

theorem Layout.Known.entryLayout {module : Layout} (h : module.Known) {storage : Ty}
    (hstorage : storage.hasUnknown = false) : (Gen.entryLayout module storage).Known := by
  have hshift : (module.shift 1).Known := h
  exact hshift.bindSlot hstorage Layout.storageName

/-- The types of an entrypoint: of its parameter, of the storage and in its code. -/
def Entrypoint.types (e : Entrypoint) : List Ty := e.param :: e.storage :: Instr.typesIn e.code

/-- The types of a contract: of its storage, in its code and of its entrypoints. -/
def Contract.types (c : Contract) : List Ty :=
  c.storageTy :: (Instr.typesIn c.storageInit ++ Instr.typesIn c.preamble ++
    c.entrypoints.flatMap fun entry => entry.2.types)

theorem Gen.known_of_entrypoint {state : State} (hrecords : config.records.Settled) {base : Layout}
    (hbase : base.Known) {storage : Ty} (hstorage : storage.hasUnknown = false) {method : Method}
    {done : Step Entrypoint} (h : entrypoint method base storage config state = .ok done) :
    ∀ ty ∈ done.result.types, ty.hasUnknown = false := by
  obtain ⟨named, start, inner, hnamed, hstart, hinner, hresult⟩ := entrypoint_eq_ok h
  have hparam := known_of_entrypointParam hrecords hnamed
  have hroom : (({ base with context := .entrypoint method.name } : Layout).push 1).Known := hbase
  obtain ⟨hcode, -⟩ := settles_entrypointCode method hrecords (hroom.bind hparam hstart) hinner
  rw [hresult]
  simpa [Entrypoint.types] using ⟨hparam, hstorage, hcode⟩

namespace Module

variable {m : Module} {traced : Bool}

theorem known_of_compile {c : Contract} (h : m.compile traced = .ok c) :
    ∀ ty ∈ c.types, ty.hasUnknown = false := by
  obtain ⟨config, module, init, methods, hrecords, -, hassembled⟩ := Module.compile_eq_ok h
  obtain ⟨_, deployed, hdeployed, hdeploy⟩ := hassembled.deploy
  obtain ⟨hstorage, hinit⟩ := known_of_deploy hrecords hdeployed
  rw [hdeploy] at hstorage hinit
  obtain ⟨_, hprologue⟩ := hassembled.prologue
  obtain ⟨hcode, hmodule, -⟩ := settles_prologue hrecords (.empty .module) hprologue
  have hpreamble : Instr.AllKnown c.preamble := by
    rw [hassembled.preamble]
    refine (Instr.allKnown_singleton (by simp [Instr.types])).append (hcode.append ?_)
    split
    · exact Instr.allKnown_singleton (by simp [Instr.types])
    · exact Instr.allKnown_nil
  have hentries : ∀ entry ∈ c.entrypoints, ∀ ty ∈ entry.2.types, ty.hasUnknown = false := by
    rintro ⟨name, e⟩ hmem
    obtain ⟨method, -, -, _, compiled, hcompiled, rfl⟩ := hassembled.entrypoints name e hmem
    exact known_of_entrypoint hrecords (hmodule.entryLayout hstorage) hstorage hcompiled
  intro ty hty
  simp only [Contract.types, List.mem_cons, List.mem_append, List.mem_flatMap] at hty
  rcases hty with rfl | (hty | hty) | ⟨entry, hentry, hty⟩
  · exact hstorage
  · exact hinit ty hty
  · exact hpreamble ty hty
  · exact hentries entry hentry ty hty

theorem known_of_compileStatements {code : Code} (h : m.compileStatements traced = .ok code) :
    Instr.AllKnown code := by
  obtain ⟨done, hdone, rfl⟩ := Module.compileStatements_eq_ok_iff.mp h
  exact (settles_statements _ Records.settled_empty (.empty .module) hdone).1

end Module

/-! ## From point to point -/

namespace Gen

/-- Records and variables have settled types at a point, and so has whatever the task carries with
it. -/
structure Point.Settled (p : Point) : Prop where
  records : p.config.records.Settled
  layout : p.state.layout.Known
  task : match p.task with
    | .members module _ => module.Known
    | .loop _ element _ => element.hasUnknown = false
    | _ => True

/-- Types that are settled at a point are settled at the next. -/
theorem Next.settled {p q : Point} (h : Next p q) (hp : p.Settled) : q.Settled := by
  obtain ⟨hrecords, hl, htask⟩ := hp
  have hseen {state : State} (line : Nat) (hl : state.layout.Known) :
      (state.seeing line).layout.Known := state.layout_seeing line ▸ hl
  cases h with
  | sessionRecord hs hdone | recordsRecord hs hdone =>
    exact ⟨settled_of_recordClass hrecords hdone, layout_of_recordClass hdone ▸ hseen _ hl, trivial⟩
  | sessionStmt | prologueSkip | prologueStmt | firstExpr => exact ⟨hrecords, hseen _ hl, trivial⟩
  | sessionRest hdone | prologueRest hs hdone =>
    exact ⟨hrecords, (settles_compileStmt _ _ hrecords (hseen _ hl) hdone).2.1, trivial⟩
  | recordsSkip | bodyStmt | closureBody => exact ⟨hrecords, hl, trivial⟩
  | prologue => exact ⟨hrecords, .empty .module, trivial⟩
  | members => exact ⟨hrecords, hl, hl⟩
  | deploy hfound hinit hvalue => exact ⟨hrecords, .empty .deploy, trivial⟩
  | @entry config state state' module start body found init method deployed param hfound hinit
      hmethod hdeployed hparam hstart =>
    have hstorage := (known_of_deploy hrecords hdeployed).1
    have hroom : (({ entryLayout module deployed.result.1 with
        context := .entrypoint method.name } : Layout).push 1).Known := htask.entryLayout hstorage
    exact ⟨hrecords, hroom.bind (known_of_entrypointParam hrecords hparam) hstart, trivial⟩
  | entryBody hpending => exact ⟨hrecords, (settles_pending _ hrecords hl hpending).2.1, trivial⟩
  | epilogue hpending hdone hgoes =>
    have hready := (settles_pending _ hrecords hl hpending).2.1
    exact ⟨hrecords, (settles_compileBody _ _ _ hrecords hready hdone).2.1, trivial⟩
  | bodyRest hdone hgoes =>
    exact ⟨hrecords, (settles_compileStmt _ _ hrecords hl hdone).2.1, trivial⟩
  | assigned hs hpath hstep hdone =>
    -- on the way to a part of an assignment no variable comes or goes
    obtain ⟨n, hstacks⟩ := hstep.stacks hpath
    exact ⟨hrecords, (hseen _ hl).of_alike (hstacks.after hdone).keeps.alike, trivial⟩
  | branch hchosen hdone hstart =>
    obtain ⟨-, hknown, -⟩ := Expr.settles_pushAs _ .bool hrecords (hseen _ hl) hdone
    obtain ⟨-, rfl⟩ := (Layout.pop_eq_ok_iff _).mp hstart
    exact ⟨hrecords, hknown, trivial⟩
  | loop hty hdone =>
    obtain ⟨-, hknown, hfound, hsettled⟩ :=
      Expr.settles_value _ none hrecords (hseen _ hl) hdone
    rw [State.layout_seeing] at hfound
    rw [Except.ok.inj (hfound.symm.trans hty), Ty.hasUnknown] at hsettled
    exact ⟨hrecords, hknown, hsettled⟩
  | loopBody hbound => exact ⟨hrecords, (settles_bindTop _ htask hrecords hl hbound).2.1, trivial⟩
  | @closure config state lineNo name param paramExpr result body argTy resultTy start hparam harg
      hresult hstart =>
    have hframe : ((state.layout.frame (.function name resultTy)).push 1).Known :=
      .empty (.function name resultTy)
    exact ⟨hrecords, hframe.bind (TypeExpr.known_of_type hrecords harg) hstart, trivial⟩
  | operand hty hstep hdone =>
    obtain ⟨n, hstacks⟩ := hstep.stacks
    exact ⟨hrecords, (hseen _ hl).of_alike (hstacks.after hdone).keeps.alike, trivial⟩

/-- A task that is started from settled types leaves settled types. -/
theorem Point.Settled.done {p : Point} (hp : p.Settled) {last : Step Unit}
    (h : p.task.run p.config p.state = .ok last) : last.state.layout.Known := by
  obtain ⟨task, config, state⟩ := p
  obtain ⟨hrecords, hl, htask⟩ := hp
  have hend {step : Gen Unit} (hstep : HandsOn step config state)
      (h : step config state = .ok last) : last.state.layout.Known := (hstep hrecords hl h).2.1
  cases task with
  | stmt s => exact hend (settles_compileStmt s state) h
  | body rest outer => exact hend (settles_compileBody rest outer state) h
  | loop target element inner =>
    exact hend (settles_freeingAfter target ((settles_bindTop target htask).bind fun _ _ _ =>
      settles_compileBlock inner)) h
  | closure param inner => exact hend (settles_freeingAfter param (settles_compileBlock inner)) h
  | expr e expected =>
    exact hend ((e.settles_compile expected).bind fun _ _ _ => settles_pure trivial) h
  | _ => exact hend (settles_pure trivial) h

end Gen

namespace Module

variable {m : Module} {traced : Bool}

theorem Reaches.settled {p : Point} (h : m.Reaches traced p) : p.Settled := by
  induction h with
  | session | program => exact ⟨Records.settled_empty, .empty .module, trivial⟩
  | next _ hnext ih => exact hnext.settled ih

theorem Passes.settled {records : Records} {l : Layout} (h : m.Passes traced records l) :
    records.Settled ∧ l.Known := by
  induction h with
  | start hp => exact ⟨hp.settled.records, hp.settled.layout⟩
  | done hp hdone => exact ⟨hp.settled.records, hp.settled.done hdone⟩
  | base hp hfound hinit hdeployed =>
    have hrecords := hp.settled.records
    exact ⟨hrecords, Layout.Known.entryLayout hp.settled.task
      (known_of_deploy hrecords hdeployed).1⟩
  | pushed _ n ih => exact ih
  | dropped _ hdrop ih =>
    obtain ⟨slot, -, -, -, rfl⟩ := Layout.dropName_eq_ok_iff.mp hdrop
    exact ⟨ih.1, ih.2.without _ _⟩
  | hidden _ name ih => exact ⟨ih.1, ih.2.hide name⟩

theorem Arises.settled {records : Records} {l : Layout} (h : m.Arises traced records l) :
    records.Settled ∧ l.Known := by
  rcases h with h | ⟨hp, hlast⟩
  · exact h.settled
  · exact ⟨hp.settled.records, (settles_epilogue hp.settled.records hp.settled.layout hlast).2.1⟩

end Module

/-- Unknown types never get out. No type of a contract that is accepted has unknown parts: not that
of its storage, not that of a parameter, not a type operand of its code, however deep inside.
Neither has a type operand in the code of statements that are accepted. And at whatever point of the
compilation of a module, accepted or not, no variable and no attribute of a record has a type with
unknown parts. -/
theorem unknown_types_never_get_out (m : Module) (traced : Bool) :
    (∀ c : Contract, m.compile traced = .ok c → ∀ ty ∈ c.types, ty.hasUnknown = false) ∧
    (∀ code : Code, m.compileStatements traced = .ok code →
      ∀ ty ∈ Instr.typesIn code, ty.hasUnknown = false) ∧
    ∀ (records : Records) (l : Layout), m.Arises traced records l →
      (∀ name ty, l.ty? name = some ty → ty.hasUnknown = false) ∧
      ∀ name fields, records.get? name = some fields →
        ∀ field ∈ fields, field.2.hasUnknown = false := by
  refine ⟨fun c => Module.known_of_compile, fun code => Module.known_of_compileStatements,
    fun records l h => ?_⟩
  obtain ⟨hrecords, hl⟩ := h.settled
  refine ⟨fun name ty hty => hl hty, fun name fields hfields field hfield => ?_⟩
  exact Ty.known_of_mem (hrecords hfields).2 hfield

/-- An empty list and an empty map, each of which has its type from an annotation. -/
def Module.ledger : Module :=
  ⟨[.annotated 1 (.name 1 "log") (.subscript 1 (.name 1 "List") (.name 1 "int"))
    (some (.list 1 [])),
    .classDef 2 "Contract" [] []
      [.function 3 "deploy" [] (some (.subscript 3 (.name 3 "Dict")
          (.tuple 3 [.name 3 "str", .name 3 "nat"]))) [.ret 4 (some (.dict 4 []))],
        .function 5 "refuse" [⟨"n", some (.name 5 "int"), 5⟩] none
          [.raise 6 (some (.name 6 "n"))]]]⟩

theorem unknown_types_never_get_out_ledger : ∃ (c : Contract) (code : Code),
    Module.ledger.compile false = .ok c ∧
    c.types = [.map false .string .nat, .string, .nat, .int, .int, .map false .string .nat] ∧
    (∀ ty ∈ c.types, ty.hasUnknown = false) ∧
    (Module.ledger.take 1).compileStatements false = .ok code ∧ Instr.typesIn code = [.int] ∧
    (∀ ty ∈ Instr.typesIn code, ty.hasUnknown = false) ∧
    Module.ledger.Arises false .empty (.empty .module) := by
  have hcontract : (Module.ledger.compile false).toOption.map Contract.types =
      some [.map false .string .nat, .string, .nat, .int, .int, .map false .string .nat] := by
    decide +kernel
  have hstatements : ((Module.ledger.take 1).compileStatements false).toOption.map Instr.typesIn =
      some [.int] := by decide +kernel
  simp only [Option.map_eq_some_iff, Except.toOption_eq_some_iff] at hcontract hstatements
  obtain ⟨c, hc, htypes⟩ := hcontract
  obtain ⟨code, hcode, hin⟩ := hstatements
  have hstart : Module.ledger.Reaches false ⟨.session Module.ledger.desugar.body,
    ⟨.empty, false⟩, ⟨.empty .module, 0⟩⟩ := .session
  exact ⟨c, code, hc, htypes, (unknown_types_never_get_out Module.ledger false).1 c hc, hcode, hin,
    (unknown_types_never_get_out (Module.ledger.take 1) false).2.1 code hcode, .inl (.start hstart)⟩

end Covenant
