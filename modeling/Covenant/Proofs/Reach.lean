import Covenant.Compile
import Covenant.Proofs.Gen.Assembly
import Covenant.Proofs.Gen.Steps

/-!
# Covenant — where the compiler gets to

Compiling a module is a tree of runs: the module runs its statements, a statement its blocks and
expressions, an expression its operands. A `Point` is a task of the compiler together with the
configuration and the state that it is started from, and `Next p q` says that `q` is started on the
way through `p`. `Module.Reaches` collects the points that the two ways of compiling a module get
to.

A run that fails has started whatever comes before the failure, so `Next` never asks for `p` to
succeed, only for what lies between the start of `p` and that of `q`. Where it is simpler it says
more than happens: operands are started under every expectation, and methods of a contract class
whether or not those before them compile. So what holds at all points of `Module.Reaches` holds at
all points that there are, of accepted modules and of rejected ones.

`Module.Arises` are the layouts at these points, at the ends of tasks and in between
(`Module.Passes`), and those after the pair that an entrypoint ends with (`Module.Paired`).
-/

namespace Covenant

namespace Gen

/-! ## Operands of expressions -/

/-- `Before e step part`: on the way to the code of `e`, after `step`, its operand `part` is
compiled. -/
inductive Before : Expr → Gen Unit → Expr → Prop
  | item (line : Nat) (earlier later : List Expr) (item : Expr) (element : Ty) :
    Before (.list line (earlier ++ item :: later))
      (do apply (.nil element); Operand.consAll element (operands later)) item
  | entryValue (line : Nat) (earlier later : List (Expr × Expr)) (key value : Expr) (big : Bool)
      (keyTy valueTy : Ty) :
    Before (.dict line (earlier ++ (key, value) :: later))
      (do
        apply (.emptyMap big keyTy valueTy)
        Operand.insertAll keyTy valueTy (entryOperands later)) value
  | entryKey (line : Nat) (earlier later : List (Expr × Expr)) (key value : Expr) (big : Bool)
      (keyTy valueTy : Ty) :
    Before (.dict line (earlier ++ (key, value) :: later))
      (do
        apply (.emptyMap big keyTy valueTy)
        Operand.insertAll keyTy valueTy (entryOperands later)
        value.operand.pushAs valueTy
        apply .some) key
  | owner (line : Nat) (value : Expr) (field : Ident) :
    Before (.attr line value field) (pure ()) value
  | container (line : Nat) (value index : Expr) :
    Before (.subscript line value index) (pure ()) value
  | index (line : Nat) (value index : Expr) :
    Before (.subscript line value index) (do let _ ← value.operand.value none) index
  -- comparisons, memberships and arithmetic evaluate the right operand first
  | rightComparand (line : Nat) (left right : Expr) (op : CmpOp) :
    Before (.compare line left [(op, right)]) (pure ()) right
  | leftComparand (line : Nat) (left right : Expr) (op : CmpOp) (expected : Option Ty) :
    Before (.compare line left [(op, right)]) (do let _ ← right.operand.value expected) left
  | rightOperand (line : Nat) (left right : Expr) (op : BinOp) :
    Before (.binary line left op right) (pure ()) right
  | leftOperand (line : Nat) (left right : Expr) (op : BinOp) (want : Ty) :
    Before (.binary line left op right) (right.operand.pushAs want) left
  | negated (line : Nat) (op : UnOp) (operand : Expr) :
    Before (.unary line op operand) (pure ()) operand
  | connected (line : Nat) (op : BoolOp) (earlier later : List Expr) (operand : Expr) :
    Before (.boolean line op (earlier ++ operand :: later))
      (if earlier.isEmpty then pure () else emitBoolean op (operands earlier)) operand
  | callee (line : Nat) (func : Expr) (args : List Expr) (keywords : List (Ident × Expr)) :
    Before (.call line func args keywords) (pure ()) func
  | receiver (line funcLine : Nat) (value : Expr) (field : Ident) (args : List Expr)
      (keywords : List (Ident × Expr)) :
    Before (.call line (.attr funcLine value field) args keywords) (pure ()) value
  | closureArgument (line : Nat) (func arg : Expr) (args : List Expr)
      (keywords : List (Ident × Expr)) (h : arg ∈ args ∨ arg ∈ keywords.map (·.2)) :
    Before (.call line func args keywords) (do let _ ← func.operand.value none) arg
  | recordArgument (line : Nat) (func arg : Expr) (earlier later : List Expr)
      (keywords : List (Ident × Expr)) (wants : List Ty)
      (h : (operands later).length = wants.length) :
    Before (.call line func (earlier ++ arg :: later) keywords)
      (Operand.pushAllReversed (operands later) wants) arg
  | argument (line : Nat) (func arg : Expr) (earlier later : List Expr)
      (keywords : List (Ident × Expr)) (wants : List Ty)
      (h : (operands earlier).length = wants.length) :
    Before (.call line func (earlier ++ arg :: later) keywords)
      (Operand.pushAll (operands earlier) wants) arg
  | methodArgument (line funcLine : Nat) (value arg : Expr) (field : Ident)
      (earlier later : List Expr) (keywords : List (Ident × Expr)) (wants : List Ty)
      (h : (operands earlier).length = wants.length) :
    Before (.call line (.attr funcLine value field) (earlier ++ arg :: later) keywords)
      (do
        let _ ← value.operand.value none
        Operand.pushAll (operands earlier) wants) arg
  | operationArgument (line : Nat) (func arg : Expr) (earlier later : List Expr)
      (keywords : List (Ident × Expr)) (wants : List Ty)
      (h : (operands earlier).length = wants.length) :
    Before (.call line func (earlier ++ arg :: later) keywords)
      (do
        fetch Layout.operationsName
        Operand.pushAll (operands earlier) wants) arg
  | element (line : Nat) (func arg : Expr) (earlier later : List Expr)
      (keywords : List (Ident × Expr)) (element : Ty) :
    Before (.call line func (earlier ++ arg :: later) keywords)
      (do apply (.nil element); Operand.consAll element (operands later)) arg
  | default (line funcLine : Nat) (value key default : Expr) (field : Ident)
      (keywords : List (Ident × Expr)) (keyTy : Ty) :
    Before (.call line (.attr funcLine value field) [key, default] keywords)
      (do
        let _ ← value.operand.value none
        key.operand.pushAs keyTy
        apply .mapGet
        pop 1) default
  | addedValue (line funcLine : Nat) (value key added : Expr) (field : Ident)
      (keywords : List (Ident × Expr)) :
    Before (.call line (.attr funcLine value field) [key, added] keywords)
      (do let _ ← value.operand.value none) added
  | addedKey (line funcLine : Nat) (value key added : Expr) (field : Ident)
      (keywords : List (Ident × Expr)) (valueTy : Ty) :
    Before (.call line (.attr funcLine value field) [key, added] keywords)
      (do
        let _ ← value.operand.value none
        added.operand.pushAs valueTy
        apply .some) key

/-! ## Keys and values of assignments -/

/-- Opens containers one inside the other. -/
def openSteps : List PathStep → Gen Unit
  | [] => pure ()
  | step :: rest => do
    openStep step
    openSteps rest

/-- `BeforeAssigned path value step part`: on the way to the assignment of `value` to the end of
`path`, after `step`, the value or a key is compiled. Keys are compiled when a container is opened,
and again when it is put together. -/
inductive BeforeAssigned (path : Path) (value : Expr) : Gen Unit → Expr → Prop
  | opens (outer inner : List PathStep) (index : Expr) (ty : Ty)
      (h : path.steps = outer ++ .key index.operand ty :: inner) :
    BeforeAssigned path value (do fetch path.root; openSteps outer; emit (.dup 1); push 1) index
  | value (outer inner : List PathStep) (h : path.steps = outer ++ inner) :
    BeforeAssigned path value (do fetch path.root; openSteps outer) value
  | closes (outer inner : List PathStep) (index : Expr) (ty : Ty)
      (h : path.steps = outer ++ .key index.operand ty :: inner) :
    BeforeAssigned path value
      (do
        fetch path.root
        openSteps outer
        if inner.isEmpty then
          value.operand.pushAs path.leaf
        else
          openStep (.key index.operand ty)
          writeSteps (value.operand.pushAs path.leaf) inner
        apply .some) index

end Gen

/-! ## Statements of different kinds -/

namespace Stmt

/-- The target and the value of an assignment. -/
def assignment? : Stmt → Option (Expr × Expr)
  | assign _ target value | annotated _ target _ (some value) => some (target, value)
  | _ => none

/-- The expressions that a statement compiles before anything else. -/
def firstExprs : Stmt → List Expr
  | assign _ _ value | annotated _ _ _ (some value) | expr _ value | ret _ (some value)
  | ifElse _ value _ _ | forIn _ _ value _ => [value]
  | raise _ (some value) => match value with
    | .call _ _ [message] _ => [value, message]
    | value => [value]
  | _ => []

/-- A class that is a record, with its line, its name and its members. -/
def record? : Stmt → Option (Nat × Ident × List Stmt)
  | classDef line name _ decorators body =>
    if isRecordClass decorators then some (line, name, body) else none
  | _ => none

/-- The statements that stand in the blocks of a statement. -/
def inner : Stmt → List Stmt
  | function _ _ _ _ body | classDef _ _ _ _ body | forIn _ _ _ body => body
  | ifElse _ _ body orelse => body ++ orelse
  | _ => []

end Stmt

namespace Gen

/-! ## Tasks -/

/-- What the compiler may be at work on. -/
inductive Task where
  /-- The remaining statements of a module without a contract. -/
  | session (rest : List Stmt)
  /-- The record classes among the remaining statements, ahead of the statements of a contract
  program. -/
  | records (body rest : List Stmt)
  /-- The remaining module-level statements of a contract program. -/
  | prologue (contract : Option (List Stmt)) (rest : List Stmt)
  /-- The members of the contract class, after the module-level statements have left a layout. -/
  | members (module : Layout) (body : List Stmt)
  | entry (method : Method)
  | epilogue
  | stmt (s : Stmt)
  /-- The remaining statements of a block, and the freeing of what it declared. -/
  | body (rest : List Stmt) (outer : Layout)
  | loop (target : Ident) (element : Ty) (body : List Stmt)
  | closure (param : Ident) (body : List Stmt)
  | expr (e : Expr) (expected : Option Ty)

/-- What a task does by itself. The tasks that make up a module only hand on to others. -/
def Task.run : Task → Gen Unit
  | .stmt s => compileStmt s
  | .body rest outer => compileBody rest outer
  | .loop target element inner =>
    freeingAfter target (do bindTop target element; fromHere (compileBody inner))
  | .closure param inner => freeingAfter param (fromHere (compileBody inner))
  | .expr e expected => do let _ ← e.operand.compile expected
  | _ => pure ()

/-- The statements that a task has in hand. -/
def Task.stmts : Task → List Stmt
  | .session rest => rest
  | .records whole _ => whole
  | .prologue contract rest => contract.getD [] ++ rest
  | .members _ inner => inner
  | .entry method => method.body
  | .stmt s => [s]
  | .body rest _ => rest
  | .loop _ _ inner => inner
  | .closure _ inner => inner
  | .epilogue | .expr _ _ => []

/-- A task and where it is started. -/
structure Point where
  task : Task
  config : Config
  state : State

/-- The statements at a point have a property. -/
def Point.Holds (P : Stmt → Prop) (p : Point) : Prop := ∀ s ∈ p.task.stmts, P s

/-- The list of pending operations of an entrypoint that needs one. -/
def pending (method : Method) : Gen Unit :=
  if Stmt.anyCallsTransaction method.body then do
    apply (.nil .operation)
    bindTop Layout.operationsName (.list .operation)
  else
    pure ()

/-- The second point is started on the way through the first. -/
inductive Next : Point → Point → Prop
  -- modules without a contract
  | sessionRecord {config : Config} {state : State} {s : Stmt} {rest body : List Stmt} {line : Nat}
      {name : Ident} {done : Step Fields} (hs : s.record? = some (line, name, body))
      (h : recordClass name body config (state.seeing line) = .ok done) :
    Next ⟨.session (s :: rest), config, state⟩
      ⟨.session rest, { config with records := config.records.insert name done.result }, done.state⟩
  | sessionStmt {config : Config} {state : State} {s : Stmt} {rest : List Stmt} :
    Next ⟨.session (s :: rest), config, state⟩ ⟨.stmt s, config, state.seeing s.line⟩
  | sessionRest {config : Config} {state : State} {s : Stmt} {rest : List Stmt} {done : Step Unit}
      (h : compileStmt s config (state.seeing s.line) = .ok done) :
    Next ⟨.session (s :: rest), config, state⟩ ⟨.session rest, config, done.state⟩
  -- contract programs
  | recordsRecord {config : Config} {state : State} {s : Stmt} {whole rest body : List Stmt}
      {line : Nat} {name : Ident} {done : Step Fields} (hs : s.record? = some (line, name, body))
      (h : recordClass name body config (state.seeing line) = .ok done) :
    Next ⟨.records whole (s :: rest), config, state⟩
      ⟨.records whole rest, { config with records := config.records.insert name done.result },
        done.state⟩
  | recordsSkip {config : Config} {state : State} {s : Stmt} {whole rest : List Stmt}
      (hs : s.record? = none) :
    Next ⟨.records whole (s :: rest), config, state⟩ ⟨.records whole rest, config, state⟩
  | prologue {config : Config} {state : State} {whole : List Stmt} :
    Next ⟨.records whole [], config, state⟩
      ⟨.prologue none whole, config, { state with layout := .empty .module }⟩
  | prologueSkip {config : Config} {state : State} {contract : Option (List Stmt)} {s : Stmt}
      {rest : List Stmt} (hs : s.isCode = false) :
    Next ⟨.prologue contract (s :: rest), config, state⟩
      ⟨.prologue (contract.or s.contract?) rest, config, state.seeing s.line⟩
  | prologueStmt {config : Config} {state : State} {s : Stmt} {rest : List Stmt}
      (hs : s.isCode = true) :
    Next ⟨.prologue none (s :: rest), config, state⟩ ⟨.stmt s, config, state.seeing s.line⟩
  | prologueRest {config : Config} {state : State} {s : Stmt} {rest : List Stmt} {done : Step Unit}
      (hs : s.isCode = true) (h : compileStmt s config (state.seeing s.line) = .ok done) :
    Next ⟨.prologue none (s :: rest), config, state⟩ ⟨.prologue none rest, config, done.state⟩
  | members {config : Config} {state : State} {body : List Stmt} :
    Next ⟨.prologue (some body) [], config, state⟩ ⟨.members state.layout body, config, state⟩
  | deploy {config : Config} {state : State} {module : Layout} {body : List Stmt}
      {found : Step (Option Method × List Method)} {init : Method} {line : Nat} {value : Expr}
      {expected : Option Ty} (hfound : members none body config state = .ok found)
      (hinit : found.result.1 = some init)
      (hvalue : init.body.filter (fun s => !s.isDocstring) = [.ret line (some value)]) :
    Next ⟨.members module body, config, state⟩
      ⟨.expr value expected, config, { found.state with layout := .empty .deploy }⟩
  | entry {config : Config} {state state' : State} {module start : Layout} {body : List Stmt}
      {found : Step (Option Method × List Method)} {init method : Method}
      {deployed : Step (Ty × Code)} {param : Step (Ident × Ty)}
      (hfound : Gen.members none body config state = .ok found)
      (hinit : found.result.1 = some init) (hmethod : method ∈ found.result.2)
      (hdeployed : Gen.deploy init config found.state = .ok deployed)
      (hparam : entrypointParam method config state' = .ok param)
      (hstart : (({ entryLayout module deployed.result.1 with
        context := .entrypoint method.name } : Layout).push 1).bind param.result.1 param.result.2 =
          .ok start) :
    Next ⟨.members module body, config, state⟩
      ⟨.entry method, config, { param.state with layout := start }⟩
  | entryBody {config : Config} {state : State} {method : Method} {ready : Step Unit}
      (h : pending method config state = .ok ready) :
    Next ⟨.entry method, config, state⟩
      ⟨.body method.body ready.state.layout, config, ready.state⟩
  | epilogue {config : Config} {state : State} {method : Method} {ready done : Step Unit}
      (h : pending method config state = .ok ready)
      (hdone : compileBody method.body ready.state.layout config ready.state = .ok done)
      (hgoes : diverges done.code = false) :
    Next ⟨.entry method, config, state⟩ ⟨.epilogue, config, done.state⟩
  -- blocks
  | bodyStmt {config : Config} {state : State} {s : Stmt} {rest : List Stmt} {outer : Layout} :
    Next ⟨.body (s :: rest) outer, config, state⟩ ⟨.stmt s, config, state⟩
  | bodyRest {config : Config} {state : State} {s : Stmt} {rest : List Stmt} {outer : Layout}
      {done : Step Unit} (h : compileStmt s config state = .ok done)
      (hgoes : diverges done.code = false) :
    Next ⟨.body (s :: rest) outer, config, state⟩ ⟨.body rest outer, config, done.state⟩
  -- statements
  | firstExpr {config : Config} {state : State} {s : Stmt} {e : Expr} {expected : Option Ty}
      (he : e ∈ s.firstExprs) :
    Next ⟨.stmt s, config, state⟩ ⟨.expr e expected, config, state.seeing s.line⟩
  | assigned {config : Config} {state : State} {s : Stmt} {target value part : Expr} {path : Path}
      {step : Gen Unit} {expected : Option Ty} {done : Step Unit}
      (hs : s.assignment? = some (target, value))
      (hpath : Path.resolve ⟨config.records, state.layout⟩ target = .ok path)
      (hstep : BeforeAssigned path value step part)
      (h : step config (state.seeing s.line) = .ok done) :
    Next ⟨.stmt s, config, state⟩ ⟨.expr part expected, config, done.state⟩
  | branch {config : Config} {state : State} {lineNo lineNo' : Nat} {test : Expr}
      {body orelse chosen : List Stmt} {pushed : Step Unit} {start : Layout}
      (hchosen : chosen = body ∨ chosen = orelse)
      (h : test.operand.pushAs .bool config (state.seeing lineNo) = .ok pushed)
      (hstart : pushed.state.layout.pop 1 = .ok start) :
    Next ⟨.stmt (.ifElse lineNo test body orelse), config, state⟩
      ⟨.body chosen start, config, ⟨start, lineNo'⟩⟩
  | loop {config : Config} {state : State} {lineNo : Nat} {target : Ident} {iter : Expr}
      {body : List Stmt} {element : Ty} {pushed : Step Ty}
      (hty : Covenant.typeOf ⟨config.records, state.layout⟩ iter none = .ok (.list element))
      (h : iter.operand.value none config (state.seeing lineNo) = .ok pushed) :
    Next ⟨.stmt (.forIn lineNo target iter body), config, state⟩
      ⟨.loop target element body, config, pushed.state⟩
  | loopBody {config : Config} {state : State} {target : Ident} {element : Ty} {body : List Stmt}
      {bound : Step Unit} (h : bindTop target element config state = .ok bound) :
    Next ⟨.loop target element body, config, state⟩
      ⟨.body body bound.state.layout, config, bound.state⟩
  | closure {config : Config} {state : State} {lineNo : Nat} {name : Ident} {param : Param}
      {paramExpr result : Expr} {body : List Stmt} {argTy resultTy : Ty} {start : Layout}
      (hparam : param.typeExpr = some paramExpr)
      (harg : TypeExpr.type config.records paramExpr = .ok argTy)
      (hresult : TypeExpr.type config.records result = .ok resultTy)
      (hstart : ((state.layout.frame (.function name resultTy)).push 1).bind param.name argTy =
        .ok start) :
    Next ⟨.stmt (.function lineNo name [param] (some result) body), config, state⟩
      ⟨.closure param.name body, config, { state.seeing lineNo with layout := start }⟩
  | closureBody {config : Config} {state : State} {param : Ident} {body : List Stmt} :
    Next ⟨.closure param body, config, state⟩ ⟨.body body state.layout, config, state⟩
  -- expressions
  | operand {config : Config} {state : State} {e part : Expr} {ty : Ty}
      {expected expected' : Option Ty} {step : Gen Unit} {done : Step Unit}
      (hty : Covenant.typeOf ⟨config.records, state.layout⟩ e expected = .ok ty)
      (hstep : Before e step part) (h : step config (state.seeing e.line) = .ok done) :
    Next ⟨.expr e expected, config, state⟩ ⟨.expr part expected', config, done.state⟩

/-- A step goes on with statements that it has in hand, or with the blocks of one. -/
theorem Next.holds {P : Stmt → Prop} (hP : ∀ {s : Stmt}, P s → ∀ s' ∈ s.inner, P s') {p q : Point}
    (h : Next p q) (hp : p.Holds P) : q.Holds P := by
  cases h with
  | sessionRecord | sessionRest | prologueRest | bodyRest => exact (List.forall_mem_cons.mp hp).2
  | sessionStmt | prologueStmt | bodyStmt =>
    exact List.forall_mem_singleton.mpr (List.forall_mem_cons.mp hp).1
  | recordsRecord | recordsSkip | prologue | entryBody | loopBody | closureBody => exact hp
  | @prologueSkip _ _ contract s rest hs =>
    obtain ⟨hcontract, hrest⟩ := List.forall_mem_append.mp hp
    obtain ⟨hs', hrest⟩ := List.forall_mem_cons.mp hrest
    refine List.forall_mem_append.mpr ⟨?_, hrest⟩
    cases contract with
    | some members => exact hcontract
    | none =>
      cases hfound : s.contract? with
      | none => simp
      | some members =>
        obtain ⟨_, _, _, _, rfl, -⟩ := Stmt.eq_classDef_of_contract? hfound
        exact hP hs'
  | members => exact (List.forall_mem_append.mp hp).1
  | entry hfound _ hmethod => exact hP (hp _ (stmt_mem_of_members hfound (.inr hmethod)))
  | deploy | epilogue | firstExpr | assigned | operand => simp [Point.Holds, Task.stmts]
  | branch hchosen =>
    obtain ⟨hbody, horelse⟩ :=
      List.forall_mem_append.mp (hP (hp _ (List.mem_singleton.mpr rfl)))
    rcases hchosen with rfl | rfl
    · exact hbody
    · exact horelse
  | loop | closure => exact hP (hp _ (List.mem_singleton.mpr rfl))

end Gen

/-! ## Modules -/

namespace Module

open Gen

/-- The points that compiling a module gets to, as a list of statements or as a contract program. -/
inductive Reaches (m : Module) (traced : Bool) : Point → Prop
  | session : Reaches m traced ⟨.session m.desugar.body, ⟨.empty, traced⟩, ⟨.empty .module, 0⟩⟩
  | program :
    Reaches m traced ⟨.records m.desugar.body m.desugar.body, ⟨.empty, traced⟩, ⟨.empty .module, 0⟩⟩
  | next {p q : Point} (hp : Reaches m traced p) (h : Next p q) : Reaches m traced q

/-- What every statement of a module has, and the blocks of a statement take over from it, the
statements at every point have. -/
theorem Reaches.holds {m : Module} {traced : Bool} {p : Point} {P : Stmt → Prop}
    (hP : ∀ {s : Stmt}, P s → ∀ s' ∈ s.inner, P s') (hm : ∀ s ∈ m.desugar.body, P s)
    (h : m.Reaches traced p) : p.Holds P := by
  induction h with
  | session | program => exact hm
  | next _ hnext ih => exact hnext.holds hP ih

/-- The layouts that code is compiled from in a module, and the records known there: where tasks
start and where they end, and what lies in between. In between, cells without a name come and go on
top, and a name is dropped or hidden on the way to the next layout. -/
inductive Passes (m : Module) (traced : Bool) : Records → Layout → Prop
  | start {p : Point} (hp : Reaches m traced p) : Passes m traced p.config.records p.state.layout
  | done {p : Point} {last : Step Unit} (hp : Reaches m traced p)
      (h : p.task.run p.config p.state = .ok last) :
    Passes m traced p.config.records last.state.layout
  | base {config : Config} {state : State} {module : Layout} {body : List Stmt}
      {found : Step (Option Method × List Method)} {init : Method} {deployed : Step (Ty × Code)}
      (hp : Reaches m traced ⟨.members module body, config, state⟩)
      (hfound : members none body config state = .ok found)
      (hinit : found.result.1 = some init)
      (hdeployed : deploy init config found.state = .ok deployed) :
    Passes m traced config.records (entryLayout module deployed.result.1)
  | pushed {records : Records} {l : Layout} (h : Passes m traced records l) (n : Nat) :
    Passes m traced records (l.push n)
  | dropped {records : Records} {l l' : Layout} {name : Ident} {i : Instr}
      (h : Passes m traced records l) (hdrop : l.dropName name = .ok (i, l')) :
    Passes m traced records l'
  | hidden {records : Records} {l : Layout} (h : Passes m traced records l) (name : Ident) :
    Passes m traced records (l.hide name)

/-- The layouts that entrypoints are left with, after the pair that their code ends with, and the
records known there. Nothing is compiled from them. -/
inductive Paired (m : Module) (traced : Bool) : Records → Layout → Prop
  | epilogue {config : Config} {state : State} {last : Step Unit}
      (hp : Reaches m traced ⟨.epilogue, config, state⟩)
      (h : Gen.epilogue config state = .ok last) :
    Paired m traced config.records last.state.layout

/-- The layouts that arise while a module is compiled, and the records known there. -/
def Arises (m : Module) (traced : Bool) (records : Records) (l : Layout) : Prop :=
  m.Passes traced records l ∨ m.Paired traced records l

end Module

end Covenant
