import Covenant.Typing.Expr

/-!
# Covenant — code generation steps

A `Gen` is a step of code generation. It starts from the layout of the stack and the last source
line seen, and either fails or yields a result, the code it emits, and layout and line after it.
The code of steps done in sequence is put one after the other.
-/

namespace Covenant

namespace Gen

/-- What stays fixed while statements are compiled. -/
structure Config where
  records : Records
  /-- Notes on variables and calls are emitted. -/
  traced : Bool

/-- What a step starts from and leaves behind. -/
structure State where
  layout : Layout
  /-- The last source line seen, or zero. -/
  line : Nat

/-- What a successful step yields. -/
structure Step (α : Type) where
  result : α
  code : Code
  state : State

end Gen

/-- A step of code generation. -/
def Gen (α : Type) : Type := Gen.Config → Gen.State → Except CompileError (Gen.Step α)

namespace Gen

variable {α β : Type}

instance : Monad Gen where
  pure a := fun _ state => .ok ⟨a, [], state⟩
  bind step next := fun config state =>
    match step config state with
    | .error e => .error e
    | .ok first =>
      match next first.result config first.state with
      | .error e => .error e
      | .ok second => .ok { second with code := first.code ++ second.code }

/-! ## Laws -/

/-- A sequence fails where its first step does. -/
theorem bind_of_error {step : Gen α} {next : α → Gen β} {config : Config} {state : State}
    {e : CompileError} (h : step config state = .error e) :
    (step >>= next) config state = .error e := by
  simp only [bind, h]

/-- Where its first step succeeds, a sequence goes on with the second and puts its code behind. -/
theorem bind_of_ok {step : Gen α} {next : α → Gen β} {config : Config} {state : State}
    {first : Step α} (h : step config state = .ok first) :
    (step >>= next) config state =
      (next first.result config first.state).map fun second =>
        { second with code := first.code ++ second.code } := by
  simp only [bind, h]
  cases next first.result config first.state <;> rfl

/-- A sequence succeeds exactly if both steps do. -/
theorem bind_eq_ok_iff {step : Gen α} {next : α → Gen β} {config : Config} {state : State}
    {done : Step β} :
    (step >>= next) config state = .ok done ↔
      ∃ first second, step config state = .ok first ∧
        next first.result config first.state = .ok second ∧
        done = { second with code := first.code ++ second.code } := by
  cases hfirst : step config state with
  | error e => simp [bind_of_error hfirst]
  | ok first =>
    rw [bind_of_ok hfirst]
    cases hsecond : next first.result config first.state with
    | error e => simp [Except.map, hsecond]
    | ok second => simp [Except.map, hsecond, eq_comm]

instance : LawfulMonad Gen := LawfulMonad.mk' Gen
  (fun step => by
    funext config state
    change (step >>= pure) config state = _
    cases h : step config state with
    | error e => rw [bind_of_error h]
    | ok first =>
      rw [bind_of_ok h]
      simp [pure, Except.map])
  (fun a next => by
    funext config state
    have h : (pure a : Gen _) config state = .ok ⟨a, [], state⟩ := rfl
    rw [bind_of_ok h]
    cases next a config state <;> rfl)
  (fun step next last => by
    funext config state
    cases hfirst : step config state with
    | error e => rw [bind_of_error hfirst, bind_of_error (bind_of_error hfirst)]
    | ok first =>
      rw [bind_of_ok hfirst]
      cases hsecond : next first.result config first.state with
      | error e =>
        have h : (step >>= next) config state = .error e := by
          rw [bind_of_ok hfirst, hsecond]; rfl
        rw [bind_of_error hsecond, bind_of_error h]; rfl
      | ok second =>
        have h : (step >>= next) config state =
            .ok { second with code := first.code ++ second.code } := by
          rw [bind_of_ok hfirst, hsecond]; rfl
        rw [bind_of_ok hsecond, bind_of_ok h]
        cases last second.result config second.state <;> simp [Except.map])

/-! ## State -/

def layout : Gen Layout := fun _ state => .ok ⟨state.layout, [], state⟩

def setLayout (l : Layout) : Gen Unit := fun _ state => .ok ⟨(), [], { state with layout := l }⟩

/-- The number of cells on the stack. -/
def depth : Gen Nat := do return (← layout).depth

/-- What names mean here. -/
def scope : Gen Scope := fun config state => .ok ⟨⟨config.records, state.layout⟩, [], state⟩

/-- Moves on to a source line. Line zero is not a line. -/
def seen (line : Nat) : Gen Unit := fun _ state =>
  .ok ⟨(), [], if line = 0 then state else { state with line := line }⟩

/-- Runs a step with one more record type in force. -/
def withRecord (name : Ident) (fields : Fields) (step : Gen α) : Gen α := fun config state =>
  step { config with records := config.records.insert name fields } state

/-! ## Failure -/

/-- Takes a typing outcome over. An error without a line gets the last line seen. -/
def typed (outcome : Typed α) : Gen α := fun _ state =>
  match outcome with
  | .ok a => .ok ⟨a, [], state⟩
  | .error e => .error (e.orLine state.line)

/-- Fails with a cause at a line, or at the last line seen. -/
def failAt (line : Nat) (cause : Cause) : Gen α := typed (faultAt line cause)

/-- Fails with a cause at the last line seen. -/
def fail (cause : Cause) : Gen α := failAt 0 cause

/-- Fails with a cause at no line. -/
def failNowhere (cause : Cause) : Gen α := fun _ _ => .error ⟨cause, none⟩

/-- Fails for an internal inconsistency. -/
def defect (d : Defect) : Gen α := failNowhere (.defect d)

/-- Takes over the outcome of an operation on the layout. -/
def sound (outcome : Except Defect α) : Gen α :=
  match outcome with
  | .ok a => pure a
  | .error d => defect d

/-! ## Code -/

def emit (i : Instr) : Gen Unit := fun _ state => .ok ⟨(), [i], state⟩

def emitAll (code : Code) : Gen Unit := fun _ state => .ok ⟨(), code, state⟩

/-- Emits a note, if notes are wanted. -/
def annotate (n : Note) : Gen Unit := fun config state =>
  .ok ⟨(), if config.traced then [.note n] else [], state⟩

/-- Accounts for cells pushed by emitted code. -/
def push (n : Nat) : Gen Unit := do setLayout ((← layout).push n)

/-- Accounts for cells consumed by emitted code. -/
def pop (n : Nat) : Gen Unit := do setLayout (← sound ((← layout).pop n))

/-- Emits a primitive, which replaces the cells it consumes by one. -/
def apply (p : Prim) : Gen Unit := do
  emit (.prim p)
  pop p.arity
  push 1

/-- Runs a step and also gives the code it emitted. -/
def listen (step : Gen α) : Gen (α × Code) := fun config state =>
  match step config state with
  | .error e => .error e
  | .ok done => .ok ⟨(done.result, done.code), done.code, done.state⟩

/-- Runs a step apart, from the given layout. What it yields is given back; nothing is emitted and
the current layout stays as it is. -/
def apart (start : Layout) (step : Gen α) : Gen (Step α) := fun config state =>
  match step config { state with layout := start } with
  | .error e => .error e
  | .ok done => .ok ⟨done, [], { done.state with layout := state.layout }⟩

/-- Runs a step as a block of its own, from the given layout, and gives its code and its final
layout. -/
def block (start : Layout) (step : Gen Unit) : Gen (Code × Layout) := do
  let done ← apart start step
  return (done.code, done.state.layout)

/-! ## Typing -/

/-- The type of an expression here, under an optional expectation. -/
def typeOf (e : Expr) (expected : Option Ty) : Gen Ty := do
  typed (Covenant.typeOf (← scope) e expected)

/-- Checks that a value can be stored where a type is wanted. -/
def checkFits (value : Expr) (want : Ty) : Gen Unit := do
  let found ← typeOf value (some want)
  unless found.fits want do
    failAt value.line (.typeMismatch want found)

/-- The type of the contract storage, where storage is accessible. -/
def storageType : Gen Ty := do typed (← scope).storageType

/-- The type that an annotation denotes. -/
def denoted (e : Expr) : Gen Ty := do typed (TypeExpr.type (← scope).records e)

/-! ## Named cells -/

/-- Copies a variable to the top of the stack. -/
def fetch (name : Ident) : Gen Unit := do
  match (← layout).fetch name with
  | .error cause => fail cause
  | .ok (i, l) =>
    annotate (.fetched name)
    emit i
    setLayout l

/-- Names the top cell. -/
def bindTop (name : Ident) (ty : Ty) : Gen Unit := do
  annotate (.bound name)
  setLayout (← sound ((← layout).bind name ty))

/-- Drops a variable's cell. -/
def free (name : Ident) : Gen Unit := do
  let (i, l) ← sound ((← layout).free name)
  annotate (.freed name)
  emit i
  setLayout l

/-- Drops several variables, topmost first. -/
def freeAll (names : List Ident) : Gen Unit := do
  let (code, l) ← sound ((← layout).freeAll names)
  emitAll code
  setLayout l

/-- Moves the top cell into a variable's slot. -/
def replace (name : Ident) : Gen Unit := do
  annotate (.replaced name)
  let (code, l) ← sound ((← layout).replace name)
  emitAll code
  setLayout l

end Gen

end Covenant
