import Covenant.Error
import Covenant.Instr.Basic
import Covenant.Table

/-!
# Covenant — the layout of the operand stack

A `Layout` says at compile time where every live variable sits on the operand stack. Slots are
numbered from the bottom, so a variable keeps its slot while cells come and go above it; its
distance from the top is `depth - 1 - slot`. Cells without a name hold intermediate values.

A new binding may shadow an older one of the same name. The older binding then keeps its cell under
a hidden name, `name@slot`, and comes back when the new one is freed.

Every operation that touches the stack returns the code that does so on the machine, together with
the layout after it.
-/

namespace Covenant

/-- The compile-time model of the operand stack. -/
structure Layout where
  /-- The slots of the named cells, counted from the bottom of the stack. -/
  vars : Table Nat
  /-- The types of the named cells. -/
  types : Table Ty
  /-- The number of cells on the stack, named or not. -/
  depth : Nat
  /-- The formal argument names of functions, under the functions' names. -/
  formals : Table (List Ident)
  /-- The hidden names of shadowed bindings, under the visible name, innermost first. -/
  shadowed : Table (List Ident)
  /-- The kind of body that is being compiled. -/
  context : Context

namespace Layout

/-- The name of the cell that holds the contract storage inside entrypoints. -/
def storageName : Ident := "__storage__"

/-- The name of the cell that holds the pending operations inside entrypoints. -/
def operationsName : Ident := "__operations__"

/-- The name of the cell that holds an entrypoint parameter the program does not name. -/
def parameterName : Ident := "__parameter__"

/-- The name under which a shadowed binding keeps its cell. -/
def hiddenName (name : Ident) (slot : Nat) : Ident := name ++ "@" ++ toString slot

/-- An empty stack. -/
def empty (context : Context) : Layout := ⟨.empty, .empty, 0, .empty, .empty, context⟩

/-! ## Queries -/

def slot? (l : Layout) (name : Ident) : Option Nat := l.vars.get? name

def ty? (l : Layout) (name : Ident) : Option Ty := l.types.get? name

/-- The name is bound. -/
def binds (l : Layout) (name : Ident) : Bool := l.vars.contains name

/-- The bound names. -/
def names (l : Layout) : List Ident := l.vars.names

/-- The names bound here but not in an outer layout. -/
def declaredSince (l outer : Layout) : List Ident :=
  l.names.filter fun name => !outer.binds name

/-- Distance of a slot from the top, which is zero at the top itself. -/
def distance (l : Layout) (slot : Nat) : Except Defect Nat :=
  if slot < l.depth then .ok (l.depth - 1 - slot) else .error .slotAboveTop

/-! ## Cells without a name -/

/-- Accounts for cells pushed by emitted code. -/
def push (l : Layout) (n : Nat) : Layout := { l with depth := l.depth + n }

/-- Accounts for cells consumed by emitted code. -/
def pop (l : Layout) (n : Nat) : Except Defect Layout :=
  if n ≤ l.depth then .ok { l with depth := l.depth - n } else .error .depthUnderflow

/-- Makes room for `n` cells underneath the whole stack. -/
def shift (l : Layout) (n : Nat) : Layout :=
  { l with
    vars := l.vars.mapValues (· + n)
    depth := l.depth + n }

/-- A stack of its own for a function body. Nothing is kept but formal argument names. -/
def frame (l : Layout) (context : Context) : Layout :=
  { empty context with formals := l.formals }

/-! ## Binding -/

/-- Names the cell at a slot. -/
def bindSlot (l : Layout) (name : Ident) (slot : Nat) (ty : Ty) : Layout :=
  { l with
    vars := l.vars.insert name slot
    types := l.types.insert name ty }

/-- Records the formal argument names of a function. -/
def setFormals (l : Layout) (function : Ident) (formals : List Ident) : Layout :=
  { l with formals := l.formals.insert function formals }

/-- Moves an entry of a table to another name, if there is one. -/
def move {α : Type} (t : Table α) (source target : Ident) : Table α :=
  match t.get? source with
  | some value => (t.erase source).insert target value
  | none => t

/-- Moves a binding, and its formal arguments, to another name. -/
def rename (l : Layout) (source target : Ident) : Layout :=
  { l with
    vars := move l.vars source target
    types := move l.types source target
    formals := move l.formals source target }

/-- Hides the visible binding of a name, if there is one. -/
def hide (l : Layout) (name : Ident) : Layout :=
  match l.slot? name with
  | some outer =>
    let hidden := hiddenName name outer
    let stack := (l.shadowed.get? name).getD []
    { l.rename name hidden with shadowed := l.shadowed.insert name (hidden :: stack) }
  | none => l

/-- Brings back the binding that a name shadowed last, if there is one. -/
def unhide (l : Layout) (name : Ident) : Layout :=
  match l.shadowed.get? name with
  | some (hidden :: stack) =>
    { l.rename hidden name with shadowed := l.shadowed.insert name stack }
  | _ => l

/-- Names the top cell. An existing binding of the name is hidden. -/
def bind (l : Layout) (name : Ident) (ty : Ty) : Except Defect Layout :=
  if l.depth = 0 then .error .bindEmptyStack
  else .ok ((l.hide name).bindSlot name (l.depth - 1) ty)

/-! ## Named cells on the machine -/

/-- Drops the cell at a distance from the top. -/
def dropAt : Nat → Instr
  | 0 => .drop
  | n + 1 => .dip (n + 1) [.drop]

/-- Copies a variable to the top of the stack. -/
def fetch (l : Layout) (name : Ident) : Except Cause (Instr × Layout) :=
  match l.slot? name with
  | none => .error (.notDefined name)
  | some slot =>
    match l.distance slot with
    | .error d => .error (.defect d)
    | .ok jump => .ok (.dup (jump + 1), l.push 1)

/-- The slot of a cell after another one has been dropped. -/
def lower (dropped slot : Nat) : Except Defect Nat :=
  if dropped < slot then Defect.slotUnderflow.pred slot else .ok slot

/-- The slot that `lower` gives. -/
def lowered (dropped slot : Nat) : Nat := if dropped < slot then slot - 1 else slot

/-- A slot above another one is not the bottom one. -/
theorem lower_eq (dropped slot : Nat) : lower dropped slot = .ok (lowered dropped slot) := by
  unfold lower lowered
  split
  · next h =>
    obtain ⟨below, rfl⟩ := Nat.exists_eq_add_one_of_ne_zero (Nat.ne_of_gt (Nat.zero_lt_of_lt h))
    rfl
  · rfl

/-- Drops a variable's cell and forgets the name. Every cell above moves down by one. -/
def dropName (l : Layout) (name : Ident) : Except Defect (Instr × Layout) :=
  match l.slot? name with
  | none => .error .freeUnbound
  | some slot => do
    let jump ← l.distance slot
    let l ← l.pop 1
    let vars ← (l.vars.erase name).traverse (lower slot)
    return (dropAt jump,
      { l with
        vars
        types := l.types.erase name
        formals := l.formals.erase name })

/-- Drops a variable's cell. The binding it shadowed becomes visible again. -/
def free (l : Layout) (name : Ident) : Except Defect (Instr × Layout) := do
  let (i, l) ← l.dropName name
  return (i, l.unhide name)

/-- Drops variables one after the other. -/
def dropNames (l : Layout) : List Ident → Except Defect (Code × Layout)
  | [] => .ok ([], l)
  | name :: rest => do
    let (i, l) ← l.dropName name
    let (code, l) ← l.dropNames rest
    return (i :: code, l)

/-- The names with their slots. -/
def slots (l : Layout) : List Ident → Except Defect (List (Nat × Ident))
  | [] => .ok []
  | name :: rest =>
    match l.slot? name with
    | none => .error .freeUnbound
    | some slot => do return (slot, name) :: (← l.slots rest)

/-- Drops variables, topmost first. Shadowed bindings stay hidden. -/
def freeAll (l : Layout) (names : List Ident) : Except Defect (Code × Layout) := do
  let cells ← l.slots names
  l.dropNames ((cells.mergeSort fun a b => b.1 ≤ a.1).map (·.2))

/-- The slot of a cell after another one has been put into a slot. -/
def raise (settled slot : Nat) : Nat := if settled ≤ slot then slot + 1 else slot

/-- Moves the top cell into a variable's slot and drops the old value. The variable keeps its slot,
its type and its formal arguments. -/
def replace (l : Layout) (name : Ident) : Except Defect (Code × Layout) :=
  match l.slot? name, l.ty? name with
  | none, _ => .error .replaceUnbound
  | some _, none => .error .untyped
  | some slot, some ty => do
    let (i, dropped) ← l.dropName name
    let jump ← dropped.distance slot
    let settled := { dropped with vars := dropped.vars.mapValues (raise slot) }.bindSlot name slot ty
    let settled := match l.formals.get? name with
      | some formals => settled.setFormals name formals
      | none => settled
    return (if 0 < jump then [i, .dug jump] else [i], settled)

end Layout

end Covenant
