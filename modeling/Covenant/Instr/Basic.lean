import Covenant.Ty.Basic

/-!
# Covenant — stack machine instructions

A program of the stack machine is a list of instructions. Most instructions are primitives
(`Prim`): they replace a fixed number of cells on top of the stack by one. The others move cells
around, branch, run blocks or abort (`Instr`).

Depth operands count from the top: `dup 1` copies the top cell, `dip 1` runs its block with the
top cell set aside.
-/

namespace Covenant

/-- A literal pushed by `Prim.push`. The type operand decides how it is read: an integer may be an
`int`, `nat`, `mutez` or `timestamp`, and a string a `string` or an `address`. -/
inductive Value where
  | int (value : Int64)
  | string (value : String)
  | bool (value : Bool)
  | unit
  deriving DecidableEq

/-- Instructions that compute one cell from the top `Prim.arity` cells. -/
inductive Prim where
  | push (ty : Ty) (value : Value)
  /-- Combines the top `n` cells into a right comb. -/
  | pair (n : Nat)
  /-- Projects node `n` of a right comb. -/
  | get (n : Nat)
  /-- Replaces node `n` of the right comb below the new value. -/
  | update (n : Nat)
  | car | cdr
  | nil (element : Ty)
  | cons
  | emptyMap (big : Bool) (key value : Ty)
  /-- Looks a key up, giving an option. -/
  | mapGet
  /-- Inserts or removes a key. -/
  | mapUpdate
  | mem
  /-- Wraps the top cell in an option. -/
  | some
  | compare
  | eq | neq | lt | gt | le | ge
  | add | sub | mul
  /-- Euclidean division, giving an optional pair of quotient and remainder. -/
  | ediv
  | abs | neg | not | and | or
  | concat
  | sender | source | amount | balance | now | unit
  | pack
  /-- Reads bytes as an optional value of the given type. -/
  | unpack (ty : Ty)
  | blake2b
  /-- Casts an address to an optional contract handle. -/
  | contract (param : Ty)
  | transferTokens
  deriving DecidableEq

namespace Prim

/-- How many cells the primitive consumes. -/
def arity : Prim → Nat
  | push .. | nil _ | emptyMap .. | sender | source | amount | balance | now | unit => 0
  | get _ | car | cdr | some | eq | neq | lt | gt | le | ge | abs | neg | not | pack | unpack _
  | blake2b | contract _ => 1
  | update _ | cons | mapGet | mem | compare | add | sub | mul | ediv | and | or | concat => 2
  | mapUpdate | transferTokens => 3
  | pair n => n

end Prim

/-- Trace annotations, which have no effect on the stack. -/
inductive Note where
  /-- A variable has been bound to the top cell. -/
  | bound (name : Ident)
  /-- A variable has been copied to the top. -/
  | fetched (name : Ident)
  /-- A variable's cell has been dropped. -/
  | freed (name : Ident)
  /-- A variable has been given a new value in place. -/
  | replaced (name : Ident)
  /-- A function is about to be applied. -/
  | called (name : Ident)
  /-- An entrypoint body starts. -/
  | entered (name : Ident)
  deriving DecidableEq

/-- A stack machine instruction. -/
inductive Instr where
  | prim (p : Prim)
  /-- Copies the cell `n` down, counted from one, onto the top. -/
  | dup (n : Nat)
  /-- Moves the cell `n` below the top to the top. -/
  | dig (n : Nat)
  /-- Moves the top cell `n` down. -/
  | dug (n : Nat)
  /-- Runs a block with the top `n` cells set aside. -/
  | dip (n : Nat) (body : List Instr)
  | drop
  | swap
  /-- Splits a pair into its two halves, left on top. -/
  | unpair
  /-- Branches on a boolean. -/
  | ifElse (onTrue onFalse : List Instr)
  /-- Branches on an option; the second block has the unwrapped value on top. -/
  | ifNone (onNone onSome : List Instr)
  /-- Runs a block once per element of a list. -/
  | iter (body : List Instr)
  /-- Pushes a closure. -/
  | lambda (arg result : Ty) (body : List Instr)
  /-- Applies the closure below the argument. -/
  | exec
  /-- Aborts with the top cell. -/
  | failwith
  | note (n : Note)

/-- A block of instructions. -/
abbrev Code := List Instr

namespace Instr

instance : Coe Prim Instr := ⟨prim⟩

def isNote : Instr → Bool
  | note _ => true
  | _ => false

end Instr

/-- Pushes a message and aborts with it. -/
def failWith (message : String) : Code :=
  [.prim (.push .string (.string message)), .failwith]

/-- Unwraps the option on top of the stack, or aborts with a message if there is nothing in it. -/
def unwrapOr (message : String) : Instr :=
  .ifNone (failWith message) []

end Covenant
