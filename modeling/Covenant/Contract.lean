import Covenant.Instr.Printer

/-!
# Covenant — compiled contracts

A contract holds the type of its storage, the code that computes the initial storage, a preamble
shared by all entrypoints, and the entrypoints in declaration order.
-/

namespace Covenant

/-- An externally callable contract function. Its code leaves a single pair of operations and new
storage on the stack. -/
structure Entrypoint where
  /-- The type of the parameter. -/
  param : Ty
  /-- The type of the storage. -/
  storage : Ty
  code : Code

/-- A compiled contract. -/
structure Contract where
  storageTy : Ty
  /-- Computes the initial storage on an empty stack. -/
  storageInit : Code
  /-- Splits the incoming pair of parameter and storage, evaluates the module-level definitions and
  moves the parameter to the top. -/
  preamble : Code
  /-- Entrypoints under their names, in declaration order. -/
  entrypoints : List (Ident × Entrypoint)

/-- An entrypoint name was registered twice. -/
structure DuplicateEntrypoint where
  name : Ident

namespace DuplicateEntrypoint

def message (e : DuplicateEntrypoint) : String :=
  "entrypoint `" ++ e.name ++ "` is already defined"

end DuplicateEntrypoint

namespace Contract

/-- A contract with no preamble and no entrypoints. -/
def new (storageTy : Ty) (storageInit : Code) : Contract :=
  ⟨storageTy, storageInit, [], []⟩

/-- The entrypoint registered under a name. -/
def entrypoint? (c : Contract) (name : Ident) : Option Entrypoint :=
  c.entrypoints.lookup name

/-- Registers an entrypoint after the others. Entrypoints cannot be replaced. -/
def addEntrypoint (c : Contract) (name : Ident) (e : Entrypoint) :
    Except DuplicateEntrypoint Contract :=
  if (c.entrypoint? name).isSome then
    .error ⟨name⟩
  else
    .ok { c with entrypoints := c.entrypoints ++ [(name, e)] }

/-! ## Text -/

/-- Blanks in front of a text, up to the given width. -/
def padLeft (width : Nat) (text : String) : String :=
  String.ofList (List.replicate (width - text.length) ' ') ++ text

/-- The lines of an instruction listing. -/
def listing (code : Code) : List String :=
  code.map fun i => "  " ++ i.text

/-- The lines of an entrypoint, instructions numbered from zero. -/
def entrypointLines (name : Ident) (e : Entrypoint) : List String :=
  ("Entrypoint " ++ name ++ " (" ++ e.param.text ++ "):") ::
    e.code.zipIdx.map fun (i, addr) => "  " ++ padLeft 4 (toString addr) ++ "  " ++ i.text

/-- The contract as a listing, every line ended by a newline. -/
def text (c : Contract) : String :=
  let lines :=
    ("storage " ++ c.storageTy.text) :: "Initial storage:" :: listing c.storageInit
      ++ "Preamble:" :: listing c.preamble
      ++ c.entrypoints.flatMap fun (name, e) => entrypointLines name e
  String.join (lines.map (· ++ "\n"))

end Contract

end Covenant
