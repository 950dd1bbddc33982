import Covenant.Gen.Stmt
import Covenant.Proofs.Gen.Steps

/-!
# Covenant — outcomes without certain errors

An outcome is clean of the errors of some kind if it is none of them (`Except.Clean`). Typing questions
have outcomes that are clean of internal inconsistencies and of transactions in the wrong place
(`Sane`), which are found when code is emitted.
-/

namespace Except

variable {ε ε' α β : Type}

/-- The outcome is not one of the errors of a kind. -/
def Clean (bad : ε → Bool) : Except ε α → Prop
  | .ok _ => True
  | .error e => bad e = false

variable {bad : ε → Bool} {x y : Except ε α}

@[simp] theorem clean_ok (a : α) : Clean bad (.ok a : Except ε α) := trivial

@[simp] theorem clean_error {e : ε} : Clean bad (.error e : Except ε α) ↔ bad e = false := .rfl

@[simp] theorem clean_bind {f : α → Except ε β} :
    Clean bad (x >>= f) ↔ Clean bad x ∧ ∀ a, x = .ok a → Clean bad (f a) := by
  cases x with
  | error e => exact ⟨fun h => ⟨h, nofun⟩, fun h => h.1⟩
  | ok a => exact ⟨fun h => ⟨trivial, fun _ heq => Except.ok.inj heq ▸ h⟩, fun h => h.2 a rfl⟩

@[simp] theorem clean_map {f : α → β} : Clean bad (f <$> x) ↔ Clean bad x := by
  cases x <;> rfl

@[simp] theorem clean_ite {c : Prop} [Decidable c] :
    Clean bad (if c then x else y) ↔ (c → Clean bad x) ∧ (¬c → Clean bad y) := by
  split <;> simp_all

@[simp] theorem clean_mapError {bad' : ε' → Bool} {f : ε → ε'} :
    Clean bad' (x.mapError f) ↔ Clean (bad' ∘ f) x := by
  cases x <;> rfl

end Except

namespace Covenant

open Except

/-- The cause is an internal inconsistency. -/
def Cause.isDefect : Cause → Bool
  | .defect _ => true
  | _ => false

/-- The error is an internal inconsistency. -/
def CompileError.isDefect (e : CompileError) : Bool := e.cause.isDefect

/-- The cause is a transaction outside of an entrypoint. -/
def Cause.isStray : Cause → Bool
  | .unsupported .strayTransaction => true
  | _ => false

/-- The error is a transaction outside of an entrypoint. -/
def CompileError.isStray (e : CompileError) : Bool := e.cause.isStray

/-- The cause is one that no typing question gives. -/
def Cause.beyondTyping (c : Cause) : Bool := c.isDefect || c.isStray

/-- The error is one that no typing question gives. -/
def CompileError.beyondTyping (e : CompileError) : Bool := e.cause.beyondTyping

theorem CompileError.beyondTyping_eq_false_iff {e : CompileError} :
    e.beyondTyping = false ↔ e.isDefect = false ∧ e.isStray = false :=
  Bool.or_eq_false_iff

/-- The outcome reports neither an internal inconsistency nor a stray transaction. -/
abbrev Sane {α : Type} (outcome : Typed α) : Prop := Clean CompileError.beyondTyping outcome

/-- The outcome blames neither an internal inconsistency nor a stray transaction. -/
abbrev Blameless {α : Type} (outcome : Except Cause α) : Prop := Clean Cause.beyondTyping outcome

variable {α : Type}

@[simp] theorem Cause.beyondTyping_eq_false_iff {c : Cause} : c.beyondTyping = false ↔
    (∀ d, c ≠ .defect d) ∧ c ≠ .unsupported .strayTransaction := by
  simp only [beyondTyping, isDefect, isStray, Bool.or_eq_false_iff]
  grind

@[simp] theorem sane_faultAt {line : Nat} {cause : Cause} :
    Sane (faultAt line cause : Typed α) ↔ cause.beyondTyping = false := .rfl

@[simp] theorem sane_atLine {line : Nat} {result : Except Cause α} :
    Sane (atLine line result) ↔ Blameless result := clean_mapError

theorem blameless_literalType (value : Literal) (expected : Option Ty) :
    Blameless (literalType value expected) := by
  unfold literalType
  split <;> try split
  all_goals simp

theorem blameless_signature (site : CallSite) (target : Builtin) :
    Blameless (target.signature site) := by
  cases target <;> simp only [Builtin.signature, clean_ok]
  case transaction | listPrepend | unpack => split <;> simp
  case listNew =>
    unfold Builtin.elementType
    split <;> try split
    all_goals simp
  case mapNew =>
    unfold Builtin.mapType
    split <;> try split
    all_goals simp

end Covenant
