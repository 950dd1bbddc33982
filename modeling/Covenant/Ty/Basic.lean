import Covenant.Syntax.Expr

/-!
# Covenant — types of stack values

`Ty` describes a value on the operand stack. Equality is structural and decidable; two records are
equal only if their names agree as well as their attributes.

`Ty.unknown` is the element type of an empty container until an annotation settles it.
`Ty.hasUnknown` finds it at any depth, and `Ty.fits` compares types up to it.
-/

namespace Covenant

/-- The types without parameters. -/
inductive Base where
  | int | nat | mutez | string | address | bytes | bool | unit | operation | timestamp
  deriving DecidableEq

/-- The type of a value on the stack. -/
inductive Ty where
  | base (b : Base)
  | option (inner : Ty)
  | list (element : Ty)
  /-- A map. A `big` map is loaded lazily, entry by entry. -/
  | map (big : Bool) (key value : Ty)
  /-- A handle to another contract that takes a parameter of this type. -/
  | contract (param : Ty)
  /-- A named product; attributes in declaration order. -/
  | record (name : Ident) (fields : List (Ident × Ty))
  /-- A closure with one argument. -/
  | lambda (arg result : Ty)
  /-- A built-in with any number of arguments. -/
  | function (args : List Ty) (result : Ty)
  | unknown

/-- The attributes of a record, in declaration order. -/
abbrev Fields := List (Ident × Ty)

namespace Ty

@[match_pattern] abbrev int : Ty := base .int
@[match_pattern] abbrev nat : Ty := base .nat
@[match_pattern] abbrev mutez : Ty := base .mutez
@[match_pattern] abbrev string : Ty := base .string
@[match_pattern] abbrev address : Ty := base .address
@[match_pattern] abbrev bytes : Ty := base .bytes
@[match_pattern] abbrev bool : Ty := base .bool
@[match_pattern] abbrev unit : Ty := base .unit
@[match_pattern] abbrev operation : Ty := base .operation
@[match_pattern] abbrev timestamp : Ty := base .timestamp

/-! ## Equality -/

mutual

/-- Structural equality test. -/
def beq : Ty → Ty → Bool
  | base a, base b => a == b
  | option a, option b => beq a b
  | list a, list b => beq a b
  | map big k v, map big' k' v' => big == big' && beq k k' && beq v v'
  | contract a, contract b => beq a b
  | record n fs, record m gs => n == m && beqFields fs gs
  | lambda a r, lambda b s => beq a b && beq r s
  | function as r, function bs s => beqAll as bs && beq r s
  | unknown, unknown => true
  | _, _ => false

/-- Structural equality test, attribute by attribute. -/
def beqFields : Fields → Fields → Bool
  | [], [] => true
  | (n, a) :: fs, (m, b) :: gs => n == m && beq a b && beqFields fs gs
  | _, _ => false

/-- Structural equality test, type by type. -/
def beqAll : List Ty → List Ty → Bool
  | [], [] => true
  | a :: as, b :: bs => beq a b && beqAll as bs
  | _, _ => false

end

mutual

theorem beq_iff_eq : ∀ a b : Ty, beq a b = true ↔ a = b
  | base a, b => by cases b <;> simp [beq]
  | option a, b => by cases b <;> simp [beq, beq_iff_eq a]
  | list a, b => by cases b <;> simp [beq, beq_iff_eq a]
  | map big k v, b => by cases b <;> simp [beq, beq_iff_eq k, beq_iff_eq v, and_assoc]
  | contract a, b => by cases b <;> simp [beq, beq_iff_eq a]
  | record n fs, b => by cases b <;> simp [beq, beqFields_iff_eq fs]
  | lambda a r, b => by cases b <;> simp [beq, beq_iff_eq a, beq_iff_eq r]
  | function as r, b => by cases b <;> simp [beq, beqAll_iff_eq as, beq_iff_eq r]
  | unknown, b => by cases b <;> simp [beq]

theorem beqFields_iff_eq : ∀ fs gs : Fields, beqFields fs gs = true ↔ fs = gs
  | [], gs => by cases gs <;> simp [beqFields]
  | (n, a) :: fs, gs => by
    cases gs with
    | nil => simp [beqFields]
    | cons g gs => simp [beqFields, beq_iff_eq a, beqFields_iff_eq fs, Prod.ext_iff]

theorem beqAll_iff_eq : ∀ as bs : List Ty, beqAll as bs = true ↔ as = bs
  | [], bs => by cases bs <;> simp [beqAll]
  | a :: as, bs => by
    cases bs with
    | nil => simp [beqAll]
    | cons b bs => simp [beqAll, beq_iff_eq a, beqAll_iff_eq as]

end

instance : DecidableEq Ty := fun a b => decidable_of_iff (beq a b = true) (beq_iff_eq a b)

/-! ## Unknown parts -/

mutual

/-- `Ty.unknown` occurs in the type, at any depth. -/
def hasUnknown : Ty → Bool
  | base _ => false
  | option t | list t | contract t => hasUnknown t
  | map _ k v => hasUnknown k || hasUnknown v
  | record _ fields => hasUnknownField fields
  | lambda arg result => hasUnknown arg || hasUnknown result
  | function args result => hasUnknownAny args || hasUnknown result
  | unknown => true

/-- `Ty.unknown` occurs in the type of some attribute. -/
def hasUnknownField : Fields → Bool
  | [] => false
  | (_, t) :: rest => hasUnknown t || hasUnknownField rest

/-- `Ty.unknown` occurs in some of the types. -/
def hasUnknownAny : List Ty → Bool
  | [] => false
  | t :: rest => hasUnknown t || hasUnknownAny rest

end

/-- A value of the first type can be used where the second is wanted. This is equality, except
that unknown parts of the first type fit anything; records and closures are compared as a whole. -/
def fits : Ty → Ty → Bool
  | unknown, _ => true
  | option a, option b => fits a b
  | list a, list b => fits a b
  | contract a, contract b => fits a b
  | map big k v, map big' k' v' => big == big' && fits k k' && fits v v'
  | a, b => a == b

/-! ## Classes of types -/

mutual

/-- Values of the type can be put in order by `COMPARE`. -/
def isComparable : Ty → Bool
  | operation => false
  | base _ => true
  | option t => isComparable t
  | record _ fields => areComparable fields
  | _ => false

/-- Every attribute type is comparable. -/
def areComparable : Fields → Bool
  | [] => true
  | (_, t) :: rest => isComparable t && areComparable rest

end

/-- Key and value type of a map of either kind. -/
def keyValue? : Ty → Option (Ty × Ty)
  | map _ k v => some (k, v)
  | _ => none

end Ty

namespace Fields

/-- Position and type of the first attribute with the given name. -/
def find? (attr : Ident) : Fields → Option (Nat × Ty)
  | [] => none
  | (name, ty) :: rest =>
    if name = attr then some (0, ty) else (find? attr rest).map fun (i, t) => (i + 1, t)

/-- The attribute types in declaration order. -/
def types (fields : Fields) : List Ty := fields.map (·.2)

end Fields

end Covenant
