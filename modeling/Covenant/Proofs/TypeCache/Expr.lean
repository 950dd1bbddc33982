import Covenant.Proofs.Gen.Rules
import Covenant.Proofs.TypeCache.Gen

/-!
# Covenant — code of expressions with a memory

`Cached.emitExpr` emits the code of an expression in the way `Covenant.emitExpr` does, with every
question about types put to the memory. An operand knows the addresses of its nodes in addition.

Main statement: `tracks_operand`. While the code of an expression is emitted no name changes its
type: cells come and go on top of the stack, and the one variable that may get a new value keeps its
type. So the answers kept at any point are right at every later one, and the code is the code of the
plain generator.
-/

namespace Covenant

namespace Cached

open Gen CachedGen

variable {κ : Type} [DecidableEq κ]

/-! ## Operands -/

/-- An expression, the addresses of its nodes, and what emits its code, given its type. -/
structure Operand (κ : Type) where
  expr : Expr
  addresses : Addresses κ
  emit : Ty → CachedGen κ Unit

namespace Operand

/-- Asks for an operand. -/
def asked (o : Operand κ) (scope : Scope) : Asked κ := Cached.asked scope o.expr o.addresses

/-- The type of an operand here, under an optional expectation. -/
def typeOf (o : Operand κ) (expected : Option Ty) : CachedGen κ Ty :=
  asking fun scope => (o.asked scope).ask expected

/-- Emits the code of the operand and gives its type. -/
def compile (o : Operand κ) (expected : Option Ty) : CachedGen κ Ty := do
  let ty ← o.typeOf expected
  seen o.expr.line
  o.emit ty
  return ty

/-- Emits the code of an operand that has to leave exactly one new cell on the stack. -/
def value (o : Operand κ) (expected : Option Ty) : CachedGen κ Ty := do
  let before ← depth
  let ty ← o.compile expected
  if (← depth) = before + 1 then
    return ty
  else
    failAt o.expr.line (.unsupported (.noValue o.expr.text))

/-- Pushes the value of an operand that stands where a type is expected. -/
def pushAs (o : Operand κ) (want : Ty) : CachedGen κ Unit := do
  let _ ← o.value (some want)

/-- Pushes operands in order, each as the type that stands in the same place. -/
def pushAll : List (Operand κ) → List Ty → CachedGen κ Unit
  | o :: os, want :: wants => do
    o.pushAs want
    pushAll os wants
  | _, _ => pure ()

/-- Pushes operands last to first, each as the type that stands in the same place. -/
def pushAllReversed : List (Operand κ) → List Ty → CachedGen κ Unit
  | o :: os, want :: wants => do
    pushAllReversed os wants
    o.pushAs want
  | _, _ => pure ()

/-- Prepends operands to the list on top of the stack, last to first. -/
def consAll (element : Ty) : List (Operand κ) → CachedGen κ Unit
  | [] => pure ()
  | o :: os => do
    consAll element os
    o.pushAs element
    apply .cons

/-- Inserts entries into the map on top of the stack, last to first. -/
def insertAll (key value : Ty) : List (Operand κ × Operand κ) → CachedGen κ Unit
  | [] => pure ()
  | (k, v) :: rest => do
    insertAll key value rest
    v.pushAs value
    apply .some
    k.pushAs key
    apply .mapUpdate

/-- Checks that arguments have the types a callee declares, one by one. -/
def checkTypes (function : Ident) : List (Operand κ) → List Ty → CachedGen κ Unit
  | o :: os, want :: wants => do
    let found ← o.typeOf (some want)
    unless found.fits want do
      failAt o.expr.line (.argumentType function want found)
    checkTypes function os wants
  | _, _ => pure ()

/-- Checks number and types of the arguments of a call. -/
def checkArguments (function : Ident) (line : Nat) (args : List (Operand κ)) (wants : List Ty) :
    CachedGen κ Unit := do
  unless args.length = wants.length do
    failAt line (.badArgument (.count function wants.length args.length))
  checkTypes function args wants

end Operand

/-- The operand may be asked for, and its code is the code of a plain operand. -/
structure Operand.Tracks (r : Region κ) (o : Operand κ) (o' : Covenant.Operand) : Prop where
  expr : o.expr = o'.expr
  placed : Placed r o.addresses (.expr o.expr)
  emit : ∀ ty, Copies r (o.emit ty) (o'.emit ty)

/-- Operands that stand in the same place track each other. -/
abbrev AllTrack (r : Region κ) : List (Operand κ) → List Covenant.Operand → Prop :=
  List.Forall₂ (·.Tracks r ·)

/-- Keys and values that stand in the same place track each other. -/
abbrev EntriesTrack (r : Region κ) :
    List (Operand κ × Operand κ) → List (Covenant.Operand × Covenant.Operand) → Prop :=
  List.Forall₂ fun o o' => o.1.Tracks r o'.1 ∧ o.2.Tracks r o'.2

/-- Keyword arguments have the same keywords, and their values track each other. -/
abbrev KeywordsTrack (r : Region κ) :
    List (Ident × Operand κ) → List (Ident × Covenant.Operand) → Prop :=
  List.Forall₂ fun k k' => k.1 = k'.1 ∧ k.2.Tracks r k'.2

variable {r : Region κ}

namespace Operand

variable {o : Operand κ} {o' : Covenant.Operand} {os : List (Operand κ)}
  {os' : List Covenant.Operand}

/-- An operand is asked for with the expression of the plain operand. -/
theorem Tracks.asked (h : o.Tracks r o') (scope : Scope) :
    (o.asked scope).Matches r scope (typing scope o'.expr) :=
  h.expr ▸ matches_asked o.expr h.placed

theorem Tracks.typeOf (h : o.Tracks r o') (expected : Option Ty) :
    Copies r (o.typeOf expected) (Gen.typeOf o'.expr expected) :=
  copies_asking fun scope => (h.asked scope).ask expected

theorem Tracks.compile (h : o.Tracks r o') (expected : Option Ty) :
    Copies r (o.compile expected) (o'.compile expected) := by
  unfold Operand.compile Covenant.Operand.compile
  rw [h.expr]
  exact (h.typeOf expected).andThen fun ty => (copies_lift (closed_steady.seen _)).andThen fun _ =>
    (h.emit ty).andThen fun _ => copies_pure ty

/-- Whether a cell was left is seen from the layout, which is the plain one. -/
theorem Tracks.value (h : o.Tracks r o') (expected : Option Ty) :
    Copies r (o.value expected) (o'.value expected) := by
  unfold Operand.value Covenant.Operand.value
  rw [h.expr]
  exact (copies_lift closed_steady.depth).andThen fun before =>
    (h.compile expected).andThen fun ty => (copies_lift closed_steady.depth).andThen fun after =>
      .ite (copies_pure ty) (copies_failAt _ _)

theorem Tracks.pushAs (h : o.Tracks r o') (want : Ty) :
    Copies r (o.pushAs want) (o'.pushAs want) :=
  (h.value (some want)).andThen fun _ => copies_pure ()

theorem copies_pushAll (h : AllTrack r os os') :
    ∀ wants, Copies r (pushAll os wants) (Covenant.Operand.pushAll os' wants) := by
  induction h with
  | nil => exact fun _ => copies_pure ()
  | cons ho _ ih =>
    intro wants
    cases wants with
    | nil => exact copies_pure ()
    | cons want wants => exact (ho.pushAs want).andThen fun _ => ih wants

theorem copies_pushAllReversed (h : AllTrack r os os') :
    ∀ wants, Copies r (pushAllReversed os wants) (Covenant.Operand.pushAllReversed os' wants) := by
  induction h with
  | nil => exact fun _ => copies_pure ()
  | cons ho _ ih =>
    intro wants
    cases wants with
    | nil => exact copies_pure ()
    | cons want wants => exact (ih wants).andThen fun _ => ho.pushAs want

theorem copies_consAll (element : Ty) (h : AllTrack r os os') :
    Copies r (consAll element os) (Covenant.Operand.consAll element os') := by
  induction h with
  | nil => exact copies_pure ()
  | cons ho _ ih =>
    exact ih.andThen fun _ => (ho.pushAs element).andThen fun _ => copies_apply .cons

theorem copies_insertAll (key value : Ty) {entries : List (Operand κ × Operand κ)}
    {entries' : List (Covenant.Operand × Covenant.Operand)} (h : EntriesTrack r entries entries') :
    Copies r (insertAll key value entries) (Covenant.Operand.insertAll key value entries') := by
  induction h with
  | nil => exact copies_pure ()
  | cons hentry _ ih =>
    exact ih.andThen fun _ => (hentry.2.pushAs value).andThen fun _ =>
      (copies_apply .some).andThen fun _ => (hentry.1.pushAs key).andThen fun _ =>
        copies_apply .mapUpdate

/-- The types of the arguments are asked for one by one, and the first misfit is reported. -/
theorem copies_checkTypes (function : Ident) (h : AllTrack r os os') :
    ∀ wants, Copies r (checkTypes function os wants)
      (Covenant.Operand.checkTypes function os' wants) := by
  induction h with
  | nil => exact fun _ => copies_pure ()
  | cons ho _ ih =>
    intro wants
    cases wants with
    | nil => exact copies_pure ()
    | cons want wants =>
      unfold checkTypes Covenant.Operand.checkTypes
      rw [ho.expr]
      exact (ho.typeOf (some want)).andThen fun found => .ite (ih wants) (copies_failAt_bind _ _)

theorem copies_checkArguments (function : Ident) (line : Nat) (h : AllTrack r os os')
    (wants : List Ty) :
    Copies r (checkArguments function line os wants)
      (Covenant.Operand.checkArguments function line os' wants) := by
  have htypes := copies_checkTypes function h wants
  unfold checkArguments Covenant.Operand.checkArguments
  rw [h.length_eq]
  exact .ite htypes (copies_failAt_bind _ _)

omit [DecidableEq κ] in
theorem exprs_eq (h : AllTrack r os os') : os.map Operand.expr = os'.map Covenant.Operand.expr := by
  induction h with
  | nil => rfl
  | cons ho _ ih => rw [List.map_cons, List.map_cons, ih, ho.expr]

/-- The questions about the arguments of a call, in order. -/
theorem allMatch_askeds (h : AllTrack r os os') (scope : Scope) :
    AllMatch r scope (os.map (·.asked scope)) (typings scope (os'.map Covenant.Operand.expr)) := by
  induction h with
  | nil =>
    rw [List.map_nil, List.map_nil, typings]
    exact .nil
  | cons ho _ ih =>
    rw [List.map_cons, List.map_cons, typings]
    exact .cons (ho.asked scope) ih

end Operand

variable {left right value func : Operand κ} {left' right' value' func' : Covenant.Operand}
  {os : List (Operand κ)} {os' : List Covenant.Operand}
  {keywords' : List (Ident × Covenant.Operand)} {keywords : List (Ident × Operand κ)}

/-! ## Built-in calls -/

/-- A call of a built-in whose signature is known. -/
structure Invocation (κ : Type) where
  name : Ident
  line : Nat
  signature : Signature
  args : List (Operand κ)
  keywords : List (Ident × Expr)

namespace Invocation

/-- Pushes the arguments in order, each as the type the signature gives it. -/
def pushArguments (call : Invocation κ) : CachedGen κ Unit :=
  Operand.pushAll call.args call.signature.args

/-- The single literal argument of a literal wrapper. -/
def literal (call : Invocation κ) : CachedGen κ Expr :=
  let refused := liftM (failAt call.line (.badArgument (.notALiteral call.name)) : Gen Expr)
  match call.args, call.keywords with
  | [arg], [] => if arg.expr.isLiteral then pure arg.expr else refused
  | _, _ => refused

/-- Looks a key up in the map on top of the stack; the default is evaluated only if it is needed. -/
def getOr (key default : Operand κ) (keyTy valueTy : Ty) : CachedGen κ Unit := do
  key.pushAs keyTy
  apply .mapGet
  let start ← sound ((← layout).pop 1)
  let (code, _) ← block start (default.pushAs valueTy)
  Gen.emit (.ifNone code [])

/-- What a method of a map does with its two arguments, of which the first is a key. -/
def keyed (body : Operand κ → Operand κ → Ty → Ty → CachedGen κ Unit) (args : List (Operand κ))
    (types : List Ty) : CachedGen κ Unit :=
  match args, types with
  | [key, other], [keyTy, valueTy] => body key other keyTy valueTy
  | [_, _], _ => liftM (defect .mapMethod : Gen Unit)
  | _, _ => liftM (defect .arity : Gen Unit)

/-- Emits the code of the call. -/
def emit (call : Invocation κ) : Builtin → CachedGen κ Unit
  | .abs => do
    call.pushArguments
    apply .abs
  | .timedelta =>
    match Timedelta.seconds (call.args.map Operand.expr) call.keywords with
    | .ok n => liftM (apply (.push .int (.int n)))
    | .error fault => liftM (failAt call.line (.badArgument fault) : Gen Unit)
  | .transaction => do
    unless (← layout).binds Layout.operationsName do
      failAt call.line (.unsupported .strayTransaction)
    fetch Layout.operationsName
    call.pushArguments
    apply .transferTokens
    apply .cons
    replace Layout.operationsName
  | .contract => do
    call.pushArguments
    apply (.contract .unit)
    Gen.emit (unwrapOr "Contract does not exist")
  | .wrap ty => do
    let arg ← call.literal
    let value ← typed (atLine arg.line (wrappedValue call.name ty arg))
    apply (.push (.base ty) value)
  | .listNew =>
    match call.signature.result with
    | .list element => do
      if element.hasUnknown then
        failAt call.line (.ambiguousEmpty .list)
      apply (.nil element)
      Operand.consAll element call.args
    | _ => liftM (defect .listConstructor : Gen Unit)
  | .listPrepend => do
    call.pushArguments
    apply .cons
  | .mapNew _ => do
    if call.signature.result.hasUnknown then
      failAt call.line (.ambiguousEmpty .map)
    match call.signature.result with
    | .map big key value => apply (.emptyMap big key value)
    | _ => defect .mapConstructor
  | .mapGet => keyed getOr call.args call.signature.args
  | .mapAdd =>
    keyed (fun key value keyTy valueTy => Operand.insertAll keyTy valueTy [(key, value)]) call.args
      call.signature.args
  | .pack => do
    call.pushArguments
    apply .pack
  | .unpack => do
    apply (.unpack call.signature.result)
    Gen.emit (unwrapOr "Could not unpack")
  | .blake2b => liftM (apply .blake2b)
  | .now => liftM (apply .now)

omit [DecidableEq κ] in
/-- The argument of a literal wrapper is read, and no question is asked. -/
theorem copies_literal (name : Ident) (line : Nat) (signature : Signature)
    (hargs : AllTrack r os os') (keywords : List (Ident × Expr)) :
    Copies r (literal ⟨name, line, signature, os, keywords⟩)
      (Covenant.Invocation.literal ⟨name, line, signature, os', keywords⟩) := by
  cases hargs with
  | nil => exact copies_failAt _ _
  | cons harg hrest =>
    cases hrest with
    | cons _ _ => exact copies_failAt _ _
    | nil =>
      cases keywords with
      | cons _ _ => exact copies_failAt _ _
      | nil =>
        dsimp only [literal, Covenant.Invocation.literal]
        rw [harg.expr]
        exact .ite (copies_pure _) (copies_failAt _ _)

/-- Before and after the default the names have the types that they have around it. -/
theorem copies_getOr {key default : Operand κ} {key' default' : Covenant.Operand}
    (hkey : key.Tracks r key') (hdefault : default.Tracks r default') (keyTy valueTy : Ty) :
    Copies r (getOr key default keyTy valueTy)
      (Covenant.Invocation.getOr key' default' keyTy valueTy) := by
  refine (hkey.pushAs keyTy).andThen fun _ => (copies_apply .mapGet).andThen fun _ => ?_
  -- The default starts from the layout here, without the cell that the look-up has left.
  intro base
  refine Mirrors.andThen (Q := fun l scope mem => UpToDate r base scope mem ∧ base.Alike l)
    (mirrors_lift fun _ _ _ _ hdone hmem => ?_) fun l => .given fun hl => ?_
  · cases hdone
    exact ⟨hmem, hmem.1⟩
  refine Mirrors.andThen (Q := fun start scope mem => UpToDate r base scope mem ∧ base.Alike start)
    (mirrors_lift fun _ _ _ _ hdone hmem => ?_) fun start => .given fun hstart => ?_
  · cases hpop : l.pop 1 with
    | error d =>
      rw [hpop] at hdone
      exact absurd hdone defect_ne_ok
    | ok start =>
      obtain ⟨-, rfl⟩ := (l.pop_eq_ok_iff).mp hpop
      rw [hpop] at hdone
      cases hdone
      exact ⟨hmem, hl.trans (l.alike_atDepth _)⟩
  exact ((hdefault.pushAs valueTy).block hstart).andThen fun _ =>
    copies_lift (steady_emit _) base

omit [DecidableEq κ] in
/-- A wrong number of arguments or types is a defect of both. -/
theorem copies_keyed {body : Operand κ → Operand κ → Ty → Ty → CachedGen κ Unit}
    {body' : Covenant.Operand → Covenant.Operand → Ty → Ty → Gen Unit}
    (hbody : ∀ {key other key' other'}, key.Tracks r key' → other.Tracks r other' →
      ∀ keyTy valueTy, Copies r (body key other keyTy valueTy) (body' key' other' keyTy valueTy))
    (hargs : AllTrack r os os') (types : List Ty) :
    Copies r (keyed body os types)
      (Covenant.Invocation.keyed body' os' types) := by
  cases hargs with
  | nil => exact copies_defect _
  | cons hkey hrest =>
    cases hrest with
    | nil => exact copies_defect _
    | cons hother hrest =>
      cases hrest with
      | cons _ _ => exact copies_defect _
      | nil =>
        match types with
        | [keyTy, valueTy] => exact hbody hkey hother keyTy valueTy
        | [] | [_] | _ :: _ :: _ :: _ => exact copies_defect _

/-- Calls of the same built-in at the same signature, with arguments that track each other. -/
theorem copies_emit (name : Ident) (line : Nat) (signature : Signature) (hargs : AllTrack r os os')
    (keywords : List (Ident × Expr)) (target : Builtin) :
    Copies r (emit ⟨name, line, signature, os, keywords⟩ target)
      (Covenant.Invocation.emit ⟨name, line, signature, os', keywords⟩ target) := by
  have hpush := Operand.copies_pushAll hargs signature.args
  cases target with
  | abs => exact hpush.andThen fun _ => copies_apply .abs
  | timedelta =>
    unfold emit Covenant.Invocation.emit
    dsimp only
    rw [Operand.exprs_eq hargs]
    cases Timedelta.seconds (os'.map Covenant.Operand.expr) keywords with
    | ok n => exact copies_apply _
    | error fault => exact copies_failAt _ _
  | transaction =>
    have hrest := (copies_lift (r := r) (steady_fetch Layout.operationsName)).andThen fun _ =>
      hpush.andThen fun _ => (copies_apply .transferTokens).andThen fun _ =>
        (copies_apply .cons).andThen fun _ => copies_lift (steady_replace Layout.operationsName)
    exact (copies_lift closed_steady.layout).andThen fun l => .ite hrest (copies_failAt_bind _ _)
  | contract =>
    exact hpush.andThen fun _ => (copies_apply _).andThen fun _ => copies_lift (steady_emit _)
  | wrap ty =>
    exact (copies_literal name line signature hargs keywords).andThen fun e =>
      (copies_lift (closed_steady.typed _)).andThen fun _ => copies_apply _
  | listNew =>
    unfold emit Covenant.Invocation.emit
    dsimp only
    cases signature.result with
    | list element =>
      exact .ite (copies_failAt_bind _ _)
        ((copies_apply (.nil element)).andThen fun _ => Operand.copies_consAll element hargs)
    | _ => exact copies_defect _
  | listPrepend => exact hpush.andThen fun _ => copies_apply .cons
  | mapNew big =>
    unfold emit Covenant.Invocation.emit
    dsimp only
    refine .ite (copies_failAt_bind _ _) ?_
    cases signature.result with
    | map big key value => exact copies_apply _
    | _ => exact copies_defect _
  | mapGet =>
    exact copies_keyed (fun hkey hdefault => copies_getOr hkey hdefault) hargs signature.args
  | mapAdd =>
    exact copies_keyed (fun hkey hvalue key value =>
      Operand.copies_insertAll key value (.cons ⟨hkey, hvalue⟩ .nil)) hargs signature.args
  | pack => exact hpush.andThen fun _ => copies_apply .pack
  | unpack => exact (copies_apply _).andThen fun _ => copies_lift (steady_emit _)
  | blake2b => exact copies_apply .blake2b
  | now => exact copies_apply .now

end Invocation

/-! ## Literals of containers -/

def emitList (line : Nat) (items : List (Operand κ)) (ty : Ty) : CachedGen κ Unit :=
  match ty with
  | .list element => do
    if element.hasUnknown then
      failAt line (.ambiguousEmpty .list)
    apply (.nil element)
    Operand.consAll element items
  | _ => liftM (defect .listType : Gen Unit)

theorem copies_emitList (line : Nat) (h : AllTrack r os os') (ty : Ty) :
    Copies r (emitList line os ty) (Gen.emitList line os' ty) := by
  cases ty with
  | list element =>
    exact .ite (copies_failAt_bind _ _)
      ((copies_apply (.nil element)).andThen fun _ => Operand.copies_consAll element h)
  | _ => exact copies_defect _

def emitDict (line : Nat) (entries : List (Operand κ × Operand κ)) (ty : Ty) :
    CachedGen κ Unit := do
  if ty.hasUnknown then
    failAt line (.ambiguousEmpty .map)
  match ty with
  | .map big key value => do
    apply (.emptyMap big key value)
    Operand.insertAll key value entries
  | _ => defect .dictType

theorem copies_emitDict (line : Nat) {entries : List (Operand κ × Operand κ)}
    {entries' : List (Covenant.Operand × Covenant.Operand)} (h : EntriesTrack r entries entries')
    (ty : Ty) : Copies r (emitDict line entries ty) (Gen.emitDict line entries' ty) := by
  refine .ite (copies_failAt_bind _ _) ?_
  cases ty with
  | map big key value =>
    exact (copies_apply _).andThen fun _ => Operand.copies_insertAll key value h
  | _ => exact copies_defect _

/-! ## Attributes and subscripts -/

def emitAttribute (isStorage : Bool) (value : Operand κ) (field : Ident) : CachedGen κ Unit := do
  if isStorage then
    fetch Layout.storageName
  else
    match ← value.value none with
    | .record name fields => readField name fields field
    | _ => defect .attributeOfNonRecord

theorem copies_emitAttribute (isStorage : Bool) (h : value.Tracks r value') (field : Ident) :
    Copies r (emitAttribute isStorage value field)
      (Gen.emitAttribute isStorage value' field) := by
  refine .ite (copies_lift (steady_fetch _)) ((h.value none).andThen fun ty => ?_)
  cases ty with
  | record => exact copies_lift ((closed_steady.typed _).bind fun _ => steady_apply _)
  | _ => exact copies_defect _

/-- Replaces the map on top of the stack by the value under a key, which has to be there. -/
def lookUp (key : Operand κ) (keyTy : Ty) : CachedGen κ Unit := do
  key.pushAs keyTy
  apply .mapGet
  Gen.emit (unwrapOr "Key does not exist")

theorem copies_lookUp (h : value.Tracks r value') (keyTy : Ty) :
    Copies r (lookUp value keyTy) (Gen.lookUp value' keyTy) :=
  (h.pushAs keyTy).andThen fun _ => (copies_apply .mapGet).andThen fun _ =>
    copies_lift (steady_emit _)

def emitSubscript (value index : Operand κ) : CachedGen κ Unit := do
  match (← value.value none).keyValue? with
  | some (key, _) => lookUp index key
  | none => defect .subscriptOfNonMap

theorem copies_emitSubscript (hvalue : left.Tracks r left') (hindex : right.Tracks r right') :
    Copies r (emitSubscript left right) (Gen.emitSubscript left' right') := by
  refine (hvalue.value none).andThen fun ty => ?_
  cases ty.keyValue? with
  | some found => exact copies_lookUp hindex _
  | none => exact copies_defect _

/-! ## Operators -/

/-- The types of two operands, of which a literal takes its type from its partner. -/
def pairTypes (partner : Ty → Ty) (left right : Operand κ) : CachedGen κ (Ty × Ty) :=
  asking fun scope =>
    operandTypes partner left.expr right.expr (left.asked scope) (right.asked scope)

theorem copies_pairTypes (partner : Ty → Ty) (hleft : left.Tracks r left')
    (hright : right.Tracks r right') :
    Copies r (pairTypes partner left right)
      (Gen.pairTypes (Covenant.operandTypes partner) left' right') := by
  unfold pairTypes
  rw [hleft.expr, hright.expr]
  exact copies_asking fun scope =>
    answers_operandTypes partner _ _ (hleft.asked scope) (hright.asked scope)

/-- Whether a key is in a map. -/
def emitMembership (key map : Operand κ) : CachedGen κ Unit := do
  match (← map.value none).keyValue? with
  | some (keyTy, _) => do
    key.pushAs keyTy
    apply .mem
  | none => defect .membership

theorem copies_emitMembership (hkey : left.Tracks r left') (hmap : right.Tracks r right') :
    Copies r (emitMembership left right) (Gen.emitMembership left' right') := by
  refine (hmap.value none).andThen fun ty => ?_
  cases ty.keyValue? with
  | some found => exact (hkey.pushAs _).andThen fun _ => copies_apply .mem
  | none => exact copies_defect _

def emitCompare (left : Operand κ) (op : CmpOp) (right : Operand κ) : CachedGen κ Unit :=
  match op with
  | .isIn => emitMembership left right
  | .notIn => do
    emitMembership left right
    apply .not
  | op => do
    let (leftTy, rightTy) ← pairTypes id left right
    right.pushAs rightTy
    left.pushAs leftTy
    apply .compare
    match comparisonTest? op with
    | some test => apply test
    | none => defect .comparison

/-- Both operands are asked for before either is pushed. -/
theorem copies_emitCompare (hleft : left.Tracks r left') (op : CmpOp)
    (hright : right.Tracks r right') :
    Copies r (emitCompare left op right) (Gen.emitCompare left' op right') := by
  have hmember := copies_emitMembership hleft hright
  cases op with
  | isIn => exact hmember
  | notIn => exact hmember.andThen fun _ => copies_apply .not
  | eq | notEq | lt | ltE | gt | gtE =>
    exact (copies_pairTypes id hleft hright).andThen fun types => (hright.pushAs _).andThen fun _ =>
      (hleft.pushAs _).andThen fun _ => (copies_apply .compare).andThen fun _ => copies_apply _
  | same | notSame =>
    exact (copies_pairTypes id hleft hright).andThen fun types => (hright.pushAs _).andThen fun _ =>
      (hleft.pushAs _).andThen fun _ => (copies_apply .compare).andThen fun _ => copies_defect _

def emitBinary (left : Operand κ) (op : BinOp) (right : Operand κ) : CachedGen κ Unit := do
  let (leftTy, rightTy) ← pairTypes arithmeticPartner left right
  right.pushAs rightTy
  left.pushAs leftTy
  match op with
  | .add => apply (if leftTy = .string then .concat else .add)
  | .sub => apply .sub
  | .mult => apply .mul
  | .floorDiv => divide .car
  | .mod => divide .cdr
  | .div | .pow => defect .operator

theorem copies_emitBinary (hleft : left.Tracks r left') (op : BinOp)
    (hright : right.Tracks r right') :
    Copies r (emitBinary left op right) (Gen.emitBinary left' op right') := by
  refine (copies_pairTypes arithmeticPartner hleft hright).andThen fun types =>
    (hright.pushAs _).andThen fun _ => (hleft.pushAs _).andThen fun _ => ?_
  cases op with
  | add | sub | mult => exact copies_apply _
  | floorDiv | mod =>
    exact copies_lift ((steady_apply .ediv).bind fun _ => (steady_emit _).bind fun _ => steady_apply _)
  | div | pow => exact copies_defect _

def emitUnary (op : UnOp) (operand : Operand κ) : CachedGen κ Unit := do
  let _ ← operand.value none
  match op with
  | .not => apply .not
  | .minus => apply .neg
  | .plus | .invert => defect .operator

theorem copies_emitUnary (op : UnOp) (h : value.Tracks r value') :
    Copies r (emitUnary op value) (Gen.emitUnary op value') := by
  refine (h.value none).andThen fun _ => ?_
  cases op with
  | not | minus => exact copies_apply _
  | plus | invert => exact copies_defect _

/-- Combines further operands with the boolean on top of the stack. -/
def connectAll (op : BoolOp) : List (Operand κ) → CachedGen κ Unit
  | [] => pure ()
  | o :: os => do
    o.pushAs .bool
    apply (connective op)
    connectAll op os

theorem copies_connectAll (op : BoolOp) (h : AllTrack r os os') :
    Copies r (connectAll op os) (Gen.connectAll op os') := by
  induction h with
  | nil => exact copies_pure ()
  | cons ho _ ih => exact (ho.pushAs .bool).andThen fun _ => (copies_apply _).andThen fun _ => ih

def emitBoolean (op : BoolOp) : List (Operand κ) → CachedGen κ Unit
  | [] => liftM (defect .noOperands : Gen Unit)
  | first :: rest => do
    first.pushAs .bool
    connectAll op rest

theorem copies_emitBoolean (op : BoolOp) (h : AllTrack r os os') :
    Copies r (emitBoolean op os) (Gen.emitBoolean op os') := by
  cases h with
  | nil => exact copies_defect _
  | cons ho hrest => exact (ho.pushAs .bool).andThen fun _ => copies_connectAll op hrest

/-! ## Calls -/

/-- Applies a closure to its argument. -/
def applyClosure (func arg : Operand κ) (want : Ty) : CachedGen κ Unit := do
  let found ← arg.typeOf (some want)
  unless found = want do
    failAt arg.expr.line (.argumentType func.expr.text want found)
  annotate (.called func.expr.text)
  let _ ← func.value none
  arg.pushAs want
  Gen.emit .exec
  pop 1

theorem copies_applyClosure (hfunc : func.Tracks r func') (harg : value.Tracks r value')
    (want : Ty) : Copies r (applyClosure func value want) (Gen.applyClosure func' value' want) := by
  unfold applyClosure Gen.applyClosure
  rw [hfunc.expr, harg.expr]
  refine (harg.typeOf (some want)).andThen fun found => .ite ?_ (copies_failAt_bind _ _)
  exact (copies_lift (steady_annotate _)).andThen fun _ => (hfunc.value none).andThen fun _ =>
    (harg.pushAs want).andThen fun _ => (copies_lift (steady_emit _)).andThen fun _ =>
      copies_lift (steady_pop 1)

/-- A closure takes one argument. A function of the program may have it given by keyword. -/
def callClosure (line : Nat) (func : Operand κ) (args : List (Operand κ))
    (keywords : List (Ident × Operand κ)) (want : Ty) : CachedGen κ Unit := do
  match args, keywords with
  | [arg], [] => applyClosure func arg want
  | [], [(keyword, arg)] =>
    match func.expr.name?.bind (← layout).formals.get? with
    | some [formal] =>
      if formal = keyword then
        applyClosure func arg want
      else
        failAt line (.badArgument (.unknownKeyword func.expr.text keyword))
    | _ => failAt line (.badArgument (.unknownKeyword func.expr.text keyword))
  | args, keywords =>
    failAt line
      (.badArgument (.closureArguments func.expr.text (args.length + keywords.length)))

/-- A keyword is compared with the formal that the layout knows. -/
theorem copies_callKeyword (line : Nat) (hfunc : func.Tracks r func') (keyword : Ident)
    (harg : value.Tracks r value') (want : Ty) :
    Copies r (callClosure line func [] [(keyword, value)] want)
      (Gen.callClosure line func' [] [(keyword, value')] want) := by
  refine (copies_lift closed_steady.layout).andThen fun l => ?_
  rw [hfunc.expr]
  match func'.expr.name?.bind l.formals.get? with
  | some [formal] => exact .ite (copies_applyClosure hfunc harg want) (copies_failAt _ _)
  | none | some [] | some (_ :: _ :: _) => exact copies_failAt _ _

/-- The four shapes of an argument list are told apart in the same way. -/
theorem copies_callClosure (line : Nat) (hfunc : func.Tracks r func') (hargs : AllTrack r os os')
    (hkeywords : KeywordsTrack r keywords keywords') (want : Ty) :
    Copies r (callClosure line func os keywords want)
      (Gen.callClosure line func' os' keywords' want) := by
  have hfail : Copies r
      (liftM (failAt line (.badArgument
        (.closureArguments func.expr.text (os.length + keywords.length))) : Gen Unit))
      (failAt line (.badArgument
        (.closureArguments func'.expr.text (os'.length + keywords'.length)))) := by
    rw [hfunc.expr, hargs.length_eq, hkeywords.length_eq]
    exact copies_failAt _ _
  cases hargs with
  | nil =>
    cases hkeywords with
    | nil => exact hfail
    | @cons k k' _ _ hkeyword hrest =>
      cases hrest with
      | cons _ _ => exact hfail
      | nil =>
        obtain ⟨keyword, value⟩ := k
        obtain ⟨_, value'⟩ := k'
        obtain ⟨rfl, hvalue⟩ := hkeyword
        exact copies_callKeyword line hfunc keyword hvalue want
  | cons harg hrest =>
    cases hrest with
    | cons _ _ => exact hfail
    | nil =>
      cases hkeywords with
      | nil => exact copies_applyClosure hfunc harg want
      | cons _ _ => exact hfail

/-- Builds a record from positional arguments. -/
def callRecord (line : Nat) (name : Ident) (fields : Fields) (args : List (Operand κ))
    (keywords : List (Ident × Operand κ)) : CachedGen κ Unit := do
  unless keywords.isEmpty do
    failAt line (.badArgument (.keywordsForRecord name))
  Operand.checkArguments name line args fields.types
  Operand.pushAllReversed args fields.types
  if 1 < fields.length then
    apply (.pair fields.length)

/-- The fields are checked in order and pushed in reverse. -/
theorem copies_callRecord (line : Nat) (name : Ident) (fields : Fields) (hargs : AllTrack r os os')
    (hkeywords : KeywordsTrack r keywords keywords') :
    Copies r (callRecord line name fields os keywords)
      (Gen.callRecord line name fields os' keywords') := by
  rw [Gen.callRecord, Gen.buildRecord_eq]
  cases hkeywords with
  | nil =>
    exact (Operand.copies_checkArguments name line hargs fields.types).andThen fun _ =>
      (Operand.copies_pushAllReversed hargs fields.types).andThen fun _ =>
        .ite (copies_apply _) (copies_pure ())
  | cons _ _ => exact copies_failAt_bind _ _

/-- What a call of a built-in does once its arguments are checked. -/
def invoke (line : Nat) (name : Ident) (signature : Signature) (target : Builtin)
    (receiver : Option (Operand κ × Ty)) (args : List (Operand κ))
    (keywords : List (Ident × Operand κ)) : CachedGen κ Unit := do
  annotate (.called name)
  if let some (operand, _) := receiver then
    let _ ← operand.value none
  let call : Invocation κ :=
    ⟨name, line, signature, args, keywords.map fun (k, o) => (k, o.expr)⟩
  call.emit target

/-- Calls a built-in. -/
def callBuiltin (line : Nat) (name : Ident) (target : Builtin) (receiver : Option (Operand κ × Ty))
    (typeParams : List Ty) (args : List (Operand κ)) (keywords : List (Ident × Operand κ))
    (result : Ty) : CachedGen κ Unit := do
  let signature ← asking fun scope =>
    builtinSignature scope.records line target (receiver.map (·.2)) typeParams
      (args.map Operand.expr) (aloneTypes (args.map (·.asked scope))) (some result)
  unless target.argumentKind = .literals || keywords.isEmpty do
    failAt line (.badArgument (.keywordsRefused name))
  if target.argumentKind = .values then
    Operand.checkArguments name line args signature.args
  annotate (.called name)
  if let some (operand, _) := receiver then
    let _ ← operand.value none
  let call : Invocation κ :=
    ⟨name, line, signature, args, keywords.map fun (k, o) => (k, o.expr)⟩
  call.emit target

omit [DecidableEq κ] in
theorem keywordExprs_eq (h : KeywordsTrack r keywords keywords') :
    (keywords.map fun (k, o) => (k, o.expr)) = keywords'.map fun (k, o) => (k, o.expr) := by
  induction h with
  | nil => rfl
  | cons hkeyword _ ih =>
    exact congrArg₂ List.cons (Prod.ext hkeyword.1 hkeyword.2.expr) ih

/-- Receivers of the same type that track each other, if there are any. -/
abbrev ReceiversTrack (r : Region κ) :
    Option (Operand κ × Ty) → Option (Covenant.Operand × Ty) → Prop :=
  Option.Rel fun o o' => o.1.Tracks r o'.1 ∧ o.2 = o'.2

/-- The signature is asked for once and then used for the checks and for the code. -/
theorem copies_callBuiltin (line : Nat) (name : Ident) (target : Builtin)
    {receiver : Option (Operand κ × Ty)} {receiver' : Option (Covenant.Operand × Ty)}
    (hreceiver : ReceiversTrack r receiver receiver') (typeParams : List Ty)
    (hargs : AllTrack r os os') (hkeywords : KeywordsTrack r keywords keywords') (result : Ty) :
    Copies r (callBuiltin line name target receiver typeParams os keywords result)
      (Gen.callBuiltin line name target receiver' typeParams os' keywords' result) := by
  have htypes : receiver.map (·.2) = receiver'.map (·.2) := by
    cases hreceiver with
    | none => rfl
    | some h => exact congrArg some h.2
  have hempty : keywords.isEmpty = keywords'.isEmpty := by cases hkeywords <;> rfl
  -- What comes after the checks, which are made for values only.
  have hcall (signature : Signature) : Copies r
      (invoke line name signature target receiver os keywords)
      (Gen.invoke line name signature target receiver' os' keywords') := by
    unfold invoke Gen.invoke
    rw [keywordExprs_eq hkeywords]
    have hemit := Invocation.copies_emit name line signature hargs
      (keywords'.map fun (k, o) => (k, o.expr)) target
    refine (copies_lift (steady_annotate _)).andThen fun _ => ?_
    cases hreceiver with
    | none => exact hemit
    | some h => exact (h.1.value none).andThen fun _ => hemit
  unfold callBuiltin Gen.callBuiltin
  rw [htypes, Operand.exprs_eq hargs, hempty]
  refine copies_asking_bind (fun scope => ?_) fun signature => ?_
  · exact answers_builtinSignature scope.records line target _ typeParams _
      (answers_aloneTypes (Operand.allMatch_askeds hargs scope)) (some result)
  · refine .ite (.ite ?_ (hcall signature)) (copies_failAt_bind _ _)
    exact (Operand.copies_checkArguments name line hargs signature.args).andThen fun _ =>
      hcall signature

/-- Emits a call. The receiver is the operand whose attribute is called, if an attribute is. -/
def emitCall (line : Nat) (func : Operand κ) (receiver : Option (Operand κ))
    (args : List (Operand κ)) (keywords : List (Ident × Operand κ)) (result : Ty) :
    CachedGen κ Unit := do
  match ← asking fun scope => calleeOf scope func.expr func.addresses with
  | .record name fields => callRecord line name fields args keywords
  | .closure want _ => callClosure line func args keywords want
  | .builtin name target receiverTy typeParams =>
    let receiver := receiver.bind fun operand => receiverTy.map fun ty => (operand, ty)
    callBuiltin line name target receiver typeParams args keywords result

/-- What the call is of is asked for first; the three kinds of callees follow. -/
theorem copies_emitCall (line : Nat) (hfunc : func.Tracks r func') {receiver : Option (Operand κ)}
    {receiver' : Option Covenant.Operand} (hreceiver : Option.Rel (·.Tracks r ·) receiver receiver')
    (hargs : AllTrack r os os') (hkeywords : KeywordsTrack r keywords keywords') (result : Ty) :
    Copies r (emitCall line func receiver os keywords result)
      (Gen.emitCall line func' receiver' os' keywords' result) := by
  refine copies_asking_bind (fun scope => ?_) fun callee => ?_
  · rw [← hfunc.expr]
    exact answers_calleeOf hfunc.placed
  cases callee with
  | record name fields => exact copies_callRecord line name fields hargs hkeywords
  | closure want _ => exact copies_callClosure line hfunc hargs hkeywords want
  | builtin name target receiverTy typeParams =>
    refine copies_callBuiltin line name target ?_ typeParams hargs hkeywords result
    cases hreceiver with
    | none => exact .none
    | some h =>
      cases receiverTy with
      | none => exact .none
      | some ty => exact .some ⟨h, rfl⟩

/-! ## The recursion over the tree -/

mutual

/-- Emits the code of an expression of the given type, which is stored at the given addresses. -/
def emitExpr : Expr → Addresses κ → Ty → CachedGen κ Unit
  | .name _ id, _, _ => liftM (emitName id)
  | .literal _ value, _, ty => liftM (emitLiteral value ty)
  | .list line items, a, ty => emitList line (operands items (a.part .first)) ty
  | .tuple _ _, _, _ => liftM (defect .tuple : Gen Unit)
  | .dict line entries, a, ty => emitDict line (entryOperands entries (a.part .first)) ty
  | .attr line value field, a, _ =>
    emitAttribute (Expr.attr line value field).isStorage
      ⟨value, a.part .first, emitExpr value (a.part .first)⟩ field
  | .subscript _ value index, a, _ =>
    emitSubscript ⟨value, a.part .first, emitExpr value (a.part .first)⟩
      ⟨index, a.part .second, emitExpr index (a.part .second)⟩
  | .call line func args keywords, a, ty =>
    let func' : Operand κ := ⟨func, a.part .first, emitExpr func (a.part .first)⟩
    let receiver := match func with
      | .attr _ value _ =>
        let place := (a.part .first).part .first
        some ⟨value, place, emitExpr value place⟩
      | _ => none
    emitCall line func' receiver (operands args (a.part .second))
      (keywordOperands keywords (a.part .third)) ty
  | .compare _ left [(op, right)], a, _ =>
    emitCompare ⟨left, a.part .first, emitExpr left (a.part .first)⟩ op
      ⟨right, a.part .second, emitExpr right (a.part .second)⟩
  | .compare _ _ _, _, _ => liftM (defect .comparisonChain : Gen Unit)
  | .binary _ left op right, a, _ =>
    emitBinary ⟨left, a.part .first, emitExpr left (a.part .first)⟩ op
      ⟨right, a.part .second, emitExpr right (a.part .second)⟩
  | .unary _ op operand, a, _ =>
    emitUnary op ⟨operand, a.part .first, emitExpr operand (a.part .first)⟩
  | .boolean _ op values, a, _ => emitBoolean op (operands values (a.part .first))

/-- The expressions as operands. -/
def operands : List Expr → Addresses κ → List (Operand κ)
  | [], _ => []
  | e :: es, a => ⟨e, a.part .first, emitExpr e (a.part .first)⟩ :: operands es (a.part .second)

/-- The keys and values of a map literal as operands. -/
def entryOperands : List (Expr × Expr) → Addresses κ → List (Operand κ × Operand κ)
  | [], _ => []
  | (key, value) :: rest, a =>
    (⟨key, a.part .first, emitExpr key (a.part .first)⟩,
      ⟨value, a.part .second, emitExpr value (a.part .second)⟩) ::
      entryOperands rest (a.part .third)

/-- Keyword arguments as operands. -/
def keywordOperands : List (Ident × Expr) → Addresses κ → List (Ident × Operand κ)
  | [], _ => []
  | (id, value) :: rest, a =>
    (id, ⟨value, a.part .first, emitExpr value (a.part .first)⟩) ::
      keywordOperands rest (a.part .second)

end

/-- An expression as an operand. -/
def operand (e : Expr) (a : Addresses κ) : Operand κ := ⟨e, a, emitExpr e a⟩

omit [DecidableEq κ] in
theorem copies_emitName (id : Ident) : Copies r (liftM (emitName id)) (emitName id) := by
  refine copies_lift (closed_steady.layout.bind fun l => ?_)
  split
  · exact steady_fetch id
  · cases Builtin.constant? id with
    | some found => exact steady_apply _
    | none => exact fun _ _ _ hdone => absurd hdone defect_ne_ok

mutual

/-- The code of an expression, all of whose parts may be asked for, is the plain code. -/
theorem copies_emitExpr : ∀ (e : Expr) {a : Addresses κ}, Placed r a (.expr e) → ∀ ty : Ty,
    Copies r (emitExpr e a ty) (Covenant.emitExpr e ty)
  | .name _ id, _, _, _ => copies_emitName id
  | .literal _ value, _, _, ty => by cases value <;> exact copies_apply _
  | .list line items, _, h, ty =>
    copies_emitList line (allTrack_operands items (h.part .first rfl)) ty
  | .tuple .., _, _, _ | .compare _ left [], _, _, _ | .compare _ left (_ :: _ :: _), _, _, _ =>
    copies_defect _
  | .dict line entries, _, h, ty =>
    copies_emitDict line (entriesTrack_entryOperands entries (h.part .first rfl)) ty
  | .attr line value field, _, h, _ => by
    have hvalue := h.part .first rfl
    exact copies_emitAttribute _ ⟨rfl, hvalue, copies_emitExpr value hvalue⟩ field
  | .subscript _ value index, _, h, _ => by
    have hvalue := h.part .first rfl
    have hindex := h.part .second rfl
    exact copies_emitSubscript ⟨rfl, hvalue, copies_emitExpr value hvalue⟩
      ⟨rfl, hindex, copies_emitExpr index hindex⟩
  | .call line func args keywords, _, h, ty => by
    have hfunc := h.part .first rfl
    have htracks : Operand.Tracks r ⟨func, _, emitExpr func _⟩ func.operand :=
      ⟨rfl, hfunc, copies_emitExpr func hfunc⟩
    have hargs := allTrack_operands args (h.part .second rfl)
    have hkeywords := keywordsTrack_keywordOperands keywords (h.part .third rfl)
    -- A receiver is asked for at the address that it has inside the callee.
    cases func with
    | attr funcLine value field =>
      have hvalue := hfunc.part .first rfl
      exact copies_emitCall line htracks (.some ⟨rfl, hvalue, copies_emitExpr value hvalue⟩) hargs
        hkeywords ty
    | _ => exact copies_emitCall line htracks .none hargs hkeywords ty
  | .compare _ left [(op, right)], _, h, _ => by
    have hleft := h.part .first rfl
    have hright := h.part .second rfl
    exact copies_emitCompare ⟨rfl, hleft, copies_emitExpr left hleft⟩ op
      ⟨rfl, hright, copies_emitExpr right hright⟩
  | .binary _ left op right, _, h, _ => by
    have hleft := h.part .first rfl
    have hright := h.part .second rfl
    exact copies_emitBinary ⟨rfl, hleft, copies_emitExpr left hleft⟩ op
      ⟨rfl, hright, copies_emitExpr right hright⟩
  | .unary _ op operand, _, h, _ => by
    have hoperand := h.part .first rfl
    exact copies_emitUnary op ⟨rfl, hoperand, copies_emitExpr operand hoperand⟩
  | .boolean _ op values, _, h, _ =>
    copies_emitBoolean op (allTrack_operands values (h.part .first rfl))

theorem allTrack_operands : ∀ (es : List Expr) {a : Addresses κ}, Placed r a (.exprs es) →
    AllTrack r (operands es a) (Covenant.operands es)
  | [], _, _ => .nil
  | e :: es, _, h =>
    .cons ⟨rfl, h.part .first rfl, copies_emitExpr e (h.part .first rfl)⟩
      (allTrack_operands es (h.part .second rfl))

theorem entriesTrack_entryOperands : ∀ (entries : List (Expr × Expr)) {a : Addresses κ},
    Placed r a (.entries entries) →
    EntriesTrack r (entryOperands entries a) (Covenant.entryOperands entries)
  | [], _, _ => .nil
  | (key, value) :: rest, _, h =>
    .cons ⟨⟨rfl, h.part .first rfl, copies_emitExpr key (h.part .first rfl)⟩,
      ⟨rfl, h.part .second rfl, copies_emitExpr value (h.part .second rfl)⟩⟩
      (entriesTrack_entryOperands rest (h.part .third rfl))

theorem keywordsTrack_keywordOperands : ∀ (keywords : List (Ident × Expr)) {a : Addresses κ},
    Placed r a (.keywords keywords) →
    KeywordsTrack r (keywordOperands keywords a) (Covenant.keywordOperands keywords)
  | [], _, _ => .nil
  | (_, value) :: rest, _, h =>
    .cons ⟨rfl, rfl, h.part .first rfl, copies_emitExpr value (h.part .first rfl)⟩
      (keywordsTrack_keywordOperands rest (h.part .second rfl))

end

/-- An expression whose parts may be asked for is an operand that tracks the plain one. -/
theorem tracks_operand {e : Expr} {a : Addresses κ} (h : Placed r a (.expr e)) :
    (operand e a).Tracks r e.operand :=
  ⟨rfl, h, copies_emitExpr e h⟩

end Cached

end Covenant
