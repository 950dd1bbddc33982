import Covenant.Proofs.TypeCache.Memory
import Mathlib.Data.List.Forall2

/-!
# Covenant — typing with a memory

`Cached.asked` types an expression in the way `typing` does, but every time the type of a node is
needed, of the expression itself or of one inside it, the memory is asked first. The rules for the
kinds of expressions are those of plain typing with questions in the place of typings.

Main statement: `matches_asked`. As long as the memory is sound, every question gets the answer of
plain typing.
-/

namespace Covenant

/-- How an expression is typed with a memory. -/
structure Asked (κ : Type) where
  /-- The line of the expression. -/
  line : Nat
  /-- Asks for the type under an optional expectation. -/
  ask : Option Ty → Ask κ Ty

namespace Asked

variable {κ : Type} {r : Region κ} {scope : Scope}

/-- The type where nothing is expected. -/
def alone (q : Asked κ) : Ask κ Ty := q.ask none

/-- The type where the given one is expected. -/
def against (q : Asked κ) (want : Ty) : Ask κ Ty := q.ask (some want)

/-- Takes the expected type over if it only fills in unknown parts. -/
def adopt (m : Ask κ Ty) : Option Ty → Ask κ Ty
  | none => m
  | some want => do
    let ty ← m
    return if ty.hasUnknown && ty.fits want then want else ty

/-- Asks for the expression at an address, given how its type is worked out. -/
def of [DecidableEq κ] (scope : Scope) (e : Expr) (a : Addresses κ) (infer : Option Ty → Ask κ Ty) :
    Asked κ :=
  ⟨e.line, fun expected => question scope e a.own expected (adopt (infer expected) expected)⟩

/-- Questions get the answers of a typing. -/
structure Matches (r : Region κ) (scope : Scope) (q : Asked κ) (t : Typing) : Prop where
  line : q.line = t.line
  ask : ∀ expected, Answers r scope (q.ask expected) (t.expecting expected)

theorem Matches.alone {q : Asked κ} {t : Typing} (h : q.Matches r scope t) :
    Answers r scope q.alone t.alone := h.ask none

theorem Matches.against {q : Asked κ} {t : Typing} (h : q.Matches r scope t) (want : Ty) :
    Answers r scope (q.against want) (t.against want) := h.ask (some want)

/-- Questions about an expression that may be asked for get the answers of its typing, if this holds
of the way its type is worked out. -/
theorem matches_of [DecidableEq κ] {e : Expr} {a : Addresses κ} (hlive : r.live a.own e)
    {infer : Option Ty → Ask κ Ty} {plain : Option Ty → Typed Ty}
    (htyping : typing scope e = .ofExpected e.line plain)
    (hinfer : ∀ expected, Answers r scope (infer expected) (plain expected)) :
    (of scope e a infer).Matches r scope (typing scope e) := by
  refine ⟨by rw [htyping]; rfl, fun expected => ?_⟩
  -- What is kept is the type after the expected one has been taken over.
  have hadopt : Answers r scope (adopt (infer expected) expected) (typeOf scope e expected) := by
    rw [typeOf, htyping]
    cases expected with
    | none => exact hinfer none
    | some want => exact (hinfer (some want)).bind fun ty => answers_pure _
  exact answers_question hlive hadopt

end Asked

namespace Cached

variable {κ : Type} {r : Region κ} {scope : Scope} {q ql qr : Asked κ} {t tl tr : Typing}
  {qs : List (Asked κ)} {ts : List Typing} {pairs : List (Asked κ × Asked κ)}
  {pairs' : List (Typing × Typing)} {values : Ask κ (List Ty)} {values' : Typed (List Ty)}
  {a : Addresses κ} {line : Nat}

/-- Questions about several expressions get the answers of their typings. -/
def AllMatch (r : Region κ) (scope : Scope) : List (Asked κ) → List Typing → Prop :=
  List.Forall₂ (·.Matches r scope ·)

/-- Questions about the keys and values of a map literal get the answers of their typings. -/
def EntriesMatch (r : Region κ) (scope : Scope) :
    List (Asked κ × Asked κ) → List (Typing × Typing) → Prop :=
  List.Forall₂ fun q t => q.1.Matches r scope t.1 ∧ q.2.Matches r scope t.2

/-! ## Containers -/

/-- Checks that an element of a container has the element type. -/
def checkElement (want : Ty) (item : Asked κ) : Ask κ Unit := do
  let found ← item.against want
  if found.fits want || want.fits found then
    return ()
  else
    Ask.plain (faultAt item.line (.typeMismatch want found))

/-- An element is asked for under the element type, and the misfit is reported at its line. -/
theorem answers_checkElement (want : Ty) (h : q.Matches r scope t) :
    Answers r scope (checkElement want q) (Covenant.checkElement want t) := by
  refine (h.against want).bind fun found => .ite (answers_pure ()) ?_
  rw [h.line]
  exact answers_plain _

/-- Checks every element of a list. -/
def checkElements (want : Ty) : List (Asked κ) → Ask κ Unit
  | [] => Ask.plain (.ok ())
  | item :: rest => do
    checkElement want item
    checkElements want rest

theorem answers_checkElements (want : Ty) (h : AllMatch r scope qs ts) :
    Answers r scope (checkElements want qs) (Covenant.checkElements want ts) := by
  induction h with
  | nil => exact answers_plain _
  | cons hfirst _ ih => exact (answers_checkElement want hfirst).bind fun _ => ih

/-- Checks every entry of a map, the key before the value. -/
def checkEntries (key value : Ty) : List (Asked κ × Asked κ) → Ask κ Unit
  | [] => Ask.plain (.ok ())
  | (k, v) :: rest => do
    checkElement key k
    checkElement value v
    checkEntries key value rest

theorem answers_checkEntries (key value : Ty) (h : EntriesMatch r scope pairs pairs') :
    Answers r scope (checkEntries key value pairs) (Covenant.checkEntries key value pairs') := by
  induction h with
  | nil => exact answers_plain _
  | cons hfirst _ ih =>
    exact (answers_checkElement key hfirst.1).bind fun _ =>
      (answers_checkElement value hfirst.2).bind fun _ => ih

/-- The type of a list literal whose elements should have the given type. -/
def listOf (items : List (Asked κ)) (element : Ty) : Ask κ Ty := do
  checkElements element items
  return .list element

theorem answers_listOf (h : AllMatch r scope qs ts) (element : Ty) :
    Answers r scope (listOf qs element) (Covenant.listOf ts element) :=
  (answers_checkElements element h).bind fun _ => answers_pure _

/-- The type of a map literal whose entries should have the given types. -/
def mapOf (entries : List (Asked κ × Asked κ)) (big : Bool) (key value : Ty) : Ask κ Ty := do
  checkEntries key value entries
  return .map big key value

theorem answers_mapOf (h : EntriesMatch r scope pairs pairs') (big : Bool) (key value : Ty) :
    Answers r scope (mapOf pairs big key value) (Covenant.mapOf pairs' big key value) :=
  (answers_checkEntries key value h).bind fun _ => answers_pure _

/-- A list literal: the expected element type, or else the type of the first element, is the type
of them all. -/
def listType (items : List (Asked κ)) : Option Ty → Ask κ Ty
  | some (.list element) => listOf items element
  | _ =>
    match items with
    | [] => listOf items .unknown
    | first :: _ => do listOf items (← first.alone)

/-- A map literal: the expected key and value type, or else the types of the first entry, are the
types of them all. -/
def dictType (entries : List (Asked κ × Asked κ)) : Option Ty → Ask κ Ty
  | some (.map big key value) => mapOf entries big key value
  | _ =>
    match entries with
    | [] => mapOf entries false .unknown .unknown
    | (k, v) :: _ => do
      let key ← k.alone
      let value ← v.alone
      mapOf entries false key value

/-! ## Attributes and subscripts -/

/-- The attribute of a value: of the storage, of a record, or nothing at all. -/
def attributeType (scope : Scope) (line : Nat) (value : Expr) (field : Ident)
    (receiver : Asked κ) : Ask κ Ty :=
  let whole := Expr.attr line value field
  if whole.isStorage then
    Ask.plain scope.storageType
  else
    match scope.class? value with
    | some (id, cls) =>
      if (cls.method? field).isSome then
        Ask.plain (faultAt line (.unsupported (.mustBeCalled whole.text)))
      else
        Ask.plain (faultAt line (.noSuchAttribute id field))
    | none => do
      match ← receiver.alone with
      | .record name fields =>
        match Fields.find? field fields with
        | some (_, ty) => return ty
        | none => Ask.plain (faultAt line (.noSuchAttribute name field))
      | ty =>
        if ((BuiltinClass.ofTy? ty).bind (·.method? field)).isSome then
          Ask.plain (faultAt line (.unsupported (.mustBeCalled whole.text)))
        else
          Ask.plain (faultAt line (.noSuchAttribute ty.text field))

/-- Only the attribute of a value asks for the value. -/
theorem answers_attributeType (line : Nat) (value : Expr) (field : Ident)
    (h : q.Matches r scope t) :
    Answers r scope (attributeType scope line value field q)
      (Covenant.attributeType scope line value field t) := by
  refine .ite (answers_plain _) ?_
  cases scope.class? value with
  | some cls => exact .ite (answers_plain _) (answers_plain _)
  | none =>
    refine h.alone.bind fun ty => ?_
    cases ty with
    | record name fields =>
      dsimp only
      cases Fields.find? field fields with
      | some found => exact answers_pure _
      | none => exact answers_plain _
    | _ => exact .ite (answers_plain _) (answers_plain _)

/-- The value under a key of a map. -/
def subscriptType (line : Nat) (value index : Asked κ) : Ask κ Ty := do
  let ty ← value.alone
  match ty.keyValue? with
  | some (key, result) => do
    checkElement key index
    return result
  | none => Ask.plain (faultAt line (.invalidType (.notSubscriptable ty)))

theorem answers_subscriptType (line : Nat) (hl : ql.Matches r scope tl)
    (hr : qr.Matches r scope tr) :
    Answers r scope (subscriptType line ql qr) (Covenant.subscriptType line tl tr) := by
  refine hl.alone.bind fun ty => ?_
  cases ty.keyValue? with
  | some found => exact (answers_checkElement found.1 hr).bind fun _ => answers_pure _
  | none => exact answers_plain _

/-! ## Operators -/

/-- The types of two operands. A literal operand takes its type from its partner, through
`partner`. -/
def operandTypes (partner : Ty → Ty) (left right : Expr) (l r : Asked κ) : Ask κ (Ty × Ty) :=
  if left.isLiteral && !right.isLiteral then do
    let rightTy ← r.alone
    let leftTy ← l.against (partner rightTy)
    return (leftTy, rightTy)
  else do
    let leftTy ← l.alone
    let rightTy ← r.against (partner leftTy)
    return (leftTy, rightTy)

/-- Both ways of asking, with the operand that is no literal first. -/
theorem answers_operandTypes (partner : Ty → Ty) (left right : Expr) (hl : ql.Matches r scope tl)
    (hr : qr.Matches r scope tr) :
    Answers r scope (operandTypes partner left right ql qr)
      (Covenant.operandTypes partner left right tl tr) :=
  .ite
    (hr.alone.bind fun _ => (hl.against _).bind fun _ => answers_pure _)
    (hl.alone.bind fun _ => (hr.against _).bind fun _ => answers_pure _)

/-- A comparison gives a boolean, if its operands can be compared. -/
def compareType (left : Expr) (op : CmpOp) (right : Expr) (l r : Asked κ) : Ask κ Ty :=
  match op with
  | .isIn | .notIn => do
    let ty ← r.alone
    match ty.keyValue? with
    | some (key, _) => do
      checkElement key l
      return .bool
    | none => Ask.plain (faultAt r.line (.invalidType (.noMembership ty op)))
  | .same | .notSame => Ask.plain (faultAt l.line (.unsupported (.comparison op)))
  | _ => do
    let (leftTy, rightTy) ← operandTypes id left right l r
    if leftTy ≠ rightTy then
      Ask.plain (faultAt r.line (.typeMismatch leftTy rightTy))
    else if !leftTy.isComparable then
      Ask.plain (faultAt l.line (.invalidType (.notComparable leftTy)))
    else
      return .bool

/-- Membership asks for the map first; the other comparisons ask for both operands. -/
theorem answers_compareType (left : Expr) (op : CmpOp) (right : Expr) (hl : ql.Matches r scope tl)
    (hr : qr.Matches r scope tr) :
    Answers r scope (compareType left op right ql qr)
      (Covenant.compareType left op right tl tr) := by
  cases op with
  | isIn | notIn =>
    refine hr.alone.bind fun ty => ?_
    cases ty.keyValue? with
    | some found => exact (answers_checkElement found.1 hl).bind fun _ => answers_pure _
    | none => exact hr.line ▸ answers_plain _
  | same | notSame =>
    rw [compareType, Covenant.compareType, hl.line]
    exact answers_plain _
  | _ =>
    refine (answers_operandTypes id left right hl hr).bind fun types => ?_
    rw [hl.line, hr.line]
    exact .ite (answers_plain _) (.ite (answers_plain _) (answers_pure _))

/-- An arithmetic operator. True division and powers are not part of the language. -/
def binaryType (left : Expr) (op : BinOp) (right : Expr) (l r : Asked κ) : Ask κ Ty :=
  match op with
  | .div | .pow => Ask.plain (faultAt l.line (.unsupported (.binary op)))
  | _ => do
    let (leftTy, rightTy) ← operandTypes arithmeticPartner left right l r
    match arithmeticResult? op leftTy rightTy with
    | some ty => return ty
    | none =>
      if leftTy ≠ rightTy then
        Ask.plain (faultAt r.line (.typeMismatch leftTy rightTy))
      else
        Ask.plain (faultAt l.line (.invalidType (.noArithmetic leftTy op)))

/-- Arithmetic asks for both operands and reports at the line of one of them. -/
theorem answers_binaryType (left : Expr) (op : BinOp) (right : Expr) (hl : ql.Matches r scope tl)
    (hr : qr.Matches r scope tr) :
    Answers r scope (binaryType left op right ql qr)
      (Covenant.binaryType left op right tl tr) := by
  cases op with
  | div | pow =>
    rw [binaryType, Covenant.binaryType, hl.line]
    exact answers_plain _
  | _ =>
    refine (answers_operandTypes arithmeticPartner left right hl hr).bind fun types => ?_
    rw [hl.line, hr.line]
    dsimp only
    cases arithmeticResult? _ types.1 types.2 with
    | some ty => exact answers_pure _
    | none => exact .ite (answers_plain _) (answers_plain _)

/-- An operator in front of its operand. -/
def unaryType (line : Nat) (op : UnOp) (operand : Asked κ) : Ask κ Ty := do
  let ty ← operand.alone
  match op, ty with
  | .not, .bool => return .bool
  | .not, _ => Ask.plain (faultAt line (.typeMismatch .bool ty))
  | .minus, .int | .minus, .nat => return .int
  | .minus, _ => Ask.plain (faultAt line (.invalidType (.notNegatable ty)))
  | .plus, _ | .invert, _ => Ask.plain (faultAt line (.unsupported (.unary op)))

theorem answers_unaryType (line : Nat) (op : UnOp) (h : q.Matches r scope t) :
    Answers r scope (unaryType line op q) (Covenant.unaryType line op t) := by
  refine h.alone.bind fun ty => ?_
  cases op with
  | not | minus =>
    cases ty with
    | base b => cases b <;> first | exact answers_pure _ | exact answers_plain _
    | _ => exact answers_plain _
  | plus | invert => exact answers_plain _

/-- Checks that every operand is a boolean. -/
def checkBooleans : List (Asked κ) → Ask κ Unit
  | [] => Ask.plain (.ok ())
  | operand :: rest => do
    let found ← operand.against .bool
    if found = .bool then
      checkBooleans rest
    else
      Ask.plain (faultAt operand.line (.typeMismatch .bool found))

theorem answers_checkBooleans (h : AllMatch r scope qs ts) :
    Answers r scope (checkBooleans qs) (Covenant.checkBooleans ts) := by
  induction h with
  | nil => exact answers_plain _
  | cons hfirst _ ih =>
    refine (hfirst.against .bool).bind fun found => .ite ih ?_
    exact hfirst.line ▸ answers_plain _

/-- A boolean connective of two or more operands. -/
def booleanType (line : Nat) (operands : List (Asked κ)) : Ask κ Ty :=
  if operands.length < 2 then
    Ask.plain (faultAt line (.badArgument .tooFewOperands))
  else do
    checkBooleans operands
    return .bool

theorem answers_booleanType (line : Nat) (h : AllMatch r scope qs ts) :
    Answers r scope (booleanType line qs) (Covenant.booleanType line ts) := by
  unfold booleanType Covenant.booleanType
  rw [h.length_eq]
  exact .ite (answers_plain _) ((answers_checkBooleans h).bind fun _ => answers_pure _)

/-! ## Calls -/

/-- A callee that is an expression like any other has to be a closure. -/
def ofValue (func : Expr) (ty : Ask κ Ty) : Ask κ Callee := do
  match ← ty with
  | .lambda arg result => return .closure arg result
  | _ => Ask.plain (faultAt func.line (.unsupported (.notCallable func.text)))

theorem answers_ofValue (func : Expr) {m : Ask κ Ty} {outcome : Typed Ty}
    (h : Answers r scope m outcome) :
    Answers r scope (ofValue func m) (Callee.ofValue func outcome) := by
  refine h.bind fun ty => ?_
  cases ty with
  | lambda arg result => exact answers_pure _
  | _ => exact answers_plain _

/-- What `func` denotes in a call. Its own type is asked for only if it is an expression like any
other, and the type of the receiver only if it is an attribute of a value. -/
def classify (scope : Scope) (func : Expr) (ty receiver : Ask κ Ty) : Ask κ Callee :=
  match func with
  | .attr line value field =>
    match scope.class? value with
    | some (id, cls) =>
      match cls.staticMethod? field with
      | some target => Ask.plain (.ok (.builtin field target none []))
      | none => Ask.plain (faultAt line (.noSuchAttribute id field))
    | none => do
      let receiverTy ← receiver
      match (BuiltinClass.ofTy? receiverTy).bind (·.method? field) with
      | some target => return .builtin field target (some receiverTy) []
      | none => ofValue func ty
  | .subscript _ value index =>
    match scope.class? value with
    | some (id, cls) => do
      let typeParams ← Ask.plain (TypeExpr.typeParams scope.records index)
      return .builtin id cls.constructor none typeParams
    | none => ofValue func ty
  | .name line id =>
    if scope.layout.binds id then
      ofValue func ty
    else
      Ask.plain (Callee.ofName scope.records line id)
  | _ => ofValue func ty

/-- The callee and the receiver are asked for in the same cases as in plain typing. -/
theorem answers_classify (func : Expr) {ty receiver : Ask κ Ty} {ty' receiver' : Typed Ty}
    (hty : Answers r scope ty ty') (hreceiver : Answers r scope receiver receiver') :
    Answers r scope (classify scope func ty receiver)
      (Callee.classify scope func ty' receiver') := by
  cases func with
  | attr line value field =>
    dsimp only [classify, Callee.classify]
    cases scope.class? value with
    | some cls =>
      dsimp only
      cases cls.2.staticMethod? field with
      | some | none => exact answers_plain _
    | none =>
      refine hreceiver.bind fun receiverTy => ?_
      cases (BuiltinClass.ofTy? receiverTy).bind (·.method? field) with
      | some target => exact answers_pure _
      | none => exact answers_ofValue _ hty
  | subscript line value index =>
    dsimp only [classify, Callee.classify]
    cases scope.class? value with
    | some cls => exact (answers_plain _).bind fun _ => answers_pure _
    | none => exact answers_ofValue _ hty
  | name line id => exact .ite (answers_ofValue _ hty) (answers_plain _)
  | _ => exact answers_ofValue _ hty

/-- The types of several expressions where nothing is expected. -/
def aloneTypes : List (Asked κ) → Ask κ (List Ty)
  | [] => Ask.plain (.ok [])
  | q :: rest => do
    let ty ← q.alone
    return ty :: (← aloneTypes rest)

theorem answers_aloneTypes (h : AllMatch r scope qs ts) :
    Answers r scope (aloneTypes qs) (Covenant.aloneTypes ts) := by
  induction h with
  | nil => exact answers_plain _
  | cons hfirst _ ih => exact hfirst.alone.bind fun _ => ih.bind fun _ => answers_pure _

/-- The signature of a call of a built-in at a line. Values are asked for only if the built-in takes
values. -/
def builtinSignature (records : Records) (line : Nat) (target : Builtin) (receiver : Option Ty)
    (typeParams : List Ty) (args : List Expr) (values : Ask κ (List Ty)) (expected : Option Ty) :
    Ask κ Signature := do
  let args ← match target.argumentKind with
    | .values => values
    | .types => Ask.plain (TypeExpr.types records args)
    | .literals => Ask.plain (.ok [])
  Ask.plain (atLine line (target.signature ⟨receiver, typeParams, args, expected⟩))

/-- The arguments are asked for only if they are values. -/
theorem answers_builtinSignature (records : Records) (line : Nat) (target : Builtin)
    (receiver : Option Ty) (typeParams : List Ty) (args : List Expr)
    (h : Answers r scope values values') (expected : Option Ty) :
    Answers r scope (builtinSignature records line target receiver typeParams args values expected)
      (Covenant.builtinSignature records line target receiver typeParams args values'
        expected) := by
  unfold builtinSignature Covenant.builtinSignature argumentTypes
  cases target.argumentKind with
  | values => exact h.bind fun _ => answers_plain _
  | types | literals => exact (answers_plain _).bind fun _ => answers_plain _

/-- The result type of a call. -/
def calleeResult (records : Records) (line : Nat) (args : List Expr) (values : Ask κ (List Ty))
    (expected : Option Ty) : Callee → Ask κ Ty
  | .record name fields => Ask.plain (.ok (.record name fields))
  | .closure _ result => Ask.plain (.ok result)
  | .builtin _ target receiver typeParams => do
    let signature ← builtinSignature records line target receiver typeParams args values expected
    return signature.result

/-- The type of a call, from what it calls and the questions about its arguments. -/
def callType (records : Records) (line : Nat) (callee : Ask κ Callee) (args : List Expr)
    (values : Ask κ (List Ty)) (expected : Option Ty) : Ask κ Ty := do
  let ty ← calleeResult records line args values expected (← callee)
  Ask.plain (settledResult line expected ty)

theorem answers_calleeResult (records : Records) (line : Nat) (args : List Expr)
    (h : Answers r scope values values') (expected : Option Ty) (callee : Callee) :
    Answers r scope (calleeResult records line args values expected callee)
      (Covenant.calleeResult records line args values' expected callee) := by
  cases callee with
  | record | closure => exact answers_plain _
  | builtin name target receiver typeParams =>
    exact (answers_builtinSignature records line target receiver typeParams args h expected).bind
      fun _ => answers_pure _

/-! ## The typing of an expression -/

variable [DecidableEq κ]

mutual

/-- Asks for an expression, which is stored at the given addresses. -/
def asked (scope : Scope) : Expr → Addresses κ → Asked κ
  | .name line id, a => .of scope (.name line id) a fun _ =>
    Ask.plain (atLine line (nameType scope id))
  | .literal line value, a => .of scope (.literal line value) a fun expected =>
    Ask.plain (atLine line (literalType value expected))
  | .list line items, a => .of scope (.list line items) a
    (listType (askeds scope items (a.part .first)))
  | .tuple line items, a => .of scope (.tuple line items) a fun _ =>
    Ask.plain (faultAt line (.unsupported .tuple))
  | .dict line entries, a => .of scope (.dict line entries) a
    (dictType (entryAskeds scope entries (a.part .first)))
  | .attr line value field, a => .of scope (.attr line value field) a fun _ =>
    attributeType scope line value field (asked scope value (a.part .first))
  | .subscript line value index, a => .of scope (.subscript line value index) a fun _ =>
    subscriptType line (asked scope value (a.part .first)) (asked scope index (a.part .second))
  | .call line func args keywords, a => .of scope (.call line func args keywords) a fun expected =>
    let func' := (asked scope func (a.part .first)).alone
    let receiver := match func with
      | .attr _ value _ => (asked scope value ((a.part .first).part .first)).alone
      | _ => func'
    callType scope.records line (classify scope func func' receiver) args
      (aloneTypes (askeds scope args (a.part .second))) expected
  | .compare line left [(op, right)], a => .of scope (.compare line left [(op, right)]) a fun _ =>
    compareType left op right (asked scope left (a.part .first))
      (asked scope right (a.part .second))
  | .compare line left rest, a => .of scope (.compare line left rest) a fun _ =>
    Ask.plain (faultAt line (.unsupported .chainedComparison))
  | .binary line left op right, a => .of scope (.binary line left op right) a fun _ =>
    binaryType left op right (asked scope left (a.part .first)) (asked scope right (a.part .second))
  | .unary line op operand, a => .of scope (.unary line op operand) a fun _ =>
    unaryType line op (asked scope operand (a.part .first))
  | .boolean line op operands, a => .of scope (.boolean line op operands) a fun _ =>
    booleanType line (askeds scope operands (a.part .first))

/-- Asks for several expressions. -/
def askeds (scope : Scope) : List Expr → Addresses κ → List (Asked κ)
  | [], _ => []
  | e :: es, a => asked scope e (a.part .first) :: askeds scope es (a.part .second)

/-- Asks for the keys and values of a map literal. -/
def entryAskeds (scope : Scope) : List (Expr × Expr) → Addresses κ → List (Asked κ × Asked κ)
  | [], _ => []
  | (key, value) :: rest, a =>
    (asked scope key (a.part .first), asked scope value (a.part .second)) ::
      entryAskeds scope rest (a.part .third)

end

/-! ## The memory gives the answers of plain typing -/

/-- Every expression inside a node may be asked for. -/
def Placed (r : Region κ) (a : Addresses κ) (n : Node) : Prop :=
  ∀ ⦃key e⦄, a.Stores n key e → r.live key e

omit [DecidableEq κ] in
theorem Placed.part {n n' : Node} (h : Placed r a n) (edge : Edge)
    (hpart : n.part? edge = some n') : Placed r (a.part edge) n' :=
  fun _ _ hstores => h (hstores.of_part hpart)

omit [DecidableEq κ] in
theorem Placed.own {e : Expr} (h : Placed r a (.expr e)) : r.live a.own e :=
  h ⟨[], rfl, rfl⟩

omit [DecidableEq κ] in
/-- Without an expected element type the first element is asked for twice. -/
theorem answers_byFirst_list (h : AllMatch r scope qs ts) (line : Nat) :
    Answers r scope (listType qs none) (listTyping line ts).alone := by
  cases h with
  | nil => exact answers_listOf .nil _
  | cons hfirst hrest =>
    exact hfirst.alone.bind fun element => answers_listOf (.cons hfirst hrest) element

/-- A list literal: what is expected counts only if it is a list. -/
theorem matches_list {items : List Expr} (hlive : r.live a.own (.list line items))
    (h : AllMatch r scope qs (typings scope items)) :
    (Asked.of scope (.list line items) a (listType qs)).Matches r scope
      (typing scope (.list line items)) := by
  refine Asked.matches_of hlive (by rw [typing]; unfold listTyping; rfl) fun expected => ?_
  cases expected with
  | none => exact answers_byFirst_list h line
  | some want =>
    cases want with
    | list element => exact answers_listOf h element
    | _ => exact answers_byFirst_list h line

omit [DecidableEq κ] in
theorem answers_byFirst_dict (h : EntriesMatch r scope pairs pairs') (line : Nat) :
    Answers r scope (dictType pairs none) (dictTyping line pairs').alone := by
  cases h with
  | nil => exact answers_mapOf .nil _ _ _
  | cons hfirst hrest =>
    exact hfirst.1.alone.bind fun key => hfirst.2.alone.bind fun value =>
      answers_mapOf (.cons hfirst hrest) false key value

/-- A map literal: what is expected counts only if it is a map. -/
theorem matches_dict {entries : List (Expr × Expr)} (hlive : r.live a.own (.dict line entries))
    (h : EntriesMatch r scope pairs (entryTypings scope entries)) :
    (Asked.of scope (.dict line entries) a (dictType pairs)).Matches r scope
      (typing scope (.dict line entries)) := by
  refine Asked.matches_of hlive (by rw [typing]; unfold dictTyping; rfl) fun expected => ?_
  cases expected with
  | none => exact answers_byFirst_dict h line
  | some want =>
    cases want with
    | map big key value => exact answers_mapOf h big key value
    | _ => exact answers_byFirst_dict h line

/-- A call: the callee is asked for before the arguments. -/
theorem matches_call {func : Expr} {args : List Expr} {keywords : List (Ident × Expr)}
    (hlive : r.live a.own (.call line func args keywords)) {callee : Ask κ Callee}
    (hcallee : Answers r scope callee (calleeOf scope func))
    (hargs : AllMatch r scope qs (typings scope args)) :
    (Asked.of scope (.call line func args keywords) a
      (callType scope.records line callee args (aloneTypes qs))).Matches r scope
      (typing scope (.call line func args keywords)) := by
  refine Asked.matches_of hlive (by rw [typing_call, callTyping]; rfl) fun expected => ?_
  exact hcallee.bind fun found =>
    (answers_calleeResult scope.records line args (answers_aloneTypes hargs) expected found).bind
      fun _ => answers_plain _

mutual

/-- Questions about an expression, all of whose parts may be asked for, get the answers of its
typing. -/
theorem matches_asked : ∀ (e : Expr) {a : Addresses κ}, Placed r a (.expr e) →
    (asked scope e a).Matches r scope (typing scope e)
  | .name line id, a, h | .literal line value, a, h | .tuple line items, a, h => by
    rw [asked]
    exact Asked.matches_of h.own (by rw [typing]; rfl) fun _ => answers_plain _
  | .list line items, a, h => by
    rw [asked]
    exact matches_list h.own (matches_askeds items (h.part .first rfl))
  | .dict line entries, a, h => by
    rw [asked]
    exact matches_dict h.own (matches_entryAskeds entries (h.part .first rfl))
  | .attr line value field, a, h => by
    have hvalue := matches_asked value (h.part .first rfl)
    rw [asked]
    exact Asked.matches_of h.own (by rw [typing]; rfl) fun _ =>
      answers_attributeType line value field hvalue
  | .subscript line value index, a, h => by
    have hvalue := matches_asked value (h.part .first rfl)
    have hindex := matches_asked index (h.part .second rfl)
    rw [asked]
    exact Asked.matches_of h.own (by rw [typing]; rfl) fun _ =>
      answers_subscriptType line hvalue hindex
  | .call line func args keywords, a, h => by
    have hfunc := matches_asked func (h.part .first rfl)
    have hargs := matches_askeds args (h.part .second rfl)
    rw [asked]
    refine matches_call h.own ?_ hargs
    -- Only the callee of a method call is asked for its receiver.
    cases func with
    | attr funcLine value field =>
      have hvalue := matches_asked value ((h.part .first rfl).part .first rfl)
      exact answers_classify _ hfunc.alone hvalue.alone
    | _ => exact answers_classify _ hfunc.alone hfunc.alone
  | .compare line left rest, a, h => by
    match rest, h with
    | [], h | _ :: _ :: _, h =>
      simp only [asked]
      exact Asked.matches_of h.own (by simp only [typing]; rfl) fun _ => answers_plain _
    | [(op, right)], h =>
      have hleft := matches_asked left (h.part .first rfl)
      have hright := matches_asked right (h.part .second rfl)
      rw [asked]
      exact Asked.matches_of h.own (by rw [typing]; rfl) fun _ =>
        answers_compareType left op right hleft hright
  | .binary line left op right, a, h => by
    have hleft := matches_asked left (h.part .first rfl)
    have hright := matches_asked right (h.part .second rfl)
    rw [asked]
    exact Asked.matches_of h.own (by rw [typing]; rfl) fun _ =>
      answers_binaryType left op right hleft hright
  | .unary line op operand, a, h => by
    have hoperand := matches_asked operand (h.part .first rfl)
    rw [asked]
    exact Asked.matches_of h.own (by rw [typing]; rfl) fun _ => answers_unaryType line op hoperand
  | .boolean line op operands, a, h => by
    have hoperands := matches_askeds operands (h.part .first rfl)
    rw [asked]
    exact Asked.matches_of h.own (by rw [typing]; rfl) fun _ => answers_booleanType line hoperands

theorem matches_askeds : ∀ (es : List Expr) {a : Addresses κ}, Placed r a (.exprs es) →
    AllMatch r scope (askeds scope es a) (typings scope es)
  | [], _, _ => by
    rw [askeds, typings]
    exact .nil
  | e :: es, a, h => by
    rw [askeds, typings]
    exact .cons (matches_asked e (h.part .first rfl)) (matches_askeds es (h.part .second rfl))

theorem matches_entryAskeds : ∀ (es : List (Expr × Expr)) {a : Addresses κ},
    Placed r a (.entries es) →
    EntriesMatch r scope (entryAskeds scope es a) (entryTypings scope es)
  | [], _, _ => by
    rw [entryAskeds, entryTypings]
    exact .nil
  | (key, value) :: rest, a, h => by
    rw [entryAskeds, entryTypings]
    exact .cons ⟨matches_asked key (h.part .first rfl), matches_asked value (h.part .second rfl)⟩
      (matches_entryAskeds rest (h.part .third rfl))

end

/-- Asks what the callee of a call denotes. -/
def calleeOf (scope : Scope) (func : Expr) (a : Addresses κ) : Ask κ Callee :=
  let receiver := match func with
    | .attr _ value _ => (asked scope value (a.part .first)).alone
    | _ => (asked scope func a).alone
  classify scope func (asked scope func a).alone receiver

theorem answers_calleeOf {func : Expr} (h : Placed r a (.expr func)) :
    Answers r scope (calleeOf scope func a) (Covenant.calleeOf scope func) := by
  have hfunc : Answers r scope _ _ := (matches_asked func h).alone
  cases func with
  | attr line value field =>
    exact answers_classify _ hfunc (matches_asked value (h.part .first rfl)).alone
  | _ => exact answers_classify _ hfunc hfunc

end Cached

end Covenant
