import Covenant.Proofs.Lockstep
import Covenant.Proofs.Renaming.Layout
import Covenant.Proofs.Typing.Clean
import Mathlib.Data.List.Forall2

/-!
# Covenant — typings of translated expressions

A `Translation` gives the variables of a program other names and its nodes other lines. A translated
expression in a translated scope has the type the expression had, or is refused at the new line of
the node that was at fault (`agrees_typing`). Since an error quotes names, the cause is the same
only if no name has been changed (`Renaming.Same`).
-/

namespace Covenant

open Typing

namespace Renaming

variable (ρ : Renaming) {α β : Type}

/-- The same thing, provided that no name is changed. -/
def Same (a a' : α) : Prop := ρ.map = id → a' = a

/-- The same cause, provided that no name is changed, and one that typing gives. -/
def Blames (cause cause' : Cause) : Prop := ρ.Same cause cause' ∧ cause.beyondTyping = false

/-- Both outcomes are the same result, or both are errors. -/
abbrev Agrees : Except Cause α → Except Cause α → Prop := Lockstep ρ.Blames Eq

variable {ρ}

theorem Same.rfl {a : α} : ρ.Same a a := fun _ => Eq.refl a

theorem Same.map {a a' : α} (h : ρ.Same a a') (f : α → β) : ρ.Same (f a) (f a') :=
  fun hid => congrArg f (h hid)

theorem same_name (id : Ident) : ρ.Same id (ρ id) := fun hid => congrFun hid id

theorem same_context (context : Context) : ρ.Same context (context.mapNames ρ) := fun hid => by
  rw [hid, Context.mapNames_id]

theorem agrees_self {x : Except Cause α} (h : Blameless x) : ρ.Agrees x x := by
  cases x with
  | ok a => exact .ok rfl
  | error cause => exact .error ⟨.rfl, h⟩

end Renaming

/-! ## Translations -/

/-- Other names for variables and other lines, for a program that is compiled a second time. -/
structure Translation extends Renaming where
  lines : Relabelling
  /-- Whether the second time is with notes. -/
  traced : Bool
  /-- Whether the first time is as well, so that notes are compared too. -/
  keep : Bool
  /-- Whether errors are asked to have lines. -/
  strict : Prop
  map_of_keep : keep = true → map = id

namespace Translation

instance : CoeFun Translation fun _ => Ident → Ident := ⟨fun τ => τ.map⟩

instance : Coe Translation Renaming := ⟨toRenaming⟩

variable (τ : Translation) {α β : Type} {R : α → β → Prop}

/-- The same cause up to names, found at a line and at the line that this one becomes. -/
def Moves (e e' : CompileError) : Prop :=
  ∃ cause cause' line, e = .located cause line ∧ e' = .located cause' (τ.lines line) ∧
    τ.Blames cause cause'

/-- Both outcomes are the same result, or both are errors at corresponding lines. -/
abbrev Agrees : Typed α → Typed α → Prop := Lockstep τ.Moves Eq

variable {τ}

theorem agrees_faultAt (line : Nat) {cause cause' : Cause} (h : τ.Same cause cause')
    (hcause : cause.beyondTyping = false) :
    Lockstep τ.Moves R (faultAt line cause) (faultAt (τ.lines line) cause') :=
  .error ⟨cause, cause', line, rfl, rfl, h, hcause⟩

theorem agrees_faultAt_zero {cause cause' : Cause} (h : τ.Same cause cause')
    (hcause : cause.beyondTyping = false) :
    Lockstep τ.Moves R (faultAt 0 cause) (faultAt 0 cause') := by
  have hfault : Lockstep τ.Moves R (faultAt 0 cause) _ := agrees_faultAt 0 h hcause
  rwa [τ.lines.map_zero] at hfault

/-- The same cause, which quotes no names. -/
theorem agrees_fault {line : Nat} {cause : Cause} (hcause : cause.beyondTyping = false) :
    Lockstep τ.Moves R (faultAt line cause) (faultAt (τ.lines line) cause) :=
  agrees_faultAt line .rfl hcause

theorem agrees_atLine (line : Nat) {x x' : Except Cause α} (h : τ.toRenaming.Agrees x x') :
    τ.Agrees (atLine line x) (atLine (τ.lines line) x') := by
  cases h with
  | ok h => exact .ok h
  | error h => exact agrees_faultAt line h.1 h.2

end Translation

open Renaming Translation

namespace Expr

/-- The expression with other names and lines. -/
def under (τ : Translation) (e : Expr) : Expr := e.relabel τ id τ.lines

/-- The expression with other names and lines, if there is one. -/
def underOption (τ : Translation) (e : Option Expr) : Option Expr :=
  e.map (under τ)

def underAll (τ : Translation) (es : List Expr) : List Expr :=
  relabelAll τ id τ.lines es

def underEntries (τ : Translation) (entries : List (Expr × Expr)) : List (Expr × Expr) :=
  relabelEntries τ id τ.lines entries

def underKeywords (τ : Translation) (keywords : List (Ident × Expr)) : List (Ident × Expr) :=
  relabelKeywords τ id τ.lines keywords

variable (τ : Translation) (e : Expr)

@[simp] theorem line_under : (e.under τ).line = τ.lines e.line :=
  e.line_relabel τ id τ.lines

@[simp] theorem isLiteral_under : (e.under τ).isLiteral = e.isLiteral :=
  e.isLiteral_relabel τ id τ.lines

@[simp] theorem integer?_under : (e.under τ).integer? = e.integer? :=
  e.integer?_relabel τ id τ.lines

@[simp] theorem name?_under : (e.under τ).name? = e.name?.map τ :=
  e.name?_relabel τ id τ.lines

theorem underAll_eq_map (es : List Expr) : underAll τ es = es.map (under τ) :=
  relabelAll_eq_map τ id τ.lines es

/-- Lines are not printed, and names are. -/
theorem same_text : τ.Same e.text (e.under τ).text := fun hid => by
  rw [under, hid, text_relabel]

theorem isStorage_under : (e.under τ).isStorage = e.isStorage := by
  cases e with
  | attr line value field =>
    cases value with
    | name line' root =>
      have hself : Spares τ "self" := τ.spares_reserved (by decide)
      have hroot : (τ root == "self") = (root == "self") := by
        rw [Bool.eq_iff_iff, beq_iff_eq, beq_iff_eq, hself root]
      simp only [under, relabel, isStorage, hroot, id]
    | _ => rfl
  | _ => rfl

end Expr

/-! ## Names -/

/-- The scope with other names for its variables. -/
def Scope.mapNames (f : Ident → Ident) (scope : Scope) : Scope :=
  ⟨scope.records, scope.layout.mapNames f⟩

variable {τ : Translation} {scope : Scope}

theorem Scope.class?_under (τ : Translation) (scope : Scope) (e : Expr) :
    (scope.mapNames τ).class? (e.under τ) = scope.class? e := by
  cases e with
  | name line id =>
    simp only [Expr.under, Expr.relabel, class?, mapNames, Layout.binds_mapNames, τ.ofName?_eq]
    cases hclass : BuiltinClass.ofName? id with
    | none => rfl
    | some cls => rw [τ.eq_of_isName (by simp [Builtin.isName, hclass])]
  | _ => rfl

theorem agrees_storageType (τ : Translation) (scope : Scope) :
    τ.Agrees scope.storageType (scope.mapNames τ).storageType := by
  have hty := Layout.ty?_mapNames τ scope.layout Layout.storageName
  rw [τ.storageName_eq] at hty
  simp only [Scope.storageType, Scope.mapNames, hty]
  cases scope.layout.ty? Layout.storageName with
  | some ty => exact .ok rfl
  | none =>
    exact agrees_faultAt_zero ((same_context scope.layout.context).map Cause.invalidStatement) rfl

theorem agrees_nameType (hrecords : τ.FixesRecords scope.records) (id : Ident) :
    τ.toRenaming.Agrees (nameType scope id) (nameType (scope.mapNames τ) (τ id)) := by
  simp only [nameType, Scope.mapNames, Layout.ty?_mapNames, τ.constant?_eq, τ.isName_eq,
    hrecords.contains]
  cases scope.layout.ty? id with
  | some ty => exact .ok rfl
  | none =>
    cases Builtin.constant? id with
    | some found => exact .ok rfl
    | none =>
      exact .ite (.error ⟨(same_name id).map fun id => Cause.unsupported (.notAValue id), rfl⟩)
        (.error ⟨(same_name id).map Cause.notDefined, rfl⟩)

/-! ## Typings -/

/-- Two typings give the same types, or refuse at corresponding lines. -/
structure Typing.Agrees (τ : Translation) (t t' : Typing) : Prop where
  line : t'.line = τ.lines t.line
  alone : τ.Agrees t.alone t'.alone
  against : ∀ want, τ.Agrees (t.against want) (t'.against want)

namespace Typing

variable {t t' : Typing}

theorem Agrees.expecting (h : t.Agrees τ t') (expected : Option Ty) :
    τ.Agrees (t.expecting expected) (t'.expecting expected) := by
  cases expected with
  | none => exact h.alone
  | some want => exact h.against want

theorem agrees_adopt (want : Ty) {result result' : Typed Ty} (h : τ.Agrees result result') :
    τ.Agrees (adopt want result) (adopt want result') :=
  h.andThen fun _ => .ok rfl

theorem agrees_fixed (line : Nat) {result result' : Typed Ty} (h : τ.Agrees result result') :
    (fixed line result).Agrees τ (fixed (τ.lines line) result') :=
  ⟨rfl, h, fun want => agrees_adopt want h⟩

theorem agrees_ofExpected (line : Nat) {infer infer' : Option Ty → Typed Ty}
    (h : ∀ expected, τ.Agrees (infer expected) (infer' expected)) :
    (ofExpected line infer).Agrees τ (ofExpected (τ.lines line) infer') :=
  ⟨rfl, h none, fun want => agrees_adopt want (h (some want))⟩

end Typing

/-- The typings of keys agree, and so do those of values. -/
def EntriesAgree (τ : Translation) : List (Typing × Typing) → List (Typing × Typing) → Prop :=
  List.Forall₂ fun e e' => e.1.Agrees τ e'.1 ∧ e.2.Agrees τ e'.2

/-- Typings that stand in the same place agree. -/
def TypingsAgree (τ : Translation) : List Typing → List Typing → Prop :=
  List.Forall₂ (Agrees τ)

section

variable {t t' l l' r r' : Typing} {ts ts' : List Typing}
  {entries entries' : List (Typing × Typing)}

theorem agrees_checkElement (want : Ty) (h : t.Agrees τ t') :
    τ.Agrees (checkElement want t) (checkElement want t') := by
  refine (h.against want).andThen fun found => ?_
  rw [h.line]
  exact .ite (.ok rfl) (agrees_fault rfl)

theorem agrees_checkElements (want : Ty) (h : TypingsAgree τ ts ts') :
    τ.Agrees (checkElements want ts) (checkElements want ts') := by
  induction h with
  | nil => exact .ok rfl
  | cons hitem _ ih => exact (agrees_checkElement want hitem).andThen fun _ => ih

theorem agrees_checkEntries (key value : Ty) (h : EntriesAgree τ entries entries') :
    τ.Agrees (checkEntries key value entries) (checkEntries key value entries') := by
  induction h with
  | nil => exact .ok rfl
  | cons hentry _ ih =>
    exact (agrees_checkElement key hentry.1).andThen fun _ =>
      (agrees_checkElement value hentry.2).andThen fun _ => ih

theorem agrees_listTyping (line : Nat) (h : TypingsAgree τ ts ts') :
    (listTyping line ts).Agrees τ (listTyping (τ.lines line) ts') := by
  have hlist (element : Ty) : τ.Agrees (listOf ts element) (listOf ts' element) :=
    (agrees_checkElements element h).andThen fun _ => .ok rfl
  unfold listTyping
  refine agrees_ofExpected line fun expected => ?_
  split
  · exact hlist _
  · cases h with
    | nil => exact hlist .unknown
    | cons hitem _ => exact hitem.alone.andThen hlist

theorem agrees_dictTyping (line : Nat) (h : EntriesAgree τ entries entries') :
    (dictTyping line entries).Agrees τ (dictTyping (τ.lines line) entries') := by
  have hmap (big : Bool) (key value : Ty) :
      τ.Agrees (mapOf entries big key value) (mapOf entries' big key value) :=
    (agrees_checkEntries key value h).andThen fun _ => .ok rfl
  unfold dictTyping
  refine agrees_ofExpected line fun expected => ?_
  split
  · exact hmap _ _ _
  · cases h with
    | nil => exact hmap _ _ _
    | cons hentry _ =>
      exact hentry.1.alone.andThen fun key => hentry.2.alone.andThen fun value =>
        hmap false key value

theorem agrees_attributeType (line : Nat) (value : Expr) (field : Ident) (h : t.Agrees τ t') :
    τ.Agrees (attributeType scope line value field t)
      (attributeType (scope.mapNames τ) (τ.lines line) (value.under τ) field t') := by
  have hstorage := Expr.isStorage_under τ (.attr line value field)
  have htext : τ.Same _ _ := Expr.same_text τ (.attr line value field)
  change (Expr.attr (τ.lines line) (value.under τ) field).isStorage = _ at hstorage
  have hcalled : τ.Agrees _ _ := agrees_faultAt (R := @Eq Ty) line
    (htext.map fun text => Cause.unsupported (.mustBeCalled text)) rfl
  simp only [attributeType, hstorage, Scope.class?_under]
  refine .ite (agrees_storageType τ scope) ?_
  cases scope.class? value with
  | some found => exact .ite hcalled (agrees_fault rfl)
  | none =>
    refine h.alone.andThen fun ty => ?_
    split
    · split
      · exact .ok rfl
      · exact agrees_fault rfl
    · exact .ite hcalled (agrees_fault rfl)

theorem agrees_subscriptType (line : Nat) (hvalue : t.Agrees τ t') (hindex : l.Agrees τ l') :
    τ.Agrees (subscriptType line t l) (subscriptType (τ.lines line) t' l') := by
  refine hvalue.alone.andThen fun ty => ?_
  cases ty.keyValue? with
  | none => exact agrees_fault rfl
  | some found => exact (agrees_checkElement _ hindex).andThen fun _ => .ok rfl

theorem agrees_operandTypes (partner : Ty → Ty) (left right : Expr) (hl : l.Agrees τ l')
    (hr : r.Agrees τ r') :
    τ.Agrees (operandTypes partner left right l r)
      (operandTypes partner (left.under τ) (right.under τ) l' r') := by
  rw [operandTypes, operandTypes, Expr.isLiteral_under, Expr.isLiteral_under]
  exact .ite (hr.alone.andThen fun _ => (hl.against _).andThen fun _ => .ok rfl)
    (hl.alone.andThen fun _ => (hr.against _).andThen fun _ => .ok rfl)

theorem agrees_compareType (left : Expr) (op : CmpOp) (right : Expr) (hl : l.Agrees τ l')
    (hr : r.Agrees τ r') :
    τ.Agrees (compareType left op right l r)
      (compareType (left.under τ) op (right.under τ) l' r') := by
  have htypes := agrees_operandTypes id left right hl hr
  unfold compareType
  cases op with
  | isIn | notIn =>
    refine hr.alone.andThen fun ty => ?_
    cases ty.keyValue? with
    | none =>
      rw [hr.line]
      exact agrees_fault rfl
    | some found => exact (agrees_checkElement _ hl).andThen fun _ => .ok rfl
  | same | notSame =>
    rw [hl.line]
    exact agrees_fault rfl
  | _ =>
    refine htypes.andThen fun types => ?_
    rw [hl.line, hr.line]
    exact .ite (agrees_fault rfl) (.ite (agrees_fault rfl) (.ok rfl))

theorem agrees_binaryType (left : Expr) (op : BinOp) (right : Expr) (hl : l.Agrees τ l')
    (hr : r.Agrees τ r') :
    τ.Agrees (binaryType left op right l r)
      (binaryType (left.under τ) op (right.under τ) l' r') := by
  have htypes := agrees_operandTypes arithmeticPartner left right hl hr
  unfold binaryType
  rw [hl.line, hr.line]
  split
  · exact agrees_fault rfl
  · exact agrees_fault rfl
  · refine htypes.andThen fun ⟨leftTy, rightTy⟩ => ?_
    dsimp only
    cases arithmeticResult? op leftTy rightTy with
    | some ty => exact .ok rfl
    | none => exact .ite (agrees_fault rfl) (agrees_fault rfl)

theorem agrees_unaryType (line : Nat) (op : UnOp) (h : t.Agrees τ t') :
    τ.Agrees (unaryType line op t) (unaryType (τ.lines line) op t') := by
  refine h.alone.andThen fun ty => ?_
  split <;> first | exact .ok rfl | exact agrees_fault rfl

theorem agrees_checkBooleans (h : TypingsAgree τ ts ts') :
    τ.Agrees (checkBooleans ts) (checkBooleans ts') := by
  induction h with
  | nil => exact .ok rfl
  | cons hoperand _ ih =>
    refine (hoperand.against .bool).andThen fun found => ?_
    rw [hoperand.line]
    exact .ite ih (agrees_fault rfl)

theorem agrees_booleanType (line : Nat) (h : TypingsAgree τ ts ts') :
    τ.Agrees (booleanType line ts) (booleanType (τ.lines line) ts') := by
  rw [booleanType, booleanType, h.length_eq]
  exact .ite (agrees_fault rfl) ((agrees_checkBooleans h).andThen fun _ => .ok rfl)

end

/-! ## Annotations -/

namespace TypeExpr

variable {records : Records} {α : Type}

theorem agrees_named (hrecords : τ.FixesRecords records) (id : Ident) :
    τ.toRenaming.Agrees (named records id) (named records (τ id)) := by
  rw [named, named, τ.base?_eq, hrecords.get?]
  cases base? id with
  | some b => exact .ok rfl
  | none =>
    cases hget : records.get? id with
    | some fields =>
      have hfixed := hrecords id (by rw [Table.contains, hget]; rfl)
      rw [hfixed]
      exact .ok rfl
    | none => exact .error ⟨(same_name id).map Cause.notDefined, rfl⟩

theorem agrees_notAType (e : Expr) :
    τ.toRenaming.Agrees (.error (notAType e) : Except Cause α) (.error (notAType (e.under τ))) :=
  .error ⟨(Expr.same_text τ e).map fun text => Cause.unsupported (.notAType text), rfl⟩

theorem agrees_notDefined (id : Ident) :
    τ.toRenaming.Agrees (.error (.notDefined id) : Except Cause α) (.error (.notDefined (τ id))) :=
  .error ⟨(same_name id).map Cause.notDefined, rfl⟩

theorem agrees_wrongArity (id : Ident) (former : Former) (found : Nat) :
    τ.toRenaming.Agrees (.error (wrongArity id former found) : Except Cause α)
      (.error (wrongArity (τ id) former found)) :=
  .error ⟨(same_name id).map (wrongArity · former found), rfl⟩

/-- A former applied to a single parameter. -/
theorem agrees_former (id : Ident) {param param' : Except Cause Ty}
    (h : τ.toRenaming.Agrees param param') :
    τ.toRenaming.Agrees
      (match former? id with
        | none => .error (.notDefined id)
        | some (.unary make) => do return make (← param)
        | some former => .error (wrongArity id former 1))
      (match former? (τ id) with
        | none => .error (.notDefined (τ id))
        | some (.unary make) => do return make (← param')
        | some former => .error (wrongArity (τ id) former 1)) := by
  rw [τ.former?_eq]
  cases former? id with
  | none => exact agrees_notDefined id
  | some former =>
    cases former with
    | unary make => exact h.andThen fun _ => .ok rfl
    | binary | callable => exact agrees_wrongArity id _ 1

mutual

/-- What an annotation denotes is no matter of lines. -/
theorem agrees_resolve (hrecords : τ.FixesRecords records) :
    ∀ e : Expr, τ.toRenaming.Agrees (resolve records e) (resolve records (e.under τ))
  | .name _ id => agrees_named hrecords id
  | .literal _ value => by
    cases value with
    | none => exact .ok rfl
    | _ => exact agrees_notAType (.literal _ _)
  | .subscript line value index => by
    cases value with
    | name line' id =>
      have hindex := agrees_resolve hrecords index
      cases index with
      | tuple line'' params =>
        simp only [Expr.under, Expr.relabel, resolve, τ.former?_eq]
        cases former? id with
        | none => exact agrees_notDefined id
        | some former => exact agrees_resolveParams hrecords id former params
      | _ => exact agrees_former id hindex
    | _ => exact agrees_notAType (.subscript line _ index)
  | .list .. | .tuple .. | .dict .. | .attr .. | .call .. | .compare .. | .binary .. | .unary ..
  | .boolean .. => agrees_notAType _

theorem agrees_resolveParams (hrecords : τ.FixesRecords records) (name : Ident) (former : Former) :
    ∀ params : List Expr, τ.toRenaming.Agrees (resolveParams records name former params)
      (resolveParams records (τ name) former (Expr.underAll τ params))
  | [] => agrees_wrongArity name former 0
  | [a] => by
    cases former with
    | unary make => exact (agrees_resolve hrecords a).andThen fun _ => .ok rfl
    | _ => exact agrees_wrongArity name _ 1
  | [a, b] => by
    cases former with
    | unary make => exact agrees_wrongArity name _ 2
    | binary make =>
      exact (agrees_resolve hrecords a).andThen fun _ =>
        (agrees_resolve hrecords b).andThen fun _ => .ok rfl
    | callable =>
      exact (agrees_resolveArgument hrecords a).andThen fun _ =>
        (agrees_resolve hrecords b).andThen fun _ => .ok rfl
  | a :: b :: c :: rest => by
    simp only [Expr.underAll_eq_map, List.map_cons, resolveParams, List.length_cons,
      List.length_map]
    exact agrees_wrongArity name former _

theorem agrees_resolveArgument (hrecords : τ.FixesRecords records) :
    ∀ e : Expr,
      τ.toRenaming.Agrees (resolveArgument records e) (resolveArgument records (e.under τ))
  | .list _ [arg] => agrees_resolve hrecords arg
  | .list _ [] | .list _ (_ :: _ :: _) => .error ⟨.rfl, rfl⟩
  | .name .. | .literal .. | .subscript .. | .tuple .. | .dict .. | .attr .. | .call ..
  | .compare .. | .binary .. | .unary .. | .boolean .. => agrees_notAType _

end

theorem agrees_type (hrecords : τ.FixesRecords records) (e : Expr) :
    τ.Agrees (type records e) (type records (e.under τ)) := by
  rw [type, type, Expr.line_under]
  exact agrees_atLine e.line (agrees_resolve hrecords e)

theorem agrees_types (hrecords : τ.FixesRecords records) (es : List Expr) :
    τ.Agrees (types records es) (types records (Expr.underAll τ es)) := by
  induction es with
  | nil => exact .ok rfl
  | cons e es ih => exact (agrees_type hrecords e).andThen fun _ => ih.andThen fun _ => .ok rfl

theorem agrees_typeParams (hrecords : τ.FixesRecords records) (e : Expr) :
    τ.Agrees (typeParams records e) (typeParams records (e.under τ)) := by
  have hsingle : τ.Agrees (type records e) _ := agrees_type hrecords e
  cases e with
  | tuple line params => exact agrees_types hrecords params
  | _ => exact hsingle.andThen fun _ => .ok rfl

end TypeExpr

/-! ## Calls -/

namespace Callee

theorem agrees_ofValue (func : Expr) {ty ty' : Typed Ty} (h : τ.Agrees ty ty') :
    τ.Agrees (ofValue func ty) (ofValue (func.under τ) ty') := by
  refine h.andThen fun found => ?_
  rw [Expr.line_under]
  split
  · exact .ok rfl
  · exact agrees_faultAt _ ((Expr.same_text τ func).map fun text =>
      Cause.unsupported (.notCallable text)) rfl

theorem agrees_ofName {records : Records} (hrecords : τ.FixesRecords records) (line : Nat)
    (name : Ident) :
    τ.Agrees (ofName records line name) (ofName records (τ.lines line) (τ name)) := by
  rw [ofName, ofName, hrecords.get?, τ.function?_eq, τ.ofName?_eq]
  cases hget : records.get? name with
  | some fields =>
    have hfixed := hrecords name (by rw [Table.contains, hget]; rfl)
    rw [hfixed]
    exact .ok rfl
  | none =>
    cases hfunction : Builtin.function? name with
    | some target =>
      rw [τ.eq_of_isName (by simp [Builtin.isName, hfunction])]
      exact .ok rfl
    | none =>
      cases hclass : BuiltinClass.ofName? name with
      | some cls =>
        rw [τ.eq_of_isName (by simp [Builtin.isName, hclass])]
        exact .ok rfl
      | none => exact agrees_faultAt line ((same_name name).map Cause.notDefined) rfl

theorem agrees_classify (hrecords : τ.FixesRecords scope.records) (func : Expr)
    {ty ty' receiver receiver' : Typed Ty} (hty : τ.Agrees ty ty')
    (hreceiver : τ.Agrees receiver receiver') :
    τ.Agrees (classify scope func ty receiver)
      (classify (scope.mapNames τ) (func.under τ) ty' receiver') := by
  have hvalue := agrees_ofValue func hty
  cases func with
  | attr line value field =>
    change τ.Agrees _ (classify _ (.attr (τ.lines line) (value.under τ) field) _ _)
    simp only [classify, Scope.class?_under]
    cases scope.class? value with
    | some found =>
      obtain ⟨name, cls⟩ := found
      dsimp only
      split
      · exact .ok rfl
      · exact agrees_fault rfl
    | none =>
      refine hreceiver.andThen fun receiverTy => ?_
      split
      · exact .ok rfl
      · exact hvalue
  | subscript line value index =>
    change τ.Agrees _ (classify _ (.subscript (τ.lines line) (value.under τ) (index.under τ)) _ _)
    simp only [classify, Scope.class?_under]
    cases scope.class? value with
    | some found => exact (TypeExpr.agrees_typeParams hrecords index).andThen fun _ => .ok rfl
    | none => exact hvalue
  | name line name =>
    change τ.Agrees _ (classify _ (.name (τ.lines line) (τ name)) _ _)
    simp only [classify, Scope.mapNames, Layout.binds_mapNames]
    exact .ite hvalue (agrees_ofName hrecords line name)
  | _ => exact hvalue

end Callee

section

variable {records : Records} {ts ts' : List Typing} {values values' : Typed (List Ty)}

theorem agrees_aloneTypes (h : TypingsAgree τ ts ts') :
    τ.Agrees (aloneTypes ts) (aloneTypes ts') := by
  induction h with
  | nil => exact .ok rfl
  | cons hfirst _ ih => exact hfirst.alone.andThen fun _ => ih.andThen fun _ => .ok rfl

theorem agrees_builtinSignature (hrecords : τ.FixesRecords records) (line : Nat) (target : Builtin)
    (receiver : Option Ty) (typeParams : List Ty) (args : List Expr)
    (hvalues : τ.Agrees values values') (expected : Option Ty) :
    τ.Agrees (builtinSignature records line target receiver typeParams args values expected)
      (builtinSignature records (τ.lines line) target receiver typeParams (Expr.underAll τ args)
        values' expected) := by
  have hargs : τ.Agrees (argumentTypes records target args values)
      (argumentTypes records target (Expr.underAll τ args) values') := by
    unfold argumentTypes
    split
    · exact hvalues
    · exact TypeExpr.agrees_types hrecords args
    · exact .ok rfl
  exact hargs.andThen fun _ => agrees_atLine line (agrees_self (blameless_signature _ target))

theorem agrees_callTyping (hrecords : τ.FixesRecords records) (line : Nat)
    {callee callee' : Typed Callee} (hcallee : τ.Agrees callee callee') (args : List Expr)
    (h : TypingsAgree τ ts ts') :
    (callTyping records line callee args ts).Agrees τ
      (callTyping records (τ.lines line) callee' (Expr.underAll τ args) ts') := by
  have hvalues := agrees_aloneTypes h
  unfold callTyping
  refine agrees_ofExpected line fun expected => hcallee.andThen fun target => ?_
  have hresult : τ.Agrees (calleeResult records line args (aloneTypes ts) expected target)
      (calleeResult records (τ.lines line) (Expr.underAll τ args) (aloneTypes ts') expected
        target) := by
    cases target with
    | record | closure => exact .ok rfl
    | builtin name target receiver typeParams =>
      exact (agrees_builtinSignature hrecords line target receiver typeParams args hvalues
        expected).andThen fun _ => .ok rfl
  exact hresult.andThen fun _ => .ite (agrees_fault rfl) (.ok rfl)

end

/-! ## Expressions -/

mutual

/-- The typing of a translated expression in a translated scope agrees with that of the
expression. -/
theorem agrees_typing (hrecords : τ.FixesRecords scope.records) :
    ∀ e : Expr, (typing scope e).Agrees τ (typing (scope.mapNames τ) (e.under τ))
  | .name line name =>
    agrees_fixed line (agrees_atLine line (agrees_nameType hrecords name))
  | .literal line value =>
    agrees_ofExpected line fun expected =>
      agrees_atLine line (agrees_self (blameless_literalType value expected))
  | .list line items => agrees_listTyping line (agrees_typings hrecords items)
  | .tuple line _ | .compare line _ [] | .compare line _ (_ :: _ :: _) =>
    agrees_fixed line (agrees_fault rfl)
  | .dict line entries => agrees_dictTyping line (agrees_entryTypings hrecords entries)
  | .attr line value field =>
    agrees_fixed line (agrees_attributeType line value field (agrees_typing hrecords value))
  | .subscript line value index =>
    agrees_fixed line
      (agrees_subscriptType line (agrees_typing hrecords value) (agrees_typing hrecords index))
  | .call line func args keywords => by
    have hfunc := agrees_typing hrecords func
    have hargs := agrees_typings hrecords args
    cases func with
    | attr funcLine value field =>
      have hreceiver := agrees_typing hrecords value
      have hattr : τ.Agrees (attributeType scope funcLine value field (typing scope value)) _ :=
        agrees_attributeType funcLine value field hreceiver
      exact agrees_callTyping hrecords line
        (Callee.agrees_classify hrecords _ hattr hreceiver.alone) args hargs
    | _ =>
      exact agrees_callTyping hrecords line
        (Callee.agrees_classify hrecords _ hfunc.alone hfunc.alone) args hargs
  | .compare line left [(op, right)] =>
    agrees_fixed line
      (agrees_compareType left op right (agrees_typing hrecords left) (agrees_typing hrecords right))
  | .binary line left op right =>
    agrees_fixed line
      (agrees_binaryType left op right (agrees_typing hrecords left) (agrees_typing hrecords right))
  | .unary line op operand =>
    agrees_fixed line (agrees_unaryType line op (agrees_typing hrecords operand))
  | .boolean line op operands =>
    agrees_fixed line (agrees_booleanType line (agrees_typings hrecords operands))

theorem agrees_typings (hrecords : τ.FixesRecords scope.records) :
    ∀ es : List Expr,
      TypingsAgree τ (typings scope es) (typings (scope.mapNames τ) (Expr.underAll τ es))
  | [] => .nil
  | e :: es => .cons (agrees_typing hrecords e) (agrees_typings hrecords es)

theorem agrees_entryTypings (hrecords : τ.FixesRecords scope.records) :
    ∀ entries : List (Expr × Expr), EntriesAgree τ (entryTypings scope entries)
      (entryTypings (scope.mapNames τ) (Expr.underEntries τ entries))
  | [] => .nil
  | (key, value) :: rest =>
    .cons ⟨agrees_typing hrecords key, agrees_typing hrecords value⟩
      (agrees_entryTypings hrecords rest)

end

theorem agrees_typeOf (hrecords : τ.FixesRecords scope.records) (e : Expr) (expected : Option Ty) :
    τ.Agrees (typeOf scope e expected) (typeOf (scope.mapNames τ) (e.under τ) expected) :=
  (agrees_typing hrecords e).expecting expected

theorem agrees_calleeOf (hrecords : τ.FixesRecords scope.records) (func : Expr) :
    τ.Agrees (calleeOf scope func) (calleeOf (scope.mapNames τ) (func.under τ)) := by
  have hfunc : τ.Agrees (typing scope func).alone _ := (agrees_typing hrecords func).alone
  have hclassify := fun receiver receiver' (h : τ.Agrees receiver receiver') =>
    Callee.agrees_classify hrecords func hfunc h
  cases func with
  | attr line value field => exact hclassify _ _ (agrees_typing hrecords value).alone
  | _ => exact hclassify _ _ hfunc

end Covenant
