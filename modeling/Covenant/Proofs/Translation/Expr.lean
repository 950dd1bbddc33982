import Covenant.Gen.Path
import Covenant.Proofs.Gen.Rules
import Covenant.Proofs.Translation.Gen

/-!
# Covenant — code of translated expressions

The code of a translated expression follows the code of the expression (`agrees_emitExpr`). As the
recursion over the tree only supplies the operands, there is one lemma for each rule that puts code
together, which asks that the operands agree, and then an induction over the tree.

The one place where a label meets a variable is a call with a keyword argument: the keyword is
compared with the formal argument of the function, which is a variable of its body. Keywords must
therefore be left alone by the renaming (`Renaming.FixesLabels`).
-/

namespace Covenant

open Renaming Operand

/-- The labels in a list of names are not renamed. -/
def Renaming.FixesLabels (ρ : Renaming) (os : List Occurrence) : Prop :=
  ∀ id, Occurrence.label id ∈ os → ρ id = id

namespace Renaming

variable {ρ : Renaming} {os os' : List Occurrence} {id : Ident}

theorem FixesLabels.of_subset (h : ρ.FixesLabels os) (hsub : os' ⊆ os) : ρ.FixesLabels os' :=
  fun id hid => h id (hsub hid)

theorem fixesLabels_append :
    ρ.FixesLabels (os ++ os') ↔ ρ.FixesLabels os ∧ ρ.FixesLabels os' := by
  simp only [FixesLabels, List.mem_append, or_imp, forall_and]

theorem fixesLabels_label_cons :
    ρ.FixesLabels (.label id :: os) ↔ ρ id = id ∧ ρ.FixesLabels os := by
  simp only [FixesLabels, List.mem_cons, Occurrence.label.injEq, forall_eq_or_imp]

theorem fixesLabels_var_cons : ρ.FixesLabels (.var id :: os) ↔ ρ.FixesLabels os := by
  simp [FixesLabels]

end Renaming

variable {τ : Translation}

/-! ## Operands -/

/-- The second operand is the first one translated, and its code follows. -/
structure Operand.Agrees (τ : Translation) (o o' : Operand) : Prop where
  expr : o'.expr = o.expr.under τ
  emit : ∀ ty, Gen.Agrees τ (o.emit ty) (o'.emit ty)

/-- Operands that stand in the same place agree. -/
abbrev OperandsAgree (τ : Translation) : List Operand → List Operand → Prop :=
  List.Forall₂ (Agrees τ)

/-- Keyword arguments have the same keywords, which are not renamed, and their values agree. -/
abbrev KeywordsAgree (τ : Translation) : List (Ident × Operand) → List (Ident × Operand) → Prop :=
  List.Forall₂ fun k k' => k'.1 = k.1 ∧ τ k.1 = k.1 ∧ k.2.Agrees τ k'.2

namespace Operand

open Gen

variable {o o' : Operand} {os os' : List Operand}

theorem Agrees.compile (h : o.Agrees τ o') (expected : Option Ty) :
    Gen.Agrees τ (o.compile expected) (o'.compile expected) := by
  unfold Operand.compile
  rw [h.expr, Expr.line_under]
  exact (Gen.agrees_typeOf _ _).bind fun ty => (agrees_seen _).bind fun _ =>
    (h.emit ty).bind fun _ => agrees_pure ty

theorem Agrees.value (h : o.Agrees τ o') (expected : Option Ty) :
    Gen.Agrees τ (o.value expected) (o'.value expected) := by
  unfold Operand.value
  rw [h.expr, Expr.line_under]
  refine agrees_depth.bind fun before => (h.compile expected).bind fun ty =>
    agrees_depth.bind fun after => ?_
  exact .ite (agrees_pure ty) (follows_failAt _
    ((Expr.same_text τ o.expr).map fun text => Cause.unsupported (.noValue text)))

theorem Agrees.pushAs (h : o.Agrees τ o') (want : Ty) :
    Gen.Agrees τ (o.pushAs want) (o'.pushAs want) :=
  (h.value (some want)).bind fun _ => agrees_pure ()

theorem agrees_pushAll (h : OperandsAgree τ os os') :
    ∀ wants, Gen.Agrees τ (pushAll os wants) (pushAll os' wants) := by
  induction h with
  | nil => exact fun _ => agrees_pure ()
  | cons ho _ ih =>
    intro wants
    cases wants with
    | nil => exact agrees_pure ()
    | cons want wants => exact (ho.pushAs want).bind fun _ => ih wants

theorem agrees_pushAllReversed (h : OperandsAgree τ os os') :
    ∀ wants, Gen.Agrees τ (pushAllReversed os wants) (pushAllReversed os' wants) := by
  induction h with
  | nil => exact fun _ => agrees_pure ()
  | cons ho _ ih =>
    intro wants
    cases wants with
    | nil => exact agrees_pure ()
    | cons want wants => exact (ih wants).bind fun _ => ho.pushAs want

theorem agrees_consAll (element : Ty) (h : OperandsAgree τ os os') :
    Gen.Agrees τ (consAll element os) (consAll element os') := by
  induction h with
  | nil => exact agrees_pure ()
  | cons ho _ ih => exact ih.bind fun _ => (ho.pushAs element).bind fun _ => agrees_apply .cons

theorem agrees_insertAll (key value : Ty) {entries entries' : List (Operand × Operand)}
    (h : List.Forall₂ (fun e e' => e.1.Agrees τ e'.1 ∧ e.2.Agrees τ e'.2) entries entries') :
    Gen.Agrees τ (insertAll key value entries) (insertAll key value entries') := by
  induction h with
  | nil => exact agrees_pure ()
  | cons hentry _ ih =>
    exact ih.bind fun _ => (hentry.2.pushAs value).bind fun _ => (agrees_apply .some).bind fun _ =>
      (hentry.1.pushAs key).bind fun _ => agrees_apply .mapUpdate

theorem agrees_checkTypes (function : Ident) (h : OperandsAgree τ os os') :
    ∀ wants, Gen.Agrees τ (checkTypes function os wants) (checkTypes function os' wants) := by
  induction h with
  | nil => exact fun _ => agrees_pure ()
  | @cons o o' _ _ ho _ ih =>
    intro wants
    cases wants with
    | nil => exact agrees_pure ()
    | cons want wants =>
      unfold checkTypes
      rw [ho.expr, Expr.line_under]
      refine (Gen.agrees_typeOf _ _).bind fun found => ?_
      exact .ite (ih wants) (follows_failAt_bind _ .rfl)

theorem agrees_checkArguments (function : Ident) (line : Nat) (h : OperandsAgree τ os os')
    (wants : List Ty) :
    Gen.Agrees τ (checkArguments function line os wants)
      (checkArguments function (τ.lines line) os' wants) := by
  have htypes := agrees_checkTypes function h wants
  unfold checkArguments
  rw [h.length_eq]
  exact .ite htypes (follows_failAt_bind _ .rfl)

end Operand

/-! ## Built-in calls -/

/-- The values of units as they are translated. -/
def translatedValues (τ : Translation) (values : List (Ident × Expr)) : List (Ident × Expr) :=
  values.map fun (unit, value) => (unit, value.under τ)

theorem Timedelta.addAll_translatedValues (τ : Translation) :
    ∀ (total : Int64) (values : List (Ident × Expr)),
      addAll total (translatedValues τ values) = addAll total values
  | _, [] => rfl
  | total, (unit, value) :: rest => by
    have hadd : add total unit (value.under τ) = add total unit value := by
      rw [add, add, Expr.integer?_under]
    change (do addAll (← add total unit (value.under τ)) (translatedValues τ rest)) = _
    rw [hadd, addAll]
    cases add total unit value with
    | error fault => rfl
    | ok total => exact addAll_translatedValues τ total rest

theorem Timedelta.seconds_translatedValues (τ : Translation) (args : List Expr)
    (keywords : List (Ident × Expr)) :
    seconds (args.map (Expr.under τ)) (translatedValues τ keywords) = seconds args keywords := by
  have hvalues : positional.zip (args.map (Expr.under τ)) ++ translatedValues τ keywords =
      translatedValues τ (positional.zip args ++ keywords) := by
    rw [translatedValues, translatedValues, List.map_append, List.zip_map_right]
    rfl
  rw [seconds, seconds, List.length_map, hvalues, addAll_translatedValues]

theorem agrees_wrappedValue (name : Ident) (ty : Base) (literal : Expr) :
    τ.toRenaming.Agrees (wrappedValue name ty literal) (wrappedValue name ty (literal.under τ)) := by
  have hinvalid : τ.toRenaming.Agrees
      (.error (.badArgument (.invalidLiteral literal.text name)) : Except Cause Value)
      (.error (.badArgument (.invalidLiteral (literal.under τ).text name))) :=
    .error ⟨(Expr.same_text τ literal).map fun text => Cause.badArgument (.invalidLiteral text name),
      rfl⟩
  have hinteger := Expr.integer?_under τ literal
  unfold wrappedValue
  cases ty with
  | string | address =>
    cases literal with
    | literal line value =>
      cases value with
      | str s => exact .ok rfl
      | _ => exact hinvalid
    | _ => exact hinvalid
  | int | timestamp | nat | mutez =>
    simp only [hinteger]
    cases literal.integer? with
    | none => exact hinvalid
    | some n => first | exact .ok rfl | exact .ite (.error ⟨.rfl, rfl⟩) (.ok rfl)
  | _ => exact hinvalid

namespace Invocation

open Gen

variable {args args' : List Operand}

theorem exprs_eq {os os' : List Operand} (h : OperandsAgree τ os os') :
    os'.map expr = (os.map expr).map (Expr.under τ) := by
  induction h with
  | nil => rfl
  | cons ho _ ih => rw [List.map_cons, List.map_cons, List.map_cons, ih, ho.expr]

theorem agrees_literal (name : Ident) (line : Nat) (signature : Signature)
    (hargs : OperandsAgree τ args args') (keywords : List (Ident × Expr)) :
    Follows τ (fun e e' => e' = e.under τ)
      (literal ⟨name, line, signature, args, keywords⟩)
      (literal ⟨name, τ.lines line, signature, args', translatedValues τ keywords⟩) := by
  have hrefused : Follows τ (fun (e e' : Expr) => e' = e.under τ)
      (failAt line (.badArgument (.notALiteral name)))
      (failAt (τ.lines line) (.badArgument (.notALiteral name))) := follows_failAt line .rfl
  cases hargs with
  | nil => exact hrefused
  | cons harg hrest =>
    cases hrest with
    | cons _ _ => exact hrefused
    | nil =>
      cases keywords with
      | cons _ _ => exact hrefused
      | nil =>
        simp only [literal, translatedValues, List.map_nil, harg.expr, Expr.isLiteral_under]
        exact .ite (follows_pure rfl) hrefused

theorem agrees_getOr {key key' default default' : Operand} (hkey : key.Agrees τ key')
    (hdefault : default.Agrees τ default') (keyTy valueTy : Ty) :
    Gen.Agrees τ (getOr key default keyTy valueTy) (getOr key' default' keyTy valueTy) := by
  refine (hkey.pushAs keyTy).bind fun _ => (agrees_apply .mapGet).bind fun _ =>
    follows_layout_bind fun l => ?_
  rw [Layout.pop_mapNames]
  refine follows_sound_bind fun start _ => ?_
  exact .block_bind (hdefault.pushAs valueTy) start fun code _ =>
    Gen.agrees_emit_block (i := (.ifNone · [])) code fun _ => rfl

theorem agrees_keyed {body : Operand → Operand → Ty → Ty → Gen Unit}
    (hbody : ∀ {key key' other other' : Operand}, key.Agrees τ key' → other.Agrees τ other' →
      ∀ keyTy valueTy, Gen.Agrees τ (body key other keyTy valueTy) (body key' other' keyTy valueTy))
    (hargs : OperandsAgree τ args args') (types : List Ty) :
    Gen.Agrees τ (keyed body args types) (keyed body args' types) := by
  cases hargs with
  | nil => exact follows_defect _
  | cons hkey hrest =>
    cases hrest with
    | nil => exact follows_defect _
    | cons hother hrest =>
      cases hrest with
      | cons _ _ => exact follows_defect _
      | nil =>
        match types with
        | [keyTy, valueTy] => exact hbody hkey hother keyTy valueTy
        | [] | [_] | _ :: _ :: _ :: _ => exact follows_defect _

/-- Calls of the same built-in at the same signature, with arguments that agree. -/
theorem agrees_emit (name : Ident) (line : Nat) (signature : Signature)
    (hargs : OperandsAgree τ args args') (keywords : List (Ident × Expr)) (target : Builtin) :
    Gen.Agrees τ (emit ⟨name, line, signature, args, keywords⟩ target)
      (emit ⟨name, τ.lines line, signature, args', translatedValues τ keywords⟩ target) := by
  have hpush := agrees_pushAll hargs signature.args
  cases target with
  | abs => exact hpush.bind fun _ => agrees_apply .abs
  | timedelta =>
    unfold emit
    rw [exprs_eq hargs, Timedelta.seconds_translatedValues]
    cases Timedelta.seconds (args.map expr) keywords with
    | ok n => exact agrees_apply _
    | error fault => exact follows_failAt line .rfl
  | transaction =>
    have hfetch : Gen.Agrees τ _ _ := agrees_fetch Layout.operationsName
    have hreplace : Gen.Agrees τ _ _ := agrees_replace Layout.operationsName
    rw [τ.operationsName_eq] at hfetch hreplace
    have hrest := hfetch.bind fun _ => hpush.bind fun _ =>
      (agrees_apply .transferTokens).bind fun _ => (agrees_apply .cons).bind fun _ => hreplace
    refine follows_layout_bind fun l => ?_
    have hbinds := Layout.binds_mapNames τ l Layout.operationsName
    rw [τ.operationsName_eq] at hbinds
    rw [hbinds]
    exact .ite hrest (follows_failAt_bind line .rfl)
  | contract =>
    exact hpush.bind fun _ => (agrees_apply _).bind fun _ => Gen.agrees_emit_plain rfl
  | wrap ty =>
    refine (agrees_literal name line signature hargs keywords).bind fun e e' he => ?_
    subst he
    rw [Expr.line_under]
    exact Agrees.bind (follows_typed (Translation.agrees_atLine _ (agrees_wrappedValue name ty e)))
      fun _ => agrees_apply _
  | listNew =>
    unfold emit
    dsimp only
    split
    · next element _ =>
      have hrest : Gen.Agrees τ _ _ := (agrees_apply (.nil element)).bind fun _ =>
        agrees_consAll element hargs
      exact .ite (follows_failAt_bind line .rfl) hrest
    · exact follows_defect _
  | listPrepend => exact hpush.bind fun _ => agrees_apply .cons
  | mapNew big =>
    unfold emit
    dsimp only
    refine .ite (follows_failAt_bind line .rfl) ?_
    split
    · exact agrees_apply _
    · exact follows_defect _
  | mapGet =>
    exact agrees_keyed (fun hkey hdefault => agrees_getOr hkey hdefault) hargs signature.args
  | mapAdd =>
    exact agrees_keyed (fun hkey hvalue key value =>
      agrees_insertAll key value (.cons ⟨hkey, hvalue⟩ .nil)) hargs signature.args
  | pack => exact hpush.bind fun _ => agrees_apply .pack
  | unpack => exact (agrees_apply _).bind fun _ => Gen.agrees_emit_plain rfl
  | blake2b => exact agrees_apply .blake2b
  | now => exact agrees_apply .now

end Invocation

namespace Gen

/-! ## Names, literals and containers -/

theorem agrees_emitName (id : Ident) : Agrees τ (emitName id) (emitName (τ id)) := by
  refine follows_layout_bind fun l => ?_
  rw [Layout.binds_mapNames, τ.constant?_eq]
  refine .ite (agrees_fetch id) ?_
  cases Builtin.constant? id with
  | some found => exact agrees_apply _
  | none => exact follows_defect _

variable {left left' right right' value value' func func' : Operand} {os os' : List Operand}
  {keywords keywords' : List (Ident × Operand)}

theorem agrees_emitList (line : Nat) (h : OperandsAgree τ os os') (ty : Ty) :
    Agrees τ (emitList line os ty) (emitList (τ.lines line) os' ty) := by
  unfold emitList
  split
  · next element =>
    exact .ite (follows_failAt_bind line .rfl)
      ((agrees_apply (.nil element)).bind fun _ => agrees_consAll element h)
  · exact follows_defect _

theorem agrees_emitDict (line : Nat) {entries entries' : List (Operand × Operand)}
    (h : List.Forall₂ (fun e e' => e.1.Agrees τ e'.1 ∧ e.2.Agrees τ e'.2) entries entries')
    (ty : Ty) : Agrees τ (emitDict line entries ty) (emitDict (τ.lines line) entries' ty) := by
  unfold emitDict
  refine .ite (follows_failAt_bind line .rfl) ?_
  split
  · exact (agrees_apply _).bind fun _ => agrees_insertAll _ _ h
  · exact follows_defect _

/-! ## Attributes and subscripts -/

theorem agrees_fieldNode (record : Ident) (fields : Fields) (attr : Ident) :
    τ.Agrees (fieldNode record fields attr) (fieldNode record fields attr) := by
  rw [fieldNode_eq]
  split
  · exact .ok rfl
  · exact Translation.agrees_faultAt_zero .rfl rfl

theorem agrees_readField (record : Ident) (fields : Fields) (attr : Ident) :
    Agrees τ (readField record fields attr) (readField record fields attr) :=
  Agrees.bind (follows_typed (agrees_fieldNode record fields attr)) fun _ => agrees_apply _

theorem agrees_emitAttribute (isStorage : Bool) (h : value.Agrees τ value') (field : Ident) :
    Agrees τ (emitAttribute isStorage value field) (emitAttribute isStorage value' field) := by
  have hfetch : Agrees τ _ _ := agrees_fetch Layout.storageName
  rw [τ.storageName_eq] at hfetch
  refine .ite hfetch ((h.value none).bind fun ty => ?_)
  split
  · exact agrees_readField _ _ _
  · exact follows_defect _

theorem agrees_lookUp (h : value.Agrees τ value') (keyTy : Ty) :
    Agrees τ (lookUp value keyTy) (lookUp value' keyTy) :=
  (h.pushAs keyTy).bind fun _ => (agrees_apply .mapGet).bind fun _ => agrees_emit_plain rfl

theorem agrees_emitSubscript (hvalue : left.Agrees τ left') (hindex : right.Agrees τ right') :
    Agrees τ (emitSubscript left right) (emitSubscript left' right') := by
  refine (hvalue.value none).bind fun ty => ?_
  cases ty.keyValue? with
  | some found => exact agrees_lookUp hindex _
  | none => exact follows_defect _

/-! ## Operators -/

theorem agrees_pairTypes (partner : Ty → Ty) (hleft : left.Agrees τ left')
    (hright : right.Agrees τ right') :
    Agrees τ (pairTypes (operandTypes partner) left right)
      (pairTypes (operandTypes partner) left' right') := by
  unfold pairTypes
  rw [hleft.expr, hright.expr]
  exact follows_scope_bind fun scope hrecords => follows_typed
    (agrees_operandTypes partner _ _ (agrees_typing hrecords _) (agrees_typing hrecords _))

theorem agrees_emitMembership (hkey : left.Agrees τ left') (hmap : right.Agrees τ right') :
    Agrees τ (emitMembership left right) (emitMembership left' right') := by
  refine (hmap.value none).bind fun ty => ?_
  cases ty.keyValue? with
  | some found => exact (hkey.pushAs _).bind fun _ => agrees_apply .mem
  | none => exact follows_defect _

theorem agrees_emitCompare (hleft : left.Agrees τ left') (op : CmpOp)
    (hright : right.Agrees τ right') :
    Agrees τ (emitCompare left op right) (emitCompare left' op right') := by
  have hmember := agrees_emitMembership hleft hright
  unfold emitCompare
  split
  · exact hmember
  · exact hmember.bind fun _ => agrees_apply .not
  · refine (agrees_pairTypes id hleft hright).bind fun types => (hright.pushAs _).bind fun _ =>
      (hleft.pushAs _).bind fun _ => (agrees_apply .compare).bind fun _ => ?_
    split
    · exact agrees_apply _
    · exact follows_defect _

theorem agrees_emitBinary (hleft : left.Agrees τ left') (op : BinOp)
    (hright : right.Agrees τ right') :
    Agrees τ (emitBinary left op right) (emitBinary left' op right') := by
  refine (agrees_pairTypes arithmeticPartner hleft hright).bind fun types =>
    (hright.pushAs _).bind fun _ => (hleft.pushAs _).bind fun _ => ?_
  cases op with
  | add | sub | mult => exact agrees_apply _
  | floorDiv | mod =>
    exact (agrees_apply .ediv).bind fun _ => (agrees_emit_plain rfl).bind fun _ => agrees_apply _
  | div | pow => exact follows_defect _

theorem agrees_emitUnary (op : UnOp) (h : value.Agrees τ value') :
    Agrees τ (emitUnary op value) (emitUnary op value') := by
  refine (h.value none).bind fun _ => ?_
  cases op with
  | not | minus => exact agrees_apply _
  | plus | invert => exact follows_defect _

theorem agrees_connectAll (op : BoolOp) (h : OperandsAgree τ os os') :
    Agrees τ (connectAll op os) (connectAll op os') := by
  induction h with
  | nil => exact agrees_pure ()
  | cons ho _ ih => exact (ho.pushAs .bool).bind fun _ => (agrees_apply _).bind fun _ => ih

theorem agrees_emitBoolean (op : BoolOp) (h : OperandsAgree τ os os') :
    Agrees τ (emitBoolean op os) (emitBoolean op os') := by
  cases h with
  | nil => exact follows_defect _
  | cons ho hrest => exact (ho.pushAs .bool).bind fun _ => agrees_connectAll op hrest

/-! ## Calls -/

theorem agrees_applyClosure (hfunc : func.Agrees τ func') (harg : value.Agrees τ value')
    (want : Ty) :
    Agrees τ (applyClosure func value want) (applyClosure func' value' want) := by
  unfold applyClosure
  rw [hfunc.expr, harg.expr, Expr.line_under]
  refine (Gen.agrees_typeOf _ _).bind fun found => .ite ?_ ?_
  · exact (agrees_annotate ((Expr.same_text τ func.expr).map Note.called)).bind fun _ =>
      (hfunc.value none).bind fun _ => (harg.pushAs want).bind fun _ =>
        (agrees_emit_plain rfl).bind fun _ => agrees_pop 1
  · exact follows_failAt_bind _
      ((Expr.same_text τ func.expr).map fun text => Cause.argumentType text want found)

/-- The formal arguments of the renamed function are renamed. -/
theorem formals_of_agrees (h : func.Agrees τ func') (l : Layout) :
    func'.expr.name?.bind (l.mapNames τ).formals.get? =
      (func.expr.name?.bind l.formals.get?).map (List.map τ) := by
  rw [h.expr, Expr.name?_under]
  cases func.expr.name? with
  | none => rfl
  | some name => exact Layout.formals_mapNames τ l name

/-- A fault that quotes a translated expression. -/
theorem follows_blame {α β : Type} {R : α → β → Prop} (line : Nat) (h : value.Agrees τ value')
    (blame : String → Cause) :
    Follows τ R (failAt line (blame value.expr.text))
      (failAt (τ.lines line) (blame value'.expr.text)) := by
  rw [h.expr]
  exact follows_failAt line ((Expr.same_text τ value.expr).map fun text => blame text)

/-- A keyword, which is not renamed, names the formal argument just if it names the renamed one. -/
theorem agrees_callKeyword (line : Nat) (hfunc : func.Agrees τ func') {keyword : Ident}
    (hkeyword : τ keyword = keyword) (harg : value.Agrees τ value') (want : Ty) :
    Agrees τ (callClosure line func [] [(keyword, value)] want)
      (callClosure (τ.lines line) func' [] [(keyword, value')] want) := by
  have hfail := follows_blame (R := @Eq Unit) line hfunc
    fun text => .badArgument (.unknownKeyword text keyword)
  refine follows_layout_bind fun l => ?_
  rw [formals_of_agrees hfunc]
  match func.expr.name?.bind l.formals.get? with
  | some [formal] =>
    have hformal : (τ formal = keyword) = (formal = keyword) := propext (τ.spares hkeyword formal)
    simp only [Option.map_some, List.map_cons, List.map_nil, hformal]
    exact .ite (agrees_applyClosure hfunc harg want) hfail
  | none | some [] | some (_ :: _ :: _) => exact hfail

theorem agrees_callClosure (line : Nat) (hfunc : func.Agrees τ func')
    (hargs : OperandsAgree τ os os') (hkeywords : KeywordsAgree τ keywords keywords') (want : Ty) :
    Agrees τ (callClosure line func os keywords want)
      (callClosure (τ.lines line) func' os' keywords' want) := by
  have hfail : Follows τ (@Eq Unit)
      (failAt line (.badArgument (.closureArguments func.expr.text (os.length + keywords.length))))
      (failAt (τ.lines line)
        (.badArgument (.closureArguments func'.expr.text (os'.length + keywords'.length)))) := by
    rw [← hargs.length_eq, ← hkeywords.length_eq]
    exact follows_blame line hfunc fun text => .badArgument (.closureArguments text _)
  cases hargs with
  | nil =>
    cases hkeywords with
    | nil => exact hfail
    | @cons k k' _ _ hkeyword hrest =>
      cases hrest with
      | cons _ _ => exact hfail
      | nil =>
        obtain ⟨keyword, value⟩ := k
        obtain ⟨_, value'⟩ := k'
        obtain ⟨rfl, hfixed, hvalue⟩ := hkeyword
        exact agrees_callKeyword line hfunc hfixed hvalue want
  | cons harg hrest =>
    cases hrest with
    | cons _ _ => exact hfail
    | nil =>
      cases hkeywords with
      | nil => exact agrees_applyClosure hfunc harg want
      | cons _ _ => exact hfail

theorem agrees_callRecord (line : Nat) (name : Ident) (fields : Fields)
    (hargs : OperandsAgree τ os os') (hkeywords : KeywordsAgree τ keywords keywords') :
    Agrees τ (callRecord line name fields os keywords)
      (callRecord (τ.lines line) name fields os' keywords') := by
  rw [callRecord, callRecord, buildRecord_eq, buildRecord_eq]
  cases hkeywords with
  | nil =>
    exact (agrees_checkArguments name line hargs fields.types).bind fun _ =>
      (agrees_pushAllReversed hargs fields.types).bind fun _ => .ite (agrees_apply _) (agrees_pure ())
  | cons _ _ => exact follows_failAt_bind line .rfl

theorem keywordExprs_eq (h : KeywordsAgree τ keywords keywords') :
    (keywords'.map fun (k, o) => (k, o.expr)) =
      translatedValues τ (keywords.map fun (k, o) => (k, o.expr)) := by
  induction h with
  | nil => rfl
  | @cons k k' ks ks' hkeyword _ ih =>
    have hhead : (k'.1, k'.2.expr) = (k.1, k.2.expr.under τ) := by
      rw [hkeyword.1, hkeyword.2.2.expr]
    exact congrArg₂ List.cons hhead ih

theorem agrees_callBuiltin (line : Nat) (name : Ident) (target : Builtin)
    {receiver receiver' : Option (Operand × Ty)}
    (hreceiver : Option.Rel (fun r r' => r.1.Agrees τ r'.1 ∧ r'.2 = r.2) receiver receiver')
    (typeParams : List Ty) (hargs : OperandsAgree τ os os')
    (hkeywords : KeywordsAgree τ keywords keywords') (result : Ty) :
    Agrees τ (callBuiltin line name target receiver typeParams os keywords result)
      (callBuiltin (τ.lines line) name target receiver' typeParams os' keywords' result) := by
  have htypes : receiver'.map (·.2) = receiver.map (·.2) := by
    cases hreceiver with
    | none => rfl
    | some h => exact congrArg some h.2
  have hcall (signature : Signature) : Agrees τ
      (invoke line name signature target receiver os keywords)
      (invoke (τ.lines line) name signature target receiver' os' keywords') := by
    unfold invoke
    rw [keywordExprs_eq hkeywords]
    have hemit := Invocation.agrees_emit name line signature hargs
      (keywords.map fun (k, o) => (k, o.expr)) target
    refine (agrees_annotate .rfl).bind fun _ => ?_
    cases hreceiver with
    | none => exact hemit
    | some h => exact (h.1.value none).bind fun _ => hemit
  unfold callBuiltin
  have hempty : keywords'.isEmpty = keywords.isEmpty := by cases hkeywords <;> rfl
  rw [htypes, Invocation.exprs_eq hargs, hempty, ← Expr.underAll_eq_map]
  refine follows_scope_bind fun scope hrecords => ?_
  have hvalues := agrees_aloneTypes (agrees_typings hrecords (os.map expr))
  refine Agrees.bind (follows_typed (agrees_builtinSignature hrecords line target _ typeParams _
    hvalues (some result))) fun signature => ?_
  refine .ite (.ite ?_ (hcall signature)) (follows_failAt_bind line .rfl)
  exact (agrees_checkArguments name line hargs signature.args).bind fun _ => hcall signature

theorem agrees_emitCall (line : Nat) (hfunc : func.Agrees τ func')
    {receiver receiver' : Option Operand}
    (hreceiver : Option.Rel (Operand.Agrees τ) receiver receiver') (hargs : OperandsAgree τ os os')
    (hkeywords : KeywordsAgree τ keywords keywords') (result : Ty) :
    Agrees τ (emitCall line func receiver os keywords result)
      (emitCall (τ.lines line) func' receiver' os' keywords' result) := by
  unfold emitCall
  rw [hfunc.expr]
  refine follows_scope_bind fun scope hrecords => ?_
  refine Agrees.bind (follows_typed (agrees_calleeOf hrecords func.expr)) fun callee => ?_
  cases callee with
  | record name fields => exact agrees_callRecord line name fields hargs hkeywords
  | closure want _ => exact agrees_callClosure line hfunc hargs hkeywords want
  | builtin name target receiverTy typeParams =>
    refine agrees_callBuiltin line name target ?_ typeParams hargs hkeywords result
    cases hreceiver with
    | none => exact .none
    | some h =>
      cases receiverTy with
      | none => exact .none
      | some ty => exact .some ⟨h, rfl⟩

end Gen

/-! ## The recursion over the tree -/

open Gen

mutual

/-- The code of a translated expression follows the code of the expression. -/
theorem agrees_emitExpr : ∀ e : Expr, τ.FixesLabels e.occurrences → ∀ ty : Ty,
    Gen.Agrees τ (emitExpr e ty) (emitExpr (e.under τ) ty)
  | .name _ name, _, _ => agrees_emitName name
  | .literal _ value, _, ty => by cases value <;> exact agrees_apply _
  | .list line items, h, ty => agrees_emitList line (agrees_operands items h) ty
  | .tuple .., _, _ | .compare _ left [], _, _ | .compare _ left (_ :: _ :: _), _, _ =>
    follows_defect _
  | .dict line entries, h, ty => agrees_emitDict line (agrees_entryOperands entries h) ty
  | .attr line value field, h, _ => by
    rw [Expr.occurrences, fixesLabels_label_cons] at h
    have hvalue : value.operand.Agrees τ (value.under τ).operand :=
      ⟨rfl, agrees_emitExpr value h.2⟩
    have hstorage := Expr.isStorage_under τ (.attr line value field)
    change Gen.Agrees τ _ (emitAttribute
      (Expr.attr (τ.lines line) (value.under τ) field).isStorage (value.under τ).operand field)
    rw [emitExpr, ← hstorage]
    exact agrees_emitAttribute _ hvalue field
  | .subscript _ value index, h, _ => by
    rw [Expr.occurrences, fixesLabels_append] at h
    exact agrees_emitSubscript ⟨rfl, agrees_emitExpr value h.1⟩ ⟨rfl, agrees_emitExpr index h.2⟩
  | .call line func args keywords, h, ty => by
    rw [Expr.occurrences, fixesLabels_append, fixesLabels_append] at h
    have hfunc : func.operand.Agrees τ (func.under τ).operand :=
      ⟨rfl, agrees_emitExpr func h.1⟩
    have hargs := agrees_operands args h.2.1
    have hkeywords := agrees_keywordOperands keywords h.2.2
    cases func with
    | attr funcLine value field =>
      have hlabels := h.1
      rw [Expr.occurrences, fixesLabels_label_cons] at hlabels
      exact agrees_emitCall line hfunc (.some ⟨rfl, agrees_emitExpr value hlabels.2⟩) hargs
        hkeywords ty
    | _ => exact agrees_emitCall line hfunc .none hargs hkeywords ty
  | .compare _ left [(op, right)], h, _ => by
    rw [Expr.occurrences, fixesLabels_append, Expr.comparandOccurrences, fixesLabels_append] at h
    exact agrees_emitCompare ⟨rfl, agrees_emitExpr left h.1⟩ op ⟨rfl, agrees_emitExpr right h.2.1⟩
  | .binary _ left op right, h, _ => by
    rw [Expr.occurrences, fixesLabels_append] at h
    exact agrees_emitBinary ⟨rfl, agrees_emitExpr left h.1⟩ op ⟨rfl, agrees_emitExpr right h.2⟩
  | .unary _ op operand, h, _ => agrees_emitUnary op ⟨rfl, agrees_emitExpr operand h⟩
  | .boolean _ op values, h, _ => agrees_emitBoolean op (agrees_operands values h)

theorem agrees_operands : ∀ es : List Expr, τ.FixesLabels (Expr.allOccurrences es) →
    OperandsAgree τ (operands es) (operands (Expr.underAll τ es))
  | [], _ => .nil
  | e :: es, h => by
    rw [Expr.allOccurrences, fixesLabels_append] at h
    exact .cons ⟨rfl, agrees_emitExpr e h.1⟩ (agrees_operands es h.2)

theorem agrees_entryOperands : ∀ entries : List (Expr × Expr),
    τ.FixesLabels (Expr.entryOccurrences entries) →
    List.Forall₂ (fun e e' => e.1.Agrees τ e'.1 ∧ e.2.Agrees τ e'.2) (entryOperands entries)
      (entryOperands (Expr.underEntries τ entries))
  | [], _ => .nil
  | (key, value) :: rest, h => by
    rw [Expr.entryOccurrences, fixesLabels_append, fixesLabels_append] at h
    exact .cons ⟨⟨rfl, agrees_emitExpr key h.1⟩, ⟨rfl, agrees_emitExpr value h.2.1⟩⟩
      (agrees_entryOperands rest h.2.2)

theorem agrees_keywordOperands : ∀ keywords : List (Ident × Expr),
    τ.FixesLabels (Expr.keywordOccurrences keywords) →
    KeywordsAgree τ (keywordOperands keywords)
      (keywordOperands (Expr.underKeywords τ keywords))
  | [], _ => .nil
  | (keyword, value) :: rest, h => by
    rw [Expr.keywordOccurrences, fixesLabels_label_cons, fixesLabels_append] at h
    exact .cons ⟨rfl, h.1, ⟨rfl, agrees_emitExpr value h.2.1⟩⟩
      (agrees_keywordOperands rest h.2.2)

end

theorem Expr.agrees_operand {e : Expr} (h : τ.FixesLabels e.occurrences) :
    e.operand.Agrees τ (e.under τ).operand :=
  ⟨rfl, agrees_emitExpr e h⟩

end Covenant
