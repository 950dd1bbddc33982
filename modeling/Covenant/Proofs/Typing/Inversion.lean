import Covenant.Proofs.Gen.Steps
import Covenant.Typing.Expr

/-!
# Covenant — what follows from an expression having a type

One lemma for each kind of node: if the node has a type, its parts have the types that its rule asks
for, and the type is the one the rule gives. The expected type comes in at one place only: unknown
parts of the type that the rule gives are filled in from it (`Ty.adopted`).

List and map literals are special, since the expected type is handed down to the elements. Whatever
is expected, the elements have been checked against the element type of the result
(`typeOf_list_eq_ok`, `typeOf_dict_eq_ok`).
-/

namespace Covenant

open Except Typing

variable {callee : Callee} {field id : Ident}

/-! ## The expected type -/

/-- The type with its unknown parts filled in from the expected type, if it fits. -/
def Ty.adopted (found : Ty) : Option Ty → Ty
  | none => found
  | some want => if found.hasUnknown && found.fits want then want else found

namespace Typing

variable {line : Nat} {expected : Option Ty} {ty : Ty}

theorem adopt_eq_ok_iff {want : Ty} {result : Typed Ty} :
    adopt want result = .ok ty ↔ ∃ found, result = .ok found ∧ ty = found.adopted (some want) := by
  simp only [adopt, bind_eq_ok_iff, pure_eq_ok_iff, Ty.adopted]
  exact exists_congr fun _ => and_congr_right fun _ => eq_comm

theorem expecting_ofExpected_eq_ok_iff {infer : Option Ty → Typed Ty} :
    (ofExpected line infer).expecting expected = .ok ty ↔
      ∃ found, infer expected = .ok found ∧ ty = found.adopted expected := by
  cases expected with
  | none => simp [expecting, ofExpected, Ty.adopted]
  | some want => exact adopt_eq_ok_iff

theorem expecting_fixed_eq_ok_iff {result : Typed Ty} :
    (fixed line result).expecting expected = .ok ty ↔
      ∃ found, result = .ok found ∧ ty = found.adopted expected := by
  cases expected with
  | none => simp [expecting, fixed, Ty.adopted]
  | some want => exact adopt_eq_ok_iff

end Typing

theorem atLine_eq_ok_iff {α : Type} {line : Nat} {result : Except Cause α} {a : α} :
    atLine line result = .ok a ↔ result = .ok a :=
  mapError_eq_ok_iff

theorem faultAt_ne_ok {α : Type} {line : Nat} {cause : Cause} {a : α} :
    faultAt line cause ≠ (.ok a : Typed α) := by
  simp [faultAt]

/-! ## Names, attributes and subscripts -/

variable {scope : Scope} {line : Nat} {expected : Option Ty} {ty : Ty}

theorem typeOf_name_eq_ok_iff :
    typeOf scope (.name line id) expected = .ok ty ↔
      ∃ found, nameType scope id = .ok found ∧ ty = found.adopted expected := by
  rw [typeOf, typing, expecting_fixed_eq_ok_iff]
  simp only [atLine_eq_ok_iff]

/-- A name with a type is a variable of the program, or else a built-in one. -/
theorem nameType_eq_ok (h : nameType scope id = .ok ty) :
    scope.layout.ty? id = some ty ∨
      scope.layout.ty? id = none ∧ ∃ p, Builtin.constant? id = some (ty, p) := by
  unfold nameType at h
  split at h
  · next found hfound => exact .inl (hfound.trans (congrArg some (ok.inj h)))
  · next hnone =>
    split at h
    · next found p hconstant =>
      cases h
      exact .inr ⟨hnone, p, hconstant⟩
    · split at h <;> simp at h

theorem typeOf_literal_eq_ok_iff {value : Literal} :
    typeOf scope (.literal line value) expected = .ok ty ↔
      ∃ found, literalType value expected = .ok found ∧ ty = found.adopted expected := by
  rw [typeOf, typing, expecting_ofExpected_eq_ok_iff]
  simp only [atLine_eq_ok_iff]

theorem typeOf_tuple_ne_ok {items : List Expr} :
    typeOf scope (.tuple line items) expected ≠ .ok ty := by
  rw [typeOf, typing]
  intro h
  obtain ⟨found, hfound, -⟩ := expecting_fixed_eq_ok_iff.mp h
  exact faultAt_ne_ok hfound

theorem typeOf_attr_eq_ok_iff {value : Expr} :
    typeOf scope (.attr line value field) expected = .ok ty ↔
      ∃ found, attributeType scope line value field (typing scope value) = .ok found ∧
        ty = found.adopted expected := by
  rw [typeOf, typing, expecting_fixed_eq_ok_iff]

theorem ty?_of_storageType (h : scope.storageType = .ok ty) :
    scope.layout.ty? Layout.storageName = some ty := by
  unfold Scope.storageType at h
  split at h
  · next hty => rw [hty, ok.inj h]
  · exact absurd h faultAt_ne_ok

/-- An attribute with a type is the storage, or an attribute of a record. -/
theorem attributeType_eq_ok {value : Expr} {receiver : Typing}
    (h : attributeType scope line value field receiver = .ok ty) :
    ((Expr.attr line value field).isStorage = true ∧
        scope.layout.ty? Layout.storageName = some ty) ∨
      ((Expr.attr line value field).isStorage = false ∧ scope.class? value = none ∧
        ∃ name fields i, receiver.alone = .ok (.record name fields) ∧
          Fields.find? field fields = some (i, ty)) := by
  unfold attributeType at h
  dsimp only at h
  split at h
  · next hstorage => exact .inl ⟨hstorage, ty?_of_storageType h⟩
  · next hstorage =>
    refine .inr ⟨by simpa using hstorage, ?_⟩
    split at h
    · split at h <;> exact absurd h faultAt_ne_ok
    · next hclass =>
      obtain ⟨found, hfound, h⟩ := bind_eq_ok_iff.mp h
      cases found with
      | record name fields =>
        dsimp only at h
        split at h
        · next i found hfield =>
          obtain rfl := pure_eq_ok_iff.mp h
          exact ⟨hclass, name, fields, i, hfound, hfield⟩
        · exact absurd h faultAt_ne_ok
      | _ =>
        dsimp only at h
        split at h <;> exact absurd h faultAt_ne_ok

theorem checkElement_eq_ok_iff {want : Ty} {item : Typing} :
    checkElement want item = .ok () ↔
      ∃ found, item.against want = .ok found ∧
        (found.fits want = true ∨ want.fits found = true) := by
  simp only [checkElement, bind_eq_ok_iff]
  refine exists_congr fun found => and_congr_right fun _ => ?_
  split
  · next hfits => simpa using hfits
  · next hfits => simpa [faultAt_ne_ok] using hfits

theorem typeOf_subscript_eq_ok_iff {value index : Expr} :
    typeOf scope (.subscript line value index) expected = .ok ty ↔
      ∃ found, subscriptType line (typing scope value) (typing scope index) = .ok found ∧
        ty = found.adopted expected := by
  rw [typeOf, typing, expecting_fixed_eq_ok_iff]

theorem subscriptType_eq_ok {value index : Typing} (h : subscriptType line value index = .ok ty) :
    ∃ map key, value.alone = .ok map ∧ map.keyValue? = some (key, ty) ∧
      checkElement key index = .ok () := by
  obtain ⟨map, hmap, h⟩ := bind_eq_ok_iff.mp h
  cases hkv : map.keyValue? with
  | none =>
    rw [hkv] at h
    exact absurd h faultAt_ne_ok
  | some entry =>
    obtain ⟨key, result⟩ := entry
    rw [hkv] at h
    obtain ⟨⟨⟩, hkey, h⟩ := bind_eq_ok_iff.mp h
    obtain rfl := pure_eq_ok_iff.mp h
    exact ⟨map, key, hmap, hkv, hkey⟩

/-! ## Containers -/

/-- The elements of a list literal have been checked against the element type of its type. -/
theorem typeOf_list_eq_ok {items : List Expr}
    (h : typeOf scope (.list line items) expected = .ok ty) :
    ∃ element, ty = .list element ∧ checkElements element (typings scope items) = .ok () := by
  rw [typeOf, typing] at h
  unfold listTyping at h
  obtain ⟨found, hfound, hty⟩ := expecting_ofExpected_eq_ok_iff.mp h
  have hlist {element : Ty} (h : listOf (typings scope items) element = .ok found) :
      found = .list element ∧ checkElements element (typings scope items) = .ok () := by
    obtain ⟨⟨⟩, hcheck, h⟩ := bind_eq_ok_iff.mp h
    exact ⟨(pure_eq_ok_iff.mp h).symm, hcheck⟩
  split at hfound
  · next element =>
    obtain ⟨rfl, hcheck⟩ := hlist hfound
    refine ⟨element, ?_, hcheck⟩
    rw [hty, Ty.adopted]
    split <;> rfl
  · next hother =>
    have hfirst : ∃ element, listOf (typings scope items) element = .ok found := by
      split at hfound
      · exact ⟨_, hfound⟩
      · obtain ⟨element, -, hfound⟩ := bind_eq_ok_iff.mp hfound
        exact ⟨element, hfound⟩
    obtain ⟨element, hfound⟩ := hfirst
    obtain ⟨rfl, hcheck⟩ := hlist hfound
    refine ⟨element, ?_, hcheck⟩
    cases expected with
    | none => exact hty
    | some want =>
      rw [hty, Ty.adopted]
      split
      · next hfits =>
        rw [Bool.and_eq_true] at hfits
        cases want <;> simp_all [Ty.fits]
      · rfl

/-- The entries of a map literal have been checked against the key and value type of its type. -/
theorem typeOf_dict_eq_ok {entries : List (Expr × Expr)}
    (h : typeOf scope (.dict line entries) expected = .ok ty) :
    ∃ big key value, ty = .map big key value ∧
      checkEntries key value (entryTypings scope entries) = .ok () := by
  rw [typeOf, typing] at h
  unfold dictTyping at h
  obtain ⟨found, hfound, hty⟩ := expecting_ofExpected_eq_ok_iff.mp h
  have hmap {big : Bool} {key value : Ty}
      (h : mapOf (entryTypings scope entries) big key value = .ok found) :
      found = .map big key value ∧
        checkEntries key value (entryTypings scope entries) = .ok () := by
    obtain ⟨⟨⟩, hcheck, h⟩ := bind_eq_ok_iff.mp h
    exact ⟨(pure_eq_ok_iff.mp h).symm, hcheck⟩
  split at hfound
  · next big key value =>
    obtain ⟨rfl, hcheck⟩ := hmap hfound
    refine ⟨big, key, value, ?_, hcheck⟩
    rw [hty, Ty.adopted]
    split <;> rfl
  · next hother =>
    have hfirst : ∃ key value, mapOf (entryTypings scope entries) false key value = .ok found := by
      split at hfound
      · exact ⟨_, _, hfound⟩
      · obtain ⟨key, -, hfound⟩ := bind_eq_ok_iff.mp hfound
        obtain ⟨value, -, hfound⟩ := bind_eq_ok_iff.mp hfound
        exact ⟨key, value, hfound⟩
    obtain ⟨key, value, hfound⟩ := hfirst
    obtain ⟨rfl, hcheck⟩ := hmap hfound
    refine ⟨false, key, value, ?_, hcheck⟩
    cases expected with
    | none => exact hty
    | some want =>
      rw [hty, Ty.adopted]
      split
      · next hfits =>
        rw [Bool.and_eq_true] at hfits
        cases want <;> simp_all [Ty.fits]
      · rfl

/-! ## Operators -/

variable {left right : Expr} {l r : Typing} {func : Expr}

/-- A literal operand takes its type from its partner; otherwise the left one is typed first. -/
theorem operandTypes_eq_ok {partner : Ty → Ty} {leftTy rightTy : Ty}
    (h : operandTypes partner left right l r = .ok (leftTy, rightTy)) :
    (left.isLiteral = true ∧ right.isLiteral = false ∧ r.alone = .ok rightTy ∧
        l.against (partner rightTy) = .ok leftTy) ∨
      (l.alone = .ok leftTy ∧ r.against (partner leftTy) = .ok rightTy) := by
  unfold operandTypes at h
  split at h
  · next hliteral =>
    obtain ⟨found, hfound, h⟩ := bind_eq_ok_iff.mp h
    obtain ⟨found', hfound', h⟩ := bind_eq_ok_iff.mp h
    obtain ⟨rfl, rfl⟩ := Prod.mk.inj (pure_eq_ok_iff.mp h)
    rw [Bool.and_eq_true, Bool.not_eq_true'] at hliteral
    exact .inl ⟨hliteral.1, hliteral.2, hfound, hfound'⟩
  · obtain ⟨found, hfound, h⟩ := bind_eq_ok_iff.mp h
    obtain ⟨found', hfound', h⟩ := bind_eq_ok_iff.mp h
    obtain ⟨rfl, rfl⟩ := Prod.mk.inj (pure_eq_ok_iff.mp h)
    exact .inr ⟨hfound, hfound'⟩

theorem typeOf_compare_eq_ok_iff {op : CmpOp} :
    typeOf scope (.compare line left [(op, right)]) expected = .ok ty ↔
      ∃ found, compareType left op right (typing scope left) (typing scope right) = .ok found ∧
        ty = found.adopted expected := by
  rw [typeOf, typing, expecting_fixed_eq_ok_iff]

/-- Only single comparisons have a type. -/
theorem typeOf_compare_eq_ok {rest : List (CmpOp × Expr)}
    (h : typeOf scope (.compare line left rest) expected = .ok ty) :
    ∃ op right, rest = [(op, right)] := by
  match rest, h with
  | [(op, right)], _ => exact ⟨op, right, rfl⟩
  | [], h | _ :: _ :: _, h =>
    obtain ⟨found, hfound, -⟩ := expecting_fixed_eq_ok_iff.mp h
    exact absurd hfound faultAt_ne_ok

/-- A comparison asks for membership of a key in a map, or orders two values of one comparable
type. -/
theorem compareType_eq_ok {op : CmpOp} (h : compareType left op right l r = .ok ty) :
    ty = .bool ∧
      (((op = .isIn ∨ op = .notIn) ∧ ∃ map key value, r.alone = .ok map ∧
          map.keyValue? = some (key, value) ∧ checkElement key l = .ok ()) ∨
        (op ≠ .isIn ∧ op ≠ .notIn ∧ op ≠ .same ∧ op ≠ .notSame ∧ ∃ operand,
          comparandTypes left right l r = .ok (operand, operand) ∧
            operand.isComparable = true)) := by
  cases op with
  | isIn | notIn =>
    obtain ⟨map, hmap, h⟩ := bind_eq_ok_iff.mp h
    cases hkv : map.keyValue? with
    | none =>
      rw [hkv] at h
      exact absurd h faultAt_ne_ok
    | some entry =>
      obtain ⟨key, value⟩ := entry
      rw [hkv] at h
      obtain ⟨⟨⟩, hkey, h⟩ := bind_eq_ok_iff.mp h
      exact ⟨(pure_eq_ok_iff.mp h).symm,
        .inl ⟨by simp, map, key, value, hmap, hkv, hkey⟩⟩
  | same | notSame => exact absurd h faultAt_ne_ok
  | _ =>
    obtain ⟨⟨leftTy, rightTy⟩, htypes, h⟩ := bind_eq_ok_iff.mp h
    dsimp only at h
    split at h
    · exact absurd h faultAt_ne_ok
    · next heq =>
      split at h
      · exact absurd h faultAt_ne_ok
      · next hcomparable =>
        obtain rfl : leftTy = rightTy := by simpa using heq
        exact ⟨(pure_eq_ok_iff.mp h).symm, .inr ⟨by simp, by simp, by simp, by simp,
          leftTy, htypes, by simpa using hcomparable⟩⟩

theorem typeOf_binary_eq_ok_iff {op : BinOp} :
    typeOf scope (.binary line left op right) expected = .ok ty ↔
      ∃ found, binaryType left op right (typing scope left) (typing scope right) = .ok found ∧
        ty = found.adopted expected := by
  rw [typeOf, typing, expecting_fixed_eq_ok_iff]

theorem binaryType_eq_ok {op : BinOp} (h : binaryType left op right l r = .ok ty) :
    op ≠ .div ∧ op ≠ .pow ∧ ∃ leftTy rightTy,
      arithmeticTypes left right l r = .ok (leftTy, rightTy) ∧
        arithmeticResult? op leftTy rightTy = some ty := by
  unfold binaryType at h
  split at h
  · exact absurd h faultAt_ne_ok
  · exact absurd h faultAt_ne_ok
  · next hdiv hpow =>
    obtain ⟨⟨leftTy, rightTy⟩, htypes, h⟩ := bind_eq_ok_iff.mp h
    dsimp only at h
    split at h
    · next found hfound =>
      obtain rfl := pure_eq_ok_iff.mp h
      exact ⟨hdiv, hpow, leftTy, rightTy, htypes, hfound⟩
    · split at h <;> exact absurd h faultAt_ne_ok

theorem typeOf_unary_eq_ok_iff {op : UnOp} {operand : Expr} :
    typeOf scope (.unary line op operand) expected = .ok ty ↔
      ∃ found, unaryType line op (typing scope operand) = .ok found ∧
        ty = found.adopted expected := by
  rw [typeOf, typing, expecting_fixed_eq_ok_iff]

theorem unaryType_eq_ok {op : UnOp} {operand : Typing} (h : unaryType line op operand = .ok ty) :
    (op = .not ∧ operand.alone = .ok .bool ∧ ty = .bool) ∨
      (op = .minus ∧ (operand.alone = .ok .int ∨ operand.alone = .ok .nat) ∧ ty = .int) := by
  obtain ⟨found, hfound, h⟩ := bind_eq_ok_iff.mp h
  split at h
  · exact .inl ⟨rfl, hfound, (pure_eq_ok_iff.mp h).symm⟩
  · exact absurd h faultAt_ne_ok
  · exact .inr ⟨rfl, .inl hfound, (pure_eq_ok_iff.mp h).symm⟩
  · exact .inr ⟨rfl, .inr hfound, (pure_eq_ok_iff.mp h).symm⟩
  · exact absurd h faultAt_ne_ok
  · exact absurd h faultAt_ne_ok
  · exact absurd h faultAt_ne_ok

theorem typeOf_boolean_eq_ok_iff {op : BoolOp} {operands : List Expr} :
    typeOf scope (.boolean line op operands) expected = .ok ty ↔
      ∃ found, booleanType line (typings scope operands) = .ok found ∧
        ty = found.adopted expected := by
  rw [typeOf, typing, expecting_fixed_eq_ok_iff]

theorem booleanType_eq_ok {operands : List Typing} (h : booleanType line operands = .ok ty) :
    2 ≤ operands.length ∧ checkBooleans operands = .ok () ∧ ty = .bool := by
  unfold booleanType at h
  split at h
  · exact absurd h faultAt_ne_ok
  · next hmany =>
    obtain ⟨⟨⟩, hcheck, h⟩ := bind_eq_ok_iff.mp h
    exact ⟨Nat.not_lt.mp hmany, hcheck, (pure_eq_ok_iff.mp h).symm⟩

theorem checkBooleans_cons_eq_ok_iff {operand : Typing} {rest : List Typing} :
    checkBooleans (operand :: rest) = .ok () ↔
      operand.against .bool = .ok .bool ∧ checkBooleans rest = .ok () := by
  simp only [checkBooleans, bind_eq_ok_iff]
  constructor
  · rintro ⟨found, hfound, h⟩
    split at h
    · next heq => exact ⟨heq ▸ hfound, h⟩
    · exact absurd h faultAt_ne_ok
  · rintro ⟨hfound, h⟩
    exact ⟨.bool, hfound, by simpa using h⟩

/-! ## Calls -/

theorem settledResult_eq_ok_iff {found : Ty} :
    settledResult line expected found = .ok ty ↔
      found = ty ∧ (found.hasUnknown = true → ∃ want, expected = some want ∧
        found.fits want = true) := by
  unfold settledResult
  cases expected with
  | none =>
    cases hunknown : found.hasUnknown with
    | true => simp [faultAt_ne_ok]
    | false => simp
  | some want =>
    cases hunknown : found.hasUnknown with
    | true =>
      cases hfits : found.fits want with
      | true => simp [hfits]
      | false => simp [hfits, faultAt_ne_ok]
    | false => simp

/-- A call has the result type of what it calls, with unknown parts filled in. -/
theorem typeOf_call_eq_ok_iff {args : List Expr} {keywords : List (Ident × Expr)} :
    typeOf scope (.call line func args keywords) expected = .ok ty ↔
      ∃ callee found, calleeOf scope func = .ok callee ∧
        calleeResult scope.records line args (aloneTypes (typings scope args)) expected callee =
          .ok found ∧
        (found.hasUnknown = true → ∃ want, expected = some want ∧ found.fits want = true) ∧
        ty = found.adopted expected := by
  rw [typeOf, typing_call]
  unfold callTyping
  simp only [expecting_ofExpected_eq_ok_iff, bind_eq_ok_iff, settledResult_eq_ok_iff]
  constructor
  · rintro ⟨_, ⟨callee, hcallee, found, hfound, rfl, hsettled⟩, hty⟩
    exact ⟨callee, found, hcallee, hfound, hsettled, hty⟩
  · rintro ⟨callee, found, hcallee, hfound, hsettled, hty⟩
    exact ⟨found, ⟨callee, hcallee, found, hfound, rfl, hsettled⟩, hty⟩

namespace Callee

/-- Where a built-in callee comes from: a method of the class of a value, a method of a class, a
constructor of a class, or a function. -/
inductive Origin (scope : Scope) :
    Expr → Ident → Builtin → Option Ty → List Ty → Prop where
  | method {line : Nat} {value : Expr} {field : Ident} {receiver : Ty} {cls : BuiltinClass}
      {target : Builtin} (hclass : scope.class? value = none)
      (hreceiver : (typing scope value).alone = .ok receiver)
      (hcls : BuiltinClass.ofTy? receiver = some cls) (htarget : cls.method? field = some target) :
      Origin scope (.attr line value field) field target (some receiver) []
  | static {line : Nat} {value : Expr} {field id : Ident} {cls : BuiltinClass} {target : Builtin}
      (hclass : scope.class? value = some (id, cls))
      (htarget : cls.staticMethod? field = some target) :
      Origin scope (.attr line value field) field target none []
  | constructor {func : Expr} {id : Ident} {cls : BuiltinClass} {typeParams : List Ty}
      (hparams : typeParams = [] ∨ ∃ e, TypeExpr.typeParams scope.records e = .ok typeParams) :
      Origin scope func id cls.constructor none typeParams
  | function {func : Expr} {id : Ident} {target : Builtin}
      (htarget : Builtin.function? id = some target) :
      Origin scope func id target none []

end Callee

/-- What a callee means: a record constructor, a closure, or a built-in. -/
def Callee.Explains (scope : Scope) (func : Expr) : Callee → Prop
  | .record name fields => (∃ line, func = .name line name) ∧ scope.layout.binds name = false ∧
      scope.records.get? name = some fields
  | .closure arg result => (typing scope func).alone = .ok (.lambda arg result)
  | .builtin name target receiver typeParams =>
      Callee.Origin scope func name target receiver typeParams

theorem Callee.ofValue_eq_ok {found : Typed Ty} (h : Callee.ofValue func found = .ok callee) :
    ∃ arg result, callee = .closure arg result ∧ found = .ok (.lambda arg result) := by
  obtain ⟨ty, hty, h⟩ := bind_eq_ok_iff.mp h
  split at h
  · next arg result => exact ⟨arg, result, (pure_eq_ok_iff.mp h).symm, hty⟩
  · exact absurd h faultAt_ne_ok

theorem Callee.ofName_explains (hfunc : func = .name line id)
    (hbound : scope.layout.binds id = false)
    (h : Callee.ofName scope.records line id = .ok callee) : callee.Explains scope func := by
  unfold Callee.ofName at h
  split at h
  · next fields hfields =>
    cases h
    exact ⟨⟨line, hfunc⟩, hbound, hfields⟩
  · split at h
    · next target htarget =>
      cases h
      exact .function htarget
    · split at h
      · cases h
        exact .constructor (.inl rfl)
      · exact absurd h faultAt_ne_ok

/-- What a call is taken to mean says why. -/
theorem explains_of_calleeOf (h : calleeOf scope func = .ok callee) :
    callee.Explains scope func := by
  have hvalue {found : Typed Ty} (h : Callee.ofValue func found = .ok callee)
      (hfound : found = (typing scope func).alone) : callee.Explains scope func := by
    obtain ⟨arg, result, rfl, hty⟩ := Callee.ofValue_eq_ok h
    exact hfound.symm.trans hty
  unfold calleeOf at h
  cases func with
  | attr line value field =>
    simp only [Callee.classify] at h
    split at h
    · next id cls hclass =>
      split at h
      · next target htarget =>
        cases h
        exact .static hclass htarget
      · exact absurd h faultAt_ne_ok
    · next hclass =>
      obtain ⟨receiver, hreceiver, h⟩ := bind_eq_ok_iff.mp h
      split at h
      · next target htarget =>
        obtain rfl := pure_eq_ok_iff.mp h
        obtain ⟨cls, hcls, htarget⟩ := Option.bind_eq_some_iff.mp htarget
        exact .method hclass hreceiver hcls htarget
      · exact hvalue h rfl
  | subscript line value index =>
    simp only [Callee.classify] at h
    split at h
    · obtain ⟨typeParams, hparams, h⟩ := bind_eq_ok_iff.mp h
      obtain rfl := pure_eq_ok_iff.mp h
      exact .constructor (.inr ⟨index, hparams⟩)
    · exact hvalue h rfl
  | name line id =>
    simp only [Callee.classify] at h
    split at h
    · exact hvalue h rfl
    · next hbound => exact Callee.ofName_explains rfl (by simpa using hbound) h
  | _ =>
    simp only [Callee.classify] at h
    exact hvalue h rfl

/-! ## Receivers -/

/-- The expression calls `now` on a value and not on the class that has it. -/
def NowOnValue (scope : Scope) (e : Expr) : Prop :=
  ∃ line funcLine value args keywords,
    e = .call line (.attr funcLine value "now") args keywords ∧ scope.class? value = none

namespace Builtin

variable {target : Builtin}

/-- The receiver that a built-in is called on, if any. Only `now` is called both on a class and on
values. -/
def Receives : Builtin → Option Ty → Prop
  | listPrepend, receiver => ∃ element, receiver = some (.list element)
  | mapGet, receiver | mapAdd, receiver => ∃ big key value, receiver = some (.map big key value)
  | unpack, receiver | blake2b, receiver => receiver = some .bytes
  | now, receiver => receiver = none ∨ receiver = some .timestamp
  | _, receiver => receiver = none

theorem receives_of_method {receiver : Ty} {cls : BuiltinClass} {field : Ident}
    (hcls : BuiltinClass.ofTy? receiver = some cls) (h : cls.method? field = some target) :
    target.Receives (some receiver) := by
  unfold BuiltinClass.ofTy? at hcls
  unfold BuiltinClass.method? at h
  split at hcls <;> cases hcls <;>
    split at h <;> simp_all <;> subst h <;> simp [Receives]

end Builtin

theorem Callee.Origin.receives {scope : Scope} {name : Ident} {target : Builtin}
    {receiver : Option Ty} {typeParams : List Ty}
    (h : Callee.Origin scope func name target receiver typeParams) : target.Receives receiver := by
  cases h with
  | method _ _ hcls htarget => exact Builtin.receives_of_method hcls htarget
  | static _ htarget =>
    unfold BuiltinClass.staticMethod? at htarget
    split at htarget <;> cases htarget
    exact .inl rfl
  | @constructor _ _ cls => cases cls <;> rfl
  | function htarget =>
    unfold Builtin.function? at htarget
    split at htarget <;> cases htarget <;> rfl

/-- A callee with a receiver is an attribute of it. -/
theorem Callee.Origin.of_receiver {scope : Scope} {name : Ident} {target : Builtin} {receiver : Ty}
    {typeParams : List Ty} (h : Callee.Origin scope func name target (some receiver) typeParams) :
    ∃ line value, func = .attr line value name ∧ scope.class? value = none ∧
      (typing scope value).alone = .ok receiver ∧ (target = .now → name = "now") := by
  cases h with
  | method hclass hreceiver hcls htarget =>
    refine ⟨_, _, rfl, hclass, hreceiver, ?_⟩
    rintro rfl
    unfold BuiltinClass.method? at htarget
    split at htarget <;> simp_all

/-- The built-in is a method that works on its receiver. -/
def Builtin.isMethod : Builtin → Bool
  | .listPrepend | .mapGet | .mapAdd | .unpack | .blake2b => true
  | _ => false

namespace Builtin

variable {target : Builtin} {receiver : Option Ty}

/-- Methods are called on a receiver. -/
theorem Receives.isSome (h : target.Receives receiver) (htarget : target.isMethod = true) :
    receiver.isSome = true := by
  cases target <;> simp [isMethod] at htarget
  case listPrepend => obtain ⟨element, rfl⟩ := h; rfl
  case mapGet | mapAdd => obtain ⟨big, key, value, rfl⟩ := h; rfl
  case unpack | blake2b => obtain rfl : receiver = some .bytes := h; rfl

end Builtin

end Covenant
