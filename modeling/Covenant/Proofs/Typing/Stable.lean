import Covenant.Proofs.Layout.WellFormed
import Covenant.Proofs.Typing.Inversion

/-!
# Covenant — when a type is settled

The generator asks for the type of an expression more than once: while the expression around it is
typed, when its value is checked against a type that is wanted, and when its code is emitted. By then
other values lie on the stack, and the expected type may be another one. This module shows that the
answers agree.

* `typing_of_alike` — only the types of names matter to a typing, so cells on top of the stack do not
  change any;
* `eq_of_fits` — a type without unknown parts fits no other type;
* `typeOf_eq_of_fits`, `typeOf_of_checkElement` — what has been found to fit a wanted type is of that
  type;
* `typeOf_own` — an expression has the same type if its own type is expected of it.

Annotations denote types without unknown parts (`TypeExpr.known_of_type`).
-/

namespace Covenant

open Except

variable {line : Nat} {e : Expr}

/-! ## The same types under the same names -/

variable {records : Records} {l l' : Layout}

/-- The same names are bound and have the same types, in a body of the same kind. -/
structure Layout.Alike (l l' : Layout) : Prop where
  binds : ∀ name, l'.binds name = l.binds name
  ty? : ∀ name, l'.ty? name = l.ty? name
  context : l'.context = l.context

theorem Layout.Alike.refl (l : Layout) : l.Alike l := ⟨fun _ => rfl, fun _ => rfl, rfl⟩

theorem Layout.Alike.symm (h : l.Alike l') : l'.Alike l :=
  ⟨fun name => (h.binds name).symm, fun name => (h.ty? name).symm, h.context.symm⟩

theorem Layout.Alike.trans {l'' : Layout} (h : l.Alike l') (h' : l'.Alike l'') : l.Alike l'' :=
  ⟨fun name => (h'.binds name).trans (h.binds name), fun name => (h'.ty? name).trans (h.ty? name),
    h'.context.trans h.context⟩

theorem Layout.Keeps.alike (h : l.Keeps l') : l.Alike l' := ⟨h.binds, h.types, h.context⟩

section Alike

variable (h : l.Alike l')
include h

theorem class?_of_alike (e : Expr) :
    Scope.class? ⟨records, l'⟩ e = Scope.class? ⟨records, l⟩ e := by
  cases e <;> simp only [Scope.class?, h.binds]

theorem storageType_of_alike :
    Scope.storageType ⟨records, l'⟩ = Scope.storageType ⟨records, l⟩ := by
  simp only [Scope.storageType, h.ty?, h.context]

theorem classify_of_alike (func : Expr) (ty receiver : Typed Ty) :
    Callee.classify ⟨records, l'⟩ func ty receiver =
      Callee.classify ⟨records, l⟩ func ty receiver := by
  cases func <;> simp only [Callee.classify, class?_of_alike h, h.binds]

theorem typing_of_alike_mutual :
    (∀ e, typing ⟨records, l'⟩ e = typing ⟨records, l⟩ e) ∧
    (∀ es, entryTypings ⟨records, l'⟩ es = entryTypings ⟨records, l⟩ es) ∧
    ∀ es, typings ⟨records, l'⟩ es = typings ⟨records, l⟩ es := by
  apply typing.mutual_induct ⟨records, l⟩ <;> intros <;>
    simp_all only [typing, typings, entryTypings, nameType, h.ty?, attributeType,
      class?_of_alike h, storageType_of_alike h, classify_of_alike h]

/-- Only the types of the named cells matter to a typing. -/
theorem typing_of_alike (e : Expr) :
    typing ⟨records, l'⟩ e = typing ⟨records, l⟩ e :=
  (typing_of_alike_mutual h).1 e

theorem typings_of_alike (es : List Expr) :
    typings ⟨records, l'⟩ es = typings ⟨records, l⟩ es :=
  (typing_of_alike_mutual h).2.2 es

theorem typeOf_of_alike (e : Expr) (expected : Option Ty) :
    typeOf ⟨records, l'⟩ e expected = typeOf ⟨records, l⟩ e expected := by
  rw [typeOf, typeOf, typing_of_alike h]

theorem calleeOf_of_alike (func : Expr) :
    calleeOf ⟨records, l'⟩ func = calleeOf ⟨records, l⟩ func := by
  cases func <;> simp only [calleeOf, classify_of_alike h, typing_of_alike h]

end Alike

/-! ## Types without unknown parts -/

namespace Ty

/-- A type without unknown parts fits itself only. -/
theorem eq_of_fits {a b : Ty} (hknown : a.hasUnknown = false) (h : a.fits b = true) : a = b := by
  fun_induction Ty.fits a b with
  | case1 => simp [hasUnknown] at hknown
  | case2 a b ih | case3 a b ih | case4 a b ih => rw [ih (by simpa [hasUnknown] using hknown) h]
  | case5 big k v big' k' v' ihk ihv =>
    simp only [hasUnknown, Bool.or_eq_false_iff] at hknown
    simp only [Bool.and_eq_true] at h
    rw [ihk hknown.1 h.1.2, ihv hknown.2 h.2, eq_of_beq h.1.1]
  | case6 => simpa using h

/-- Where something is expected, a type that fits the expected type is that type: if it had unknown
parts, they have been filled in. -/
theorem adopted_eq_of_fits {found want : Ty} (h : (found.adopted (some want)).fits want = true) :
    found.adopted (some want) = want := by
  simp only [adopted] at h ⊢
  by_cases hadopted : (found.hasUnknown && found.fits want) = true
  · rw [if_pos hadopted]
  · rw [if_neg hadopted] at h ⊢
    exact eq_of_fits (by simpa [h] using hadopted) h

theorem adopted_of_known {found : Ty} (h : found.hasUnknown = false) (expected : Option Ty) :
    found.adopted expected = found := by
  cases expected <;> simp [adopted, h]

theorem adopted_adopted (found : Ty) (expected : Option Ty) :
    found.adopted (some (found.adopted expected)) = found.adopted expected := by
  cases expected with
  | none => simp [adopted]
  | some want =>
    simp only [adopted]
    split
    · rfl
    · split <;> rfl

theorem known_of_mem {fields : Fields} (h : hasUnknownField fields = false) {attr : Ident}
    {ty : Ty} (hmem : (attr, ty) ∈ fields) : ty.hasUnknown = false := by
  induction fields with
  | nil => simp at hmem
  | cons f rest ih =>
    rw [hasUnknownField, Bool.or_eq_false_iff] at h
    rcases List.mem_cons.mp hmem with rfl | hmem
    · exact h.1
    · exact ih h.2 hmem

end Ty

/-! ## Annotations -/

/-- The records in force have attributes, and these have settled types. -/
def Records.Settled (records : Records) : Prop :=
  ∀ ⦃name : Ident⦄ ⦃fields : Fields⦄, records.get? name = some fields →
    fields ≠ [] ∧ Ty.hasUnknownField fields = false

theorem Records.settled_empty : Records.Settled .empty := fun _ _ h => by simp at h

namespace TypeExpr

open Ty

theorem known_of_named (hrecords : records.Settled) {id : Ident} {ty : Ty}
    (h : named records id = .ok ty) : ty.hasUnknown = false := by
  unfold named at h
  split at h
  · cases h
    rfl
  · split at h
    · next fields hfields =>
      cases h
      rw [hasUnknown]
      exact (hrecords hfields).2
    · simp at h

/-- A former applied to settled types gives a settled type. -/
def Former.Settled : Former → Prop
  | .unary make => ∀ a, a.hasUnknown = false → (make a).hasUnknown = false
  | .binary make => ∀ a b, a.hasUnknown = false → b.hasUnknown = false →
      (make a b).hasUnknown = false
  | .callable => True

theorem settled_of_former? {id : Ident} {former : Former} (h : former? id = some former) :
    former.Settled := by
  unfold former? at h
  split at h <;> cases h <;>
    simp +contextual [Former.Settled, hasUnknown]

/-- The type that an annotation denotes, given what names denote: those of base types and records by
themselves, and formers applied to annotations. -/
inductive Denotes (names : Ident → Ty → Prop) : Expr → Ty → Prop
  | name {line : Nat} {id : Ident} {ty : Ty} (h : names id ty) : Denotes names (.name line id) ty
  | none {line : Nat} : Denotes names (.literal line .none) .unit
  | unary {line idLine : Nat} {id : Ident} {make : Ty → Ty} {param : Expr} {ty : Ty}
      (hformer : former? id = some (.unary make)) (h : Denotes names param ty) :
    Denotes names (.subscript line (.name idLine id) param) (make ty)
  | single {line idLine tupleLine : Nat} {id : Ident} {make : Ty → Ty} {param : Expr} {ty : Ty}
      (hformer : former? id = some (.unary make)) (h : Denotes names param ty) :
    Denotes names (.subscript line (.name idLine id) (.tuple tupleLine [param])) (make ty)
  | binary {line idLine tupleLine : Nat} {id : Ident} {make : Ty → Ty → Ty} {first second : Expr}
      {a b : Ty} (hformer : former? id = some (.binary make)) (hfirst : Denotes names first a)
      (hsecond : Denotes names second b) :
    Denotes names (.subscript line (.name idLine id) (.tuple tupleLine [first, second])) (make a b)
  | callable {line idLine tupleLine listLine : Nat} {id : Ident} {arg result : Expr} {a b : Ty}
      (hformer : former? id = some .callable) (harg : Denotes names arg a)
      (hresult : Denotes names result b) :
    Denotes names
      (.subscript line (.name idLine id) (.tuple tupleLine [.list listLine [arg], result]))
      (.lambda a b)

mutual

theorem denotes_of_resolve : ∀ {e : Expr} {ty : Ty}, resolve records e = .ok ty →
    Denotes (fun id ty => named records id = .ok ty) e ty
  | .name _ id, ty, h => .name (by simpa only [resolve] using h)
  | .literal _ value, ty, h => by
    cases value <;> simp only [resolve, reduceCtorEq, ok.injEq] at h
    exact h ▸ .none
  | .subscript _ value index, ty, h => by
    have hindex {ty : Ty} (h : resolve records index = .ok ty) := denotes_of_resolve h
    cases value with
    | name line id =>
      cases index with
      | tuple line' params =>
        simp only [resolve] at h
        split at h
        · cases h
        · next former hformer => exact denotes_of_resolveParams hformer h
      | _ =>
        simp only [resolve] at h hindex
        split at h
        · cases h
        · next make hformer =>
          obtain ⟨inner, hinner, h⟩ := bind_eq_ok_iff.mp h
          obtain rfl := pure_eq_ok_iff.mp h
          exact .unary hformer (hindex hinner)
        · cases h
    | _ => simp [resolve] at h
  | .list .., _, h | .tuple .., _, h | .dict .., _, h | .attr .., _, h | .call .., _, h
  | .compare .., _, h | .binary .., _, h | .unary .., _, h | .boolean .., _, h => by
    simp [resolve] at h

theorem denotes_of_resolveParams {id : Ident} {former : Former} (hformer : former? id = some former)
    {line idLine tupleLine : Nat} : ∀ {params : List Expr} {ty : Ty},
    resolveParams records id former params = .ok ty →
    Denotes (fun id ty => named records id = .ok ty)
      (.subscript line (.name idLine id) (.tuple tupleLine params)) ty
  | [], _, h | _ :: _ :: _ :: _, _, h => by simp [resolveParams] at h
  | [a], ty, h => by
    cases former <;>
      simp only [resolveParams, reduceCtorEq, bind_eq_ok_iff, pure_eq_ok_iff] at h
    obtain ⟨x, hx, rfl⟩ := h
    exact .single hformer (denotes_of_resolve hx)
  | [a, b], ty, h => by
    cases former <;>
      simp only [resolveParams, reduceCtorEq, bind_eq_ok_iff, pure_eq_ok_iff] at h
    all_goals obtain ⟨x, hx, y, hy, rfl⟩ := h
    · exact .binary hformer (denotes_of_resolve hx) (denotes_of_resolve hy)
    · obtain ⟨line, arg, rfl, harg⟩ := denotes_of_resolveArgument hx
      exact .callable hformer harg (denotes_of_resolve hy)

theorem denotes_of_resolveArgument : ∀ {e : Expr} {ty : Ty}, resolveArgument records e = .ok ty →
    ∃ line arg, e = .list line [arg] ∧ Denotes (fun id ty => named records id = .ok ty) arg ty
  | .list line [arg], ty, h => by
    simp only [resolveArgument] at h
    exact ⟨line, arg, rfl, denotes_of_resolve h⟩
  | .list _ [], _, h | .list _ (_ :: _ :: _), _, h => by simp [resolveArgument] at h
  | .name .., _, h | .literal .., _, h | .subscript .., _, h | .tuple .., _, h | .dict .., _, h
  | .attr .., _, h | .call .., _, h | .compare .., _, h | .binary .., _, h | .unary .., _, h
  | .boolean .., _, h => by
    simp [resolveArgument] at h

end

theorem resolve_eq_ok_iff {e : Expr} {ty : Ty} :
    resolve records e = .ok ty ↔ Denotes (fun id ty => named records id = .ok ty) e ty := by
  refine ⟨denotes_of_resolve, fun h => ?_⟩
  induction h with
  | name h => simpa only [resolve] using h
  | none => rw [resolve]
  | @unary line idLine id make param ty hformer h ih =>
    cases h <;> simp_all only [resolve] <;> rfl
  | single hformer _ ih => simp only [resolve, resolveParams, hformer, ih]; rfl
  | binary hformer _ _ iha ihb => simp only [resolve, resolveParams, hformer, iha, ihb]; rfl
  | callable hformer _ _ iha ihb =>
    simp [resolve, resolveParams, resolveArgument, hformer, iha, ihb]
    rfl

/-- An annotation denotes a type without unknown parts. -/
theorem known_of_type (hrecords : records.Settled) {e : Expr} {ty : Ty}
    (h : type records e = .ok ty) : ty.hasUnknown = false := by
  rw [type, mapError_eq_ok_iff, resolve_eq_ok_iff] at h
  induction h with
  | name h => exact known_of_named hrecords h
  | none => rfl
  | unary hformer _ ih | single hformer _ ih => exact settled_of_former? hformer _ ih
  | binary hformer _ _ ihfirst ihsecond => exact settled_of_former? hformer _ _ ihfirst ihsecond
  | callable _ _ _ iharg ihresult => rw [hasUnknown, iharg, ihresult, Bool.or_false]

theorem known_of_types (hrecords : records.Settled) : ∀ {es : List Expr} {tys : List Ty},
    types records es = .ok tys → ∀ ty ∈ tys, ty.hasUnknown = false
  | [], tys, h => by
    cases h
    simp
  | e :: es, tys, h => by
    obtain ⟨ty, hty, h⟩ := bind_eq_ok_iff.mp h
    obtain ⟨rest, hrest, h⟩ := bind_eq_ok_iff.mp h
    obtain rfl := pure_eq_ok_iff.mp h
    exact List.forall_mem_cons.mpr ⟨known_of_type hrecords hty, known_of_types hrecords hrest⟩

end TypeExpr

/-! ## Types that have been checked -/

variable {scope : Scope} {expected : Option Ty} {ty want : Ty}

/-- Whatever is expected, it only fills in unknown parts of a type. -/
theorem exists_adopted (h : typeOf scope e expected = .ok ty) :
    ∃ found : Ty, ty = found.adopted expected := by
  have hofExpected {line : Nat} {infer : Option Ty → Typed Ty}
      (h : (Typing.ofExpected line infer).expecting expected = .ok ty) :
      ∃ found : Ty, ty = found.adopted expected := by
    obtain ⟨found, -, hty⟩ := Typing.expecting_ofExpected_eq_ok_iff.mp h
    exact ⟨found, hty⟩
  have hfixed {line : Nat} {result : Typed Ty}
      (h : (Typing.fixed line result).expecting expected = .ok ty) :
      ∃ found : Ty, ty = found.adopted expected := by
    obtain ⟨found, -, hty⟩ := Typing.expecting_fixed_eq_ok_iff.mp h
    exact ⟨found, hty⟩
  rw [typeOf] at h
  cases e with
  | call line func args keywords =>
    rw [typing_call] at h
    exact hofExpected h
  | compare line left rest =>
    rcases rest with _ | ⟨⟨op, right⟩, _ | ⟨_, _⟩⟩ <;> exact hfixed h
  | literal | list | dict => exact hofExpected h
  | name | tuple | attr | subscript | binary | unary | boolean => exact hfixed h

/-- A value that fits the type that is wanted of it has that type. -/
theorem typeOf_eq_of_fits (h : typeOf scope e (some want) = .ok ty) (hfits : ty.fits want = true) :
    ty = want := by
  obtain ⟨found, rfl⟩ := exists_adopted h
  exact Ty.adopted_eq_of_fits hfits

/-- An element of a container has the element type, once that type is settled. -/
theorem typeOf_of_checkElement (hknown : want.hasUnknown = false)
    (h : checkElement want (typing scope e) = .ok ()) : typeOf scope e (some want) = .ok want := by
  obtain ⟨found, hfound, hfits⟩ := checkElement_eq_ok_iff.mp h
  have htype : typeOf scope e (some want) = .ok found := hfound
  rcases hfits with hfits | hfits
  · rwa [typeOf_eq_of_fits htype hfits] at htype
  · rwa [← Ty.eq_of_fits hknown hfits] at htype

/-! ## Types that are expected of themselves -/

/-- If the expected type has been taken over, it is the type that was found; otherwise nothing has
been filled in. -/
theorem Ty.adopted_eq_or (found : Ty) (expected : Option Ty) :
    found.adopted expected = found ∨ expected = some (found.adopted expected) := by
  cases expected with
  | none => exact .inl rfl
  | some want =>
    simp only [Ty.adopted]
    split
    · exact .inr rfl
    · exact .inl rfl

theorem Ty.fits_refl : ∀ ty : Ty, ty.fits ty = true
  | .unknown | .base _ | .record _ _ | .lambda _ _ | .function _ _ => by simp [Ty.fits]
  | .option t | .list t | .contract t => by simp [Ty.fits, fits_refl t]
  | .map _ k v => by simp [Ty.fits, fits_refl k, fits_refl v]

theorem Ty.adopted_self (ty : Ty) : ty.adopted (some ty) = ty := by
  simp [Ty.adopted]

/-- A rule that gives the type it has found, once that type is expected, gives a stable type. -/
theorem Typing.expecting_own {infer : Option Ty → Typed Ty}
    (hinfer : ∀ found, infer expected = .ok found → infer (some found) = .ok found)
    (h : (ofExpected line infer).expecting expected = .ok ty) :
    (ofExpected line infer).expecting (some ty) = .ok ty := by
  obtain ⟨found, hfound, rfl⟩ := expecting_ofExpected_eq_ok_iff.mp h
  rcases Ty.adopted_eq_or found expected with hsame | hwant
  · rw [hsame]
    exact expecting_ofExpected_eq_ok_iff.mpr ⟨found, hinfer found hfound, found.adopted_self.symm⟩
  · rwa [← hwant]

/-- The elements of a list literal are checked against the element type that is expected. -/
theorem typeOf_list_own {items : List Expr} {element : Ty}
    (h : checkElements element (typings scope items) = .ok ()) :
    typeOf scope (.list line items) (some (.list element)) = .ok (.list element) := by
  rw [typeOf, typing]
  unfold listTyping
  refine Typing.expecting_ofExpected_eq_ok_iff.mpr ⟨_, ?_, (Ty.adopted_self _).symm⟩
  exact bind_eq_ok_iff.mpr ⟨_, h, rfl⟩

theorem typeOf_dict_own {entries : List (Expr × Expr)} {big : Bool} {key value : Ty}
    (h : checkEntries key value (entryTypings scope entries) = .ok ()) :
    typeOf scope (.dict line entries) (some (.map big key value)) = .ok (.map big key value) := by
  rw [typeOf, typing]
  unfold dictTyping
  refine Typing.expecting_ofExpected_eq_ok_iff.mpr ⟨_, ?_, (Ty.adopted_self _).symm⟩
  exact bind_eq_ok_iff.mpr ⟨_, h, rfl⟩

/-- The types that a literal may have. -/
inductive Literal.HasType : Literal → Ty → Prop
  | int (n : Int64) : HasType (.int n) .int
  | timestamp (n : Int64) : HasType (.int n) .timestamp
  | nat {n : Int64} (h : ¬n < 0) : HasType (.int n) .nat
  | mutez {n : Int64} (h : ¬n < 0) : HasType (.int n) .mutez
  | address (s : String) : HasType (.str s) .address
  | string (s : String) : HasType (.str s) .string
  | bool (b : Bool) : HasType (.bool b) .bool
  | none : HasType .none .unit

theorem hasType_of_literalType {value : Literal} (h : literalType value expected = .ok ty) :
    value.HasType ty := by
  simp only [literalType] at h
  repeat' split at h
  all_goals cases h
  all_goals constructor <;> assumption

theorem literalType_of_literalType {value : Literal} (h : literalType value expected = .ok ty) :
    ty.hasUnknown = false ∧ literalType value (some ty) = .ok ty := by
  cases hasType_of_literalType h with
  | nat hn | mutez hn => simp [literalType, hn, Ty.hasUnknown]
  | _ => simp [literalType, Ty.hasUnknown]

namespace Builtin

variable {site : CallSite}

/-- A list constructor takes the element type from its own type. -/
theorem elementType_own {element : Ty} (h : elementType site = .ok element) :
    elementType { site with expected := some (.list element) } = .ok element := by
  obtain ⟨receiver, typeParams, args, expected⟩ := site
  match typeParams, args with
  | [t], _ | [], first :: _ => exact h
  | [], [] => rfl
  | _ :: _ :: _, _ => simp [elementType] at h

/-- A map constructor takes the types of keys and values from its own type. -/
theorem mapType_own {big : Bool} {found : Ty} (h : mapType big site = .ok found) :
    mapType big { site with expected := some found } = .ok found := by
  obtain ⟨receiver, typeParams, args, expected⟩ := site
  match typeParams with
  | [k, v] => exact h
  | [] =>
    simp only [mapType] at h
    split at h <;> cases h <;> rfl
  | [_] | _ :: _ :: _ :: _ => simp [mapType] at h

/-- The signature of a call is the same if its result is expected of it. -/
theorem signature_own {target : Builtin} {signature : Signature}
    (h : target.signature site = .ok signature) :
    target.signature { site with expected := some signature.result } = .ok signature := by
  cases target with
  | listNew =>
    obtain ⟨element, helement, h⟩ := bind_eq_ok_iff.mp h
    obtain rfl := pure_eq_ok_iff.mp h
    exact bind_eq_ok_iff.mpr ⟨element, elementType_own helement, rfl⟩
  | mapNew big =>
    obtain ⟨found, hfound, h⟩ := bind_eq_ok_iff.mp h
    obtain rfl := pure_eq_ok_iff.mp h
    exact bind_eq_ok_iff.mpr ⟨found, mapType_own hfound, rfl⟩
  | _ => exact h

/-- Against the type that a call has, its signature has that type as its result, unless unknown parts
are left. -/
theorem result_of_adopted {target : Builtin} {found again : Signature}
    (h : target.signature site = .ok found)
    (h' : target.signature { site with expected := some (found.result.adopted site.expected) } =
      .ok again) (hknown : again.result.hasUnknown = false) :
    again.result = found.result.adopted site.expected := by
  obtain rfl : again = found := by
    rcases Ty.adopted_eq_or found.result site.expected with hsame | hwant
    · rw [hsame, signature_own h] at h'
      exact (ok.inj h').symm
    · rw [← hwant] at h'
      exact ok.inj (h'.symm.trans h)
  exact (Ty.adopted_of_known hknown _).symm

end Builtin

theorem calleeResult_own {args : List Expr} {values : Typed (List Ty)} {callee : Callee}
    {found : Ty} (h : calleeResult records line args values expected callee = .ok found) :
    calleeResult records line args values (some found) callee = .ok found := by
  cases callee with
  | record | closure => exact h
  | builtin name target receiver typeParams =>
    obtain ⟨signature, hsignature, h⟩ := bind_eq_ok_iff.mp h
    obtain rfl := pure_eq_ok_iff.mp h
    obtain ⟨argTys, hargTys, hsignature⟩ := bind_eq_ok_iff.mp hsignature
    refine bind_eq_ok_iff.mpr ⟨signature, ?_, rfl⟩
    refine bind_eq_ok_iff.mpr ⟨argTys, hargTys, atLine_eq_ok_iff.mpr ?_⟩
    exact Builtin.signature_own (atLine_eq_ok_iff.mp hsignature)

/-- An expression has its type also where that type is expected, whatever was expected when the type
was found. -/
theorem typeOf_own (h : typeOf scope e expected = .ok ty) :
    typeOf scope e (some ty) = .ok ty := by
  -- a rule that does not look at the expected type finds the same type again
  have hfixed {line : Nat} {result : Typed Ty}
      (h : (Typing.fixed line result).expecting expected = .ok ty) :
      (Typing.fixed line result).expecting (some ty) = .ok ty := by
    obtain ⟨found, hfound, rfl⟩ := Typing.expecting_fixed_eq_ok_iff.mp h
    exact Typing.expecting_fixed_eq_ok_iff.mpr
      ⟨found, hfound, (Ty.adopted_adopted found expected).symm⟩
  cases e with
  | literal line value =>
    refine Typing.expecting_own (fun found hfound => ?_) h
    exact atLine_eq_ok_iff.mpr (literalType_of_literalType (atLine_eq_ok_iff.mp hfound)).2
  | list line items =>
    -- the elements are checked against the same type once more
    obtain ⟨element, rfl, hcheck⟩ := typeOf_list_eq_ok h
    exact typeOf_list_own hcheck
  | dict line entries =>
    obtain ⟨big, key, value, rfl, hcheck⟩ := typeOf_dict_eq_ok h
    exact typeOf_dict_own hcheck
  | call line func args keywords =>
    rw [typeOf, typing_call] at h ⊢
    refine Typing.expecting_own (fun found hfound => ?_) h
    obtain ⟨callee, hcallee, hfound⟩ := bind_eq_ok_iff.mp hfound
    obtain ⟨result, hresult, hfound⟩ := bind_eq_ok_iff.mp hfound
    obtain ⟨rfl, -⟩ := settledResult_eq_ok_iff.mp hfound
    refine bind_eq_ok_iff.mpr ⟨callee, hcallee, ?_⟩
    refine bind_eq_ok_iff.mpr ⟨_, calleeResult_own hresult, ?_⟩
    exact settledResult_eq_ok_iff.mpr ⟨rfl, fun _ => ⟨_, rfl, Ty.fits_refl _⟩⟩
  | compare line left rest =>
    rcases rest with _ | ⟨⟨op, right⟩, _ | ⟨_, _⟩⟩ <;> exact hfixed h
  | name | tuple | attr | subscript | binary | unary | boolean => exact hfixed h

/-- Of two operands one is typed against its partner, and has that type against itself as well. -/
theorem typeOf_of_operandTypes {partner : Ty → Ty} {left right : Expr} {leftTy rightTy : Ty}
    (h : operandTypes partner left right (typing scope left) (typing scope right) =
      .ok (leftTy, rightTy)) :
    typeOf scope left (some leftTy) = .ok leftTy ∧
      typeOf scope right (some rightTy) = .ok rightTy := by
  rcases operandTypes_eq_ok h with ⟨-, -, hr, hl⟩ | ⟨hl, hr⟩
  · have hr : typeOf scope right none = .ok rightTy := hr
    have hl : typeOf scope left (some (partner rightTy)) = .ok leftTy := hl
    exact ⟨typeOf_own hl, typeOf_own hr⟩
  · have hl : typeOf scope left none = .ok leftTy := hl
    have hr : typeOf scope right (some (partner leftTy)) = .ok rightTy := hr
    exact ⟨typeOf_own hl, typeOf_own hr⟩

end Covenant
