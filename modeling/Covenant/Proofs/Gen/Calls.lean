import Covenant.Proofs.Gen.Tracked

/-!
# Covenant — calls, and the recursion over the tree

The rules for calls, for properties that follow the types. A call of a built-in takes its receiver, if
it has one, to the result that its signature gives. The signature is worked out a second time when
the call is emitted, against the type found the first time, and agrees with it
(`Builtin.result_of_adopted`). Only the name `transaction` denotes the built-in that transfers tokens
(`name?_of_calleeOf`), so an expression without a call of this name has no transfers.

With the rules for all kinds of expressions at hand, a tracked property holds of every expression
(`Gen.Tracked.operand`), and of assignments to the storage and to places inside variables.
-/

namespace Covenant

open Except Gen StackTy

variable {places : List Place} {root : Ident} {line : Nat}

/-! ## Calls of built-ins -/

namespace Invocation

/-- A literal that is no value of the type is the fault of the program. -/
theorem blameless_wrappedValue (name : Ident) (ty : Base) (literal : Expr) :
    Blameless (wrappedValue name ty literal) := by
  unfold wrappedValue
  split <;> try split
  all_goals simp

/-- The value of a wrapped literal is one of the type that wraps it. -/
theorem isOf_of_wrappedValue {name : Ident} {ty : Base} {literal : Expr} {value : Value}
    (h : wrappedValue name ty literal = .ok value) : value.isOf (.base ty) = true := by
  unfold wrappedValue at h
  split at h
  case h_5 | h_6 =>
    -- a number that must not be negative
    split at h
    · split at h
      · simp at h
      · next hn =>
        cases h
        simpa [Value.isOf] using Int64.not_lt.mp hn
    · simp at h
  case h_7 => simp at h
  all_goals
    split at h
    · cases h
      rfl
    · simp at h

end Invocation

namespace Gen.Tracked

open Operand

variable {here : Scope} {settled calls : Prop} {P : Triple} (h : Tracked here settled calls P)
  {t : List StackTy} {keywords : List (Ident × Operand)} {args : List Operand} {line : Nat}
include h

theorem literal_bind {β : Type} {call : Invocation} {next : Expr → Gen β}
    {post : β → List StackTy → Prop} (hnext : ∀ e, P t (next e) post) :
    P t (call.literal >>= next) post := by
  unfold Invocation.literal
  split
  · split
    · rw [pure_bind]
      exact hnext _
    · exact h.failAt_bind rfl
  · exact h.failAt_bind rfl

/-- The default is evaluated in the place of the looked-up option. -/
theorem getOr {key default : Operand} {big : Bool} {keyTy valueTy : Ty}
    (hkey : key.TrackedAs here settled P keyTy)
    (hdefault : default.TrackedAs here settled P valueTy) :
    P (.map big keyTy.stack valueTy.stack :: t) (Invocation.getOr key default keyTy valueTy)
      fun _ u => u = valueTy.stack :: t :=
  h.seq (hkey.1.pushAs h fun _ => hkey.2) fun _ =>
    h.seq (h.plain [keyTy.stack, .map big keyTy.stack valueTy.stack] rfl rfl (if_pos rfl)) fun _ =>
      h.orElse (hdefault.1.pushAs h fun _ => hdefault.2)

omit h in
/-- What a call of a built-in leaves in the place of its receiver: a value of the type. A transfer
leaves nothing, and `now` leaves the receiver where it is. -/
abbrev Answered (settled : Prop) (target : Builtin) (receives : Bool) (ty : Ty)
    (t u : List StackTy) : Prop :=
  (settled → ty.hasUnknown = false) ∧
    (u = ty.stack :: t ∨ u = t ∨ (t.length + 1 < u.length ∧ target = .now ∧ receives = true))

/-- A call whose result replaces the receiver. -/
theorem answers {target : Builtin} {receives : Bool} {ty : Ty} {step : Gen Unit}
    {u : List StackTy} (hknown : settled → ty.hasUnknown = false)
    (hstep : P t step fun _ v => v = ty.stack :: u) :
    P t step fun _ v => Answered settled target receives ty u v :=
  h.imp hstep fun _ _ hu => ⟨hknown, .inl hu⟩

/-- The code of a built-in takes the types of its receiver to those of its result. There is one case
for each built-in: the signature says which arguments have been pushed, and the machine which type
the last primitive leaves. -/
theorem invocation (call : Invocation) {target : Builtin} {site : CallSite}
    (hsignature : target.signature site = .ok call.signature)
    (hcalls : target = .transaction → calls) (hreceives : target.Receives site.receiver)
    (hknown : ∀ receiver ∈ site.receiver, settled → receiver.hasUnknown = false)
    (hargs : target.argumentKind = .values →
      AreTracked here settled P call.args call.signature.args)
    (htypes : target.argumentKind = .types → settled → ∀ ty ∈ site.args, ty.hasUnknown = false) :
    P ((site.receiver.map Ty.stack).toList ++ t) (call.emit target) fun _ u =>
      Answered settled target site.receiver.isSome call.signature.result t u := by
  obtain ⟨name, line, signature, args, keywords⟩ := call
  obtain ⟨receiver, typeParams, siteArgs, expected⟩ := site
  have hpush (hvalues : target.argumentKind = .values) {t : List StackTy} :
      P t (Invocation.pushArguments ⟨name, line, signature, args, keywords⟩) fun _ u =>
        u = (signature.args.map Ty.stack).reverse ++ t :=
    h.pushAll (hargs hvalues)
  cases target with
  | abs =>
    obtain rfl : receiver = none := hreceives
    cases hsignature
    exact h.seq (hpush rfl) fun _ => h.answers (fun _ => rfl) (h.plain [Ty.int.stack] rfl rfl rfl)
  | timedelta =>
    obtain rfl : receiver = none := hreceives
    cases hsignature
    simp only [Invocation.emit]
    split
    · refine h.answers (fun _ => rfl) (h.apply [] rfl (by simp) fun _ => ⟨rfl, ?_⟩)
      simp [Prim.types, Ty.hasUnknown]
    · exact h.failAt rfl
  | transaction =>
    obtain rfl : receiver = none := hreceives
    obtain ⟨param, rfl⟩ : ∃ param,
        signature = ⟨[.contract param, .mutez, param], .operation⟩ := by
      simp only [Builtin.signature] at hsignature
      split at hsignature
      · next param _ => exact ⟨param, (ok.inj hsignature).symm⟩
      · simp at hsignature
      · simp at hsignature
    exact h.imp (h.transfer (hcalls rfl) fun _ => hpush rfl) fun _ u hu =>
      ⟨fun _ => rfl, .inr (.inl hu)⟩
  | contract =>
    obtain rfl : receiver = none := hreceives
    cases hsignature
    refine h.seq (hpush rfl) fun _ => h.seq (h.apply [Ty.address.stack] rfl (by simp)
      fun _ => ⟨rfl, ?_⟩) fun _ => h.answers (fun _ => rfl) (h.unwrap _)
    simp [Prim.types, Ty.hasUnknown]
  | wrap ty =>
    obtain rfl : receiver = none := hreceives
    cases hsignature
    refine h.literal_bind fun e => h.typed_bind
      (sane_atLine.mpr (Invocation.blameless_wrappedValue name ty e)) fun value hvalue => ?_
    have hisOf := Invocation.isOf_of_wrappedValue (atLine_eq_ok_iff.mp hvalue)
    refine h.answers (fun _ => rfl) (h.apply [] rfl (by simp) fun _ => ⟨if_pos hisOf, ?_⟩)
    simp [Prim.types, Ty.hasUnknown]
  | listNew =>
    obtain rfl : receiver = none := hreceives
    obtain ⟨element, -, hsignature⟩ := Except.bind_eq_ok_iff.mp hsignature
    obtain rfl := Except.pure_eq_ok_iff.mp hsignature
    simp only [Invocation.emit]
    refine h.refuse rfl fun helement => ?_
    have helement : element.hasUnknown = false := by simpa using helement
    have hlist : (Ty.list element).hasUnknown = false := by rw [Ty.hasUnknown, helement]
    refine h.seq (h.apply [] rfl (by simp) fun _ => ⟨rfl, by simpa [Prim.types] using helement⟩)
      fun _ => h.answers (fun _ => hlist) (h.consAll fun o ho => ?_)
    have htyped := AreTracked.forall_replicate (hargs rfl) o ho
    exact ⟨htyped.1, fun _ => htyped.2⟩
  | listPrepend =>
    obtain ⟨element, rfl⟩ := hreceives
    cases hsignature
    exact h.seq (hpush rfl) fun _ => h.answers (hknown _ rfl)
      (h.plain [element.stack, .list element.stack] rfl rfl (if_pos rfl))
  | mapNew big =>
    obtain rfl : receiver = none := hreceives
    obtain ⟨result, hresult, hsignature⟩ := Except.bind_eq_ok_iff.mp hsignature
    obtain rfl := Except.pure_eq_ok_iff.mp hsignature
    obtain ⟨key, value, rfl⟩ : ∃ key value, result = .map big key value := by
      unfold Builtin.mapType at hresult
      split at hresult
      · exact ⟨_, _, (ok.inj hresult).symm⟩
      · split at hresult <;> exact ⟨_, _, (ok.inj hresult).symm⟩
      · simp at hresult
    simp only [Invocation.emit]
    refine h.refuse rfl fun hmap => ?_
    have hmap : (Ty.map big key value).hasUnknown = false := by simpa using hmap
    have hparts := hmap
    rw [Ty.hasUnknown, Bool.or_eq_false_iff] at hparts
    exact h.answers (fun _ => hmap)
      (h.apply [] rfl (by simp) fun _ => ⟨rfl, by simpa [Prim.types] using hparts⟩)
  | mapGet =>
    obtain ⟨big, key, value, rfl⟩ := hreceives
    cases hsignature
    obtain ⟨k, default, rfl, hk, hdefault⟩ := AreTracked.pair (hargs rfl)
    exact h.answers (known_of_map (hknown _ rfl)).2 (h.getOr hk hdefault)
  | mapAdd =>
    obtain ⟨big, key, value, rfl⟩ := hreceives
    cases hsignature
    obtain ⟨k, v, rfl, hk, hv⟩ := AreTracked.pair (hargs rfl)
    refine h.answers (hknown _ rfl) (h.insertAll fun e he => ?_)
    obtain rfl := List.mem_singleton.mp he
    exact ⟨⟨hk.1, fun _ => hk.2⟩, hv.1, fun _ => hv.2⟩
  | pack =>
    obtain rfl : receiver = none := hreceives
    cases hsignature
    exact h.seq (hpush rfl) fun _ => h.answers (fun _ => rfl) (h.plain [_] rfl rfl rfl)
  | unpack =>
    obtain rfl : receiver = some .bytes := hreceives
    obtain ⟨ty, rfl, rfl⟩ : ∃ ty, siteArgs = [ty] ∧ signature = ⟨[], ty⟩ := by
      simp only [Builtin.signature] at hsignature
      split at hsignature
      · next ty => exact ⟨ty, rfl, (ok.inj hsignature).symm⟩
      · simp at hsignature
    have hty (hsettled : settled) : ty.hasUnknown = false := htypes rfl hsettled ty (by simp)
    exact h.seq (h.apply [Ty.bytes.stack] rfl (by simp) fun hsettled =>
      ⟨rfl, by simpa [Prim.types] using hty hsettled⟩) fun _ => h.answers hty (h.unwrap _)
  | blake2b =>
    obtain rfl : receiver = some .bytes := hreceives
    cases hsignature
    exact h.answers (fun _ => rfl) (h.plain [Ty.bytes.stack] rfl rfl rfl)
  | now =>
    cases hsignature
    rcases hreceives with rfl | rfl
    · exact h.answers (fun _ => rfl) (h.plain [] rfl rfl rfl)
    · -- the code of `now` does not look at the receiver
      refine h.imp (h.plain [] rfl rfl rfl) fun _ u hu => ⟨fun _ => rfl, .inr (.inr ⟨?_, rfl, rfl⟩)⟩
      simp [hu]

/-- A call of a built-in leaves the type that typing has found for it. -/
theorem callBuiltin {name : Ident} {target : Builtin}
    {receiver : Option (Operand × Ty)} {typeParams : List Ty}
    {expected : Option Ty} {found : Signature} (hcalls : target = .transaction → calls)
    (hreceives : target.Receives (receiver.map (·.2))) (hreceiver : ∀ r ∈ receiver,
      r.1.Tracked here settled P ∧ (typing here r.1.expr).alone = .ok r.2)
    (hargs : ∀ o ∈ args, o.Tracked here settled P)
    (hfound : builtinSignature here.records line target (receiver.map (·.2)) typeParams
      (args.map Operand.expr) (aloneTypes (typings here (args.map Operand.expr))) expected =
        .ok found) :
    P t (callBuiltin line name target receiver typeParams args keywords
        (found.result.adopted expected)) fun _ u =>
      Answered settled target receiver.isSome (found.result.adopted expected) t u := by
  refine h.ask fun l' halike => h.typed_bind (agrees_builtinSignature (fixesRecords_refl _) _ _ _ _ _
    (agrees_aloneTypes (agrees_typings (fixesRecords_refl _) _)) _).sane fun signature hsignature => ?_
  rw [typings_of_alike halike] at hsignature
  -- typing has worked out the signature before, from the same arguments
  obtain ⟨siteArgs, hsiteArgs, hfound⟩ := Except.bind_eq_ok_iff.mp hfound
  obtain ⟨_, hagain, hsignature⟩ := Except.bind_eq_ok_iff.mp hsignature
  cases hsiteArgs.symm.trans hagain
  have hfound := atLine_eq_ok_iff.mp hfound
  have hsignature := atLine_eq_ok_iff.mp hsignature
  have htypes (hkind : target.argumentKind = .types) (hsettled : settled) :
      ∀ ty ∈ siteArgs, ty.hasUnknown = false := by
    rw [argumentTypes, hkind] at hsiteArgs
    exact TypeExpr.known_of_types (h.known hsettled).1 hsiteArgs
  have hcall (htyped : target.argumentKind = .values →
        AreTracked here settled P args signature.args) :
      P t (invoke line name signature target receiver args keywords) fun _ u =>
        Answered settled target receiver.isSome (found.result.adopted expected) t u := by
    refine h.seq (h.annotate _) fun _ => ?_
    -- the receiver has been pushed by now
    have hemit (hknown : ∀ r ∈ receiver, settled → r.2.hasUnknown = false)
        {written : List (Ident × Expr)} :
        P (((receiver.map (·.2)).map Ty.stack).toList ++ t)
          (Invocation.emit ⟨name, line, signature, args, written⟩ target) fun _ u =>
          Answered settled target receiver.isSome (found.result.adopted expected) t u := by
      refine h.mono (h.invocation ⟨name, line, signature, args, written⟩ hsignature hcalls
        hreceives ?_ htyped htypes) fun _ u hu => ?_
      · rintro ty hty
        obtain ⟨r, hr, rfl⟩ := Option.map_eq_some_iff.mp hty
        exact hknown r hr
      · -- the call leaves the type of its own signature, which is the one found before
        obtain ⟨hknown, hcases⟩ := hu
        have hresult (hsettled : settled) : signature.result = found.result.adopted expected :=
          Builtin.result_of_adopted hfound hsignature (hknown hsettled)
        have hsettles (hsettled : settled) :
            (found.result.adopted expected).hasUnknown = false :=
          hresult hsettled ▸ hknown hsettled
        rcases hcases with rfl | rfl | hnow
        · exact ⟨_, ⟨hsettles, .inl rfl⟩, rfl, fun hsettled => by rw [← hresult hsettled]⟩
        · exact ⟨_, ⟨hsettles, .inr (.inl rfl)⟩, rfl, fun _ => rfl⟩
        · exact ⟨u, ⟨hsettles, .inr (.inr (by simpa using hnow))⟩, rfl, fun _ => rfl⟩
    cases receiver with
    | none => exact hemit (by simp)
    | some r =>
      obtain ⟨htracked, halone⟩ := hreceiver r rfl
      exact htracked.valueOf h halone fun hknown => hemit (by simpa using hknown)
  refine h.ensure rfl fun _ => ite (fun _ => ?_) fun hother => ?_
  · exact h.checkArguments_bind name line hargs fun htyped => hcall fun _ => htyped
  · exact hcall fun hvalues => absurd hvalues hother

/-! ## Records and closures -/

/-- A record is one cell, unless it has no attributes. -/
theorem callRecord {name : Ident} {fields : Fields} (hrecord : here.records.get? name = some fields)
    (hargs : ∀ o ∈ args, o.Tracked here settled P) :
    P t (callRecord line name fields args keywords) fun _ u =>
      (settled → (Ty.record name fields).hasUnknown = false) ∧
        (u = (Ty.record name fields).stack :: t ∨ u = t) := by
  have hknown (hsettled : settled) : (Ty.record name fields).hasUnknown = false := by
    rw [Ty.hasUnknown]
    exact ((h.known hsettled).1 hrecord).2
  rw [Gen.callRecord, buildRecord_eq]
  refine h.ensure rfl fun _ => h.checkArguments_bind name line hargs fun htyped => ?_
  refine h.seq (h.pushAllReversed htyped) fun _ => ?_
  rw [← Ty.stacks_eq_map]
  refine ite (fun hmany => ?_) fun hfew => h.pure ⟨hknown, ?_⟩
  · exact h.imp (h.plain (Ty.stacks fields) (Ty.length_stacks fields) rfl (if_pos hmany))
      fun _ u hu => ⟨hknown, .inl hu⟩
  · -- a single attribute is the record, and of no attributes there is no cell
    rcases fields with _ | ⟨_, _ | _⟩
    · exact .inr rfl
    · exact .inl rfl
    · simp at hfew

/-- A closure leaves a value of the type that it declares. -/
theorem applyClosure {func arg : Operand} (hfunc : func.Tracked here settled P)
    (harg : arg.Tracked here settled P) {want result : Ty}
    (hclosure : (typing here func.expr).alone = .ok (.lambda want result)) :
    Pushes settled P t (applyClosure func arg want) result := by
  refine h.typeOf_bind fun ty hty => h.ensure rfl fun hwant => ?_
  subst hwant
  refine h.seq (h.annotate _) fun _ => hfunc.valueOf h hclosure fun hknown => ?_
  refine h.seq (harg.pushAs h fun _ => hty) fun _ => h.imp h.exec fun _ u hu =>
    ⟨fun hsettled => ?_, hu⟩
  have hboth := hknown hsettled
  rw [Ty.hasUnknown, Bool.or_eq_false_iff] at hboth
  exact hboth.2

/-- The argument is given by its place, or by the name of the formal argument. -/
theorem callClosure {func : Operand} (hfunc : func.Tracked here settled P)
    (hargs : ∀ o ∈ args, o.Tracked here settled P)
    (hkeywords : ∀ k ∈ keywords, k.2.Tracked here settled P) {want result : Ty}
    (hclosure : (typing here func.expr).alone = .ok (.lambda want result)) :
    Pushes settled P t (callClosure line func args keywords want) result := by
  unfold Gen.callClosure
  split
  · next arg => exact h.applyClosure hfunc (hargs arg (by simp)) hclosure
  · next keyword arg =>
    refine h.ask_layout fun l' _ => ?_
    split
    · refine ite (fun _ => ?_) fun _ => h.failAt rfl
      exact h.applyClosure hfunc (hkeywords (keyword, arg) (by simp)) hclosure
    · exact h.failAt rfl
  · exact h.failAt rfl

end Gen.Tracked

/-! ## Calls -/

theorem BuiltinClass.constructor_ne_transaction (cls : BuiltinClass) :
    cls.constructor ≠ .transaction := by
  cases cls <;> simp [constructor]

variable {scope : Scope}

/-- Only the name `transaction` denotes `transaction`. -/
theorem name?_of_calleeOf {func : Expr} {name : Ident} {receiver : Option Ty} {typeParams : List Ty}
    (h : calleeOf scope func = .ok (.builtin name .transaction receiver typeParams)) :
    func.name? = some "transaction" := by
  -- what is called as a value is a closure
  have hvalue {found : Typed Ty} (h : Callee.ofValue func found =
      .ok (.builtin name .transaction receiver typeParams)) : False := by
    obtain ⟨_, _, heq, -⟩ := Callee.ofValue_eq_ok h
    cases heq
  unfold calleeOf at h
  cases func with
  | name line id =>
    simp only [Callee.classify] at h
    split at h
    · exact (hvalue h).elim
    · unfold Callee.ofName at h
      split at h
      · cases h
      · split at h
        · next htarget =>
          cases h
          unfold Builtin.function? at htarget
          split at htarget <;> simp_all [Expr.name?]
        · split at h
          · next cls _ =>
            have htarget := (Callee.builtin.inj (ok.inj h)).2.1
            exact absurd htarget cls.constructor_ne_transaction
          · exact absurd h faultAt_ne_ok
  | attr line value field =>
    simp only [Callee.classify] at h
    split at h
    · next cls _ =>
      split at h
      · next hstatic =>
        cases h
        unfold BuiltinClass.staticMethod? at hstatic
        split at hstatic <;> simp at hstatic
      · exact absurd h faultAt_ne_ok
    · obtain ⟨receiverTy, -, h⟩ := bind_eq_ok_iff.mp h
      split at h
      · next hmethod =>
        cases pure_eq_ok_iff.mp h
        obtain ⟨cls, -, hmethod⟩ := Option.bind_eq_some_iff.mp hmethod
        unfold BuiltinClass.method? at hmethod
        split at hmethod <;> simp at hmethod
      · exact (hvalue h).elim
  | subscript line value index =>
    simp only [Callee.classify] at h
    split at h
    · next cls _ =>
      obtain ⟨_, -, h⟩ := bind_eq_ok_iff.mp h
      have htarget := (Callee.builtin.inj (pure_eq_ok_iff.mp h)).2.1
      exact absurd htarget cls.constructor_ne_transaction
    · exact (hvalue h).elim
  | _ =>
    simp only [Callee.classify] at h
    exact (hvalue h).elim

namespace Gen

variable {here : Scope} {settled calls : Prop} {P : Triple} {t : List StackTy}

/-- The code of a call at the type that the call has. -/
theorem Tracked.call (h : Tracked here settled calls P) {call : Call}
    (hcall : call.All (Operand.Tracked here settled P))
    (hname : call.func.expr.name? = some "transaction" → calls) {es : List Expr}
    (hes : call.args.map Operand.expr = es) {written : List (Ident × Expr)}
    {expected : Option Ty} {ty : Ty}
    (hty : Covenant.typeOf here (.call call.line call.func.expr es written) expected = .ok ty) :
    P t (call.emit ty) fun _ u =>
      (Expr.call call.line call.func.expr es written).Evaluated here settled ty t u := by
  subst hes
  obtain ⟨callee, found, hcallee, hfound, -, rfl⟩ := typeOf_call_eq_ok_iff.mp hty
  have hexplains := explains_of_calleeOf hcallee
  rw [Call.emit_eq]
  refine h.ask fun l' halike => h.typed_bind
    (agrees_calleeOf (fixesRecords_refl _) _).sane fun callee' hcallee' => ?_
  -- the callee is asked for again while values are on the stack
  rw [calleeOf_of_alike halike] at hcallee'
  obtain rfl := ok.inj (hcallee'.symm.trans hcallee)
  cases callee' with
  | record name fields =>
    cases hfound
    exact h.evaluated (h.callRecord hexplains.2.2 hcall.args) expected
  | closure want result =>
    cases hfound
    exact (h.callClosure hcall.func hcall.args hcall.keywords hexplains).evaluated h expected
  | builtin name target receiverTy typeParams =>
    obtain ⟨signature, hsignature, hresult⟩ := Except.bind_eq_ok_iff.mp hfound
    obtain rfl := Except.pure_eq_ok_iff.mp hresult
    obtain ⟨r, hr, rfl, htracked⟩ := hcall.exists_receiver hexplains
    rw [Call.invoke, hr]
    refine h.imp (h.callBuiltin ?_ hexplains.receives htracked hcall.args hsignature)
      fun _ u hu => ⟨hu.1, hu.2.imp id (Or.imp id (And.imp id ?_))⟩
    · rintro rfl
      exact hname (name?_of_calleeOf hcallee)
    · rintro ⟨rfl, hsome⟩
      obtain ⟨x, rfl⟩ := Option.isSome_iff_exists.mp hsome
      obtain ⟨funcLine, value, hexpr, hclass, -, hnow⟩ := hexplains.of_receiver
      obtain rfl := hnow rfl
      exact ⟨call.line, funcLine, value, _, written, by rw [hexpr], hclass⟩

end Gen

/-! ## The recursion over the tree -/

namespace Expr

theorem anyCallsTransaction_iff {es : List Expr} :
    anyCallsTransaction es = true ↔ ∃ e ∈ es, e.callsTransaction = true := by
  induction es with
  | nil => simp [anyCallsTransaction]
  | cons e es ih => simp [anyCallsTransaction, ih]

theorem anyEntryCallsTransaction_iff {entries : List (Expr × Expr)} :
    anyEntryCallsTransaction entries = true ↔
      ∃ e ∈ entries, e.1.callsTransaction = true ∨ e.2.callsTransaction = true := by
  induction entries with
  | nil => simp [anyEntryCallsTransaction]
  | cons e rest ih => simp [anyEntryCallsTransaction, ih]

theorem anyKeywordCallsTransaction_iff {keywords : List (Ident × Expr)} :
    anyKeywordCallsTransaction keywords = true ↔
      ∃ k ∈ keywords, k.2.callsTransaction = true := by
  induction keywords with
  | nil => simp [anyKeywordCallsTransaction]
  | cons k rest ih => simp [anyKeywordCallsTransaction, ih]

theorem anyComparandCallsTransaction_iff {rest : List (CmpOp × Expr)} :
    anyComparandCallsTransaction rest = true ↔ ∃ c ∈ rest, c.2.callsTransaction = true := by
  induction rest with
  | nil => simp [anyComparandCallsTransaction]
  | cons c rest ih => simp [anyComparandCallsTransaction, ih]

/-- The scan has seen every part that is compiled. -/
theorem callsTransaction_of_mem_parts {part e : Expr} (h : part ∈ e.parts)
    (hpart : part.callsTransaction = true) : e.callsTransaction = true := by
  cases e with
  | name _ _ | literal _ _ => simp [parts] at h
  | list _ items | tuple _ items | boolean _ _ items =>
    rw [callsTransaction]
    exact anyCallsTransaction_iff.mpr ⟨part, h, hpart⟩
  | dict _ entries =>
    obtain ⟨e, he, hmem⟩ := List.mem_flatMap.mp h
    rw [callsTransaction]
    refine anyEntryCallsTransaction_iff.mpr ⟨e, he, ?_⟩
    have hpair : part = e.1 ∨ part = e.2 := by simpa using hmem
    rcases hpair with rfl | rfl
    · exact .inl hpart
    · exact .inr hpart
  | attr _ value _ | unary _ _ value =>
    obtain rfl := List.mem_singleton.mp h
    rw [callsTransaction, hpart]
  | subscript _ a b | binary _ a _ b =>
    have hpair : part = a ∨ part = b := by simpa [parts] using h
    rw [callsTransaction, Bool.or_eq_true]
    rcases hpair with rfl | rfl
    · exact .inl hpart
    · exact .inr hpart
  | compare _ left rest =>
    rw [callsTransaction, Bool.or_eq_true, anyComparandCallsTransaction_iff]
    rcases List.mem_cons.mp h with rfl | h
    · exact .inl hpart
    · obtain ⟨c, hc, rfl⟩ := List.mem_map.mp h
      exact .inr ⟨c, hc, hpart⟩
  | call _ func args keywords =>
    simp only [parts, List.cons_append, List.mem_cons, List.mem_append, Option.mem_toList] at h
    simp only [callsTransaction, Bool.or_eq_true, anyCallsTransaction_iff,
      anyKeywordCallsTransaction_iff]
    rcases h with rfl | (h | h) | h
    · exact .inl (.inl (.inr hpart))
    · cases func with
      | attr _ value _ =>
        cases h
        exact .inl (.inl (.inr (by rw [callsTransaction, hpart])))
      | _ => cases h
    · exact .inl (.inr ⟨part, h, hpart⟩)
    · obtain ⟨k, hk, rfl⟩ := List.mem_map.mp h
      exact .inr ⟨k, hk, hpart⟩

end Expr

/-- The operands of expressions are these expressions. -/
theorem map_expr_operands (es : List Expr) : (operands es).map Operand.expr = es := by
  induction es with
  | nil => rfl
  | cons e es ih => rw [operands, List.map_cons, ih]

/-- What is checked of all elements holds of each. -/
theorem checkElement_of_mem_operands {want : Ty} : ∀ {es : List Expr},
    checkElements want (typings scope es) = .ok () →
    ∀ o ∈ operands es, checkElement want (typing scope o.expr) = .ok ()
  | [], _ => by simp [operands]
  | e :: es, h => by
    rw [typings, checkElements] at h
    obtain ⟨_, hfirst, hrest⟩ := bind_eq_ok_iff.mp h
    rw [operands]
    exact List.forall_mem_cons.mpr ⟨hfirst, checkElement_of_mem_operands hrest⟩

theorem checkElement_of_mem_entryOperands {key value : Ty} :
    ∀ {entries : List (Expr × Expr)},
    checkEntries key value (entryTypings scope entries) = .ok () →
    ∀ e ∈ entryOperands entries, checkElement key (typing scope e.1.expr) = .ok () ∧
      checkElement value (typing scope e.2.expr) = .ok ()
  | [], _ => by simp [entryOperands]
  | (k, v) :: rest, h => by
    rw [entryTypings, checkEntries] at h
    obtain ⟨_, hkey, h⟩ := bind_eq_ok_iff.mp h
    obtain ⟨_, hvalue, hrest⟩ := bind_eq_ok_iff.mp h
    rw [entryOperands]
    exact List.forall_mem_cons.mpr ⟨⟨hkey, hvalue⟩, checkElement_of_mem_entryOperands hrest⟩

theorem typeOf_bool_of_mem_operands : ∀ {es : List Expr},
    checkBooleans (typings scope es) = .ok () →
    ∀ o ∈ operands es, typeOf scope o.expr (some .bool) = .ok .bool
  | [], _ => by simp [operands]
  | e :: es, h => by
    rw [typings] at h
    obtain ⟨hfirst, hrest⟩ := checkBooleans_cons_eq_ok_iff.mp h
    rw [operands]
    exact List.forall_mem_cons.mpr ⟨hfirst, typeOf_bool_of_mem_operands hrest⟩

theorem typings_ne_nil {es : List Expr} (h : 2 ≤ (typings scope es).length) : operands es ≠ [] := by
  cases es with
  | nil => simp [typings] at h
  | cons e es => simp [operands]

namespace Gen.Tracked

variable {here : Scope} {settled calls : Prop} {P : Triple} (h : Tracked here settled calls P)
  {t : List StackTy}
include h

/-- An expression inherits the property from its parts. -/
theorem of_parts {e : Expr} (he : e.callsTransaction = true → calls)
    (hparts : ∀ part ∈ e.parts, part.operand.Tracked here settled P) :
    e.operand.Tracked here settled P := by
  intro expected ty t hty
  -- each rule has its lemma, and typing gives what the lemma asks for
  change P t (emitExpr e ty) _
  match e, he, hparts, hty with
  | .name _ id, _, _, hty =>
    obtain ⟨found, hfound, rfl⟩ := typeOf_name_eq_ok_iff.mp hty
    simp only [emitExpr]
    exact (h.emitName hfound).evaluated h expected
  | .literal _ value, _, _, hty =>
    obtain ⟨found, hfound, rfl⟩ := typeOf_literal_eq_ok_iff.mp hty
    have hknown := (literalType_of_literalType hfound).1
    have hpushes : Pushes settled P t (Gen.emitLiteral value (found.adopted expected)) found := by
      rw [Ty.adopted_of_known hknown]
      exact h.emitLiteral hfound
    simp only [emitExpr]
    exact hpushes.evaluated h expected
  | .list line items, _, hparts, hty =>
    obtain ⟨element, rfl, hitems⟩ := typeOf_list_eq_ok hty
    have hpushes : Pushes settled P t (Gen.emitList line (Covenant.operands items) (.list element))
        (.list element) :=
      h.emitList line fun o ho =>
        ⟨forall_mem_operands hparts o ho, checkElement_of_mem_operands hitems o ho⟩
    simp only [emitExpr]
    exact hpushes.evaluated h none
  | .tuple _ _, _, _, hty => exact absurd hty typeOf_tuple_ne_ok
  | .dict line entries, _, hparts, hty =>
    obtain ⟨big, key, value, rfl, hentries⟩ := typeOf_dict_eq_ok hty
    have hoperands := forall_mem_entryOperands hparts
    have hpushes : Pushes settled P t (Gen.emitDict line (entryOperands entries) (.map big key value))
        (.map big key value) := by
      refine h.emitDict line fun e he => ?_
      have hcheck := checkElement_of_mem_entryOperands hentries e he
      exact ⟨⟨(hoperands e he).1, hcheck.1⟩, (hoperands e he).2, hcheck.2⟩
    simp only [emitExpr]
    exact hpushes.evaluated h none
  | .attr line value field, _, hparts, hty =>
    obtain ⟨found, hfound, rfl⟩ := typeOf_attr_eq_ok_iff.mp hty
    have hvalue := hparts value (by simp [Expr.parts])
    simp only [emitExpr]
    exact (h.emitAttribute hvalue hfound).evaluated h expected
  | .subscript _ value index, _, hparts, hty =>
    obtain ⟨found, hfound, rfl⟩ := typeOf_subscript_eq_ok_iff.mp hty
    have hvalue := hparts value (by simp [Expr.parts])
    have hindex := hparts index (by simp [Expr.parts])
    simp only [emitExpr]
    exact (h.emitSubscript hvalue hindex hfound).evaluated h expected
  | .call line func args keywords, he, hparts, hty =>
    rw [emitExpr_call]
    refine h.call (Call.all_written line hparts) (fun hname => he ?_) (map_expr_operands args) hty
    have hname : func.name? = some "transaction" := hname
    simp [Expr.callsTransaction, hname]
  | .compare _ left rest, _, hparts, hty =>
    obtain ⟨op, right, rfl⟩ := typeOf_compare_eq_ok hty
    obtain ⟨found, hfound, rfl⟩ := typeOf_compare_eq_ok_iff.mp hty
    have hleft := hparts left (by simp [Expr.parts])
    have hright := hparts right (by simp [Expr.parts])
    simp only [emitExpr]
    exact (h.emitCompare hleft hright hfound).evaluated h expected
  | .binary _ left op right, _, hparts, hty =>
    obtain ⟨found, hfound, rfl⟩ := typeOf_binary_eq_ok_iff.mp hty
    have hleft := hparts left (by simp [Expr.parts])
    have hright := hparts right (by simp [Expr.parts])
    simp only [emitExpr]
    exact (h.emitBinary hleft hright hfound).evaluated h expected
  | .unary _ op operand, _, hparts, hty =>
    obtain ⟨found, hfound, rfl⟩ := typeOf_unary_eq_ok_iff.mp hty
    have hoperand := hparts operand (by simp [Expr.parts])
    simp only [emitExpr]
    exact (h.emitUnary hoperand hfound).evaluated h expected
  | .boolean _ op values, _, hparts, hty =>
    obtain ⟨found, hfound, rfl⟩ := typeOf_boolean_eq_ok_iff.mp hty
    obtain ⟨hmany, hbooleans, rfl⟩ := booleanType_eq_ok hfound
    have hpushes : Pushes settled P t (Gen.emitBoolean op (Covenant.operands values)) .bool :=
      h.emitBoolean (typings_ne_nil hmany) fun o ho =>
        ⟨forall_mem_operands hparts o ho, typeOf_bool_of_mem_operands hbooleans o ho⟩
    simp only [emitExpr]
    exact hpushes.evaluated h expected

/-- The code of every expression has the property. -/
theorem operand (e : Expr) (he : e.callsTransaction = true → calls) :
    e.operand.Tracked here settled P := by
  induction e using Expr.induction_parts with
  | step e ih =>
    exact h.of_parts he fun part hpart => ih part hpart fun hcalls =>
      he (Expr.callsTransaction_of_mem_parts hpart hcalls)

end Gen.Tracked

/-! ## Assignments -/

/-- The scan has seen the keys on the way to an assignment target. -/
theorem Expr.callsTransaction_of_place {index : Expr} (hindex : index.callsTransaction = true) :
    ∀ {target : Expr} {root : Ident} {places : List Place}, target.places? = some (root, places) →
      .key index ∈ places → target.callsTransaction = true
  | .name _ _, _, _, hplaces, hmem => by
    cases hplaces
    cases hmem
  | .attr line value field, _, _, hplaces, hmem => by
    rw [places?] at hplaces
    split at hplaces
    · cases hplaces
      cases hmem
    · obtain ⟨⟨root, inner⟩, hinner, heq⟩ := Option.map_eq_some_iff.mp hplaces
      obtain ⟨-, rfl⟩ := Prod.mk.inj heq
      have hmem : .key index ∈ inner := by simpa using hmem
      rw [callsTransaction]
      exact callsTransaction_of_place hindex hinner hmem
  | .subscript _ value key, _, _, hplaces, hmem => by
    obtain ⟨⟨root, inner⟩, hinner, heq⟩ := Option.map_eq_some_iff.mp hplaces
    obtain ⟨-, rfl⟩ := Prod.mk.inj heq
    rw [callsTransaction, Bool.or_eq_true]
    have hmem : .key index ∈ inner ∨ index = key := by simpa using hmem
    rcases hmem with hmem | rfl
    · exact .inl (callsTransaction_of_place hindex hinner hmem)
    · exact .inr hindex

/-- There is one step for each place. -/
theorem length_pathSteps {ty leaf : Ty} {steps : List PathStep}
    (h : pathSteps scope line ty places = .ok (steps, leaf)) : steps.length = places.length := by
  induction places generalizing ty steps with
  | nil =>
    cases h
    rfl
  | cons place rest ih =>
    cases place with
    | field attr =>
      obtain ⟨name, fields, node, inner, tail, -, -, htail, rfl⟩ := pathSteps_field_eq_ok_iff.mp h
      rw [List.length_cons, List.length_cons, ih htail]
    | key index =>
      obtain ⟨key, inner, tail, -, -, htail, rfl⟩ := pathSteps_key_eq_ok_iff.mp h
      rw [List.length_cons, List.length_cons, ih htail]

/-- A target that is neither a name nor the storage itself has a step to take. -/
theorem places_ne_nil {target : Expr} (hstorage : target.isStorage = false)
    (hname : target.name? = none) (h : target.places? = some (root, places)) : places ≠ [] := by
  cases target with
  | name line id => simp [Expr.name?] at hname
  | attr line value field =>
    rw [Expr.places?, hstorage] at h
    obtain ⟨_, -, heq⟩ := Option.map_eq_some_iff.mp h
    obtain ⟨-, rfl⟩ := Prod.mk.inj heq
    simp
  | subscript line value index =>
    rw [Expr.places?] at h
    obtain ⟨_, -, heq⟩ := Option.map_eq_some_iff.mp h
    obtain ⟨-, rfl⟩ := Prod.mk.inj heq
    simp
  | _ => simp [Expr.places?] at h

/-- Such a target is written to through at least one container. -/
theorem steps_ne_nil {target : Expr} (hstorage : target.isStorage = false)
    (hname : target.name? = none) (hplaces : target.places? = some (root, places)) {ty leaf : Ty}
    {steps : List PathStep} (h : pathSteps scope line ty places = .ok (steps, leaf)) :
    steps ≠ [] := by
  have hplace := List.length_pos_iff.mpr (places_ne_nil hstorage hname hplaces)
  rw [← length_pathSteps h] at hplace
  exact List.length_pos_iff.mp hplace

/-- The root of a path is a variable, or the storage. -/
theorem ty?_of_rootType {ty : Ty} (h : rootType scope line root = .ok ty) :
    scope.layout.ty? root = some ty := by
  unfold rootType at h
  split at h
  · next hroot => exact hroot ▸ ty?_of_storageType h
  · split at h
    · next hty => rw [hty, ok.inj h]
    · exact absurd h faultAt_ne_ok

/-- The step leads from a container of one type to a place of the other. -/
def PathStep.Leads (here : Scope) (settled : Prop) (P : Triple) (outer inner : Ty) :
    PathStep → Prop
  | .field name fields attr =>
    outer = .record name fields ∧ ∃ i, Fields.find? attr fields = some (i, inner)
  | .key index keyTy => index.Tracked here settled P ∧
    checkElement keyTy (typing here index.expr) = .ok () ∧ ∃ big, outer = .map big keyTy inner

/-- The steps lead from a value of the type to a place of the other. -/
def PathStep.Lead (here : Scope) (settled : Prop) (P : Triple) (leaf : Ty) :
    Ty → List PathStep → Prop
  | outer, [] => leaf = outer
  | outer, step :: rest =>
    ∃ inner, step.Leads here settled P outer inner ∧ Lead here settled P leaf inner rest

section

variable {here : Scope} {settled calls : Prop} {P : Triple} {t : List StackTy}

/-- The steps that typing works out lead from container to container. -/
theorem lead_of_pathSteps {l' : Layout} (halike : here.layout.Alike l') {line : Nat}
    {places : List Place} (hkeys : ∀ index, .key index ∈ places →
      index.operand.Tracked here settled P) {ty leaf : Ty} {steps : List PathStep}
    (h : pathSteps ⟨here.records, l'⟩ line ty places = .ok (steps, leaf)) :
    PathStep.Lead here settled P leaf ty steps := by
  induction places generalizing ty steps with
  | nil =>
    cases h
    rfl
  | cons place rest ih =>
    have hrest (index : Expr) (hmem : .key index ∈ rest) : index.operand.Tracked here settled P :=
      hkeys index (by simp [hmem])
    cases place with
    | field attr =>
      obtain ⟨name, fields, node, inner, tail, rfl, hnode, htail, rfl⟩ :=
        pathSteps_field_eq_ok_iff.mp h
      have hfound : ∃ i, Fields.find? attr fields = some (i, inner) := by
        rw [fieldNode_eq] at hnode
        split at hnode
        · next i ty hfind =>
          cases hnode
          exact ⟨i, hfind⟩
        · exact absurd hnode faultAt_ne_ok
      exact ⟨inner, ⟨rfl, hfound⟩, ih hrest htail⟩
    | key index =>
      obtain ⟨key, inner, tail, hentry, hkey, htail, rfl⟩ := pathSteps_key_eq_ok_iff.mp h
      rw [typing_of_alike halike] at hkey
      have hmap := Ty.keyValue?_eq_some hentry
      exact ⟨inner, ⟨hkeys index (by simp), hkey, hmap⟩, ih hrest htail⟩

/-- The parts of a container without unknown types have none. -/
theorem PathStep.known_of_leads {outer inner : Ty} {step : PathStep}
    (h : step.Leads here settled P outer inner) (hknown : settled → outer.hasUnknown = false) :
    settled → inner.hasUnknown = false := by
  cases step with
  | field name fields attr =>
    obtain ⟨rfl, i, hfind⟩ := h
    exact fun hsettled =>
      Ty.known_of_find? (by simpa only [Ty.hasUnknown] using hknown hsettled) hfind
  | key index key =>
    obtain ⟨-, -, big, rfl⟩ := h
    exact (Tracked.known_of_map hknown).2

namespace Gen.Tracked

variable (h : Tracked here settled calls P)
include h

/-- The container stays on the stack below its part. -/
theorem openStep {step : PathStep} {outer inner : Ty}
    (hstep : step.Leads here settled P outer inner) (hknown : settled → outer.hasUnknown = false) :
    P (outer.stack :: t) (openStep step) fun _ u => u = inner.stack :: outer.stack :: t := by
  unfold Gen.openStep
  rw [← bind_assoc]
  refine h.seq h.copy fun _ => ?_
  cases step with
  | field name fields attr =>
    obtain ⟨rfl, i, hfind⟩ := hstep
    exact h.readField hfind
  | key index key =>
    obtain ⟨hindex, hkey, big, rfl⟩ := hstep
    exact h.lookUp hindex (known_of_map hknown).1 hkey

/-- The part goes back to the place in the container that it was taken from. -/
theorem closeStep {step : PathStep} {outer inner : Ty}
    (hstep : step.Leads here settled P outer inner) (hknown : settled → outer.hasUnknown = false) :
    P (inner.stack :: outer.stack :: t) (closeStep step) fun _ u => u = outer.stack :: t := by
  cases step with
  | field name fields attr =>
    obtain ⟨rfl, i, hfind⟩ := hstep
    refine h.typed_bind (sane_fieldNode name fields attr) fun found hfound => ?_
    rw [fieldNode_eq, hfind] at hfound
    cases hfound
    have hnode := updateNode?_self (node?_comb
      (Ty.getElem?_stacks (Fields.getElem?_of_find? hfind)))
    rw [Ty.length_stacks] at hnode
    exact h.plain [inner.stack, (Ty.record name fields).stack] rfl rfl hnode
  | key index key =>
    obtain ⟨hindex, hkey, big, rfl⟩ := hstep
    have hkeyTy := (known_of_map hknown).1
    exact h.seq (h.plain [inner.stack] rfl rfl rfl) fun _ => h.seq
      (hindex.pushAs h fun hsettled => typeOf_of_checkElement (hkeyTy hsettled) hkey) fun _ =>
        h.plain [key.stack, .option inner.stack, .map big key.stack inner.stack] rfl rfl
          (if_pos ⟨rfl, rfl⟩)

/-- Writing into the container on top leaves a container of the same type. -/
theorem writeSteps {value : Gen Unit} {leaf : Ty}
    (hvalue : ∀ t, P t value fun _ u => u = leaf.stack :: t) :
    ∀ {steps : List PathStep} {outer : Ty} {t : List StackTy}, steps ≠ [] →
      PathStep.Lead here settled P leaf outer steps → (settled → outer.hasUnknown = false) →
      P (outer.stack :: t) (writeSteps value steps) fun _ u => u = outer.stack :: t
  | [], _, _, hne, _, _ => absurd rfl hne
  | [last], outer, t, _, hlead, hknown => by
    obtain ⟨inner, hlast, rfl⟩ := hlead
    exact h.seq (hvalue _) fun _ => h.closeStep hlast hknown
  | step :: next :: rest, outer, t, _, hlead, hknown => by
    obtain ⟨inner, hstep, hrest⟩ := hlead
    have hinner := PathStep.known_of_leads hstep hknown
    exact h.seq (h.openStep hstep hknown) fun _ =>
      h.seq (writeSteps hvalue (by simp) hrest hinner) fun _ => h.closeStep hstep hknown

/-- An assignment to a place inside a variable leaves the types as they are. -/
theorem assignPath {target value : Expr} (hstorage : target.isStorage = false)
    (hname : target.name? = none) (htarget : target.callsTransaction = true → calls)
    (hvalue : value.operand.Tracked here settled P) :
    P t (assignPath target value) fun _ u => u = t := by
  refine h.ask fun l' halike => h.typed_bind (Path.sane_resolve _ target) fun path hpath => ?_
  obtain ⟨places, root, hplaces, hroot, hsteps⟩ := Path.resolve_eq_ok hpath
  have hlead := lead_of_pathSteps halike (fun index hmem => h.operand index fun hcalls =>
    htarget (Expr.callsTransaction_of_place hcalls hplaces hmem)) hsteps
  have hsome : path.steps ≠ [] := steps_ne_nil hstorage hname hplaces hsteps
  have hty := (halike.ty? path.root).symm.trans (ty?_of_rootType hroot)
  refine h.checkFits_bind fun hfits => h.seq (h.fetch hty) fun _ => ?_
  exact h.seq (h.writeSteps (fun _ => hvalue.pushAs h fun _ => hfits) hsome hlead fun hsettled =>
    (h.known hsettled).2 hty) fun _ => h.replace hty

/-- An assignment to the storage leaves the types as they are. -/
theorem assignStorage {value : Operand} (hvalue : value.Tracked here settled P) :
    P t (assignStorage value) fun _ u => u = t := by
  unfold Gen.assignStorage storageType
  rw [bind_assoc]
  refine h.ask fun l' halike => h.typed_bind (sane_storageType _) fun want hwant => ?_
  rw [storageType_of_alike halike] at hwant
  exact h.checkFits_bind fun hfits => h.seq (hvalue.pushAs h fun _ => hfits) fun _ =>
    h.replace (ty?_of_storageType hwant)

end Gen.Tracked

end

end Covenant
