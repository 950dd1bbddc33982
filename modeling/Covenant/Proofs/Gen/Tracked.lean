import Covenant.Proofs.Gen.Counted
import Covenant.Proofs.Machine.Types
import Covenant.Proofs.Typing.Faults
import Covenant.Syntax.Transaction

/-!
# Covenant — properties of steps that follow the types

While an expression is compiled the variables stay where they are, and intermediate values come and
go on top of them. `Gen.Tracked P` says of a property `P t step post` that it is inherited by the
rules which the code of expressions is put together from, where `t` are the types of the intermediate
values before the step and `post` holds of its result and of the types after it. Such a property
holds of the code of every expression (`Tracked.operand`) and of assignments to places inside
variables (`Tracked.assignPath`), so the rules are gone through once for all of them.

A rule may rely on what typing has found out, as the types are those of one layout. It is shown that
no rule runs into an inconsistency of the generator, so that the property has to say nothing about
these. Two conditions come in from outside:

* `settled` — records and variables have types without unknown parts. Where it does not hold, the
  types on the stack are only a count of cells.
* `calls` — the expression calls `transaction`. Nothing else may transfer tokens or miss the list of
  pending operations.

Calls are in `Covenant.Proofs.Gen.Calls`.
-/

namespace Covenant

open StackTy

/-! ## Primitives -/

/-- The type operands of a primitive. -/
def Prim.types : Prim → List Ty
  | push ty _ | nil ty | unpack ty | contract ty => [ty]
  | emptyMap _ key value => [key, value]
  | _ => []

/-- The primitive has no type operands and transfers no tokens. -/
def Prim.isPlain : Prim → Bool
  | push _ _ | nil _ | unpack _ | contract _ | emptyMap _ _ _ | transferTokens => false
  | _ => true

theorem Prim.of_isPlain {p : Prim} (h : p.isPlain = true) : p.types = [] ∧ p ≠ .transferTokens := by
  cases p <;> simp_all [isPlain, types]

namespace Gen

/-! ## Properties that rules inherit -/

/-- A property of steps between the types of the intermediate values before them and after them. -/
abbrev Triple : Type 1 :=
  ∀ ⦃α : Type⦄, List StackTy → Gen α → (α → List StackTy → Prop) → Prop

/-- The step leaves one cell more, of a type that is settled if those of the variables are. -/
def Pushes (settled : Prop) (P : Triple) (t : List StackTy) (step : Gen Unit) (found : Ty) : Prop :=
  P t step fun _ u => (settled → found.hasUnknown = false) ∧ u = found.stack :: t

/-- A transfer of tokens, whose arguments a step pushes. -/
def transfer (line : Nat) (push : Gen Unit) : Gen Unit := do
  unless (← layout).binds Layout.operationsName do
    failAt line (.unsupported .strayTransaction)
  fetch Layout.operationsName
  push
  apply .transferTokens
  apply .cons
  replace Layout.operationsName

/-- The property holds of the steps that expressions are put together from, on top of one layout, and
sequences inherit it. -/
structure Tracked (here : Scope) (settled calls : Prop) (P : Triple) : Prop where
  known : settled → here.records.Settled ∧
    ∀ {name : Ident} {ty : Ty}, here.layout.ty? name = some ty → ty.hasUnknown = false
  /-- Unless types are settled, only their number matters. -/
  mono : ∀ {α : Type} {t : List StackTy} {step : Gen α} {post post' : α → List StackTy → Prop},
    P t step post → (∀ a u, post a u → ∃ u', post' a u' ∧ u'.length = u.length ∧
      (settled → u' = u)) → P t step post'
  bind : ∀ {α β : Type} {t : List StackTy} {step : Gen α} {next : α → Gen β}
    {post : α → List StackTy → Prop} {post' : β → List StackTy → Prop}, P t step post →
    (∀ a u, post a u → P u (next a) post') → P t (step >>= next) post'
  pure : ∀ {α : Type} {t : List StackTy} {a : α} {post : α → List StackTy → Prop}, post a t →
    P t (Pure.pure a) post
  ask : ∀ {α : Type} {t : List StackTy} {next : Scope → Gen α} {post : α → List StackTy → Prop},
    (∀ l', here.layout.Alike l' → P t (next ⟨here.records, l'⟩) post) → P t (scope >>= next) post
  typed_bind : ∀ {α β : Type} {t : List StackTy} {outcome : Typed α} {next : α → Gen β}
    {post : β → List StackTy → Prop}, Sane outcome → (∀ a, outcome = .ok a → P t (next a) post) →
    P t (typed outcome >>= next) post
  seen : ∀ {t : List StackTy} (line : Nat), P t (seen line) fun _ u => u = t
  annotate : ∀ {t : List StackTy} (note : Note), P t (annotate note) fun _ u => u = t
  apply : ∀ (args : List StackTy) {t : List StackTy} {p : Prim} {result : StackTy},
    args.length = p.arity → p ≠ .transferTokens →
    (settled → result? p args = some result ∧ ∀ ty ∈ p.types, ty.hasUnknown = false) →
    P (args ++ t) (apply p) fun _ u => u = result :: t
  fetch : ∀ {t : List StackTy} {name : Ident} {ty : Ty}, here.layout.ty? name = some ty →
    P t (fetch name) fun _ u => u = ty.stack :: t
  /-- Whether a name is that of a variable is a question for the slots, its type one for the types. -/
  emitName : ∀ {t : List StackTy} {id : Ident} {found : Ty}, nameType here id = .ok found →
    Pushes settled P t (emitName id) found
  replace : ∀ {t : List StackTy} {name : Ident} {ty : Ty}, here.layout.ty? name = some ty →
    P (ty.stack :: t) (replace name) fun _ u => u = t
  copy : ∀ {t : List StackTy} {x : StackTy},
    P (x :: t) (do emit (.dup 1); push 1) fun _ u => u = x :: x :: t
  unwrap : ∀ {t : List StackTy} {x : StackTy} (message : String),
    P (.option x :: t) (emit (unwrapOr message)) fun _ u => u = x :: t
  exec : ∀ {t : List StackTy} {a r : StackTy},
    P (a :: .lambda a r :: t) (do emit .exec; pop 1) fun _ u => u = r :: t
  /-- An operand that leaves one cell. -/
  value : ∀ {t : List StackTy} {o : Operand} {expected : Option Ty}
    {post post' : Ty → List StackTy → Prop}, P t (o.compile expected) post →
    (∀ ty u, post ty u → ∃ u', post' ty u' ∧ u'.length = t.length + 1 ∧
      (settled → u.length = t.length + 1 → u' = u)) → P t (o.value expected) post'
  orElse : ∀ {t : List StackTy} {x : StackTy} {step : Gen Unit},
    P t step (fun _ u => u = x :: t) → P (.option x :: t) (orElse step) fun _ u => u = x :: t
  transfer : ∀ {t : List StackTy} {param : StackTy} {line : Nat} {push : Gen Unit}, calls →
    (∀ t, P t push fun _ u => u = param :: Ty.mutez.stack :: .contract param :: t) →
    P t (transfer line push) fun _ u => u = t

namespace Tracked

variable {here : Scope} {settled calls c : Prop} {P : Triple} (h : Tracked here settled calls P)
  {α β : Type} {t : List StackTy} {post : α → List StackTy → Prop} {next : Unit → Gen α}
  {cause : Cause} {line : Nat}
include h

/-! ## Checks and questions -/

/-- A weaker condition on the result. -/
theorem imp {step : Gen α} {post post' : α → List StackTy → Prop} (hstep : P t step post)
    (hpost : ∀ a u, post a u → post' a u) : P t step post' :=
  h.mono hstep fun a u hu => ⟨u, hpost a u hu, rfl, fun _ => rfl⟩

/-- The type of the cell on top is known to be settled. -/
theorem pushes {step : Gen Unit} {found : Ty} {u : List StackTy}
    (hknown : settled → found.hasUnknown = false)
    (hstep : P t step fun _ v => v = found.stack :: u) :
    P t step fun _ v => (settled → found.hasUnknown = false) ∧ v = found.stack :: u :=
  h.imp hstep fun _ _ hu => ⟨hknown, hu⟩

/-- A sequence whose first step leaves certain types. -/
theorem seq {step : Gen α} {next : α → Gen β} {v : List StackTy} {post : β → List StackTy → Prop}
    (hstep : P t step fun _ u => u = v) (hnext : ∀ a, P v (next a) post) :
    P t (step >>= next) post :=
  h.bind hstep fun a _ hu => hu ▸ hnext a

/-- Rejecting the program has the property, as nothing is left behind. -/
theorem failAt_bind {next : α → Gen β} {post : β → List StackTy → Prop}
    (hcause : cause.beyondTyping = false) : P t (Gen.failAt line cause >>= next) post :=
  h.typed_bind hcause fun _ ha => absurd ha faultAt_ne_ok

theorem failAt (hcause : cause.beyondTyping = false) : P t (failAt line cause) post := by
  rw [← bind_pure (Gen.failAt line cause)]
  exact h.failAt_bind hcause

omit h in
theorem ite {step step' : Gen α} [Decidable c] (hthen : c → P t step post)
    (helse : ¬c → P t step' post) : P t (if c then step else step') post := by
  split
  · next hc => exact hthen hc
  · next hc => exact helse hc

/-- What follows a check may rely on what is checked. -/
theorem ensure [Decidable c] (hcause : cause.beyondTyping = false)
    (hnext : c → P t (next ()) post) :
    P t (if c then next () else Gen.failAt line cause >>= next) post :=
  ite hnext fun _ => h.failAt_bind hcause

theorem refuse [Decidable c] (hcause : cause.beyondTyping = false)
    (hnext : ¬c → P t (next ()) post) :
    P t (if c then Gen.failAt line cause >>= next else next ()) post :=
  ite (fun _ => h.failAt_bind hcause) hnext

/-- A question to the layout is one to the scope. -/
theorem ask_layout {next : Layout → Gen α}
    (hnext : ∀ l', here.layout.Alike l' → P t (next l') post) :
    P t (layout >>= next) post := by
  have hscope : (layout >>= next) = scope >>= fun scope => next scope.layout := by
    funext config state
    rw [layout_bind, scope_bind]
  rw [hscope]
  exact h.ask hnext

/-- Types do not depend on the values on top. -/
theorem typeOf_bind {e : Expr} {expected : Option Ty} {next : Ty → Gen α}
    (hnext : ∀ ty, Covenant.typeOf here e expected = .ok ty → P t (next ty) post) :
    P t (typeOf e expected >>= next) post := by
  rw [typeOf, bind_assoc]
  refine h.ask fun l' halike => h.typed_bind (sane_typeOf _ e expected) fun ty hty => ?_
  rw [typeOf_of_alike halike] at hty
  exact hnext ty hty

/-- What fits a wanted type has it. -/
theorem checkFits_bind {value : Expr} {want : Ty}
    (hnext : Covenant.typeOf here value (some want) = .ok want → P t (next ()) post) :
    P t (checkFits value want >>= next) post := by
  rw [checkFits, bind_assoc]
  refine h.typeOf_bind fun found hfound => ?_
  by_cases hfits : found.fits want = true
  · rw [if_pos hfits, pure_bind]
    exact hnext (typeOf_eq_of_fits hfound hfits ▸ hfound)
  · rw [if_neg hfits]
    exact h.failAt_bind rfl

/-- A primitive that only moves values. -/
theorem plain (args : List StackTy) {p : Prim} {result : StackTy} (hargs : args.length = p.arity)
    (hplain : p.isPlain = true) (hresult : result? p args = some result) :
    P (args ++ t) (Gen.apply p) fun _ u => u = result :: t := by
  obtain ⟨htypes, hother⟩ := Prim.of_isPlain hplain
  exact h.apply args hargs hother fun _ => ⟨hresult, by simp [htypes]⟩

end Tracked

end Gen

/-! ## Operands -/

open Gen

/-- The types after the code of an expression of the type: its own is on top, the two exceptions
apart. A transfer leaves no cell, and `now` called on a value leaves the value as well. -/
def Expr.Evaluated (scope : Scope) (settled : Prop) (e : Expr) (ty : Ty) (t u : List StackTy) :
    Prop :=
  (settled → ty.hasUnknown = false) ∧
    (u = ty.stack :: t ∨ u = t ∨ (t.length + 1 < u.length ∧ NowOnValue scope e))

/-- The code of the operand has the property, at a type that the operand has. -/
def Operand.Tracked (here : Scope) (settled : Prop) (P : Triple) (o : Operand) :
    Prop :=
  ∀ ⦃expected : Option Ty⦄ ⦃ty : Ty⦄ (t : List StackTy),
    typeOf here o.expr expected = .ok ty →
    P t (o.emit ty) fun _ u => o.expr.Evaluated here settled ty t u

section

variable {here : Scope} {settled calls : Prop} {P : Triple} {o : Operand}
  {t : List StackTy} {expected : Option Ty}

namespace Operand

section Values

variable (ho : o.Tracked here settled P) (h : Gen.Tracked here settled calls P)
include ho h

/-- The type of an operand is asked for before its code is emitted. -/
theorem Tracked.compile : P t (o.compile expected) fun ty u => typeOf here o.expr expected = .ok ty ∧
      o.expr.Evaluated here settled ty t u :=
  h.typeOf_bind fun _ hty => h.seq (h.seen _) fun _ => h.bind (ho t hty) fun _ _ hu =>
    h.pure ⟨hty, hu⟩

/-- A value is one more cell, of the type that the value has. -/
theorem Tracked.value : P t (o.value expected) fun ty u => typeOf here o.expr expected = .ok ty ∧
      (settled → ty.hasUnknown = false) ∧ u = ty.stack :: t := by
  refine h.value (ho.compile h) fun ty u hu => ?_
  obtain ⟨hty, hknown, hcases⟩ := hu
  refine ⟨ty.stack :: t, ⟨hty, hknown, rfl⟩, rfl, fun _ hlength => ?_⟩
  -- exactly one new cell rules out both exceptions
  rcases hcases with hu | rfl | ⟨hmore, -⟩
  · exact hu.symm
  · simp at hlength
  · omega

/-- A value whose own type is known beforehand. -/
theorem Tracked.valueOf {ty : Ty} (hty : (typing here o.expr).alone = .ok ty) {β : Type}
    {next : Ty → Gen β} {post : β → List StackTy → Prop}
    (hnext : (settled → ty.hasUnknown = false) → P (ty.stack :: t) (next ty) post) :
    P t (o.value none >>= next) post := by
  refine h.bind (ho.value h) fun found u hu => ?_
  obtain ⟨hfound, hknown, rfl⟩ := hu
  cases hfound.symm.trans hty
  exact hnext hknown

/-- An operand that stands where its type is expected. -/
theorem Tracked.pushAs {want : Ty}
    (hwant : settled → typeOf here o.expr (some want) = .ok want) :
    P t (o.pushAs want) fun _ u => u = want.stack :: t := by
  have hvalue : P t (o.value (some want)) fun _ u => u = want.stack :: t := by
    refine h.mono (ho.value h) fun ty u hu => ?_
    obtain ⟨hty, -, rfl⟩ := hu
    refine ⟨_, rfl, rfl, fun hsettled => ?_⟩
    rw [Except.ok.inj (hty.symm.trans (hwant hsettled))]
  exact h.seq hvalue fun _ => h.pure rfl

end Values

/-- The operand has the property and a certain type. -/
def TrackedAs (here : Scope) (settled : Prop) (P : Triple) (o : Operand) (want : Ty) : Prop :=
  o.Tracked here settled P ∧ typeOf here o.expr (some want) = .ok want

/-- The operands have the property and the types that stand in the same places. -/
def AreTracked (here : Scope) (settled : Prop) (P : Triple) :
    List Operand → List Ty → Prop
  | o :: os, want :: wants =>
    o.TrackedAs here settled P want ∧ AreTracked here settled P os wants
  | [], [] => True
  | _, _ => False

theorem AreTracked.forall_replicate {element : Ty} : ∀ {os : List Operand} {n : Nat},
    AreTracked here settled P os (List.replicate n element) →
      ∀ o ∈ os, o.TrackedAs here settled P element
  | [], _, _ => by simp
  | o :: os, 0, h => absurd h (by simp [AreTracked])
  | o :: os, n + 1, h => by
    rw [List.replicate_succ, AreTracked] at h
    exact List.forall_mem_cons.mpr ⟨h.1, AreTracked.forall_replicate h.2⟩

theorem AreTracked.pair {os : List Operand} {first second : Ty}
    (h : AreTracked here settled P os [first, second]) : ∃ o o', os = [o, o'] ∧
      o.TrackedAs here settled P first ∧ o'.TrackedAs here settled P second := by
  rcases os with _ | ⟨o, _ | ⟨o', _ | ⟨_, _⟩⟩⟩ <;> simp only [AreTracked, and_false] at h
  exact ⟨o, o', rfl, h.1, h.2.1⟩

end Operand

namespace Gen.Tracked

open Operand

variable (h : Gen.Tracked here settled calls P)
include h

/-- The last operand ends up on top. -/
theorem pushAll : ∀ {os : List Operand} {wants : List Ty} {t : List StackTy},
    AreTracked here settled P os wants →
    P t (pushAll os wants) fun _ u => u = (wants.map Ty.stack).reverse ++ t
  | [], [], _, _ => h.pure rfl
  | _ :: _, _ :: _, _, hos => by
    refine h.seq (hos.1.1.pushAs h fun _ => hos.1.2) fun _ => ?_
    exact h.imp (pushAll hos.2) fun _ u hu => by simp [hu]

/-- The first operand ends up on top. -/
theorem pushAllReversed : ∀ {os : List Operand} {wants : List Ty} {t : List StackTy},
    AreTracked here settled P os wants →
    P t (pushAllReversed os wants) fun _ u => u = wants.map Ty.stack ++ t
  | [], [], _, _ => h.pure rfl
  | _ :: _, _ :: _, _, hos =>
    h.seq (pushAllReversed hos.2) fun _ => hos.1.1.pushAs h fun _ => hos.1.2

/-- Elements go into the list below them. -/
theorem consAll {element : Ty} : ∀ {os : List Operand},
    (∀ o ∈ os, o.Tracked here settled P ∧ (settled →
      Covenant.typeOf here o.expr (some element) = .ok element)) →
    P (.list element.stack :: t) (consAll element os) fun _ u => u = .list element.stack :: t
  | [], _ => h.pure rfl
  | o :: os, hos => by
    obtain ⟨ho, hrest⟩ := List.forall_mem_cons.mp hos
    exact h.seq (consAll hrest) fun _ => h.seq (ho.1.pushAs h ho.2) fun _ =>
      h.plain [element.stack, .list element.stack] rfl rfl (if_pos rfl)

/-- Keys and values go into the map below them. -/
theorem insertAll {big : Bool} {key value : Ty} : ∀ {entries : List (Operand × Operand)},
    (∀ e ∈ entries, (e.1.Tracked here settled P ∧ (settled →
        Covenant.typeOf here e.1.expr (some key) = .ok key)) ∧
      (e.2.Tracked here settled P ∧ (settled →
        Covenant.typeOf here e.2.expr (some value) = .ok value))) →
    P (.map big key.stack value.stack :: t) (insertAll key value entries) fun _ u =>
      u = .map big key.stack value.stack :: t
  | [], _ => h.pure rfl
  | (k, v) :: rest, hentries => by
    obtain ⟨⟨hk, hv⟩, hrest⟩ := List.forall_mem_cons.mp hentries
    exact h.seq (insertAll hrest) fun _ => h.seq (hv.1.pushAs h hv.2) fun _ =>
      h.seq (h.plain [value.stack] rfl rfl rfl) fun _ => h.seq (hk.1.pushAs h hk.2) fun _ =>
        h.plain [key.stack, .option value.stack, .map big key.stack value.stack] rfl rfl
          (if_pos ⟨rfl, rfl⟩)

/-- Checked arguments have the types that the callee declares. -/
theorem checkArguments_bind {β : Type} {next : Unit → Gen β} {post : β → List StackTy → Prop}
    (name : Ident) (line : Nat) {args : List Operand} {wants : List Ty}
    (hargs : ∀ o ∈ args, o.Tracked here settled P)
    (hnext : AreTracked here settled P args wants → P t (next ()) post) :
    P t (checkArguments name line args wants >>= next) post := by
  -- the numbers agree, so the types are checked in pairs
  have htypes : ∀ {os : List Operand} {wants : List Ty},
      (∀ o ∈ os, o.Tracked here settled P) → os.length = wants.length →
      P t (checkTypes name os wants) fun _ u => u = t ∧ AreTracked here settled P os wants := by
    intro os
    induction os with
    | nil =>
      rintro (_ | _) _ hlength
      · exact h.pure ⟨rfl, trivial⟩
      · cases hlength
    | cons o os ih =>
      rintro (_ | ⟨want, wants⟩) hos hlength
      · cases hlength
      obtain ⟨ho, hrest⟩ := List.forall_mem_cons.mp hos
      refine h.typeOf_bind fun ty hty => h.ensure rfl fun hfits => ?_
      refine h.imp (ih hrest (Nat.succ.inj hlength)) fun _ u hu => ⟨hu.1, ⟨ho, ?_⟩, hu.2⟩
      exact typeOf_eq_of_fits hty hfits ▸ hty
  unfold checkArguments
  by_cases hlength : args.length = wants.length
  · rw [if_pos hlength]
    refine h.bind (htypes hargs hlength) fun _ u hu => ?_
    obtain ⟨rfl, htyped⟩ := hu
    exact hnext htyped
  · rw [if_neg hlength, bind_assoc]
    exact h.failAt_bind rfl

end Gen.Tracked

/-! ## Rules -/

/-- A settled type is also the type that the expression has where some type is expected. -/
theorem Gen.Tracked.evaluated (h : Gen.Tracked here settled calls P) {step : Gen Unit} {found : Ty}
    (hstep : P t step fun _ u => (settled → found.hasUnknown = false) ∧
      (u = found.stack :: t ∨ u = t)) (expected : Option Ty) {e : Expr} :
    P t step fun _ u => e.Evaluated here settled (found.adopted expected) t u := by
  refine h.mono hstep fun _ u hu => ?_
  obtain ⟨hknown, hcases⟩ := hu
  have hsame (hsettled : settled) : found.adopted expected = found :=
    Ty.adopted_of_known (hknown hsettled) expected
  have hadopted (hsettled : settled) : (found.adopted expected).hasUnknown = false := by
    rw [hsame hsettled]
    exact hknown hsettled
  rcases hcases with rfl | rfl
  · exact ⟨_, ⟨hadopted, .inl rfl⟩, rfl, fun hsettled => by rw [hsame hsettled]⟩
  · exact ⟨_, ⟨hadopted, .inr (.inl rfl)⟩, rfl, fun _ => rfl⟩

/-- One more cell of the type is the ordinary outcome. -/
theorem Gen.Pushes.evaluated {step : Gen Unit} {found : Ty} (hstep : Pushes settled P t step found)
    (h : Gen.Tracked here settled calls P) (expected : Option Ty) {e : Expr} :
    P t step fun _ u => e.Evaluated here settled (found.adopted expected) t u :=
  h.evaluated (h.imp hstep fun _ _ hu => ⟨hu.1, .inl hu.2⟩) expected

end

/-! ### What typing says of primitives -/

namespace Gen

variable {found : Ty} {op : BinOp}

theorem Builtin.typed_of_constant? {id : Ident} {ty : Ty} {p : Prim}
    (h : Builtin.constant? id = some (ty, p)) :
    ty.hasUnknown = false ∧ p.arity = 0 ∧ p.isPlain = true ∧ result? p [] = some ty.stack := by
  unfold Builtin.constant? at h
  split at h <;> cases h <;> exact ⟨rfl, rfl, rfl, rfl⟩

/-- On a well-formed layout a name with a type has a slot, unless it is that of a constant. -/
theorem nameType_of_wellFormed {records : Records} {l : Layout} {id : Ident} (hl : l.WellFormed)
    (h : nameType ⟨records, l⟩ id = .ok found) :
    (l.binds id = true ∧ l.ty? id = some found) ∨
      (l.binds id = false ∧ ∃ p, Builtin.constant? id = some (found, p)) := by
  rcases nameType_eq_ok h with hty | ⟨hnone, hconstant⟩
  · exact .inl ⟨hl.binds_of_ty? hty, hty⟩
  · exact .inr ⟨hl.ty?_eq_none_iff.mp hnone, hconstant⟩

/-- The fields of a record without unknown parts have none. -/
theorem Ty.known_of_find? {fields : Fields} (hknown : Ty.hasUnknownField fields = false)
    {attr : Ident} {i : Nat} {ty : Ty} (h : Fields.find? attr fields = some (i, ty)) :
    ty.hasUnknown = false :=
  Ty.known_of_mem hknown (List.mem_of_getElem? (Fields.getElem?_of_find? h))

/-- A type with keys and values is that of a map. -/
theorem Ty.keyValue?_eq_some {map key value : Ty} (h : map.keyValue? = some (key, value)) :
    ∃ big, map = .map big key value := by
  cases map with
  | map big k v =>
    cases h
    exact ⟨big, rfl⟩
  | _ => simp [Ty.keyValue?] at h

/-- Every comparison of values has a test, which reads the outcome of `COMPARE`. -/
theorem exists_comparisonTest? {op : CmpOp} (hisIn : op ≠ .isIn) (hnotIn : op ≠ .notIn)
    (hsame : op ≠ .same) (hnotSame : op ≠ .notSame) :
    ∃ test, comparisonTest? op = some test ∧ test.arity = 1 ∧ test.isPlain = true ∧
      result? test [Ty.int.stack] = some Ty.bool.stack := by
  cases op <;> first | contradiction | exact ⟨_, rfl, rfl, rfl, rfl⟩

/-- Arithmetic is on numbers, points in time and text. -/
theorem arithmeticResult?_eq_some {left right : Ty}
    (h : arithmeticResult? op left right = some found) :
    ∃ a b, left = .base a ∧ right = .base b ∧ found.hasUnknown = false := by
  unfold arithmeticResult? at h
  split at h
  all_goals
    first
    | cases h
      exact ⟨_, _, rfl, rfl, rfl⟩
    | simp at h

/-- Only numbers of one type are divided. -/
theorem arithmeticResult?_division (hop : op = .floorDiv ∨ op = .mod) {a b : Base}
    (h : arithmeticResult? op (.base a) (.base b) = some found) :
    b = a ∧ isNumeric a = true ∧ found = .base a := by
  rcases hop with rfl | rfl <;> cases a <;> cases b <;> simp_all [arithmeticResult?, isNumeric]

/-- Text is only added to text. -/
theorem arithmeticResult?_string {b : Base}
    (h : arithmeticResult? op .string (.base b) = some found) :
    op = .add ∧ b = .string ∧ found = .string := by
  cases op <;> cases b <;> simp_all [arithmeticResult?]

end Gen

namespace Gen.Tracked

open Operand

variable {here : Scope} {settled calls : Prop} {P : Triple} (h : Tracked here settled calls P)
  {t : List StackTy} {found key value : Ty} {left right : Operand} {line : Nat} {big : Bool}
include h

/-! ### Literals -/

/-- A literal is a constant of the type that it has, and `None` is one of its own. -/
theorem emitLiteral {value : Literal} {expected : Option Ty}
    (hvalue : literalType value expected = .ok found) :
    Pushes settled P t (emitLiteral value found) found := by
  have hknown := (literalType_of_literalType hvalue).1
  have hpush {v : Value} (hv : v.isOf found = true) :
      Pushes settled P t (Gen.apply (.push found v)) found :=
    h.pushes (fun _ => hknown) <|
      h.apply [] rfl (by simp) fun _ => ⟨if_pos hv, by simpa [Prim.types] using hknown⟩
  cases hasType_of_literalType hvalue with
  | nat hn | mutez hn => exact hpush (by simpa [Value.isOf] using Int64.not_lt.mp hn)
  | none => exact h.pushes (fun _ => rfl) (h.plain [] rfl rfl rfl)
  | _ => exact hpush rfl

/-! ### Containers -/

/-- A list is put together from the back. -/
theorem emitList (line : Nat) {items : List Operand} {element : Ty}
    (hitems : ∀ o ∈ items, o.Tracked here settled P ∧
      checkElement element (typing here o.expr) = .ok ()) :
    Pushes settled P t (emitList line items (.list element)) (.list element) := by
  unfold Gen.emitList
  refine h.refuse rfl fun hknown => ?_
  have hknown : element.hasUnknown = false := by simpa using hknown
  refine h.seq (h.apply [] rfl (by simp) fun _ => ⟨rfl, by simpa [Prim.types] using hknown⟩)
    fun _ => ?_
  -- where the element type is known, what has passed the check has this type
  have hlist : (Ty.list element).hasUnknown = false := by rw [Ty.hasUnknown, hknown]
  refine h.pushes (fun _ => hlist) (h.consAll fun o ho => ?_)
  exact ⟨(hitems o ho).1, fun _ => typeOf_of_checkElement hknown (hitems o ho).2⟩

/-- A map is put together from the back. -/
theorem emitDict (line : Nat) {entries : List (Operand × Operand)}
    (hentries : ∀ e ∈ entries,
      (e.1.Tracked here settled P ∧ checkElement key (typing here e.1.expr) = .ok ()) ∧
      (e.2.Tracked here settled P ∧ checkElement value (typing here e.2.expr) = .ok ())) :
    Pushes settled P t (emitDict line entries (.map big key value)) (.map big key value) := by
  unfold Gen.emitDict
  refine h.refuse rfl fun hknown => ?_
  have hknown : (Ty.map big key value).hasUnknown = false := by simpa using hknown
  have hboth := hknown
  rw [Ty.hasUnknown, Bool.or_eq_false_iff] at hboth
  refine h.seq (h.apply [] rfl (by simp) fun _ => ⟨rfl, by simpa [Prim.types] using hboth⟩)
    fun _ => ?_
  refine h.pushes (fun _ => hknown) (h.insertAll fun e he => ?_)
  obtain ⟨hk, hv⟩ := hentries e he
  exact ⟨⟨hk.1, fun _ => typeOf_of_checkElement hboth.1 hk.2⟩,
    hv.1, fun _ => typeOf_of_checkElement hboth.2 hv.2⟩

/-! ### Attributes and subscripts -/

/-- A field is the node of the comb that stands for it. -/
theorem readField {record : Ident} {fields : Fields} {attr : Ident} {i : Nat} {ty : Ty}
    (hfind : Fields.find? attr fields = some (i, ty)) :
    P ((Ty.record record fields).stack :: t) (readField record fields attr) fun _ u =>
      u = ty.stack :: t := by
  refine h.typed_bind (sane_fieldNode record fields attr) fun found hfound => ?_
  rw [fieldNode_eq, hfind] at hfound
  cases hfound
  have hnode := node?_comb (Ty.getElem?_stacks (Fields.getElem?_of_find? hfind))
  rw [Ty.length_stacks] at hnode
  exact h.plain [(Ty.record record fields).stack] rfl rfl hnode

/-- An attribute with a type is the storage, which has a cell, or an attribute of a record. -/
theorem emitAttribute {value : Operand} (hvalue : value.Tracked here settled P) {field : Ident}
    (hfound : attributeType here line value.expr field (typing here value.expr) = .ok found) :
    Pushes settled P t
      (emitAttribute (Expr.attr line value.expr field).isStorage value field) found := by
  rcases attributeType_eq_ok hfound with
    ⟨hstorage, hty⟩ | ⟨hstorage, -, name, fields, i, hty, hfield⟩
  · rw [hstorage]
    exact h.pushes (fun hsettled => (h.known hsettled).2 hty) (h.fetch hty)
  · rw [hstorage]
    refine hvalue.valueOf h hty fun hknown => ?_
    refine h.pushes (fun hsettled => ?_) (h.readField hfield)
    exact Ty.known_of_find? (by simpa only [Ty.hasUnknown] using hknown hsettled) hfield

/-- A key that is missing aborts, so what is left is the value. -/
theorem lookUp {index : Operand} (hindex : index.Tracked here settled P)
    (hkey : settled → key.hasUnknown = false)
    (hcheck : checkElement key (typing here index.expr) = .ok ()) :
    P (.map big key.stack value.stack :: t) (lookUp index key) fun _ u => u = value.stack :: t :=
  h.seq (hindex.pushAs h fun hsettled => typeOf_of_checkElement (hkey hsettled) hcheck) fun _ =>
    h.seq (h.plain [key.stack, .map big key.stack value.stack] rfl rfl (if_pos rfl)) fun _ =>
      h.unwrap _

omit h in
theorem known_of_map (hknown : settled → (Ty.map big key value).hasUnknown = false) :
    (settled → key.hasUnknown = false) ∧ (settled → value.hasUnknown = false) := by
  simp only [Ty.hasUnknown, Bool.or_eq_false_iff] at hknown
  exact ⟨fun hsettled => (hknown hsettled).1, fun hsettled => (hknown hsettled).2⟩

/-- A subscript looks a key up in a map. -/
theorem emitSubscript {value index : Operand} (hvalue : value.Tracked here settled P)
    (hindex : index.Tracked here settled P)
    (hfound : subscriptType line (typing here value.expr) (typing here index.expr) = .ok found) :
    Pushes settled P t (emitSubscript value index) found := by
  obtain ⟨map, key, hmap, hentry, hcheck⟩ := subscriptType_eq_ok hfound
  obtain ⟨big, rfl⟩ := Ty.keyValue?_eq_some hentry
  refine hvalue.valueOf h hmap fun hknown => ?_
  obtain ⟨hkey, hresult⟩ := known_of_map hknown
  exact h.pushes hresult (h.lookUp hindex hkey hcheck)

/-! ### Operators -/

/-- The types of two operands do not depend on the values on top either. -/
theorem pairTypes_bind {β : Type} {post : β → List StackTy → Prop} {partner : Ty → Ty}
    {next : Ty × Ty → Gen β}
    (hnext : ∀ tys, operandTypes partner left.expr right.expr (typing here left.expr)
        (typing here right.expr) = .ok tys → P t (next tys) post) :
    P t (pairTypes (operandTypes partner) left right >>= next) post := by
  unfold pairTypes
  rw [bind_assoc]
  refine h.ask fun l' halike => h.typed_bind (agrees_operandTypes partner _ _
    (agrees_typing (fixesRecords_refl _) _) (agrees_typing (fixesRecords_refl _) _)).sane
      fun tys htys => ?_
  rw [typing_of_alike halike, typing_of_alike halike] at htys
  exact hnext tys htys

/-- Two operands, the right one first. -/
theorem operands (hleft : left.Tracked here settled P)
    (hright : right.Tracked here settled P) {partner : Ty → Ty} {leftTy rightTy : Ty}
    (htypes : operandTypes partner left.expr right.expr (typing here left.expr)
      (typing here right.expr) = .ok (leftTy, rightTy))
    {next : Gen Unit} {post : Unit → List StackTy → Prop}
    (hnext : P (leftTy.stack :: rightTy.stack :: t) next post) :
    P t (do right.pushAs rightTy; left.pushAs leftTy; next) post := by
  obtain ⟨hleftTy, hrightTy⟩ := typeOf_of_operandTypes htypes
  exact h.seq (hright.pushAs h fun _ => hrightTy) fun _ =>
    h.seq (hleft.pushAs h fun _ => hleftTy) fun _ => hnext

/-- Membership is a question to the map. -/
theorem emitMembership {key map : Operand} (hkey : key.Tracked here settled P)
    (hmap : map.Tracked here settled P) {mapTy keyTy value : Ty}
    (hmapTy : (typing here map.expr).alone = .ok mapTy)
    (hentry : mapTy.keyValue? = some (keyTy, value))
    (hcheck : checkElement keyTy (typing here key.expr) = .ok ()) :
    P t (emitMembership key map) fun _ u => u = Ty.bool.stack :: t := by
  obtain ⟨big, rfl⟩ := Ty.keyValue?_eq_some hentry
  refine hmap.valueOf h hmapTy fun hknown => ?_
  have hkeyTy := (known_of_map hknown).1
  exact h.seq (hkey.pushAs h fun hsettled => typeOf_of_checkElement (hkeyTy hsettled) hcheck)
    fun _ => h.plain [keyTy.stack, .map big keyTy.stack value.stack] rfl rfl (if_pos rfl)

/-- Membership in a map, and comparisons of values by their order. -/
theorem emitCompare (hleft : left.Tracked here settled P)
    (hright : right.Tracked here settled P) {op : CmpOp}
    (hfound : compareType left.expr op right.expr (typing here left.expr)
      (typing here right.expr) = .ok found) :
    Pushes settled P t (emitCompare left op right) found := by
  obtain ⟨rfl, ⟨hop, map, key, value, hmap, hentry, hcheck⟩ |
    ⟨hisIn, hnotIn, hsame, hnotSame, operand, htypes, hcomparable⟩⟩ := compareType_eq_ok hfound
  · have hmember {t : List StackTy} : P t (Gen.emitMembership left right) fun _ u =>
        u = Ty.bool.stack :: t := h.emitMembership hleft hright hmap hentry hcheck
    rcases hop with rfl | rfl
    · exact h.pushes (fun _ => rfl) hmember
    · refine h.seq hmember fun _ => ?_
      exact h.pushes (fun _ => rfl) (h.plain [Ty.bool.stack] rfl rfl rfl)
  · obtain ⟨test, htest, harity, hplain, hresult⟩ :=
      exists_comparisonTest? hisIn hnotIn hsame hnotSame
    -- typing has refused the operators that have no test
    unfold Gen.emitCompare
    split
    · contradiction
    · contradiction
    refine h.pairTypes_bind fun tys htys => ?_
    cases htys.symm.trans htypes
    refine h.operands hleft hright htypes ?_
    refine h.seq (h.plain [operand.stack, operand.stack] rfl rfl
      (if_pos ⟨rfl, Ty.isComparable_stack hcomparable⟩)) fun _ => ?_
    rw [htest]
    exact h.pushes (fun _ => rfl) (h.plain [Ty.int.stack] harity.symm hplain hresult)

/-- Division keeps one half of quotient and remainder. -/
theorem divide {half : Prim} {a : Base} (ha : isNumeric a = true) (harity : half.arity = 1)
    (hplain : half.isPlain = true)
    (hhalf : result? half [.pair (.base a) (.base a)] = some (.base a)) :
    P (.base a :: .base a :: t) (divide half) fun _ u => u = .base a :: t :=
  h.seq (h.plain [.base a, .base a] rfl rfl (if_pos ⟨rfl, ha⟩)) fun _ =>
    h.seq (h.unwrap _) fun _ => h.plain [.pair (.base a) (.base a)] harity.symm hplain hhalf

/-- Arithmetic, where text is put together and numbers are divided in ways of their own. -/
theorem emitBinary (hleft : left.Tracked here settled P)
    (hright : right.Tracked here settled P) {op : BinOp}
    (hfound : binaryType left.expr op right.expr (typing here left.expr)
      (typing here right.expr) = .ok found) :
    Pushes settled P t (emitBinary left op right) found := by
  obtain ⟨hdiv, hpow, leftTy, rightTy, htypes, hresult⟩ := binaryType_eq_ok hfound
  obtain ⟨a, b, rfl, rfl, hknown⟩ := arithmeticResult?_eq_some hresult
  have hmachine : arithmetic? op a b = some found.stack := by
    rw [arithmetic?, hresult]
    rfl
  refine h.pairTypes_bind fun tys htys => ?_
  cases htys.symm.trans htypes
  refine h.operands hleft hright htypes ?_
  cases op with
  | add =>
    dsimp only
    split
    · next hstring =>
      obtain rfl : a = .string := Ty.base.inj hstring
      obtain ⟨-, rfl, rfl⟩ := arithmeticResult?_string hresult
      exact h.pushes (fun _ => rfl) (h.plain [Ty.string.stack, Ty.string.stack] rfl rfl rfl)
    · next hstring =>
      have hadd : result? .add [.base a, .base b] = some found.stack := by
        rw [← hmachine]
        exact if_neg fun ha => hstring (congrArg Ty.base ha)
      exact h.pushes (fun _ => hknown) (h.plain [.base a, .base b] rfl rfl hadd)
  | sub | mult =>
    exact h.pushes (fun _ => hknown) (h.plain [.base a, .base b] rfl rfl hmachine)
  | floorDiv =>
    obtain ⟨rfl, hnumeric, rfl⟩ := arithmeticResult?_division (.inl rfl) hresult
    exact h.pushes (fun _ => rfl) (h.divide hnumeric rfl rfl rfl)
  | mod =>
    obtain ⟨rfl, hnumeric, rfl⟩ := arithmeticResult?_division (.inr rfl) hresult
    exact h.pushes (fun _ => rfl) (h.divide hnumeric rfl rfl rfl)
  | div | pow => contradiction

/-- Negation of booleans, and of both types of integers. -/
theorem emitUnary {operand : Operand} (hoperand : operand.Tracked here settled P) {op : UnOp}
    (hfound : unaryType line op (typing here operand.expr) = .ok found) :
    Pushes settled P t (emitUnary op operand) found := by
  rcases unaryType_eq_ok hfound with ⟨rfl, hbool, rfl⟩ | ⟨rfl, hint | hnat, rfl⟩
  · exact hoperand.valueOf h hbool fun _ =>
      h.pushes (fun _ => rfl) (h.plain [Ty.bool.stack] rfl rfl rfl)
  · exact hoperand.valueOf h hint fun _ =>
      h.pushes (fun _ => rfl) (h.plain [Ty.int.stack] rfl rfl rfl)
  · exact hoperand.valueOf h hnat fun _ =>
      h.pushes (fun _ => rfl) (h.plain [Ty.nat.stack] rfl rfl rfl)

/-- Booleans are connected one by one with the one on the stack. -/
theorem connectAll {op : BoolOp} : ∀ {os : List Operand},
    (∀ o ∈ os, o.TrackedAs here settled P .bool) →
    P (Ty.bool.stack :: t) (connectAll op os) fun _ u => u = Ty.bool.stack :: t
  | [], _ => h.pure rfl
  | o :: os, hos => by
    obtain ⟨ho, hrest⟩ := List.forall_mem_cons.mp hos
    have hconnect : result? (connective op) [Ty.bool.stack, Ty.bool.stack] =
        some Ty.bool.stack := by cases op <;> rfl
    exact h.seq (ho.1.pushAs h fun _ => ho.2) fun _ => h.seq (h.plain
      [Ty.bool.stack, Ty.bool.stack] (by cases op <;> rfl) (by cases op <;> rfl) hconnect)
        fun _ => connectAll hrest

theorem emitBoolean {op : BoolOp} {os : List Operand} (hsome : os ≠ [])
    (hos : ∀ o ∈ os, o.TrackedAs here settled P .bool) :
    Pushes settled P t (emitBoolean op os) .bool := by
  cases os with
  | nil => exact absurd rfl hsome
  | cons first rest =>
    obtain ⟨hfirst, hrest⟩ := List.forall_mem_cons.mp hos
    exact h.seq (hfirst.1.pushAs h fun _ => hfirst.2) fun _ =>
      h.pushes (fun _ => rfl) (h.connectAll hrest)

end Gen.Tracked

end Covenant
