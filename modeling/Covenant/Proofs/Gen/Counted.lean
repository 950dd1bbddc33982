import Covenant.Proofs.Gen.Rules
import Covenant.Proofs.Typing.Stable

/-!
# Covenant — properties of steps that replace cells

The code of an expression is put together from a handful of steps: primitives and copies of
variables, the unwrapping of options, the application of closures, and defaults, which are blocks of
their own. Each takes so many cells off the stack and leaves so many in their place.

`Gen.Counted P` says that a property `P n m` of steps which replace `n` cells by `m` holds of these
and is inherited by sequences. Such a property holds of the code of every expression
(`Counted.operand`), so one traversal of the rules serves them all. Calls of `transaction` are left
out. They are no operands, as they leave no cell.

Most properties speak of one run at a time (`Gen.Each`), and then only what the steps emit is left
to show (`counted_each`).
-/

namespace Covenant

namespace Gen

/-! ## Properties that sequences inherit -/

/-- A block that is run in place of a missing value. -/
def orElse (step : Gen Unit) : Gen Unit := do
  let start ← sound ((← layout).pop 1)
  let (code, _) ← block start step
  emit (.ifNone code [])

/-- The block runs on the stack without the option, and control goes on as if it had not run. -/
theorem orElse_eq_ok {config : Config} {state : State} {step : Gen Unit} {done : Step Unit}
    (h : orElse step config state = .ok done) :
    ∃ inner, 0 < state.layout.depth ∧
      step config (state.atDepth (state.layout.depth - 1)) = .ok inner ∧
      done = ⟨(), [.ifNone inner.code []], { inner.state with layout := state.layout }⟩ := by
  rw [orElse, layout_bind] at h
  obtain ⟨start, hstart, h⟩ := sound_bind_eq_ok_iff.mp h
  obtain ⟨hpos, rfl⟩ := (Layout.pop_eq_ok_iff _).mp hstart
  obtain ⟨inner, hinner, h⟩ := block_bind_eq_ok_iff.mp h
  exact ⟨inner, hpos, hinner, emit_eq_ok_iff.mp h⟩

/-- The property holds of the steps that expressions are put together from, and sequences inherit
it. -/
structure Counted (P : ∀ ⦃α : Type⦄, Nat → Nat → Gen α → Prop) : Prop where
  bind : ∀ {α β : Type} {n m k : Nat} {step : Gen α} {next : α → Gen β}, P n m step →
    (∀ a, P m k (next a)) → P n k (step >>= next)
  /-- Only runs that succeed matter. -/
  narrow : ∀ {α : Type} {n m : Nat} {step wider : Gen α}, (∀ config state done,
    step config state = .ok done → wider config state = .ok done) → P n m wider → P n m step
  fails : ∀ {α : Type} {n m : Nat} {step : Gen α},
    (∀ config state done, step config state ≠ .ok done) → P n m step
  pure : ∀ {α : Type} {n : Nat} (a : α), P n n (Pure.pure a : Gen α)
  /-- A question about names, which cells on top of the stack have no say in. -/
  ask : ∀ {α : Type} {n m : Nat} {next : Scope → Gen α}, (∀ records l l', l.Keeps l' →
    next ⟨records, l'⟩ = next ⟨records, l⟩) → (∀ scope, P n m (next scope)) → P n m (scope >>= next)
  seen : ∀ {n : Nat} (line : Nat), P n n (seen line)
  annotate : ∀ {n : Nat} (note : Note), P n n (annotate note)
  apply : ∀ (n : Nat) {p : Prim}, p ≠ .pair 0 → P (n + p.arity) (n + 1) (apply p)
  fetch : ∀ {n : Nat} (name : Ident), P n (n + 1) (fetch name)
  unwrap : ∀ (n : Nat) (message : String), P (n + 1) (n + 1) (emit (unwrapOr message))
  exec : ∀ n : Nat, P (n + 2) (n + 1) (do emit .exec; pop 1)
  orElse : ∀ {n : Nat} {step : Gen Unit}, P n (n + 1) step → P (n + 1) (n + 1) (orElse step)

/-- The relation holds of the layout, the code and the new layout of every run that succeeds. -/
def Each {α : Type} (R : Layout → Code → Layout → Prop) (step : Gen α) : Prop :=
  ∀ ⦃config : Config⦄ ⦃state : State⦄ ⦃done : Step α⦄, step config state = .ok done →
    R state.layout done.code done.state.layout

/-- A relation that nothing at all satisfies holds of steps that do nothing. -/
theorem Each.of_silent {α : Type} {R : Layout → Code → Layout → Prop} {step : Gen α}
    (hR : ∀ l, R l [] l) (h : ∀ config state done, step config state = .ok done →
      done.code = [] ∧ done.state.layout = state.layout) : Each R step := by
  intro config state done hdone
  obtain ⟨hcode, hlayout⟩ := h config state done hdone
  rw [hcode, hlayout]
  exact hR state.layout

/-- A property of single runs is inherited if the relation composes. -/
theorem counted_each {R : Nat → Nat → Layout → Code → Layout → Prop}
    (nil : ∀ n l, R n n l [] l)
    (append : ∀ {n m k l l' l'' code code'}, R n m l code l' → R m k l' code' l'' →
      R n k l (code ++ code') l'')
    (annotate : ∀ n note, Each (R n n) (annotate note))
    (apply : ∀ n {p}, p ≠ .pair 0 → Each (R (n + p.arity) (n + 1)) (apply p))
    (fetch : ∀ n name, Each (R n (n + 1)) (fetch name))
    (unwrap : ∀ n message, Each (R (n + 1) (n + 1)) (emit (unwrapOr message)))
    (exec : ∀ n, Each (R (n + 2) (n + 1)) (do emit .exec; pop 1))
    (orElse : ∀ {n l code l'}, 0 < l.depth → R n (n + 1) (l.atDepth (l.depth - 1)) code l' →
      R (n + 1) (n + 1) l [.ifNone code []] l) :
    Counted fun _ n m step => Each (R n m) step where
  bind h hnext config state done hdone := by
    obtain ⟨first, last, hfirst, hlast, rfl⟩ := bind_eq_ok_iff.mp hdone
    exact append (h hfirst) (hnext _ hlast)
  narrow hwider h config state done hdone := h (hwider config state done hdone)
  fails h config state done hdone := absurd hdone (h config state done)
  pure a := .of_silent (nil _) fun _ _ _ hdone => by cases hdone; exact ⟨rfl, rfl⟩
  ask _ h config state done hdone := by
    rw [scope_bind] at hdone
    exact h _ hdone
  seen line := .of_silent (nil _) fun _ state _ hdone => by
    rw [seen_apply, Except.ok.injEq] at hdone
    subst hdone
    exact ⟨rfl, state.layout_seeing line⟩
  annotate note := annotate _ note
  apply n _ hp := apply n hp
  fetch name := fetch _ name
  unwrap := unwrap
  exec := exec
  orElse h config state done hdone := by
    obtain ⟨inner, hpos, hinner, rfl⟩ := orElse_eq_ok hdone
    exact orElse hpos (h hinner)

/-! ## Steps that leave one cell -/

/-- The step, if it leaves one cell more than there were. -/
def single (step : Gen Unit) : Gen Unit := do
  let before ← depth
  step
  unless (← depth) = before + 1 do
    defect .arity

/-- Only the count of cells is asked for in addition. -/
theorem single_eq_ok_iff {step : Gen Unit} {config : Config} {state : State} {done : Step Unit} :
    single step config state = .ok done ↔
      step config state = .ok done ∧ done.state.layout.depth = state.layout.depth + 1 := by
  simp only [single, depth_bind, bind_eq_ok_iff]
  constructor
  · rintro ⟨first, last, hfirst, hlast, rfl⟩
    split at hlast
    · next hdepth =>
      cases hlast
      exact ⟨by simpa using hfirst, hdepth⟩
    · exact absurd hlast defect_ne_ok
  · rintro ⟨hdone, hdepth⟩
    refine ⟨done, ⟨(), [], done.state⟩, hdone, ?_, by simp⟩
    rw [if_pos hdepth, pure_apply]

end Gen

open Gen

/-- Where the operand leaves one cell, its code has the property. -/
def Operand.Meets (P : ∀ ⦃α : Type⦄, Nat → Nat → Gen α → Prop) (o : Operand) : Prop :=
  ∀ (ty : Ty) (n : Nat), P n (n + 1) (single (o.emit ty))

namespace Gen.Counted

variable {P : ∀ ⦃α : Type⦄, Nat → Nat → Gen α → Prop} (h : Counted P) {α β : Type} {n m : Nat}
  {c : Prop}
include h

/-! ## Checks and questions -/

theorem failAt (line : Nat) (cause : Cause) : P n m (failAt line cause : Gen α) :=
  h.fails fun _ _ _ => failAt_ne_ok

theorem failAt_bind (line : Nat) (cause : Cause) (next : α → Gen β) :
    P n m (Gen.failAt line cause >>= next) :=
  h.fails fun _ _ _ => failAt_bind_ne_ok

theorem defect (d : Defect) : P n m (defect d : Gen α) := h.fails fun _ _ _ => defect_ne_ok

omit h in
theorem ite {g g' : Gen α} [Decidable c] (hthen : c → P n m g) (helse : ¬c → P n m g') :
    P n m (if c then g else g') := by
  split
  · next hc => exact hthen hc
  · next hc => exact helse hc

theorem ensure [Decidable c] {line : Nat} {cause : Cause} {next : Unit → Gen α}
    (hnext : c → P n m (next ())) :
    P n m (if c then next () else Gen.failAt line cause >>= next) :=
  ite hnext fun _ => h.failAt_bind line cause next

theorem refuse [Decidable c] {line : Nat} {cause : Cause} {next : Unit → Gen α}
    (hnext : ¬c → P n m (next ())) :
    P n m (if c then Gen.failAt line cause >>= next else next ()) :=
  ite (fun _ => h.failAt_bind line cause next) hnext

/-- What follows a typing question has to have the property only for the answer that is given. -/
theorem typed_bind {outcome : Typed α} {next : α → Gen β}
    (hnext : ∀ a, outcome = .ok a → P n m (next a)) : P n m (Gen.typed outcome >>= next) := by
  cases outcome with
  | error e =>
    refine h.fails fun config state done hdone => ?_
    obtain ⟨a, ha, -⟩ := typed_bind_eq_ok_iff.mp hdone
    cases ha
  | ok a =>
    have hstep : (Gen.typed (.ok a) : Gen α) = Pure.pure a := rfl
    rw [hstep, pure_bind]
    exact hnext a rfl

/-- A question about types takes and leaves no cells. -/
theorem typed (outcome : Typed α) : P n n (typed outcome) := by
  cases outcome with
  | error e => exact h.fails fun _ _ _ hdone => by simp at hdone
  | ok a => exact h.pure a

/-- The type of an expression does not depend on the cells on top. -/
theorem typeOf (e : Expr) (expected : Option Ty) : P n n (typeOf e expected) :=
  h.ask (fun _ _ _ hkeeps => by rw [typeOf_of_alike hkeeps.alike]) fun _ => h.typed _

/-- A question to the layout is one to the scope. -/
theorem ask_layout {next : Layout → Gen α} (hkeeps : ∀ l l', l.Keeps l' → next l' = next l)
    (hnext : ∀ l, P n m (next l)) : P n m (layout >>= next) := by
  have hscope : (layout >>= next) = scope >>= fun scope => next scope.layout := by
    funext config state
    rw [layout_bind, scope_bind]
  rw [hscope]
  exact h.ask (fun _ _ _ h => hkeeps _ _ h) fun scope => hnext scope.layout

theorem apply_of (k : Nat) {p : Prim} (hp : p ≠ .pair 0) (hm : k + p.arity = m) :
    P m (k + 1) (Gen.apply p) :=
  hm ▸ h.apply k hp

end Gen.Counted

/-! ## Operands -/

namespace Operand

variable {P : ∀ ⦃α : Type⦄, Nat → Nat → Gen α → Prop} {o : Operand}

/-- A value leaves one cell, as this is checked. -/
theorem Meets.value (ho : o.Meets P) (h : Counted P) (expected : Option Ty) (n : Nat) :
    P n (n + 1) (o.value expected) := by
  have hwider : P n (n + 1) (do
      let ty ← Gen.typeOf o.expr expected
      seen o.expr.line
      single (o.emit ty)
      return ty) :=
    h.bind (h.typeOf _ _) fun ty => h.bind (h.seen _) fun _ => h.bind (ho ty n) fun _ => h.pure _
  refine h.narrow (fun config state done hdone => ?_) hwider
  obtain ⟨ty, inner, hty, hinner, hdepth, rfl⟩ := value_eq_ok_iff.mp hdone
  rw [typeOf_bind_eq_ok_iff]
  refine ⟨ty, hty, ?_⟩
  rw [seen_bind, bind_eq_ok_iff]
  refine ⟨inner, ⟨ty, [], inner.state⟩, single_eq_ok_iff.mpr ⟨hinner, ?_⟩, rfl, by simp⟩
  rwa [State.layout_seeing]

theorem Meets.pushAs (ho : o.Meets P) (h : Counted P) (want : Ty) (n : Nat) :
    P n (n + 1) (o.pushAs want) :=
  h.bind (ho.value h _ n) fun _ => h.pure _

end Operand

namespace Invocation

/-- Pushes the pending operations with a transfer in front. -/
def prepend (call : Invocation) : Gen Unit := do
  fetch Layout.operationsName
  call.pushArguments
  apply .transferTokens
  apply .cons

end Invocation

namespace Gen.Counted

open Operand

variable {P : ∀ ⦃α : Type⦄, Nat → Nat → Gen α → Prop}

section Rules

variable (h : Counted P) {n : Nat} {args : List Operand} {call : Invocation} {site : CallSite}
include h

/-- Each operand finds the ones before it on the stack. -/
theorem pushAll : ∀ {os : List Operand} {wants : List Ty} (n : Nat), (∀ o ∈ os, o.Meets P) →
    os.length = wants.length → P n (n + os.length) (pushAll os wants)
  | [], _, n, _, _ => h.pure _
  | o :: os, want :: wants, n, hos, hlength => by
    obtain ⟨hfirst, hrest⟩ := List.forall_mem_cons.mp hos
    rw [List.length_cons, Nat.add_comm os.length, ← Nat.add_assoc]
    exact h.bind (hfirst.pushAs h want n) fun _ =>
      pushAll (n + 1) hrest (Nat.succ.inj hlength)

theorem pushAllReversed : ∀ {os : List Operand} {wants : List Ty} (n : Nat),
    (∀ o ∈ os, o.Meets P) → os.length = wants.length →
    P n (n + os.length) (pushAllReversed os wants)
  | [], _, n, _, _ => h.pure _
  | o :: os, want :: wants, n, hos, hlength => by
    obtain ⟨hfirst, hrest⟩ := List.forall_mem_cons.mp hos
    exact h.bind (pushAllReversed n hrest (Nat.succ.inj hlength)) fun _ =>
      hfirst.pushAs h want (n + os.length)

/-- The list stays under the elements that are put in front of it. -/
theorem consAll (element : Ty) (n : Nat) : ∀ {os : List Operand}, (∀ o ∈ os, o.Meets P) →
    P (n + 1) (n + 1) (consAll element os)
  | [], _ => h.pure _
  | o :: os, hos => by
    obtain ⟨hfirst, hrest⟩ := List.forall_mem_cons.mp hos
    exact h.bind (consAll element n hrest) fun _ =>
      h.bind (hfirst.pushAs h element (n + 1)) fun _ => h.apply_of n (by simp) rfl

/-- The map stays under the entries that are put into it. -/
theorem insertAll (key value : Ty) (n : Nat) : ∀ {entries : List (Operand × Operand)},
    (∀ e ∈ entries, e.1.Meets P ∧ e.2.Meets P) → P (n + 1) (n + 1) (insertAll key value entries)
  | [], _ => h.pure _
  | (k, v) :: rest, hentries => by
    obtain ⟨⟨hk, hv⟩, hrest⟩ := List.forall_mem_cons.mp hentries
    exact h.bind (insertAll key value n hrest) fun _ =>
      h.bind (hv.pushAs h value (n + 1)) fun _ =>
      h.bind (h.apply_of (n + 1) (by simp) rfl) fun _ =>
      h.bind (hk.pushAs h key (n + 2)) fun _ => h.apply_of n (by simp) rfl

theorem checkTypes (function : Ident) : ∀ (os : List Operand) (wants : List Ty),
    P n n (checkTypes function os wants)
  | [], _ | _ :: _, [] => h.pure ()
  | _ :: os, _ :: wants => h.bind (h.typeOf _ _) fun _ => h.ensure fun _ =>
      checkTypes function os wants

/-- Arguments that pass the check are as many as are wanted. -/
theorem checkArguments_bind {β : Type} {next : Unit → Gen β} {m : Nat} (function : Ident)
    (line : Nat) {wants : List Ty} (hnext : args.length = wants.length → P n m (next ())) :
    P n m (checkArguments function line args wants >>= next) := by
  unfold checkArguments
  by_cases hlength : args.length = wants.length
  · rw [if_pos hlength]
    exact h.bind (h.checkTypes function args wants) fun _ => hnext hlength
  · rw [if_neg hlength, bind_assoc]
    exact h.failAt_bind _ _ _

/-! ## Calls of built-ins -/

/-- The literal that a wrapper is called with is no operand. -/
theorem literal_bind {β : Type} {next : Expr → Gen β} {m : Nat} (hnext : ∀ e, P n m (next e)) :
    P n m (call.literal >>= next) := by
  unfold Invocation.literal
  split
  · split
    · rw [pure_bind]
      exact hnext _
    · exact h.failAt_bind _ _ _
  · exact h.failAt_bind _ _ _

/-- The default takes the place of the option that is looked up. -/
theorem getOr {key default : Operand} (hkey : key.Meets P) (hdefault : default.Meets P)
    (keyTy valueTy : Ty) : P (n + 1) (n + 1) (Invocation.getOr key default keyTy valueTy) :=
  h.bind (hkey.pushAs h keyTy (n + 1)) fun _ => h.bind (h.apply_of n (by simp) rfl) fun _ =>
    h.orElse (hdefault.pushAs h valueTy n)

/-- A method puts a cell in the place of its receiver. Any other call but `transaction` adds one. -/
theorem builtin {target : Builtin} (htarget : target ≠ .transaction)
    (hargs : ∀ o ∈ call.args, o.Meets P)
    (hlength : target.argumentKind = .values → call.args.length = call.signature.args.length)
    (hsignature : target.signature site = .ok call.signature) :
    P (bif target.isMethod then n + 1 else n) (n + 1) (call.emit target) := by
  obtain ⟨name, line, signature, args, keywords⟩ := call
  -- where arguments are values, there is one for each that the signature asks for
  have hpush (hvalues : target.argumentKind = .values) {k : Nat}
      (hk : signature.args.length = k) (m : Nat) :
      P m (m + k) (Invocation.pushArguments ⟨name, line, signature, args, keywords⟩) := by
    have hcount := hlength hvalues
    rw [← hk, ← hcount]
    exact h.pushAll m hargs hcount
  cases target with
  | transaction => exact absurd rfl htarget
  | abs | pack =>
    cases hsignature
    exact h.bind (hpush rfl rfl n) fun _ => h.apply_of n (by simp) rfl
  | timedelta =>
    simp only [Invocation.emit]
    split
    · exact h.apply_of n (by simp) rfl
    · exact h.failAt _ _
  | contract =>
    cases hsignature
    exact h.bind (hpush rfl rfl n) fun _ => h.bind (h.apply_of n (by simp) rfl) fun _ =>
      h.unwrap n _
  | wrap ty =>
    exact h.literal_bind fun _ => h.typed_bind fun _ _ => h.apply_of n (by simp) rfl
  | listNew =>
    simp only [Invocation.emit]
    split
    · exact h.refuse fun _ => h.bind (h.apply_of n (by simp) rfl) fun _ => h.consAll _ n hargs
    · exact h.defect _
  | listPrepend =>
    have hone : signature.args.length = 1 := by
      simp only [Builtin.signature] at hsignature
      split at hsignature <;> cases hsignature <;> rfl
    exact h.bind (hpush rfl hone (n + 1)) fun _ => h.apply_of n (by simp) rfl
  | mapNew big =>
    simp only [Invocation.emit]
    refine h.refuse fun _ => ?_
    split
    · exact h.apply_of n (by simp) rfl
    · exact h.defect _
  | mapGet =>
    simp only [Invocation.emit]
    split
    · exact h.getOr (hargs _ (by simp)) (hargs _ (by simp)) _ _
    · exact h.defect _
    · exact h.defect _
  | mapAdd =>
    simp only [Invocation.emit]
    split
    · refine h.insertAll _ _ n fun e he => ?_
      obtain rfl := List.mem_singleton.mp he
      exact ⟨hargs _ (by simp), hargs _ (by simp)⟩
    · exact h.defect _
    · exact h.defect _
  | unpack => exact h.bind (h.apply_of n (by simp) rfl) fun _ => h.unwrap n _
  | blake2b | now => exact h.apply_of n (by simp) rfl

/-! ## Kinds of expressions -/

omit h in
theorem constant?_prim {id : Ident} {ty : Ty} {p : Prim}
    (hconstant : Builtin.constant? id = some (ty, p)) : p.arity = 0 ∧ p ≠ .pair 0 := by
  unfold Builtin.constant? at hconstant
  split at hconstant <;> cases hconstant <;> exact ⟨rfl, by simp⟩

theorem emitName (id : Ident) : P n (n + 1) (emitName id) := by
  refine h.ask_layout (fun _ _ hkeeps => by rw [hkeeps.binds]) fun l =>
    ite (fun _ => h.fetch id) fun _ => ?_
  split
  · next p hconstant =>
    obtain ⟨harity, hp⟩ := constant?_prim hconstant
    exact h.apply_of n hp (by rw [harity]; rfl)
  · exact h.defect _

theorem emitLiteral (value : Literal) (ty : Ty) : P n (n + 1) (emitLiteral value ty) := by
  cases value <;> exact h.apply_of n (by simp) rfl

theorem emitList (line : Nat) {items : List Operand} (hitems : ∀ o ∈ items, o.Meets P) (ty : Ty) :
    P n (n + 1) (emitList line items ty) := by
  unfold Gen.emitList
  split
  · next element =>
    exact h.refuse fun _ => h.bind (h.apply_of n (by simp) rfl) fun _ => h.consAll element n hitems
  · exact h.defect _

theorem emitDict (line : Nat) {entries : List (Operand × Operand)}
    (hentries : ∀ e ∈ entries, e.1.Meets P ∧ e.2.Meets P) (ty : Ty) :
    P n (n + 1) (emitDict line entries ty) := by
  unfold Gen.emitDict
  refine h.refuse fun _ => ?_
  split
  · exact h.bind (h.apply_of n (by simp) rfl) fun _ => h.insertAll _ _ n hentries
  · exact h.defect _

theorem readField (record : Ident) (fields : Fields) (attr : Ident) :
    P (n + 1) (n + 1) (readField record fields attr) :=
  h.typed_bind fun _ _ => h.apply_of n (by simp) rfl

theorem emitAttribute (isStorage : Bool) {value : Operand} (hvalue : value.Meets P)
    (field : Ident) : P n (n + 1) (emitAttribute isStorage value field) := by
  refine ite (fun _ => h.fetch _) fun _ => h.bind (hvalue.value h none n) fun ty => ?_
  split
  · exact h.readField _ _ field
  · exact h.defect _

theorem lookUp {key : Operand} (hkey : key.Meets P) (keyTy : Ty) :
    P (n + 1) (n + 1) (lookUp key keyTy) :=
  h.bind (hkey.pushAs h keyTy (n + 1)) fun _ => h.bind (h.apply_of n (by simp) rfl) fun _ =>
    h.unwrap n _

theorem emitSubscript {value index : Operand} (hvalue : value.Meets P) (hindex : index.Meets P) :
    P n (n + 1) (emitSubscript value index) := by
  refine h.bind (hvalue.value h none n) fun ty => ?_
  split
  · exact h.lookUp hindex _
  · exact h.defect _

theorem pairTypes (rule : Expr → Expr → Typing → Typing → Typed (Ty × Ty))
    (left right : Operand) : P n n (pairTypes rule left right) :=
  h.ask (fun _ _ _ hkeeps => by rw [typing_of_alike hkeeps.alike, typing_of_alike hkeeps.alike]) fun _ =>
    h.typed _

theorem emitMembership {key map : Operand} (hkey : key.Meets P) (hmap : map.Meets P) :
    P n (n + 1) (emitMembership key map) := by
  refine h.bind (hmap.value h none n) fun ty => ?_
  split
  · exact h.bind (hkey.pushAs h _ (n + 1)) fun _ => h.apply_of n (by simp) rfl
  · exact h.defect _

/-- Comparing leaves a number, and the test of it a boolean. -/
theorem emitCompare {left right : Operand} (op : CmpOp) (hleft : left.Meets P)
    (hright : right.Meets P) : P n (n + 1) (emitCompare left op right) := by
  cases op with
  | isIn => exact h.emitMembership hleft hright
  | notIn => exact h.bind (h.emitMembership hleft hright) fun _ => h.apply_of n (by simp) rfl
  | _ =>
    refine h.bind (h.pairTypes _ _ _) fun tys => h.bind (hright.pushAs h _ n) fun _ =>
      h.bind (hleft.pushAs h _ (n + 1)) fun _ => h.bind (h.apply_of n (by simp) rfl) fun _ => ?_
    first | exact h.apply_of n (by simp) rfl | exact h.defect _

theorem divide {half : Prim} (harity : half.arity = 1) (hhalf : half ≠ .pair 0) :
    P (n + 2) (n + 1) (divide half) :=
  h.bind (h.apply_of n (by simp) rfl) fun _ => h.bind (h.unwrap n _) fun _ =>
    h.apply_of n hhalf (by rw [harity])

/-- The right operand is pushed first. -/
theorem emitBinary {left right : Operand} (op : BinOp) (hleft : left.Meets P)
    (hright : right.Meets P) : P n (n + 1) (emitBinary left op right) := by
  refine h.bind (h.pairTypes _ _ _) fun tys => h.bind (hright.pushAs h _ n) fun _ =>
    h.bind (hleft.pushAs h _ (n + 1)) fun _ => ?_
  cases op with
  | add => exact h.apply_of n (by split <;> simp) (by split <;> rfl)
  | sub | mult => exact h.apply_of n (by simp) rfl
  | floorDiv | mod => exact h.divide rfl (by simp)
  | div | pow => exact h.defect _

theorem emitUnary {operand : Operand} (op : UnOp) (hoperand : operand.Meets P) :
    P n (n + 1) (emitUnary op operand) := by
  refine h.bind (hoperand.value h none n) fun _ => ?_
  cases op with
  | not | minus => exact h.apply_of n (by simp) rfl
  | plus | invert => exact h.defect _

theorem connectAll (op : BoolOp) : ∀ {os : List Operand}, (∀ o ∈ os, o.Meets P) →
    P (n + 1) (n + 1) (connectAll op os)
  | [], _ => h.pure _
  | _ :: _, hos => by
    obtain ⟨hfirst, hrest⟩ := List.forall_mem_cons.mp hos
    exact h.bind (hfirst.pushAs h .bool (n + 1)) fun _ =>
      h.bind (h.apply_of n (by cases op <;> simp [connective]) (by cases op <;> rfl)) fun _ =>
      connectAll op hrest

/-- Of several operands two at a time are connected. -/
theorem emitBoolean (op : BoolOp) {os : List Operand} (hos : ∀ o ∈ os, o.Meets P) :
    P n (n + 1) (emitBoolean op os) := by
  cases os with
  | nil => exact h.defect _
  | cons o os =>
    obtain ⟨hfirst, hrest⟩ := List.forall_mem_cons.mp hos
    exact h.bind (hfirst.pushAs h .bool n) fun _ => h.connectAll op hrest

/-! ## Calls -/

/-- A record is one cell, unless it has no attributes. -/
theorem callRecord (line : Nat) (name : Ident) (fields : Fields) (hargs : ∀ o ∈ args, o.Meets P)
    (keywords : List (Ident × Operand)) :
    P n (n + min fields.length 1) (callRecord line name fields args keywords) := by
  rw [Gen.callRecord, buildRecord_eq]
  refine h.ensure fun _ => h.checkArguments_bind name line fun hlength => ?_
  have hcount : args.length = fields.length := by rw [hlength, Fields.types, List.length_map]
  have hpushed : P n (n + fields.length) (Operand.pushAllReversed args fields.types) :=
    hcount ▸ h.pushAllReversed n hargs hlength
  -- one attribute is the record itself, and no attribute leaves no cell
  refine h.bind hpushed fun _ => ite (fun hmany => ?_) fun hfew => ?_
  · rw [Nat.min_eq_right (by omega)]
    refine h.apply_of n ?_ rfl
    rw [ne_eq, Prim.pair.injEq]
    omega
  · rw [Nat.min_eq_left (by omega)]
    exact h.pure _

theorem applyClosure {func arg : Operand} (hfunc : func.Meets P) (harg : arg.Meets P)
    (want : Ty) : P n (n + 1) (applyClosure func arg want) :=
  h.bind (h.typeOf _ _) fun _ => h.ensure fun _ => h.bind (h.annotate _) fun _ =>
    h.bind (hfunc.value h none n) fun _ => h.bind (harg.pushAs h want (n + 1)) fun _ => h.exec n

/-- A closure takes one argument, given by place or by name. -/
theorem callClosure (line : Nat) {func : Operand} (hfunc : func.Meets P)
    (hargs : ∀ o ∈ args, o.Meets P) {keywords : List (Ident × Operand)}
    (hkeywords : ∀ k ∈ keywords, k.2.Meets P) (want : Ty) :
    P n (n + 1) (callClosure line func args keywords want) := by
  unfold Gen.callClosure
  split
  · next arg => exact h.applyClosure hfunc (hargs arg (by simp)) want
  · next keyword arg =>
    refine h.ask_layout (fun l l' hkeeps => ?_) fun l => ?_
    · have hformals : func.expr.name?.bind l'.formals.get? =
          func.expr.name?.bind l.formals.get? := by
        cases func.expr.name? with
        | none => rfl
        | some id => exact hkeeps.formals id
      rw [hformals]
    · split
      · refine ite (fun _ => ?_) fun _ => h.failAt _ _
        exact h.applyClosure hfunc (hkeywords (keyword, arg) (by simp)) want
      · exact h.failAt _ _
  · exact h.failAt _ _

/-- Calls leave one cell, and `now` also leaves its receiver. -/
theorem callBuiltin (line : Nat) (name : Ident) {target : Builtin} (htarget : target ≠ .transaction)
    {receiver : Option (Operand × Ty)} (hreceives : target.Receives (receiver.map (·.2)))
    (hreceiver : ∀ r ∈ receiver, r.1.Meets P) (typeParams : List Ty) (hargs : ∀ o ∈ args, o.Meets P)
    (keywords : List (Ident × Operand)) (result : Ty) :
    P n (n + bif target.isMethod then 1 else receiver.toList.length + 1)
      (callBuiltin line name target receiver typeParams args keywords result) := by
  refine h.ask (fun _ _ _ hkeeps => by simp only [typings_of_alike hkeeps.alike]) fun scope =>
    h.typed_bind fun signature hsignature => h.ensure fun _ => ?_
  obtain ⟨site, -, hsignature⟩ := Except.bind_eq_ok_iff.mp hsignature
  have hsignature := atLine_eq_ok_iff.mp hsignature
  have hcall (hlength : target.argumentKind = .values → args.length = signature.args.length) :
      P n (n + bif target.isMethod then 1 else receiver.toList.length + 1)
        (invoke line name signature target receiver args keywords) := by
    refine h.bind (h.annotate _) fun _ => ?_
    have hemit (k : Nat) (written : List (Ident × Expr)) :
        P (bif target.isMethod then k + 1 else k) (k + 1)
          (Invocation.emit ⟨name, line, signature, args, written⟩ target) :=
      h.builtin htarget hargs hlength hsignature
    -- the receiver of a method is consumed, any other one stays underneath
    cases hmethod : target.isMethod with
    | true =>
      rw [hmethod] at hemit
      obtain ⟨r, rfl⟩ : ∃ r, receiver = some r := by
        simpa [Option.isSome_iff_exists] using hreceives.isSome hmethod
      exact h.bind ((hreceiver r rfl).value h none n) fun _ => hemit n _
    | false =>
      rw [hmethod] at hemit
      cases receiver with
      | none => exact hemit n _
      | some r => exact h.bind ((hreceiver r rfl).value h none n) fun _ => hemit (n + 1) _
  refine ite (fun _ => ?_) fun hother => hcall fun hvalues => absurd hvalues hother
  exact h.checkArguments_bind name line fun hlength => hcall fun _ => hlength

/-- Pushing the pending operations with a transfer in front. -/
theorem prepend (hargs : ∀ o ∈ call.args, o.Meets P)
    (hlength : call.args.length = call.signature.args.length)
    (hsignature : Builtin.transaction.signature site = .ok call.signature) :
    P n (n + 1) call.prepend := by
  have hpush : P (n + 1) (n + 4) call.pushArguments := by
    have hall := h.pushAll (n + 1) hargs hlength
    have hthree : call.signature.args.length = 3 := by
      simp only [Builtin.signature] at hsignature
      split at hsignature <;> simp at hsignature
      simp [← hsignature]
    rwa [hlength, hthree, Nat.add_assoc] at hall
  exact h.bind (h.fetch _) fun _ => h.bind hpush fun _ =>
    h.bind (h.apply_of (n + 1) (by simp) rfl) fun _ => h.apply_of n (by simp) rfl

/-- A transfer leaves nothing, if the pending operations can be given a new value. -/
theorem transaction (hreplace : ∀ n name, P (n + 1) n (replace name))
    (hargs : ∀ o ∈ call.args, o.Meets P) (hlength : call.args.length = call.signature.args.length)
    (hsignature : Builtin.transaction.signature site = .ok call.signature) :
    P n n (call.emit .transaction) := by
  refine h.ask_layout (fun _ _ hkeeps => by simp only [hkeeps.binds]) fun _ => h.ensure fun _ => ?_
  have hall := h.bind (h.prepend hargs hlength hsignature) fun _ => hreplace n Layout.operationsName
  simpa only [Invocation.prepend, bind_assoc] using hall

/-- A call of `transaction` has a signature like any other built-in. -/
theorem callTransaction (hreplace : ∀ n name, P (n + 1) n (replace name)) (line : Nat)
    (name : Ident) (typeParams : List Ty) (hargs : ∀ o ∈ args, o.Meets P)
    (keywords : List (Ident × Operand)) (result : Ty) :
    P n n (Gen.callBuiltin line name .transaction none typeParams args keywords result) := by
  refine h.ask (fun _ _ _ hkeeps => by simp only [typings_of_alike hkeeps.alike]) fun scope =>
    h.typed_bind fun signature hsignature => h.ensure fun _ =>
    h.checkArguments_bind name line fun hlength => h.bind (h.annotate _) fun _ => ?_
  obtain ⟨site, -, hsignature⟩ := Except.bind_eq_ok_iff.mp hsignature
  exact h.transaction hreplace hargs hlength (atLine_eq_ok_iff.mp hsignature)

end Rules

end Gen.Counted

/-! ## Calls whose callee is known -/

/-- How many cells a call leaves. -/
def Callee.cells : Callee → Nat
  | .record _ fields => min fields.length 1
  | .closure _ _ => 1
  | .builtin _ .transaction _ _ => 0
  | .builtin _ target receiver _ =>
    bif target.isMethod then 1 else receiver.toList.length + 1

/-- The callee is the built-in `transaction`. -/
def Callee.isTransaction : Callee → Bool
  | .builtin _ .transaction _ _ => true
  | _ => false

namespace Gen

/-- A call as the generator sees it: what is called, the operand in front of an attribute that is
called, and the arguments. -/
structure Call where
  line : Nat
  func : Operand
  receiver : Option Operand
  args : List Operand
  keywords : List (Ident × Operand)

namespace Call

/-- The code of the call. -/
def emit (call : Call) (result : Ty) : Gen Unit :=
  emitCall call.line call.func call.receiver call.args call.keywords result

/-- What the call does once the callee is known. -/
def invoke (call : Call) (result : Ty) : Callee → Gen Unit
  | .record name fields => callRecord call.line name fields call.args call.keywords
  | .closure want _ => callClosure call.line call.func call.args call.keywords want
  | .builtin name target receiverTy typeParams =>
    callBuiltin call.line name target
      (call.receiver.bind fun operand => receiverTy.map fun ty => (operand, ty)) typeParams
      call.args call.keywords result

/-- A call is emitted by finding the callee and invoking it. -/
theorem emit_eq (call : Call) (result : Ty) : call.emit result = (do
    let scope ← scope
    let callee ← typed (calleeOf scope call.func.expr)
    call.invoke result callee) := by
  refine congrArg (scope >>= ·) (funext fun scope => congrArg _ (funext fun callee => ?_))
  cases callee <;> rfl

theorem emit_eq_ok_iff {call : Call} {result : Ty} {config : Config} {state : State}
    {done : Step Unit} : call.emit result config state = .ok done ↔
      ∃ callee, calleeOf ⟨config.records, state.layout⟩ call.func.expr = .ok callee ∧
        call.invoke result callee config state = .ok done := by
  rw [emit_eq, scope_bind, typed_bind_eq_ok_iff]

/-- The operands of the call have the property, and an attribute that is called is one of them. -/
structure All (Q : Operand → Prop) (call : Call) : Prop where
  func : Q call.func
  receiver : ∀ o ∈ call.receiver, Q o
  map_receiver : ∀ line value field, call.func.expr = .attr line value field →
    call.receiver.map Operand.expr = some value
  args : ∀ o ∈ call.args, Q o
  keywords : ∀ k ∈ call.keywords, Q k.2

/-- A callee that has a receiver finds it among the operands. -/
theorem All.exists_receiver {Q : Operand → Prop} {call : Call} (hcall : call.All Q) {scope : Scope}
    {name : Ident} {target : Builtin} {receiverTy : Option Ty} {typeParams : List Ty}
    (horigin : Callee.Origin scope call.func.expr name target receiverTy typeParams) :
    ∃ r : Option (Operand × Ty),
      (call.receiver.bind fun operand => receiverTy.map fun ty => (operand, ty)) = r ∧
        r.map (·.2) = receiverTy ∧ ∀ x ∈ r, Q x.1 ∧ (typing scope x.1.expr).alone = .ok x.2 := by
  refine ⟨_, rfl, ?_⟩
  cases receiverTy with
  | none => cases call.receiver <;> simp
  | some found =>
    obtain ⟨_, value, hexpr, -, halone, -⟩ := horigin.of_receiver
    obtain ⟨operand, hoperand, rfl⟩ := Option.map_eq_some_iff.mp (hcall.map_receiver _ _ _ hexpr)
    simpa [hoperand] using ⟨hcall.receiver operand hoperand, halone⟩

end Call

section

variable {P : ∀ ⦃α : Type⦄, Nat → Nat → Gen α → Prop} {call : Call} {callee : Callee}
  {scope : Scope}

/-- A call whose callee is known, unless it is `transaction`. -/
theorem Counted.invoke (h : Counted P) (hcall : call.All (Operand.Meets P))
    (hcallee : calleeOf scope call.func.expr = .ok callee) (hother : callee.isTransaction = false)
    (result : Ty) (n : Nat) : P n (n + callee.cells) (call.invoke result callee) := by
  have hexplains := explains_of_calleeOf hcallee
  cases callee with
  | record name fields => exact h.callRecord call.line name fields hcall.args call.keywords
  | closure want _ => exact h.callClosure call.line hcall.func hcall.args hcall.keywords want
  | builtin name target receiverTy typeParams =>
    obtain ⟨r, hr, rfl, hmeets⟩ := hcall.exists_receiver hexplains
    have htarget : target ≠ .transaction := by
      rintro rfl
      cases hother
    have hcells : (Callee.builtin name target (r.map (·.2)) typeParams).cells =
        bif target.isMethod then 1 else r.toList.length + 1 := by
      cases r <;> cases target <;> first | rfl | exact absurd rfl htarget
    rw [Call.invoke, hr, hcells]
    exact h.callBuiltin call.line name htarget hexplains.receives (fun x hx => (hmeets x hx).1)
      typeParams hcall.args call.keywords result

/-- A call of `transaction` leaves as many cells as it found. -/
theorem Counted.invoke_transaction (h : Counted P) (hreplace : ∀ n name, P (n + 1) n (replace name))
    (hcall : call.All (Operand.Meets P)) (hcallee : calleeOf scope call.func.expr = .ok callee)
    (htransaction : callee.isTransaction = true) (result : Ty) (n : Nat) :
    P n n (call.invoke result callee) := by
  have hexplains := explains_of_calleeOf hcallee
  match callee, htransaction with
  | .builtin name .transaction receiverTy typeParams, _ =>
    obtain rfl : receiverTy = none := hexplains.receives
    have hnone : (call.receiver.bind fun operand =>
        (none : Option Ty).map fun ty => (operand, ty)) = none := by
      cases call.receiver <;> rfl
    rw [Call.invoke, hnone]
    exact h.callTransaction hreplace call.line name typeParams hcall.args call.keywords result

/-! ## Cells on top of the named ones -/

/-- The step takes `n` cells on top of the named ones and leaves `m` in their place. -/
def Stacks {α : Type} (n m : Nat) (step : Gen α) : Prop :=
  Each (fun l _ l' => ∀ ⦃base : Layout⦄, base.After n l → base.After m l') step

theorem Stacks.after {α : Type} {m : Nat} {step : Gen α} (h : Stacks 0 m step) {config : Config}
    {state : State} {done : Step α} (hdone : step config state = .ok done) :
    state.layout.After m done.state.layout :=
  h hdone (.refl _)

theorem stacks_pop (n : Nat) : Stacks (n + 1) n (pop 1) := by
  intro config state done hdone base h
  obtain ⟨-, rfl⟩ := pop_eq_ok_iff.mp hdone
  have hdepth := h.depth
  exact h.atDepth (by omega)

theorem stacks_copy (n : Nat) : Stacks (n + 1) (n + 2) (do emit (.dup 1); push 1) := by
  intro config state done hdone base h
  obtain ⟨rest, hrest, rfl⟩ := emit_bind_eq_ok_iff.mp hdone
  cases hrest
  have hdepth := h.depth
  show base.After (n + 2) (state.layout.atDepth (state.layout.depth + 1))
  exact h.atDepth (by omega)

/-- The code of expressions works on top of the named cells. -/
theorem counted_stacks : Counted fun _ n m step => Stacks n m step := by
  refine counted_each (R := fun n m l _ l' => ∀ ⦃base : Layout⦄, base.After n l → base.After m l')
    (fun _ _ _ => id) (fun h h' _ hafter => h' (h hafter)) ?_ ?_ ?_ ?_ ?_ (fun _ _ _ => id)
  · intro n note config state done hdone base h
    obtain rfl := annotate_eq_ok_iff.mp hdone
    exact h
  · intro n p _ config state done hdone base h
    obtain ⟨harity, rfl⟩ := apply_eq_ok_iff.mp hdone
    have hdepth := h.depth
    exact h.atDepth (by omega)
  · intro n name config state done hdone base h
    obtain ⟨slot, -, -, rfl⟩ := fetch_eq_ok_iff.mp hdone
    have hdepth := h.depth
    exact h.atDepth (by omega)
  · intro n message config state done hdone base h
    obtain rfl := emit_eq_ok_iff.mp hdone
    exact h
  · intro n config state done hdone base h
    obtain ⟨rest, hrest, rfl⟩ := emit_bind_eq_ok_iff.mp hdone
    exact stacks_pop (n + 1) hrest h

/-! ## How many cells there are -/

/-- Steps count the cells that they replace. -/
theorem counted_depth :
    Counted fun _ n m step => Each (fun l _ l' => l'.depth + n = l.depth + m) step := by
  refine counted_each (fun _ _ => rfl) (fun h h' => by omega) ?_ ?_ ?_ ?_ ?_
    (fun _ _ => by omega)
  · intro n note config state done hdone
    obtain rfl := annotate_eq_ok_iff.mp hdone
    rfl
  · intro n p _ config state done hdone
    obtain ⟨harity, rfl⟩ := apply_eq_ok_iff.mp hdone
    simp only [State.layout_atDepth, Layout.depth_atDepth]
    omega
  · intro n name config state done hdone
    obtain ⟨slot, -, -, rfl⟩ := fetch_eq_ok_iff.mp hdone
    simp only [State.layout_atDepth, Layout.depth_atDepth]
    omega
  · intro n message config state done hdone
    obtain rfl := emit_eq_ok_iff.mp hdone
    rfl
  · intro n config state done hdone
    obtain ⟨hone, rfl⟩ := emit_pop_eq_ok_iff.mp hdone
    simp only [State.layout_atDepth, Layout.depth_atDepth]
    omega

/-- Every call leaves the cells that its callee says. -/
theorem depth_of_invoke {result : Ty} {config : Config}
    {state : State} {done : Step Unit}
    (hattr : ∀ line value field, call.func.expr = .attr line value field →
      call.receiver.map Operand.expr = some value)
    (hcallee : calleeOf scope call.func.expr = .ok callee)
    (hdone : call.invoke result callee config state = .ok done) :
    done.state.layout.depth = state.layout.depth + callee.cells := by
  -- an operand counts as a value only if it leaves one cell
  have hoperand (o : Operand) :
      o.Meets fun _ n m step => Each (fun l _ l' => l'.depth + n = l.depth + m) step := by
    intro ty n config state done hdone
    have hdepth := (single_eq_ok_iff.mp hdone).2
    omega
  have hcall : call.All
      (Operand.Meets fun _ n m step => Each (fun l _ l' => l'.depth + n = l.depth + m) step) :=
    ⟨hoperand _, fun o _ => hoperand o, hattr, fun o _ => hoperand o, fun k _ => hoperand k.2⟩
  cases hother : callee.isTransaction with
  | false =>
    have hcount := counted_depth.invoke hcall hcallee hother result 0 hdone
    dsimp only at hcount
    omega
  | true =>
    have hreplace (n : Nat) (name : Ident) :
        Each (fun l _ l' => l'.depth + (n + 1) = l.depth + n) (replace name) := by
      intro config state done hdone
      obtain ⟨c, -, habove, rfl⟩ := replace_eq_ok_iff.mp hdone
      show (state.layout.settled name c).depth + (n + 1) = state.layout.depth + n
      rw [Layout.depth_settled]
      omega
    -- the list of operations is replaced, which takes the new list off
    have hsame := counted_depth.invoke_transaction hreplace hcall hcallee hother result 0 hdone
    have hcells : callee.cells = 0 := by
      match callee, hother with
      | .builtin _ .transaction _ _, _ => rfl
    omega

/-- A call that leaves one cell has the property if its operands have it. -/
theorem Counted.invocation (h : Counted P) (hcall : call.All (Operand.Meets P)) (result : Ty)
    (n : Nat) : P n (n + 1) (single (call.emit result)) := by
  have hwider : P n (n + 1) (do
      let scope ← scope
      let callee ← Gen.typed (calleeOf scope call.func.expr)
      single (call.invoke result callee)) := by
    refine h.ask (fun _ _ _ hkeeps => by simp only [calleeOf_of_alike hkeeps.alike]) fun scope =>
      h.typed_bind fun callee hcallee => ?_
    -- a call that leaves another number of cells is no operand
    by_cases hcells : callee.cells = 1
    · have hother : callee.isTransaction = false := by
        match callee with
        | .record _ _ | .closure _ _ => rfl
        | .builtin _ target _ _ => cases target <;> first | rfl | cases hcells
      have hinvoke := h.invoke hcall hcallee hother result n
      rw [hcells] at hinvoke
      exact h.narrow (fun _ _ _ hdone => (single_eq_ok_iff.mp hdone).1) hinvoke
    · refine h.fails fun config state done hdone => ?_
      obtain ⟨hdone, hdepth⟩ := single_eq_ok_iff.mp hdone
      have hcount := depth_of_invoke hcall.map_receiver hcallee hdone
      omega
  refine h.narrow (fun config state done hdone => ?_) hwider
  obtain ⟨hdone, hdepth⟩ := single_eq_ok_iff.mp hdone
  obtain ⟨callee, hcallee, hdone⟩ := Call.emit_eq_ok_iff.mp hdone
  rw [scope_bind, typed_bind_eq_ok_iff]
  exact ⟨callee, hcallee, single_eq_ok_iff.mpr ⟨hdone, hdepth⟩⟩

end

end Gen

/-! ## The recursion over the tree -/

/-- A call that is written in the program. -/
def Gen.Call.written (line : Nat) (func : Expr) (args : List Expr)
    (keywords : List (Ident × Expr)) : Gen.Call :=
  ⟨line, func.operand, func.receiver?.map Expr.operand, operands args, keywordOperands keywords⟩

/-- The code of a call expression is that of a call. -/
theorem emitExpr_call (line : Nat) (func : Expr) (args : List Expr)
    (keywords : List (Ident × Expr)) (ty : Ty) :
    emitExpr (.call line func args keywords) ty = (Call.written line func args keywords).emit ty := by
  cases func <;> simp only [emitExpr] <;> rfl

/-- What holds of the parts of a call expression holds of the operands of the call. -/
theorem Gen.Call.all_written {Q : Operand → Prop} (line : Nat) {func : Expr} {args : List Expr}
    {keywords : List (Ident × Expr)}
    (hparts : ∀ part ∈ (Expr.call line func args keywords).parts, Q part.operand) :
    (Call.written line func args keywords).All Q where
  func := hparts func (by simp [Expr.parts])
  receiver o ho := by
    obtain ⟨value, hvalue, rfl⟩ := Option.map_eq_some_iff.mp ho
    exact hparts value (by simp [Expr.parts, hvalue])
  map_receiver line value field hexpr := by
    obtain rfl : func = .attr line value field := hexpr
    rfl
  args := forall_mem_operands fun e he => hparts e (by simp [Expr.parts, he])
  keywords k hk := by
    rw [Call.written, keywordOperands_eq_map] at hk
    obtain ⟨k, hmem, rfl⟩ := List.mem_map.mp hk
    exact hparts k.2 (List.mem_append_right _ (List.mem_map_of_mem hmem))

namespace Gen.Counted

variable {P : ∀ ⦃α : Type⦄, Nat → Nat → Gen α → Prop} (h : Counted P)
include h

/-- Expressions other than calls leave one cell. -/
theorem simple_of_parts {e : Expr} (hcall : e.isCall = false)
    (hparts : ∀ part ∈ e.parts, part.operand.Meets P) (ty : Ty) (n : Nat) :
    P n (n + 1) (emitExpr e ty) := by
  match e, hcall, hparts with
  | .name _ id, _, _ => simpa only [emitExpr] using h.emitName id
  | .literal _ value, _, _ => simpa only [emitExpr] using h.emitLiteral value ty
  | .list line items, _, hparts =>
    simp only [emitExpr]
    exact h.emitList line (forall_mem_operands hparts) ty
  | .tuple _ _, _, _ | .compare _ _ [], _, _ | .compare _ _ (_ :: _ :: _), _, _ =>
    simpa only [emitExpr] using h.defect _
  | .dict line entries, _, hparts =>
    simpa only [emitExpr] using h.emitDict line (forall_mem_entryOperands hparts) ty
  | .attr line value field, _, hparts =>
    simp only [emitExpr]
    exact h.emitAttribute _ (hparts value (by simp [Expr.parts])) field
  | .subscript _ value index, _, hparts =>
    simp only [emitExpr]
    exact h.emitSubscript (hparts value (by simp [Expr.parts]))
      (hparts index (by simp [Expr.parts]))
  | .compare _ left [(op, right)], _, hparts =>
    simp only [emitExpr]
    exact h.emitCompare op (hparts left (by simp [Expr.parts]))
      (hparts right (by simp [Expr.parts]))
  | .binary _ left op right, _, hparts =>
    simp only [emitExpr]
    exact h.emitBinary op (hparts left (by simp [Expr.parts]))
      (hparts right (by simp [Expr.parts]))
  | .unary _ op operand, _, hparts =>
    simp only [emitExpr]
    exact h.emitUnary op (hparts operand (by simp [Expr.parts]))
  | .boolean _ op values, _, hparts =>
    simp only [emitExpr]
    exact h.emitBoolean op (forall_mem_operands hparts)

/-- Every expression that leaves one cell has the property. -/
theorem operand (e : Expr) : e.operand.Meets P := by
  induction e using Expr.induction_parts with
  | step e hparts =>
    cases hcall : e.isCall with
    -- only calls can leave another number of cells than one
    | false =>
      exact fun ty n => h.narrow (fun _ _ _ hdone => (single_eq_ok_iff.mp hdone).1)
        (h.simple_of_parts hcall hparts ty n)
    | true =>
      match e, hcall, hparts with
      | .call line func args keywords, _, hparts =>
        intro ty n
        show P n (n + 1) (single (emitExpr (.call line func args keywords) ty))
        rw [emitExpr_call]
        exact h.invocation (Call.all_written line hparts) ty n

theorem simple {e : Expr} (hcall : e.isCall = false) (ty : Ty) (n : Nat) :
    P n (n + 1) (emitExpr e ty) :=
  h.simple_of_parts hcall (fun part _ => h.operand part) ty n

theorem written (line : Nat) (func : Expr) (args : List Expr) (keywords : List (Ident × Expr)) :
    (Call.written line func args keywords).All (Operand.Meets P) :=
  Call.all_written line fun part _ => h.operand part

end Gen.Counted

/-! ## Places inside a variable -/

/-- The key of the step has the property. -/
def PathStep.Meets (P : ∀ ⦃α : Type⦄, Nat → Nat → Gen α → Prop) : PathStep → Prop
  | .field _ _ _ => True
  | .key index _ => index.Meets P

namespace Gen.Counted

variable {P : ∀ ⦃α : Type⦄, Nat → Nat → Gen α → Prop} (h : Counted P) {n : Nat}
include h

/-- The keys on the way to a place are operands. -/
theorem pathSteps {scope : Scope} {line : Nat} {places : List Place} {ty leaf : Ty}
    {steps : List PathStep} (hsteps : pathSteps scope line ty places = .ok (steps, leaf)) :
    ∀ step ∈ steps, step.Meets P := by
  induction places generalizing ty steps with
  | nil =>
    cases hsteps
    simp
  | cons place rest ih =>
    cases place with
    | field attr =>
      obtain ⟨name, fields, node, inner, tail, -, -, htail, rfl⟩ :=
        pathSteps_field_eq_ok_iff.mp hsteps
      exact List.forall_mem_cons.mpr ⟨trivial, ih htail⟩
    | key index =>
      obtain ⟨key, inner, tail, -, -, htail, rfl⟩ := pathSteps_key_eq_ok_iff.mp hsteps
      exact List.forall_mem_cons.mpr ⟨h.operand index, ih htail⟩

/-- The inner container is put back into the outer one. -/
theorem closeStep {step : PathStep} (hstep : step.Meets P) : P (n + 2) (n + 1) (closeStep step) := by
  cases step with
  | field record fields attr => exact h.typed_bind fun _ _ => h.apply_of n (by simp) rfl
  | key index ty =>
    have hindex : index.Meets P := hstep
    exact h.bind (h.apply_of (n + 1) (by simp) rfl) fun _ =>
      h.bind (hindex.pushAs h ty (n + 2)) fun _ => h.apply_of n (by simp) rfl

variable (hcopy : ∀ n, P (n + 1) (n + 2) (do emit (.dup 1); push 1))
include hcopy

/-- An opened container stays beneath what is taken out of it. -/
theorem openStep {step : PathStep} (hstep : step.Meets P) : P (n + 1) (n + 2) (openStep step) := by
  unfold Gen.openStep
  rw [← bind_assoc]
  refine h.bind (hcopy n) fun _ => ?_
  cases step with
  | field record fields attr => exact h.readField record fields attr
  | key index ty => exact h.lookUp hstep ty

/-- The container on top gives way to the one with the value in it. -/
theorem writeSteps {value : Gen Unit} (hvalue : ∀ n, P n (n + 1) value) :
    ∀ {steps : List PathStep} (n : Nat), steps ≠ [] → (∀ step ∈ steps, step.Meets P) →
      P (n + 1) (n + 1) (writeSteps value steps)
  | [], _, hne, _ => absurd rfl hne
  -- the last container is not opened: the value goes into it
  | [last], n, _, hsteps =>
    h.bind (hvalue (n + 1)) fun _ => h.closeStep (hsteps last (by simp))
  | step :: next :: rest, n, _, hsteps => by
    obtain ⟨hstep, hrest⟩ := List.forall_mem_cons.mp hsteps
    rw [Gen.writeSteps]
    · exact h.bind (h.openStep hcopy hstep) fun _ =>
        h.bind (writeSteps hvalue (n + 1) (by simp) hrest) fun _ => h.closeStep hstep
    · simp

end Gen.Counted

end Covenant
