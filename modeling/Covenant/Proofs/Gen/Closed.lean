import Covenant.Proofs.Gen.Counted

/-!
# Covenant — properties that simple statements inherit

Statements without blocks are sequences of questions, expressions and changes to variables. How many
cells they leave depends on the layout, so a property of them does not count cells. `Gen.Closed P Q`
says that `Q` holds of such a step where it follows from a property `P` of the expressions in it,
which does count them, and that sequences inherit it. Assignments, expression statements, returns
and the declarations of record classes then have the property.
-/

namespace Covenant

namespace Gen

/-- The property `Q` holds of the steps that simple statements are put together from, among them
those that have the property `P`, and sequences inherit it. -/
structure Closed (P : ∀ ⦃α : Type⦄, Nat → Nat → Gen α → Prop) (Q : ∀ ⦃α : Type⦄, Gen α → Prop) :
    Prop where
  counted : Counted P
  copy : ∀ n : Nat, P (n + 1) (n + 2) (do emit (.dup 1); push 1)
  settle : ∀ (n : Nat) (name : Ident), P (n + 1) n (replace name)
  of_counted : ∀ {α : Type} {m : Nat} {step : Gen α}, P 0 m step → Q step
  bind : ∀ {α β : Type} {step : Gen α} {next : α → Gen β}, Q step → (∀ a, Q (next a)) →
    Q (step >>= next)
  /-- A step that emits nothing and leaves the layout as it is, if it succeeds. -/
  silent : ∀ {α : Type} {step : Gen α}, (∀ config state done, step config state = .ok done →
    done.code = [] ∧ done.state.layout = state.layout) → Q step
  apply : ∀ {p : Prim}, p ≠ .pair 0 → Q (apply p)
  drop : Q (do emit .drop; pop 1)
  replace : ∀ name : Ident, Q (replace name)

/-- A property of single runs that does not count cells is inherited if the relation composes. -/
theorem closed_each {R : Layout → Code → Layout → Prop} (nil : ∀ l, R l [] l)
    (append : ∀ {l l' l'' code code'}, R l code l' → R l' code' l'' → R l (code ++ code') l'')
    (annotate : ∀ note, Each R (annotate note)) (apply : ∀ p, Each R (apply p))
    (fetch : ∀ name, Each R (fetch name)) (replace : ∀ name, Each R (replace name))
    (unwrap : ∀ message, Each R (emit (unwrapOr message)))
    (exec : Each R (do emit .exec; pop 1)) (copy : Each R (do emit (.dup 1); push 1))
    (drop : Each R (do emit .drop; pop 1))
    (orElse : ∀ {l l' code}, R (l.atDepth (l.depth - 1)) code l' → R l [.ifNone code []] l) :
    Closed (fun _ _ _ step => Each R step) (fun _ step => Each R step) where
  counted := counted_each (R := fun _ _ => R) (fun _ => nil) append (fun _ => annotate)
    (fun _ p _ => apply p) (fun _ => fetch) (fun _ => unwrap) (fun _ => exec) (fun _ => orElse)
  copy _ := copy
  settle _ := replace
  of_counted h := h
  bind h hnext config state done hdone := by
    obtain ⟨first, last, hfirst, hlast, rfl⟩ := bind_eq_ok_iff.mp hdone
    exact append (h hfirst) (hnext _ hlast)
  silent h := .of_silent nil h
  apply {p} _ := apply p
  drop := drop
  replace := replace

namespace Closed

variable {P : ∀ ⦃α : Type⦄, Nat → Nat → Gen α → Prop} {Q : ∀ ⦃α : Type⦄, Gen α → Prop}
  (h : Closed P Q) {α : Type} {c : Prop}
include h

/-! ## Steps that emit nothing -/

/-- A step that never succeeds has the property. -/
theorem fails {step : Gen α} (hfails : ∀ config state done, step config state ≠ .ok done) :
    Q step :=
  h.silent fun config state done hdone => absurd hdone (hfails config state done)

theorem pure (a : α) : Q (Pure.pure a : Gen α) :=
  h.silent fun _ _ _ hdone => by cases hdone; exact ⟨rfl, rfl⟩

theorem layout : Q layout :=
  h.silent fun _ _ _ hdone => by cases hdone; exact ⟨rfl, rfl⟩

theorem depth : Q depth :=
  h.silent fun _ _ _ hdone => by cases hdone; exact ⟨rfl, rfl⟩

theorem scope : Q scope :=
  h.silent fun _ _ _ hdone => by cases hdone; exact ⟨rfl, rfl⟩

theorem seen (line : Nat) : Q (seen line) := h.of_counted (h.counted.seen line)

theorem annotate (note : Note) : Q (annotate note) := h.of_counted (h.counted.annotate note)

theorem typed (outcome : Typed α) : Q (typed outcome) := h.of_counted (h.counted.typed outcome)

/-- What follows a typing question has to have the property only for the answer that is given. -/
theorem typed_bind {β : Type} {outcome : Typed α} {next : α → Gen β}
    (hnext : ∀ a, outcome = .ok a → Q (next a)) : Q (Gen.typed outcome >>= next) := by
  cases outcome with
  | error e =>
    refine h.fails fun config state done hdone => ?_
    obtain ⟨a, ha, -⟩ := typed_bind_eq_ok_iff.mp hdone
    cases ha
  | ok a =>
    have hstep : (Gen.typed (.ok a) : Gen α) = Pure.pure a := rfl
    rw [hstep, pure_bind]
    exact hnext a rfl

theorem failAt (line : Nat) (cause : Cause) : Q (failAt line cause : Gen α) :=
  h.fails fun _ _ _ => failAt_ne_ok

theorem fail (cause : Cause) : Q (fail cause : Gen α) :=
  h.fails fun _ _ _ => fail_ne_ok

theorem defect (d : Defect) : Q (defect d : Gen α) :=
  h.fails fun _ _ _ => defect_ne_ok

theorem typeOf (e : Expr) (expected : Option Ty) : Q (typeOf e expected) :=
  h.of_counted (h.counted.typeOf e expected)

theorem storageType : Q storageType := h.bind h.scope fun _ => h.typed _

theorem denoted (e : Expr) : Q (denoted e) := h.bind h.scope fun _ => h.typed _

/-- An annotation may be missing. -/
theorem mapM_denoted (declared : Option Expr) : Q (declared.mapM Gen.denoted) := by
  cases declared with
  | none => exact h.pure none
  | some e => exact h.bind (h.denoted e) fun ty => h.pure (some ty)

theorem checkFits (value : Expr) (want : Ty) : Q (checkFits value want) := by
  refine h.bind (h.typeOf value _) fun found => ?_
  split
  · exact h.pure _
  · exact h.failAt _ _

/-! ## Checks -/

omit h in
theorem ite {g g' : Gen α} [Decidable c] (hthen : Q g) (helse : Q g') :
    Q (if c then g else g') := by
  split
  · exact hthen
  · exact helse

theorem ensure {step : Gen Unit} {next : Unit → Gen α} [Decidable c] (hstep : Q step)
    (hnext : Q (next ())) : Q (if c then next () else step >>= next) :=
  ite hnext (h.bind hstep fun _ => hnext)

theorem refuse {step : Gen Unit} {next : Unit → Gen α} [Decidable c] (hstep : Q step)
    (hnext : Q (next ())) : Q (if c then step >>= next else next ()) :=
  ite (h.bind hstep fun _ => hnext) hnext

/-! ## Expressions -/

/-- A value is one of the steps that count cells. -/
theorem value (e : Expr) (expected : Option Ty) : Q (e.operand.value expected) :=
  h.of_counted ((h.counted.operand e).value h.counted expected 0)

theorem pushAs (e : Expr) (want : Ty) : Q (e.operand.pushAs want) :=
  h.of_counted ((h.counted.operand e).pushAs h.counted want 0)

/-- The code of every expression has the property, whether or not it leaves a cell. -/
theorem emitExpr (e : Expr) (ty : Ty) : Q (emitExpr e ty) := by
  cases hcall : e.isCall with
  | false => exact h.of_counted (h.counted.simple hcall ty 0)
  | true =>
    match e, hcall with
    | .call line func args keywords, _ =>
      rw [emitExpr_call, Call.emit_eq]
      refine h.bind h.scope fun scope => h.typed_bind fun callee hcallee => ?_
      have hoperands := h.counted.written line func args keywords
      cases htransaction : callee.isTransaction with
      | false =>
        exact h.of_counted (h.counted.invoke hoperands hcallee htransaction ty 0)
      | true =>
        exact h.of_counted
          (h.counted.invoke_transaction h.settle hoperands hcallee htransaction ty 0)

theorem compile (e : Expr) (expected : Option Ty) : Q (e.operand.compile expected) :=
  h.bind (h.typeOf _ _) fun ty => h.bind (h.seen _) fun _ => h.bind (h.emitExpr e ty) fun _ =>
    h.pure _

/-! ## Assignment -/

/-- The containers on the way to the place are opened, and closed again around the value. -/
theorem assignPath (target value : Expr) : Q (assignPath target value) := by
  refine h.bind h.scope fun scope => h.typed_bind fun path hpath => ?_
  obtain ⟨places, root, -, -, hsteps⟩ := Path.resolve_eq_ok hpath
  have hpush := (h.counted.operand value).pushAs h.counted path.leaf
  have hwritten : Q (do
      fetch path.root
      writeSteps (value.operand.pushAs path.leaf) path.steps) := by
    -- a plain name is a path without steps, where the value is pushed on the old one
    by_cases hnil : path.steps = []
    · rw [hnil]
      exact h.of_counted (h.counted.bind (h.counted.fetch path.root) fun _ => hpush 1)
    · exact h.of_counted (h.counted.bind (h.counted.fetch path.root) fun _ =>
        h.counted.writeSteps h.copy hpush 0 hnil (h.counted.pathSteps hsteps))
  refine h.bind (h.checkFits _ _) fun _ => ?_
  rw [← bind_assoc]
  exact h.bind hwritten fun _ => h.replace _

/-- The storage is assigned to like a variable of the storage type. -/
theorem assignStorage (value : Expr) : Q (assignStorage value.operand) :=
  h.bind h.storageType fun want => h.bind (h.checkFits _ _) fun _ =>
    h.bind (h.pushAs value want) fun _ => h.replace _

/-- A variable that is declared again is given a value, and a new one takes the cell on top. -/
theorem assignName (hbind : ∀ name ty, Q (bindTop name ty)) (target : Expr) (name : Ident)
    (declared : Option Ty) (value : Expr) :
    Q (assignName target name declared value.operand) := by
  refine h.bind h.layout fun l => ?_
  -- shared by the cases in which the type is known before the value
  have hdeclared (want : Ty) : Q (do
      Gen.checkFits value want
      value.operand.pushAs want
      if (← Gen.layout).binds name then
        Gen.replace name
      else
        bindTop name want) :=
    h.bind (h.checkFits _ _) fun _ => h.bind (h.pushAs value want) fun _ =>
      h.bind h.layout fun l => ite (h.replace name) (hbind name want)
  cases declared with
  | none =>
    cases l.ty? name with
    | none => exact h.bind (h.value value none) fun ty => hbind name ty
    | some want => exact hdeclared want
  | some declaredTy =>
    cases l.ty? name with
    | none => exact hdeclared declaredTy
    | some existingTy => exact h.ensure (h.failAt _ _) (hdeclared declaredTy)

/-- The three kinds of targets. -/
theorem assign (hbind : ∀ name ty, Q (bindTop name ty)) (target : Expr) (declared : Option Expr)
    (value : Expr) : Q (assign target declared value) := by
  refine h.bind (h.mapM_denoted declared) fun declared => ?_
  cases target with
  | name line name => exact h.assignName hbind _ name declared value
  | attr | subscript => exact ite (h.assignStorage value) (h.assignPath _ value)
  | _ => exact h.failAt _ _

/-! ## Simple statements -/

/-- A value that nothing uses is dropped. -/
theorem evaluate (value : Expr) : Q (evaluate value.operand) := by
  unfold Gen.evaluate
  split
  · exact h.pure _
  · exact h.bind h.depth fun before => h.bind (h.compile value none) fun _ =>
      h.bind h.depth fun after => ite h.drop (h.pure _)

/-- What a `return` does depends on the kind of function around it. -/
theorem ret (value : Option Expr) : Q (ret value) := by
  refine h.bind h.layout fun l => ?_
  split
  · next want value _ =>
    exact h.bind (h.typeOf _ _) fun found => h.ensure (h.failAt _ _) (h.pushAs value want)
  · exact ite (h.apply (by simp)) (h.fail _)
  · exact h.assignStorage _
  · exact h.fail _
  · exact h.fail _

/-! ## Record classes -/

/-- The declarations in the body of a record class. -/
theorem recordFields (record : Ident) (body : List Stmt) : Q (recordFields record body) := by
  induction body with
  | nil => exact h.pure _
  | cons s rest hrest =>
    unfold Gen.recordFields
    split
    · split
      · exact h.failAt _ _
      · exact h.bind (h.denoted _) fun _ => h.bind hrest fun _ => h.pure _
    · exact hrest
    · exact ite hrest (h.failAt _ _)

theorem recordClass (name : Ident) (body : List Stmt) : Q (recordClass name body) := by
  refine h.bind h.scope fun _ => h.refuse (h.fail _) ?_
  refine h.bind (h.recordFields name body) fun fields => h.refuse (h.fail _) ?_
  split
  · exact h.fail _
  · exact h.pure _

end Closed

end Gen

end Covenant
