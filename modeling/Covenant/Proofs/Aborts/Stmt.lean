import Covenant.Proofs.Aborts.Code
import Covenant.Proofs.Gen.Assembly
import Covenant.Proofs.Gen.Closed

/-!
# Covenant — the code of statements is orderly

Expressions never abort on all paths, and neither do the instructions that move variables: their code
is straight (`Gen.Straight`). Only `raise` emits an abort, and it is the last thing it emits.

The generator looks at the code of each statement before it goes on with a block, and at the code of
a block before it frees variables behind it. So the code of a statement is orderly, and it diverges
just if the statement aborts on all paths (`orderly_compileStmt`), which can be read off the source
(`Stmt.aborts`).
-/

namespace Covenant

open Instr

/-! ## Straight code -/

theorem Layout.straight_dropAt (jump : Nat) : (dropAt jump).straight = true := by
  cases jump <;> rfl

theorem Layout.straight_settleCode (jump : Nat) :
    (settleCode jump).all straight = true := by
  rw [settleCode, List.all_cons, straight_dropAt, Bool.true_and]
  split <;> rfl

namespace Gen

variable {α β : Type} {body : Gen Unit} {step : Gen α}

/-- The emitted code is straight: control goes on past each instruction. -/
def Straight (step : Gen α) : Prop :=
  ∀ ⦃config : Config⦄ ⦃state : State⦄ ⦃done : Step α⦄, step config state = .ok done →
    done.code.all straight = true

theorem straight_notes (config : Config) (n : Note) :
    (config.notes n).all straight = true := by
  unfold Config.notes
  split <;> rfl

theorem Straight.bind {next : α → Gen β} (hstep : Straight step) (hnext : ∀ a, Straight (next a)) :
    Straight (step >>= next) := by
  intro config state done h
  obtain ⟨first, second, hfirst, hsecond, rfl⟩ := bind_eq_ok_iff.mp h
  rw [List.all_append, hstep hfirst, hnext _ hsecond, Bool.and_self]

theorem straight_emit {i : Instr} (hi : i.straight = true) : Straight (emit i) := by
  intro config state done h
  obtain rfl := emit_eq_ok_iff.mp h
  simp [hi]

theorem straight_push (n : Nat) : Straight (push n) := by
  intro config state done h
  rw [push_apply, Except.ok.injEq] at h
  subst h
  rfl

theorem straight_pop (n : Nat) : Straight (pop n) := by
  intro config state done h
  obtain ⟨-, rfl⟩ := pop_eq_ok_iff.mp h
  rfl

theorem straight_annotate (note : Note) : Straight (annotate note) := by
  intro config state done h
  obtain rfl := annotate_eq_ok_iff.mp h
  exact straight_notes config note

theorem straight_apply (p : Prim) : Straight (apply p) :=
  (straight_emit rfl).bind fun _ => (straight_pop _).bind fun _ => straight_push 1

theorem straight_fetch (name : Ident) : Straight (fetch name) := by
  intro config state done h
  obtain ⟨slot, -, -, rfl⟩ := fetch_eq_ok_iff.mp h
  rw [List.all_append, straight_notes]
  rfl

theorem straight_replace (name : Ident) : Straight (replace name) := by
  intro config state done h
  obtain ⟨c, -, -, rfl⟩ := replace_eq_ok_iff.mp h
  rw [List.all_append, straight_notes, Layout.straight_settleCode, Bool.and_self]

/-- A default leaves the way past it open, as a value may be there. -/
theorem straight_ifNone {code : Code} (h : code.all straight = true) :
    [ifNone code []].all straight = true := by
  have horderly := orderly_of_straight h
  simp [straight, Instr.orderly, Instr.diverges, horderly, orderly, diverges]

/-- The code of an expression is straight. Where it may abort it branches, and one branch goes on. -/
theorem closed_straight : Closed (fun _ _ _ step => Straight step) @Straight :=
  closed_each (R := fun _ code _ => code.all straight = true) (fun _ => rfl)
    (fun h h' => by rw [List.all_append, h, h', Bool.and_self]) straight_annotate straight_apply
    straight_fetch straight_replace (fun _ => straight_emit rfl)
    ((straight_emit rfl).bind fun _ => straight_pop 1)
    ((straight_emit rfl).bind fun _ => straight_push 1)
    ((straight_emit rfl).bind fun _ => straight_pop 1) straight_ifNone

theorem straight_bindTop (name : Ident) (ty : Ty) : Straight (bindTop name ty) := by
  intro config state done h
  obtain ⟨l, -, rfl⟩ := bindTop_eq_ok_iff.mp h
  exact straight_notes config _

theorem straight_free (name : Ident) : Straight (free name) := by
  intro config state done h
  obtain ⟨c, -, -, rfl⟩ := free_eq_ok_iff.mp h
  rw [List.all_append, straight_notes, List.all_cons, Layout.straight_dropAt]
  rfl

theorem straight_freeAll (names : List Ident) : Straight (freeAll names) := by
  intro config state done h
  obtain ⟨code, l, hfree, rfl⟩ := freeAll_eq_ok_iff.mp h
  obtain ⟨order, -, hdrop⟩ := Layout.freeAll_eq_ok hfree
  exact Layout.code_of_dropNames (P := fun code => code.all straight = true) rfl
    (fun n rest hrest => by rw [List.all_cons, Layout.straight_dropAt, hrest, Bool.and_self]) hdrop

/-! ## Orderly code -/

/-- The emitted code is orderly, and diverges or not as is said. -/
def Orderly (aborts : Bool) (step : Gen α) : Prop :=
  ∀ ⦃config : Config⦄ ⦃state : State⦄ ⦃done : Step α⦄, step config state = .ok done →
    orderly done.code = true ∧ diverges done.code = aborts

variable {aborts : Bool}

theorem Straight.orderly (h : Straight step) : Orderly false step :=
  fun _ _ _ hdone => ⟨orderly_of_straight (h hdone), diverges_of_straight (h hdone)⟩

/-- Anything orderly may come after straight code. -/
theorem Straight.andThen {next : α → Gen β} (hstep : Straight step)
    (hnext : ∀ a, Orderly aborts (next a)) : Orderly aborts (step >>= next) := by
  intro config state done h
  obtain ⟨first, second, hfirst, hsecond, rfl⟩ := bind_eq_ok_iff.mp h
  obtain ⟨horderly, hdiv⟩ := hnext _ hsecond
  exact ⟨orderly_append (hstep hfirst) horderly,
    (diverges_append_of_straight (hstep hfirst) _).trans hdiv⟩

theorem Orderly.fromHere {body : Layout → Gen Unit} (h : ∀ l, Orderly aborts (body l)) :
    Orderly aborts (fromHere body) :=
  closed_straight.layout.andThen h

/-- What follows a body that aborts is left out. -/
theorem Orderly.unlessDiverges {aborts' : Bool} {body last : Gen Unit}
    (hbody : Orderly aborts body) (hlast : Orderly aborts' last) :
    Orderly (aborts || aborts') (do
      let ((), code) ← listen body
      unless diverges code do
        last) := by
  intro config state done h
  obtain ⟨inner, hinner, hends⟩ := unlessDiverges_eq_ok h
  obtain ⟨horderly, rfl⟩ := hbody hinner
  rcases hends with ⟨hdiv, rfl⟩ | ⟨hgoes, rest, hrest, rfl⟩
  · rw [hdiv, Bool.true_or]
    exact ⟨horderly, rfl⟩
  · have hinside := straight_of_orderly horderly hgoes
    obtain ⟨hbehind, rfl⟩ := hlast hrest
    rw [hgoes, Bool.false_or]
    exact ⟨orderly_append hinside hbehind, diverges_append_of_straight hinside _⟩

theorem Orderly.freeingAfter (h : Orderly aborts body) (name : Ident) :
    Orderly aborts (freeingAfter name body) := by
  have hfreed := h.unlessDiverges (straight_free name).orderly
  rwa [Bool.or_false] at hfreed

theorem orderly_raise (value : Option Expr) : Orderly true (raise value) := by
  cases value with
  | none => exact fun _ _ _ h => absurd h fail_ne_ok
  | some value =>
    refine closed_straight.scope.andThen fun _ => (closed_straight.typed _).andThen fun message =>
      (closed_straight.value message none).andThen fun _ => ?_
    intro config state done h
    obtain ⟨-, rfl⟩ := emit_pop_eq_ok_iff.mp h
    exact ⟨rfl, rfl⟩

/-! ## Statements that hold blocks -/

/-- A conditional diverges just if both branches do. -/
theorem Orderly.ifElse {aborts' : Bool} {body orelse : Gen Unit} (hbody : Orderly aborts body)
    (horelse : Orderly aborts' orelse) (test : Expr) :
    Orderly (aborts && aborts') (ifElse test body orelse) := by
  intro config state done h
  obtain ⟨pushed, onTrue, onFalse, depth, -, hpushed, htrue, hfalse, -, rfl⟩ := ifElse_eq_ok h
  obtain ⟨horderly, hdiv⟩ := hbody htrue
  obtain ⟨horderly', hdiv'⟩ := horelse hfalse
  have htest := closed_straight.pushAs test .bool hpushed
  have hbranch : diverges [.ifElse onTrue.code onFalse.code] = (aborts && aborts') := by
    simp [diverges, Instr.diverges, hdiv, hdiv']
  refine ⟨orderly_append htest ?_, (diverges_append_of_straight htest _).trans hbranch⟩
  simp [orderly, Instr.orderly, horderly, horderly']

/-- Control goes on past a loop, whatever its body does: there may be nothing to loop over. -/
theorem Orderly.forIn (hbody : Orderly aborts body) (target : Ident) (iter : Expr) :
    Straight (forIn target iter body) := by
  intro config state done h
  obtain ⟨element, pushed, inner, -, hpushed, hinner, -, rfl⟩ := forIn_eq_ok h
  have hiter := closed_straight.value iter none hpushed
  have hloop := ((straight_bindTop target element).andThen fun _ => hbody).freeingAfter target
    hinner
  rw [List.all_append, hiter, Bool.true_and]
  simp [Instr.straight, Instr.orderly, Instr.diverges, hloop.1]

/-- Control goes on past a definition, whatever the function does when it is called. -/
theorem Orderly.function (hbody : Orderly aborts body) (name : Ident) (params : List Param)
    (returns : Option Expr) :
    Straight (function name params returns body) := by
  intro config state done h
  obtain ⟨param, -, -, argTy, resultTy, start, inner, bound, -, -, -, -, -, -, -, hinner, -, hbound,
    rfl⟩ := function_eq_ok h
  have hclosure := hbody.freeingAfter param.name hinner
  rw [List.all_cons, straight_bindTop _ _ hbound, Bool.and_true]
  simp [Instr.straight, Instr.orderly, Instr.diverges, hclosure.1]

end Gen

/-! ## Statements that abort -/

mutual

/-- Control never continues past the statement: it raises, or both of its branches do. -/
def Stmt.aborts : Stmt → Bool
  | .raise .. => true
  | .ifElse _ _ body orelse => anyAborts body && anyAborts orelse
  | _ => false

/-- Control never reaches the end of the block, since one of its statements aborts. -/
def Stmt.anyAborts : List Stmt → Bool
  | [] => false
  | s :: rest => s.aborts || anyAborts rest

end

open Gen in
mutual

/-- The code of a statement is orderly, and diverges just if the statement aborts. -/
theorem orderly_compileStmt (s : Stmt) : Orderly s.aborts (compileStmt s) := by
  cases s <;> simp only [compileStmt, Stmt.aborts]
  case imports line _ | pass line => exact (closed_straight.seen line).orderly
  all_goals refine (closed_straight.seen _).andThen (Function.const _ ?_)
  case function name params returns body =>
    exact ((Orderly.fromHere (orderly_compileBody body)).function name params returns).orderly
  case classDef => exact closed_straight.layout.andThen fun _ => (closed_straight.fail _).orderly
  case assign target value =>
    exact (closed_straight.assign straight_bindTop target none value).orderly
  case annotated target declared value =>
    cases value with
    | none => exact (closed_straight.fail _).orderly
    | some value =>
      exact (closed_straight.assign straight_bindTop target (some declared) value).orderly
  case augmented => exact (closed_straight.defect _).orderly
  case expr value => exact (closed_straight.evaluate value).orderly
  case ifElse test body orelse =>
    exact (Orderly.fromHere (orderly_compileBody body)).ifElse
      (.fromHere (orderly_compileBody orelse)) test
  case forIn target iter body =>
    exact ((Orderly.fromHere (orderly_compileBody body)).forIn target iter).orderly
  case raise value => exact orderly_raise value
  case ret value => exact (closed_straight.ret value).orderly

/-- A block stops at the first statement that aborts. -/
theorem orderly_compileBody : ∀ (body : List Stmt) (outer : Layout),
    Orderly (Stmt.anyAborts body) (compileBody body outer)
  | [], outer => by
    simp only [compileBody]
    exact (closed_straight.layout.bind fun _ => straight_freeAll _).orderly
  | s :: rest, outer => by
    simp only [compileBody, Stmt.anyAborts]
    exact (orderly_compileStmt s).unlessDiverges (orderly_compileBody rest outer)

end

/-! ## Methods -/

namespace Gen

theorem straight_epilogue : Straight epilogue :=
  closed_straight.layout.bind fun _ => (straight_freeAll _).bind fun _ =>
    closed_straight.layout.bind fun _ =>
      closed_straight.ensure (straight_apply _) (straight_apply _)

theorem orderly_entrypointCode (method : Method) :
    Orderly (Stmt.anyAborts method.body) (entrypointCode method) := by
  have hblock := Orderly.fromHere (orderly_compileBody method.body)
  rw [← Bool.or_false (Stmt.anyAborts method.body)]
  refine Orderly.unlessDiverges ?_ straight_epilogue.orderly
  refine (closed_straight.annotate _).andThen fun _ => ?_
  split
  · exact (straight_apply _).andThen fun _ => (straight_bindTop _ _).andThen fun _ => hblock
  · exact hblock

theorem straight_deploy {method : Method} {config : Config} {state : State}
    {done : Step (Ty × Code)} (h : deploy method config state = .ok done) :
    done.result.2.all straight = true := by
  obtain ⟨line, init, declared, inner, -, -, -, hinner, -, hresult⟩ := deploy_eq_ok h
  rw [hresult]
  exact closed_straight.value init declared hinner

end Gen

end Covenant
