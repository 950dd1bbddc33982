import Covenant.Proofs.Gen.Counted
import Covenant.Proofs.Machine.Cells
import Covenant.Proofs.NoDefects

/-!
# Covenant — expressions work on top of the stack

Code *replaces* `n` cells by `m` if, on whatever machine, it takes `n` cells off the stack and
leaves `m` in their place (`Code.Replaces`). It may copy cells from further down, but it leaves them
where they are and as they are. A step of the generator *moves* from `n` to `m` if its code does so
and the layout counts along (`Gen.Moves`). The steps that expressions are put together from move, so
every operand that is a value pushes it and does nothing else (`Expr.moves_value`).

One call is different. `transaction` puts a new list of operations in the place of the old one, so
it changes a cell further down and leaves nothing (`Gen.Stores`). It is no value, hence no operand
of anything, and only matters where it is a statement of its own.
-/

namespace Covenant

open Ending Machine

/-! ## Code -/

namespace Code

/-- On every machine, the code takes `n` cells off the stack and puts `m` in their place. -/
def Replaces (code : Code) (n m : Nat) : Prop :=
  ∀ ⦃α : Type⦄ (M : Machine α) ⦃x rest t : List α⦄, x.length = n →
    M.run code (x ++ rest) = ends t → ∃ y, y.length = m ∧ t = y ++ rest

variable {a b code : Code} {n m k : Nat}

theorem replaces_nil (n : Nat) : Replaces [] n n := by
  intro α M x rest t hx hrun
  rw [run_nil] at hrun
  exact ⟨x, hx, (ends.inj hrun).symm⟩

/-- The second piece of code takes what the first one leaves. -/
theorem Replaces.append (h : Replaces a n m) (h' : Replaces b m k) : Replaces (a ++ b) n k := by
  intro α M x rest t hx hrun
  rw [run_append] at hrun
  obtain ⟨u, hfirst, hsecond⟩ := ends_of_andThen hrun
  obtain ⟨y, hy, rfl⟩ := h M hx hfirst
  exact h' M hy hsecond

/-- Cells underneath that the code does not take are not changed. -/
theorem Replaces.under (h : Replaces code n m) (k : Nat) : Replaces code (k + n) (k + m) := by
  intro α M x rest t hx hrun
  have htake : (x.take n).length = n := by rw [List.length_take]; omega
  rw [← List.take_append_drop n x, List.append_assoc] at hrun
  obtain ⟨y, hy, rfl⟩ := h M htake hrun
  refine ⟨y ++ x.drop n, ?_, by rw [List.append_assoc]⟩
  rw [List.length_append, List.length_drop]
  omega

theorem replaces_prim (p : Prim) : Replaces [.prim p] p.arity 1 := by
  intro α M x rest t hx hrun
  rw [run_singleton] at hrun
  obtain ⟨-, a, rfl⟩ := ends_of_prim hrun
  exact ⟨[a], rfl, by rw [← hx, List.drop_left]; rfl⟩

/-- A copy is a new cell, wherever it is taken from. -/
theorem replaces_dup (n : Nat) : Replaces [.dup n] 0 1 := by
  intro α M x rest t hx hrun
  obtain rfl := List.length_eq_zero_iff.mp hx
  rw [run_singleton, List.nil_append, step] at hrun
  split at hrun
  · cases hrun
  · split at hrun
    · next a _ => exact ⟨[a], rfl, (ends.inj hrun).symm⟩
    · cases hrun

theorem replaces_drop : Replaces [.drop] 1 0 := by
  intro α M x rest t hx hrun
  obtain ⟨a, rfl⟩ := List.length_eq_one_iff.mp hx
  rw [run_singleton, List.singleton_append, step] at hrun
  exact ⟨[], rfl, (ends.inj hrun).symm⟩

theorem replaces_lambda (arg result : Ty) (body : Code) :
    Replaces [.lambda arg result body] 0 1 := by
  intro α M x rest t hx hrun
  obtain rfl := List.length_eq_zero_iff.mp hx
  rw [run_singleton, step] at hrun
  exact ⟨[_], rfl, (ends.inj hrun).symm⟩

/-- A closure is called with its argument and leaves its result. -/
theorem replaces_exec : Replaces [.exec] 2 1 := by
  intro α M x rest t hx hrun
  match x, hx with
  | [arg, func], _ =>
  rw [run_singleton] at hrun
  simp only [List.cons_append, List.nil_append, step] at hrun
  cases hcall : M.call arg func with
  | none =>
    rw [hcall] at hrun
    cases hrun
  | some a =>
    rw [hcall] at hrun
    exact ⟨[a], rfl, (ends.inj hrun).symm⟩

theorem replaces_notes (config : Gen.Config) (note : Note) (n : Nat) :
    Replaces (config.notes note) n n := by
  unfold Gen.Config.notes
  split
  · intro α M x rest t hx hrun
    rw [run_singleton, step] at hrun
    exact ⟨x, hx, (ends.inj hrun).symm⟩
  · exact replaces_nil n

/-- An option gives way to what is in it, or to what the first block makes in its place. -/
theorem replaces_ifNone (h : Replaces code n (n + 1)) :
    Replaces [.ifNone code []] (n + 1) (n + 1) := by
  intro α M x rest t hx hrun
  match x, hx with
  | a :: x, hx =>
  rw [run_singleton, List.cons_append, step] at hrun
  split at hrun
  · exact h M (Nat.succ.inj hx) hrun
  · next b _ =>
    rw [run_nil] at hrun
    exact ⟨b :: x, hx, (ends.inj hrun).symm⟩
  · cases hrun

theorem replaces_unwrapOr (message : String) : Replaces [unwrapOr message] 1 1 :=
  -- without a value the code fails, and leaves nothing that could be wrong
  replaces_ifNone fun _ _ _ _ _ _ hrun => absurd hrun (run_ne_ends _ _ rfl)

end Code

open Code

/-! ## Steps -/

namespace Gen

variable {α β : Type} {n m k : Nat}

/-- The code of the step takes `n` cells off the stack and puts `m` in their place, and the layout
counts them. -/
def Moves (step : Gen α) (n m : Nat) : Prop :=
  ∀ ⦃config : Config⦄ ⦃state : State⦄ ⦃done : Step α⦄, step config state = .ok done →
    Replaces done.code n m ∧ done.state.layout.depth + n = state.layout.depth + m

variable {step : Gen α} {next : α → Gen β}

theorem Moves.bind (h : Moves step n m) (hnext : ∀ a, Moves (next a) m k) :
    Moves (step >>= next) n k := by
  intro config state done hdone
  obtain ⟨first, last, hfirst, hlast, rfl⟩ := bind_eq_ok_iff.mp hdone
  obtain ⟨hcode, hdepth⟩ := h hfirst
  obtain ⟨hcode', hdepth'⟩ := hnext _ hlast
  refine ⟨hcode.append hcode', ?_⟩
  show last.state.layout.depth + n = state.layout.depth + k
  omega

theorem Moves.under (h : Moves step n m) (k : Nat) : Moves step (k + n) (k + m) := by
  intro config state done hdone
  obtain ⟨hcode, hdepth⟩ := h hdone
  exact ⟨hcode.under k, by omega⟩

/-! ### Steps that emit nothing -/

/-- The step emits notes at most, and leaves the layout alone. -/
def Silent (step : Gen α) : Prop :=
  ∀ ⦃config : Config⦄ ⦃state : State⦄ ⦃done : Step α⦄, step config state = .ok done →
    Replaces done.code 0 0 ∧ done.state.layout = state.layout

theorem Silent.moves (h : Silent step) (n : Nat) : Moves step n n := by
  intro config state done hdone
  obtain ⟨hcode, hlayout⟩ := h hdone
  exact ⟨hcode.under n, by rw [hlayout]⟩

theorem Silent.bind (h : Silent step) (hnext : ∀ a, Silent (next a)) : Silent (step >>= next) := by
  intro config state done hdone
  obtain ⟨first, last, hfirst, hlast, rfl⟩ := bind_eq_ok_iff.mp hdone
  obtain ⟨hcode, hlayout⟩ := h hfirst
  obtain ⟨hcode', hlayout'⟩ := hnext _ hlast
  exact ⟨hcode.append hcode', hlayout'.trans hlayout⟩

theorem silent_pure (a : α) : Silent (pure a) := fun _ _ _ hdone => by
  cases hdone
  exact ⟨replaces_nil 0, rfl⟩

theorem silent_layout : Silent layout := fun _ _ _ hdone => by
  cases hdone
  exact ⟨replaces_nil 0, rfl⟩

theorem silent_scope : Silent scope := fun _ _ _ hdone => by
  cases hdone
  exact ⟨replaces_nil 0, rfl⟩

theorem silent_typed (outcome : Typed α) : Silent (typed outcome) := by
  intro config state done hdone
  obtain ⟨_, -, rfl⟩ := typed_eq_ok_iff.mp hdone
  exact ⟨replaces_nil 0, rfl⟩

theorem silent_failAt (line : Nat) (cause : Cause) : Silent (failAt line cause : Gen α) :=
  silent_typed _

theorem silent_annotate (note : Note) : Silent (annotate note) := by
  intro config state done hdone
  obtain rfl := annotate_eq_ok_iff.mp hdone
  exact ⟨replaces_notes config note 0, rfl⟩

theorem silent_typeOf (e : Expr) (expected : Option Ty) : Silent (typeOf e expected) :=
  silent_scope.bind fun _ => silent_typed _

theorem silent_unless {c : Prop} [Decidable c] {line : Nat} {cause : Cause} {next : Unit → Gen β}
    (h : Silent (next ())) : Silent (if c then next () else failAt line cause >>= next) := by
  split
  · exact h
  · exact (silent_failAt line cause).bind fun _ => h

/-! ### Steps that emit code -/

theorem moves_emit {i : Instr} (h : Replaces [i] n n) : Moves (emit i) n n := by
  intro config state done hdone
  obtain rfl := emit_eq_ok_iff.mp hdone
  exact ⟨h, rfl⟩

/-- A primitive leaves the cells that it does not consume, and one more. -/
theorem moves_apply (n : Nat) {p : Prim} (h : n + p.arity = m) : Moves (apply p) m (n + 1) := by
  subst h
  refine Moves.under ?_ n
  intro config state done hdone
  obtain ⟨harity, rfl⟩ := apply_eq_ok_iff.mp hdone
  refine ⟨replaces_prim p, ?_⟩
  show state.layout.depth - p.arity + 1 + p.arity = state.layout.depth + 1
  omega

theorem moves_fetch (name : Ident) (n : Nat) : Moves (fetch name) n (n + 1) := by
  refine Moves.under (n := 0) (m := 1) ?_ n
  intro config state done hdone
  obtain ⟨slot, -, -, rfl⟩ := fetch_eq_ok_iff.mp hdone
  exact ⟨(replaces_notes config _ 0).append (replaces_dup _), rfl⟩

theorem moves_exec (n : Nat) : Moves (do emit .exec; pop 1) (n + 2) (n + 1) := by
  refine Moves.under (n := 2) (m := 1) ?_ n
  intro config state done hdone
  refine ⟨?_, counted_depth.exec 0 hdone⟩
  obtain ⟨hone, rfl⟩ := emit_pop_eq_ok_iff.mp hdone
  exact replaces_exec

theorem moves_copy (n : Nat) : Moves (do emit (.dup 1); push 1) (n + 1) (n + 2) := by
  refine Moves.under (n := 0) (m := 1) ?_ (n + 1)
  intro config state done hdone
  obtain ⟨rest, hrest, rfl⟩ := emit_bind_eq_ok_iff.mp hdone
  cases hrest
  exact ⟨replaces_dup 1, rfl⟩

/-- The code of expressions takes cells off the stack and leaves others in their place. -/
theorem counted_moves : Counted fun _ n m step => Moves step n m := by
  refine counted_each (R := fun n m l code l' => Replaces code n m ∧ l'.depth + n = l.depth + m)
    ?nil ?append ?annotate ?apply ?fetch ?unwrap ?exec ?orElse
  case nil => exact fun n l => ⟨replaces_nil n, rfl⟩
  case append => exact fun h h' => ⟨h.1.append h'.1, by have := h.2; have := h'.2; omega⟩
  case annotate => exact fun n note => (silent_annotate note).moves n
  case apply => exact fun n _ _ => moves_apply n rfl
  case fetch => exact fun n name => moves_fetch name n
  case unwrap => exact fun n message => (moves_emit (replaces_unwrapOr message)).under n
  case exec => exact fun n => moves_exec n
  case orElse =>
    intro n l code l' _ h
    exact ⟨replaces_ifNone h.1, rfl⟩

end Gen

open Gen

theorem Expr.moves_value (e : Expr) (expected : Option Ty) (n : Nat) :
    Moves (e.operand.value expected) n (n + 1) :=
  (counted_moves.operand e).value counted_moves expected n

theorem Expr.moves_pushAs (e : Expr) (want : Ty) (n : Nat) :
    Moves (e.operand.pushAs want) n (n + 1) :=
  (counted_moves.operand e).pushAs counted_moves want n

namespace Gen

/-! ## A new value in the place of an old one -/

/-- The step has computed one value and has put it in the place of a variable. -/
def Stores (name : Ident) (config : Config) (state : State) (done : Step Unit) : Prop :=
  ∃ before last : Step Unit, Replaces before.code 0 1 ∧
    before.state.layout.depth = state.layout.depth + 1 ∧
    (state.layout.WellFormed → state.layout.After 1 before.state.layout) ∧
    replace name config before.state = .ok last ∧
    done = ⟨(), before.code ++ last.code, last.state⟩

/-- If the step succeeds, it has put a new value in the place of a variable. -/
def Assigns (step : Gen Unit) (name : Ident) : Prop :=
  ∀ ⦃config : Config⦄ ⦃state : State⦄ ⦃done : Step Unit⦄, step config state = .ok done →
    Stores name config state done

section

variable {α : Type} {name : Ident} {config : Config} {state : State} {done : Step Unit}

theorem Stores.depth (h : Stores name config state done) :
    done.state.layout.depth = state.layout.depth := by
  obtain ⟨before, last, -, hdepth, -, hreplace, rfl⟩ := h
  obtain ⟨c, -, -, rfl⟩ := replace_eq_ok_iff.mp hreplace
  show (before.state.layout.settled name c).depth = state.layout.depth
  rw [Layout.depth_settled]
  omega

/-- The value comes first, and the variable is given it last. -/
theorem assigns_replace {step : Gen Unit} (h : Moves step 0 1) (hstacks : Stacks 0 1 step) :
    Assigns (do step; replace name) name := by
  intro config state done hdone
  obtain ⟨before, last, hbefore, hlast, rfl⟩ := bind_eq_ok_iff.mp hdone
  obtain ⟨hcode, hdepth⟩ := h hbefore
  exact ⟨before, last, hcode, hdepth, fun _ => hstacks.after hbefore, hlast, rfl⟩

theorem Silent.assigns {step : Gen α} {next : α → Gen Unit} (h : Silent step)
    (hnext : ∀ a, Assigns (next a) name) : Assigns (step >>= next) name := by
  intro config state done hdone
  obtain ⟨first, rest, hfirst, hrest, rfl⟩ := bind_eq_ok_iff.mp hdone
  obtain ⟨hcode, hlayout⟩ := h hfirst
  obtain ⟨before, last, hbefore, hdepth, hafter, hlast, rfl⟩ := hnext _ hrest
  rw [hlayout] at hdepth hafter
  exact ⟨⟨(), first.code ++ before.code, before.state⟩, last, hcode.append hbefore, hdepth, hafter,
    hlast, by simp⟩

theorem assigns_typed_bind {outcome : Typed α} {next : α → Gen Unit}
    (h : ∀ a, outcome = .ok a → Assigns (next a) name) : Assigns (typed outcome >>= next) name := by
  intro config state done hdone
  obtain ⟨a, ha, hdone⟩ := typed_bind_eq_ok_iff.mp hdone
  exact h a ha hdone

theorem assigns_unless {c : Prop} [Decidable c] {line : Nat} {cause : Cause}
    {next : Unit → Gen Unit} (h : Assigns (next ()) name) :
    Assigns (if c then next () else failAt line cause >>= next) name := by
  split
  · exact h
  · exact (silent_failAt line cause).assigns fun _ => h

end

end Gen

/-! ## Built-in calls -/

namespace Invocation

open Gen

variable {call : Invocation}

/-- `transaction` gives the pending operations a new value. -/
theorem assigns_emit (hargs : ∀ o ∈ call.args, o.Meets fun _ n m step => Moves step n m)
    (hstacks : ∀ o ∈ call.args, o.Meets fun _ n m step => Stacks n m step)
    (hlength : call.args.length = call.signature.args.length) {site : CallSite}
    (hsignature : Builtin.transaction.signature site = .ok call.signature) :
    Assigns (call.emit .transaction) Layout.operationsName := by
  have hassigns : Assigns (do call.prepend; replace Layout.operationsName) Layout.operationsName :=
    assigns_replace (counted_moves.prepend (n := 0) hargs hlength hsignature)
      (counted_stacks.prepend hstacks hlength hsignature)
  simp only [prepend, bind_assoc] at hassigns
  exact silent_layout.assigns fun _ => assigns_unless hassigns

end Invocation

namespace Gen

open Operand

variable {config : Config} {state : State} {done : Step Unit}

/-- Code that adds cells on top, or a new value for the pending operations. -/
def OnTop (transacts : Prop) (config : Config) (state : State) (done : Step Unit) : Prop :=
  (∃ k, Replaces done.code 0 k ∧ done.state.layout.depth = state.layout.depth + k) ∨
    (transacts ∧ Stores Layout.operationsName config state done)

theorem Moves.onTop {step : Gen Unit} {k : Nat} {transacts : Prop} (h : Moves step 0 k)
    (hdone : step config state = .ok done) : OnTop transacts config state done :=
  .inl ⟨k, h hdone⟩

theorem silent_checkTypes (function : Ident) : ∀ (os : List Operand) (wants : List Ty),
    Silent (checkTypes function os wants)
  | [], _ | _ :: _, [] => silent_pure ()
  | _ :: os, _ :: wants => (silent_typeOf _ _).bind fun _ => silent_unless
      (silent_checkTypes function os wants)

/-- The arguments are checked, and then the pending operations get a new value. -/
theorem assigns_callBuiltin (line : Nat) (name : Ident) (typeParams : List Ty)
    {args : List Operand} (hargs : ∀ o ∈ args, o.Meets fun _ n m step => Moves step n m)
    (hstacks : ∀ o ∈ args, o.Meets fun _ n m step => Stacks n m step)
    (keywords : List (Ident × Operand)) (result : Ty) :
    Assigns (callBuiltin line name .transaction none typeParams args keywords result)
      Layout.operationsName := by
  refine silent_scope.assigns fun scope => assigns_typed_bind fun signature hsignature =>
    assigns_unless fun config state done hdone => ?_
  obtain ⟨site, -, hsignature⟩ := Except.bind_eq_ok_iff.mp hsignature
  obtain ⟨_, _, hchecked, -, -⟩ := bind_eq_ok_iff.mp hdone
  have hlength := (unless_failAt_eq_ok_iff.mp hchecked).1
  have hsilent : Silent (checkArguments name line args signature.args) :=
    silent_unless (silent_checkTypes name args signature.args)
  refine hsilent.assigns (fun _ => ?_) hdone
  exact (silent_annotate _).assigns fun _ =>
    Invocation.assigns_emit hargs hstacks hlength (atLine_eq_ok_iff.mp hsignature)

/-- Every call adds its result on top, but for a transaction. -/
theorem onTop_call (line : Nat) (func : Expr) (args : List Expr) (keywords : List (Ident × Expr))
    {ty : Ty} (hdone : (Call.written line func args keywords).emit ty config state = .ok done) :
    OnTop (func.name? = some "transaction") config state done := by
  obtain ⟨callee, hcallee, hdone⟩ := Call.emit_eq_ok_iff.mp hdone
  have hcall := counted_moves.written line func args keywords
  cases htransaction : callee.isTransaction with
  | false => exact (counted_moves.invoke hcall hcallee htransaction ty 0).onTop hdone
  | true =>
    match callee, htransaction with
    | .builtin name .transaction receiverTy typeParams, _ =>
      obtain rfl : receiverTy = none := (explains_of_calleeOf hcallee).receives
      have hnone : ((Call.written line func args keywords).receiver.bind fun operand =>
          (none : Option Ty).map fun ty => (operand, ty)) = none := by
        cases (Call.written line func args keywords).receiver <;> rfl
      rw [Call.invoke, hnone] at hdone
      exact .inr ⟨name?_of_calleeOf hcallee, assigns_callBuiltin line name typeParams hcall.args
        (counted_stacks.written line func args keywords).args _ ty hdone⟩

end Gen

/-- The code of the operand adds cells on top, unless it is a call of `transaction`. -/
def Operand.Adds (o : Operand) : Prop :=
  ∀ ⦃ty : Ty⦄ ⦃config : Config⦄ ⦃state : State⦄ ⦃done : Step Unit⦄,
    o.emit ty config state = .ok done →
    OnTop (o.expr.callsTransaction = true) config state done

/-- Every expression adds to the stack, or else is a transaction. -/
theorem Expr.adds_operand (e : Expr) : e.operand.Adds := by
  intro ty config state done hdone
  cases hcall : e.isCall with
  | false => exact (counted_moves.simple hcall ty 0).onTop hdone
  | true =>
    match e, hcall with
    | .call line func args keywords, _ =>
      replace hdone : emitExpr (.call line func args keywords) ty config state = .ok done := hdone
      rw [emitExpr_call] at hdone
      refine (onTop_call line func args keywords hdone).imp id ?_
      rintro ⟨hname, hstores⟩
      exact ⟨by simp [Expr.operand, Expr.callsTransaction, hname], hstores⟩

end Covenant
