import Covenant.Proofs.EntryStack
import Covenant.Proofs.Frame.Expr
import Covenant.Proofs.Renaming.Syntax
import Covenant.Proofs.Scoping

/-!
# Covenant — statements change what they assign to

The cells of a stack keep their slots while other cells come and go above them, so one can say of a
statement which cells it changes: those of the variables that it assigns to (`Stmt.assigned`), and
no others below the depth that it started from (`statements_keep_other_cells`). Nothing is assumed
of what primitives, options, lists and closures are: this is a matter of where cells are.

Code *retains* the slots below a base if they hold what they held whenever a run ends, some slots
excepted (`Code.Retains`). Expressions spare all there is. A variable that gets a new value has it
put in its slot. What a block declares sits above the cells that were there before, and so does the
element of a loop, which takes the name of a variable away only from the body of the loop. Here
names matter: a variable without its name still has one that it is hidden under, and no name of the
program may be that one.
-/

namespace Covenant

open Ending Stack Layout Stmt Machine

/-! ## Code -/

namespace Code

/-- A run from depth `d` that ends, ends at depth `e`. -/
def EndsAt (code : Code) (d e : Nat) : Prop :=
  ∀ ⦃α : Type⦄ (M : Machine α) ⦃s t : List α⦄, s.length = d → M.run code s = ends t → t.length = e

/-- A run from depth `d` that ends leaves the slots below a base as they were, apart from those that
it may touch. -/
def Retains (code : Code) (d base : Nat) (touched : Nat → Prop) : Prop :=
  ∀ ⦃α : Type⦄ (M : Machine α) ⦃s t : List α⦄, s.length = d → M.run code s = ends t →
    ∀ slot < base, ¬touched slot → atSlot t slot = atSlot s slot

variable {a b code : Code} {d e base base' n m : Nat} {touched touched' : Nat → Prop}

theorem endsAt_of_balanced (h : Depth.Balanced code d e) : EndsAt code d e :=
  fun _ _ _ _ hs hrun => length_of_balanced h hs hrun

theorem Replaces.endsAt (h : Replaces code 0 m) (d : Nat) : EndsAt code d (d + m) := by
  intro α M s t hs hrun
  obtain ⟨y, hy, rfl⟩ := h M (x := []) rfl hrun
  rw [List.length_append, hy, hs, Nat.add_comm]

/-- Code that only adds cells retains all others. -/
theorem Replaces.retains (h : Replaces code 0 m) (hbase : base ≤ d) :
    Retains code d base touched := by
  intro α M s t hs hrun slot hslot _
  obtain ⟨y, -, rfl⟩ := h M (x := []) rfl hrun
  exact atSlot_append y (by omega)

theorem Retains.weaken (h : Retains code d base touched) (hbase : base' ≤ base)
    (htouched : ∀ slot < base', touched slot → touched' slot) : Retains code d base' touched' :=
  fun _ M _ _ hs hrun slot hslot hkept =>
    h M hs hrun slot (by omega) fun hslot' => hkept (htouched slot hslot hslot')

theorem Retains.append (h : Retains a d base touched) (hends : EndsAt a d e)
    (h' : Retains b e base touched) : Retains (a ++ b) d base touched := by
  intro α M s t hs hrun slot hslot hkept
  rw [run_append] at hrun
  obtain ⟨u, hfirst, hsecond⟩ := ends_of_andThen hrun
  rw [h' M (hends M hs hfirst) hsecond slot hslot hkept, h M hs hfirst slot hslot hkept]

/-- Code that goes on from cells on top retains what is underneath them. -/
theorem Replaces.append_retains (h : Replaces a 0 m) (hbase : base ≤ d)
    (h' : Retains b (d + m) base touched) : Retains (a ++ b) d base touched :=
  (h.retains hbase).append (h.endsAt d) h'

/-- A dropped cell retains what is underneath. -/
theorem retains_dropAt {slot : Nat} (hbase : base ≤ slot) (hslot : slot < d) :
    Retains [dropAt (d - 1 - slot)] d base touched := by
  intro α M s t hs hrun i hi _
  subst hs
  rw [run_singleton, step_dropAt (by omega)] at hrun
  obtain rfl := ends.inj hrun
  rw [atSlot_eraseIdx hslot (by omega), if_pos (by omega)]

/-- The top cell in the place of another one: this is the slot that is touched. -/
theorem retains_settleCode {slot : Nat} (hbase : base ≤ d) (hslot : slot < d)
    (htouched : touched slot) :
    Retains (settleCode (d - 1 - slot)) (d + 1) base touched := by
  intro α M s t hs hrun i hi hkept
  match s, hs with
  | a :: rest, hs =>
  obtain rfl : rest.length = d := Nat.succ.inj hs
  rw [run_settleCode (by omega)] at hrun
  obtain rfl := ends.inj hrun
  have hne : i ≠ slot := fun heq => hkept (heq ▸ htouched)
  rw [atSlot_set hslot (by omega), if_neg hne, atSlot_cons_of_lt a (by omega)]

/-- Either branch starts from the stack beneath the test. -/
theorem retains_ifElse (hbase : base ≤ d) (h : Retains a d base touched)
    (h' : Retains b d base touched) : Retains [.ifElse a b] (d + 1) base touched := by
  intro α M s t hs hrun slot hslot hkept
  match s, hs with
  | c :: rest, hs =>
  have hrest : rest.length = d := Nat.succ.inj hs
  rw [run_singleton, step] at hrun
  rw [atSlot_cons_of_lt c (by omega)]
  split at hrun
  · exact h M hrest hrun slot hslot hkept
  · exact h' M hrest hrun slot hslot hkept
  · cases hrun

/-- What every round of a loop retains, the loop retains. -/
theorem retains_iter (hbase : base ≤ d) (h : Retains code (d + 1) base touched)
    (hends : EndsAt code (d + 1) d) : Retains [.iter code] (d + 1) base touched := by
  intro α M s t hs hrun slot hslot hkept
  match s, hs with
  | list :: rest, hs =>
  have hrest : rest.length = d := Nat.succ.inj hs
  -- by induction on the elements, from a stack of the same depth in every round
  have hrounds : ∀ (items : List α) {u : List α}, u.length = d →
      rounds (fun a t => M.run code (a :: t)) items u = ends t →
      atSlot t slot = atSlot u slot := by
    intro items
    induction items with
    | nil =>
      intro u _ hrun
      rw [ends.inj hrun]
    | cons a items ih =>
      intro u hu hrun
      obtain ⟨v, hround, hrun⟩ := ends_of_andThen hrun
      have hlength : (a :: u).length = d + 1 := by rw [List.length_cons, hu]
      rw [ih (hends M hlength hround) hrun, h M hlength hround slot hslot hkept,
        atSlot_cons_of_lt a (by omega)]
  rw [run_singleton, step] at hrun
  rw [atSlot_cons_of_lt list (by omega)]
  split at hrun
  · next items _ => exact hrounds items hrest hrun
  · cases hrun

end Code

open Code

/-! ## Slots of variables -/

namespace Layout

variable {l l' outer : Layout} {names names' : List Ident} {slot : Nat}

/-- The slot is that of one of the variables. -/
def Touches (l : Layout) (names : List Ident) (slot : Nat) : Prop :=
  ∃ name ∈ names, l.slot? name = some slot

theorem Touches.mono (h : l.Touches names slot) (hsub : names ⊆ names') :
    l.Touches names' slot := by
  obtain ⟨name, hmem, hslot⟩ := h
  exact ⟨name, hsub hmem, hslot⟩

theorem Keeps.touches (h : l.Keeps l') (htouches : l'.Touches names slot) :
    l.Touches names slot := by
  obtain ⟨name, hmem, hslot⟩ := htouches
  exact ⟨name, hmem, (h.slots name).symm.trans hslot⟩

/-- A slot of the outer layout has no other name than the one it has there. -/
theorem Extends.touches (h : outer.Extends l) (hslot : slot < outer.depth)
    (htouches : l.Touches names slot) : outer.Touches names slot := by
  obtain ⟨name, hmem, hname⟩ := htouches
  refine ⟨name, hmem, ?_⟩
  cases houter : outer.slot? name with
  | none =>
    have habove := h.above hname (slot?_eq_none_iff.mp houter)
    omega
  | some before => exact (h.slots houter).symm.trans hname

/-- A new binding takes no slot away from the variables with plain names, itself apart. -/
theorem touches_of_bind {name : Ident} {ty : Ty} (h : l.bind name ty = .ok l')
    (hplain : ∀ x ∈ names, '@' ∉ x.toList) (hslot : slot + 1 < l.depth)
    (htouches : l'.Touches names slot) : l.Touches names slot := by
  obtain ⟨x, hmem, hx⟩ := htouches
  rw [slot?_bind h (hplain x hmem)] at hx
  split at hx
  · have htop := Option.some.inj hx
    omega
  · exact ⟨x, hmem, hx⟩

end Layout

/-! ## What a statement assigns to -/

/-- The variable that an assignment target is a part of. For the contract storage this is the
variable that holds it. -/
def Expr.root (target : Expr) : List Ident := (target.places?.map (·.1)).toList

namespace Stmt

mutual

/-- The variables that a statement assigns to, in the body of a function or an entrypoint or
wherever it stands. A return from an entrypoint assigns to the storage, a call of `transaction` to
the pending operations. Nested functions assign to variables of their own. -/
def assigned (context : Context) : Stmt → List Ident
  | assign _ target _ | annotated _ target _ _ | augmented _ target _ _ => target.root
  | expr _ value => if value.callsTransaction then [operationsName] else []
  | ret _ _ =>
    match context with
    | .entrypoint _ => [storageName]
    | _ => []
  | ifElse _ _ body orelse => allAssigned context body ++ allAssigned context orelse
  | forIn _ _ _ body => allAssigned context body
  | function .. | classDef .. | raise .. | imports .. | pass _ => []

def allAssigned (context : Context) : List Stmt → List Ident
  | [] => []
  | s :: rest => assigned context s ++ allAssigned context rest

end

end Stmt

namespace Gen

variable {outer : Layout} {name : Ident}

/-- From a well-formed layout, the code of the step changes no cells but those of the variables that
are assigned to in the context. -/
def Confined (step : Gen Unit) (names : Context → List Ident) : Prop :=
  ∀ ⦃config : Config⦄ ⦃state : State⦄ ⦃done : Step Unit⦄, state.layout.WellFormed →
    step config state = .ok done →
    Retains done.code state.layout.depth state.layout.depth
      (state.layout.Touches (names state.layout.context))

variable {config : Config} {state : State} {done : Step Unit} {names names' : Context → List Ident}
  {step : Gen Unit}

theorem Confined.seen {line : Nat} (h : Confined step names) :
    Confined (do seen line; step) names := by
  intro config state done hl hdone
  rw [seen_bind] at hdone
  have hlayout := state.layout_seeing line
  have hstep := h (hlayout ▸ hl) hdone
  rwa [hlayout] at hstep

theorem Confined.of_fails (h : ∀ config state done, step config state ≠ .ok done) :
    Confined step names :=
  fun config state done _ hdone => absurd hdone (h config state done)

theorem confined_seen (line : Nat) : Confined (seen line) names := by
  intro config state done _ hdone
  cases hdone
  exact (replaces_nil 0).retains le_rfl

/-! ## Assignment -/

/-- A new value goes into the slot of its variable. -/
theorem Stores.retains (h : Stores name config state done) (hl : state.layout.WellFormed) :
    Retains done.code state.layout.depth state.layout.depth (state.layout.Touches [name]) := by
  obtain ⟨before, last, hcode, hdepth, hafter, hreplace, rfl⟩ := h
  obtain ⟨c, hc, habove, rfl⟩ := replace_eq_ok_iff.mp hreplace
  have hvar : state.layout.slot? name = some c.slot :=
    ((hafter hl).keeps.slots name).symm.trans (slot?_of_cell? hc)
  have hindex : before.state.layout.depth - 2 - c.slot = state.layout.depth - 1 - c.slot := by omega
  rw [hindex]
  refine hcode.append_retains le_rfl ?_
  refine (replaces_notes config _ 0).append_retains (Nat.le_succ _) ?_
  exact retains_settleCode le_rfl (by omega) ⟨name, by simp, hvar⟩

theorem Assigns.confined (h : Assigns step name) (hname : ∀ c, name ∈ names c) :
    Confined step names := by
  intro config state done hl hdone
  refine ((h hdone).retains hl).weaken le_rfl fun slot _ htouches => htouches.mono ?_
  simpa using hname _

/-- Code that only adds cells. -/
theorem Moves.confined {k : Nat} (h : Moves step 0 k) : Confined step names :=
  fun _ _ _ _ hdone => (h hdone).1.retains le_rfl

theorem assigns_pushAs (value : Expr) (want : Ty) (name : Ident) :
    Assigns (do value.operand.pushAs want; replace name) name :=
  assigns_replace (value.moves_pushAs want 0)
    ((counted_stacks.operand value).pushAs counted_stacks want 0)

theorem silent_checkFits (value : Expr) (want : Ty) : Silent (checkFits value want) := by
  refine (silent_typeOf value (some want)).bind fun found => ?_
  split
  · exact silent_pure ()
  · exact silent_failAt _ _

theorem assigns_assignStorage (value : Expr) :
    Assigns (assignStorage value.operand) storageName :=
  (silent_scope.bind fun _ => silent_typed _).assigns fun want =>
    (silent_checkFits _ _).assigns fun _ => assigns_pushAs value want _

theorem moves_bindTop (name : Ident) (ty : Ty) (n : Nat) : Moves (bindTop name ty) n n := by
  intro config state done hdone
  obtain ⟨l, hbind, rfl⟩ := bindTop_eq_ok_iff.mp hdone
  refine ⟨replaces_notes config _ n, ?_⟩
  show l.depth + n = state.layout.depth + n
  rw [depth_of_bind hbind]

/-- A new variable is a cell on top; one that is there gets its value in its slot. -/
theorem confined_assignName (target : Expr) (declared : Option Ty) (value : Expr)
    (hname : ∀ c, name ∈ names c) :
    Confined (assignName target name declared value.operand) names := by
  intro config state done hl hdone
  rcases assignName_eq_ok hdone with ⟨want, -, -, -, hdone⟩ | ⟨-, -, hdone⟩
  · obtain ⟨_, -, -, hdone⟩ := checkFits_bind_eq_ok_iff.mp hdone
    obtain ⟨pushed, rest, hpushed, hrest, rfl⟩ := bind_eq_ok_iff.mp hdone
    rw [layout_bind] at hrest
    split at hrest
    · exact (assigns_pushAs value want name).confined hname hl
        (bind_eq_ok_iff.mpr ⟨pushed, rest, hpushed, hrest, rfl⟩)
    · have hadds : Moves (do value.operand.pushAs want; bindTop name want) 0 1 :=
        (value.moves_pushAs want 0).bind fun _ => moves_bindTop name want 1
      exact hadds.confined hl (bind_eq_ok_iff.mpr ⟨pushed, rest, hpushed, hrest, rfl⟩)
  · have hadds : Moves (do let ty ← value.operand.value none; bindTop name ty) 0 1 :=
      (value.moves_value none 0).bind fun ty => moves_bindTop name ty 1
    exact hadds.confined hl hdone

/-! ### Places inside a variable -/

/-- The containers are rebuilt on top of the stack, and then put in the slot of the root. -/
theorem assigns_assignPath {target value : Expr} (hstorage : target.isStorage = false)
    (hname : target.name? = none) {root : Ident} (hroot : root ∈ target.root) :
    Assigns (assignPath target value) root := by
  refine silent_scope.assigns fun scope => assigns_typed_bind fun path hpath =>
    (silent_checkFits _ _).assigns fun _ => ?_
  obtain ⟨places, ty, hplaces, -, hsteps⟩ := Path.resolve_eq_ok hpath
  obtain rfl : path.root = root := by simpa [Expr.root, hplaces, eq_comm] using hroot
  have hsome := steps_ne_nil hstorage hname hplaces hsteps
  have hwrite : Moves (do
      fetch path.root
      writeSteps (value.operand.pushAs path.leaf) path.steps) 0 1 :=
    (moves_fetch _ 0).bind fun _ => counted_moves.writeSteps moves_copy
      (value.moves_pushAs path.leaf) 0 hsome (counted_moves.pathSteps hsteps)
  have hassigns : Assigns (do
      (do
        fetch path.root
        writeSteps (value.operand.pushAs path.leaf) path.steps)
      replace path.root) path.root := by
    refine assigns_replace hwrite (counted_stacks.bind (counted_stacks.fetch _) fun _ => ?_)
    exact counted_stacks.writeSteps stacks_copy
      ((counted_stacks.operand value).pushAs counted_stacks path.leaf) 0 hsome
      (counted_stacks.pathSteps hsteps)
  simpa only [bind_assoc] using hassigns

/-- Each kind of target changes the variable at its root. -/
theorem confined_assign (target : Expr) (declared : Option Expr) (value : Expr)
    (hroot : ∀ c, target.root ⊆ names c) : Confined (assign target declared value) names := by
  intro config state done hl hdone
  rcases assign_eq_ok hdone with ⟨line, name, ty, rfl, hdone⟩ | ⟨hname, hdone⟩
  · have hmem (c : Context) : name ∈ names c := hroot c (by simp [Expr.root, Expr.places?])
    exact confined_assignName _ ty value hmem hl hdone
  · cases hstorage : target.isStorage with
    | true =>
      rw [hstorage] at hdone
      have hmem (c : Context) : storageName ∈ names c := by
        refine hroot c ?_
        cases target <;> simp_all [Expr.root, Expr.places?, Expr.isStorage]
      exact (assigns_assignStorage value).confined hmem hl hdone
    | false =>
      rw [hstorage] at hdone
      obtain ⟨path, hpath, -⟩ := typed_bind_eq_ok_iff.mp (scope_bind.symm.trans hdone)
      obtain ⟨places, -, hplaces, -⟩ := Path.resolve_eq_ok hpath
      have hmem : path.root ∈ target.root := by simp [Expr.root, hplaces]
      exact (assigns_assignPath hstorage hname hmem).confined (fun c => hroot c hmem) hl hdone

/-! ## Simple statements -/

/-- The value goes away again, so only a transaction is left to look at. -/
theorem confined_evaluate {value : Operand} (h : value.Adds)
    (hnames : ∀ c, value.expr.callsTransaction = true → operationsName ∈ names c) :
    Confined (evaluate value) names := by
  intro config state done hl hdone
  rcases evaluate_eq_ok hdone with ⟨_, _, -, rfl⟩ | hdone
  · exact (replaces_nil 0).retains le_rfl
  obtain ⟨compiled, rest, hcompiled, hrest, rfl⟩ := bind_eq_ok_iff.mp hdone
  obtain ⟨ty, inner, -, hinner, rfl⟩ := Operand.compile_eq_ok_iff.mp hcompiled
  rw [depth_bind] at hrest
  have hlayout := state.layout_seeing value.expr.line
  rcases h hinner with ⟨k, hcode, hdepth⟩ | ⟨htransacts, hstores⟩
  · rw [hlayout] at hdepth
    dsimp only at hrest
    split at hrest
    · obtain ⟨-, rfl⟩ := emit_pop_eq_ok_iff.mp hrest
      obtain ⟨j, rfl⟩ : ∃ j, k = j + 1 := ⟨k - 1, by omega⟩
      exact (hcode.append (replaces_drop.under j)).retains le_rfl
    · cases hrest
      exact (hcode.append (replaces_nil k)).retains le_rfl
  · -- a transaction leaves no cell to drop
    have hsame := hstores.depth
    rw [hlayout] at hsame
    dsimp only at hrest
    rw [if_neg (by omega)] at hrest
    cases hrest
    have hretains := hstores.retains (hlayout ▸ hl)
    rw [hlayout] at hretains
    simp only [List.append_nil]
    refine hretains.weaken le_rfl fun slot _ htouches => htouches.mono ?_
    simpa using hnames _ htransacts

/-- There is nothing to say of code that never ends. -/
theorem confined_raise (value : Option Expr) : Confined (raise value) names := by
  cases value with
  | none => exact .of_fails fun _ _ _ => fail_ne_ok
  | some value =>
    intro config state done _ hdone α M s t _ hrun
    rw [raise, scope_bind] at hdone
    obtain ⟨message, -, hdone⟩ := typed_bind_eq_ok_iff.mp hdone
    obtain ⟨pushed, rest, -, hrest, rfl⟩ := bind_eq_ok_iff.mp hdone
    obtain ⟨-, rfl⟩ := emit_pop_eq_ok_iff.mp hrest
    -- the run ends with an abort
    rw [run_append] at hrun
    obtain ⟨u, -, hfail⟩ := ends_of_andThen hrun
    exact absurd hfail (run_ne_ends _ u rfl)

/-- A function leaves its result on top; an entrypoint assigns to the storage. -/
theorem confined_ret (line : Nat) (value : Option Expr) :
    Confined (ret value) fun c => (Stmt.ret line value).assigned c := by
  intro config state done hl hdone
  rw [ret, layout_bind] at hdone
  cases hcontext : state.layout.context <;> rw [hcontext] at hdone
  case function _ want =>
    cases value with
    | none =>
      dsimp only at hdone
      split at hdone
      · exact ((moves_apply (p := .unit) 0 rfl) hdone).1.retains le_rfl
      · exact absurd hdone fail_ne_ok
    | some value =>
      obtain ⟨_, -, hdone⟩ := typeOf_bind_eq_ok_iff.mp hdone
      obtain ⟨-, hdone⟩ := unless_failAt_eq_ok_iff.mp hdone
      exact (value.moves_pushAs want 0 hdone).1.retains le_rfl
  case entrypoint =>
    cases value with
    | none => exact absurd hdone fail_ne_ok
    | some value => exact (assigns_assignStorage value hdone).retains hl
  all_goals cases value <;> exact absurd hdone fail_ne_ok

/-- A closure is a cell on top, whatever its body does. -/
theorem confined_function (name : Ident) (params : List Param) (returns : Option Expr)
    (body : Gen Unit) : Confined (function name params returns body) names := by
  intro config state done hl hdone
  obtain ⟨param, paramExpr, result, argTy, resultTy, start, inner, bound, -, -, -, -, -, -, -, -, -,
    hbound, rfl⟩ := function_eq_ok hdone
  obtain ⟨l, -, rfl⟩ := bindTop_eq_ok_iff.mp hbound
  exact ((replaces_lambda argTy resultTy inner.code).append
    (replaces_notes config _ 1)).retains le_rfl

/-! ## Blocks -/

/-- The branches start from the cells that there were before the test. -/
theorem Confined.ifElse {test : Expr} {body orelse : Gen Unit} (hbody : Confined body names)
    (horelse : Confined orelse names') :
    Confined (ifElse test body orelse) fun c => names c ++ names' c := by
  intro config state done hl hdone
  obtain ⟨pushed, onTrue, onFalse, depth, -, hpushed, htrue, hfalse, -, rfl⟩ := ifElse_eq_ok hdone
  have hafter : state.layout.After 1 pushed.state.layout :=
    (test.yields_pushAs hl (.refl _) .bool).of_ok hpushed
  have hkeeps : state.layout.Keeps (pushed.state.layout.atDepth state.layout.depth) :=
    hafter.keeps.withDepth le_rfl
  have hstart := hl.of_keeps hkeeps
  have hcode := (test.moves_pushAs .bool 0 hpushed).1
  refine hcode.append_retains le_rfl ?_
  refine retains_ifElse le_rfl ?_ ?_
  · refine (hbody hstart htrue).weaken le_rfl fun slot _ htouches => ?_
    refine (hkeeps.touches htouches).mono ?_
    rw [State.layout_atDepth, hkeeps.context]
    exact List.subset_append_left _ _
  · refine (horelse hstart hfalse).weaken le_rfl fun slot _ htouches => ?_
    refine (hkeeps.touches htouches).mono ?_
    simp only [hkeeps.context]
    exact List.subset_append_right _ _

section Loop

variable {target : Ident} {body : Gen Unit} (hbody : Confined body names)
  (haccounts : Accounts body)
  (hgrows : ∀ ⦃config state done⦄, state.layout.WellFormed → body config state = .ok done →
    state.layout.Grows done.state.layout)
  (hplain : ∀ c, ∀ x ∈ names c, '@' ∉ x.toList)
include hbody haccounts hgrows hplain

/-- One round of a loop: the body has a new variable on top, which is dropped again. -/
theorem retains_round {element : Ty} {l : Layout} (hl : l.WellFormed)
    (hafter : l.After 1 state.layout)
    (hdone : freeingAfter target (do bindTop target element; body) config state = .ok done) :
    Retains done.code (l.depth + 1) l.depth (l.Touches (names l.context)) := by
  obtain ⟨round, hround, hends⟩ := unlessDiverges_eq_ok hdone
  obtain ⟨bound, rest, hbound, hrest, rfl⟩ := bind_eq_ok_iff.mp hround
  have haccount : Depth.Balanced (bound.code ++ rest.code) state.layout.depth
      rest.state.layout.depth :=
    ((exact_bindTop target element).accounts.bind fun _ => haccounts) hround
  obtain ⟨l', hbind, rfl⟩ := bindTop_eq_ok_iff.mp hbound
  have hdepth : l'.depth = l.depth + 1 := (depth_of_bind hbind).trans hafter.depth
  have hcontext : l'.context = l.context :=
    (context_of_bind hbind).trans hafter.keeps.context
  have hwf : l'.WellFormed := (hafter.wellFormed hl).bind (hafter.topFree hl) hbind
  have hretains : Retains (config.notes (.bound target) ++ rest.code) (l.depth + 1) l.depth
      (l.Touches (names l.context)) := by
    refine (replaces_notes config _ 0).append_retains (Nat.le_succ _) ?_
    have hinner : Retains rest.code l'.depth l'.depth (l'.Touches (names l'.context)) :=
      @hbody config { state with layout := l' } rest hwf hrest
    rw [hdepth, hcontext] at hinner
    refine hinner.weaken (Nat.le_succ _) fun slot hslot htouches => hafter.keeps.touches ?_
    exact touches_of_bind hbind (hplain _) (by rw [hafter.depth]; omega) htouches
  rcases hends with ⟨-, rfl⟩ | ⟨-, freed, hfreed, rfl⟩
  · exact hretains
  · obtain ⟨slot, hbound, hbelow, rfl⟩ := free_eq_ok_iff.mp hfreed
    -- the variable of the loop is where it was bound
    have hslot : slot = l.depth := by
      have hkept := (hgrows hwf hrest).extending.kept (cell?_of_bind hbind)
      cases (slot?_of_cell? hkept).symm.trans hbound
      show state.layout.depth - 1 = l.depth
      rw [hafter.depth, Nat.add_sub_cancel]
    rw [hafter.depth] at haccount
    refine hretains.append (endsAt_of_balanced haccount) ?_
    refine (replaces_notes config _ 0).append_retains ?_ ?_
    · show l.depth ≤ rest.state.layout.depth
      have hlt : slot < rest.state.layout.depth := hbelow
      omega
    · exact retains_dropAt (Nat.le_of_eq hslot.symm) hbelow

/-- A loop changes what its body assigns to, round by round. -/
theorem Confined.forIn {iter : Expr} : Confined (forIn target iter body) names := by
  intro config state done hl hdone
  obtain ⟨element, pushed, inner, -, hpushed, hinner, hend, rfl⟩ := forIn_eq_ok hdone
  have hafter : state.layout.After 1 pushed.state.layout :=
    (iter.yields_value hl (.refl _) none).of_ok hpushed
  have hcode := (iter.moves_value none 0 hpushed).1
  refine hcode.append_retains le_rfl ?_
  refine retains_iter le_rfl
    (retains_round hbody haccounts hgrows hplain hl hafter hinner) ?_
  rcases hend with hdepth | hdiv
  · have hbalanced : Depth.Balanced inner.code pushed.state.layout.depth inner.state.layout.depth :=
      (((exact_bindTop target element).accounts.bind fun _ => haccounts).freeingAfter target) hinner
    rw [hafter.depth, hdepth] at hbalanced
    exact endsAt_of_balanced hbalanced
  · exact fun _ _ _ _ _ hrun => absurd hrun (run_ne_ends _ _ hdiv)

end Loop

/-! ### What a block declares -/

/-- By induction on the names: each cell that goes is above the outer layout. -/
theorem retains_dropNames (houter : outer.WellFormed) {touched : Nat → Prop} {order : List Ident}
    {l l' : Layout} {code : Code} (hgrows : outer.Grows l)
    (hnew : ∀ name ∈ order, outer.binds name = false) (h : l.dropNames order = .ok (code, l')) :
    Retains code l.depth outer.depth touched := by
  induction order generalizing l code with
  | nil =>
    cases h
    exact (replaces_nil 0).retains hgrows.extending.depth_le
  | cons name rest ih =>
    obtain ⟨slot, tail, hslot, hbelow, hrest, rfl⟩ := dropNames_cons_eq_ok_iff.mp h
    obtain ⟨hname, hnew⟩ := List.forall_mem_cons.mp hnew
    have hends : EndsAt [dropAt (l.depth - 1 - slot)] l.depth (l.depth - 1) := by
      refine endsAt_of_balanced (.of_ends ?_)
      rw [Depth.run_singleton, Depth.step_dropAt (by omega)]
    refine Retains.append (a := [_])
      (retains_dropAt (hgrows.extending.above hslot hname) hbelow) hends ?_
    exact ih ⟨hgrows.wellFormed.without hslot, hgrows.extending.without houter hslot hbelow hname⟩
      hnew hrest

/-- Every statement of a block changes what it assigns to, and of this a cell of the outer layout
only if it belongs to the variable there. -/
theorem retains_compileBody (houter : outer.WellFormed) {body : List Stmt}
    (hbody : ∀ s ∈ body, Confined (compileStmt s) s.assigned) (hgrows : outer.Grows state.layout)
    (hdone : compileBody body outer config state = .ok done) :
    Retains done.code state.layout.depth outer.depth
      (outer.Touches (allAssigned outer.context body)) := by
  induction body generalizing state done with
  | nil =>
    rw [compileBody] at hdone
    obtain ⟨order, hnew, hdrop, -⟩ := freeDeclared_eq_ok hdone
    exact retains_dropNames houter hgrows hnew hdrop
  | cons s rest ih =>
    obtain ⟨hs, hrest⟩ := List.forall_mem_cons.mp hbody
    obtain ⟨first, hfirst, hends⟩ := unlessDiverges_eq_ok hdone
    have hstmt : Retains first.code state.layout.depth outer.depth
        (outer.Touches (allAssigned outer.context (s :: rest))) := by
      refine (hs hgrows.wellFormed hfirst).weaken hgrows.extending.depth_le
        fun slot hslot htouches => (hgrows.extending.touches hslot htouches).mono ?_
      rw [hgrows.extending.context, allAssigned]
      exact List.subset_append_left _ _
    rcases hends with ⟨-, rfl⟩ | ⟨-, last, hlast, rfl⟩
    · exact hstmt
    · refine hstmt.append (endsAt_of_balanced (accounts_compileStmt s hfirst)) ?_
      have hnext := hgrows.trans (grows_of_compileStmt hgrows.wellFormed hfirst)
      refine (ih hrest hnext hlast).weaken le_rfl fun slot _ htouches => htouches.mono ?_
      rw [allAssigned]
      exact List.subset_append_right _ _

/-- A block starts from the layout that its declarations are freed against. -/
theorem confined_block {body : List Stmt}
    (hbody : ∀ s ∈ body, Confined (compileStmt s) s.assigned) :
    Confined (fromHere (compileBody body)) fun c => allAssigned c body := by
  intro config state done hl hdone
  rw [fromHere, layout_bind] at hdone
  exact retains_compileBody hl hbody (.refl hl) hdone

end Gen

open Gen in
mutual

/-- Every statement whose variables have plain names changes only what it assigns to. -/
theorem confined_compileStmt (s : Stmt) (hplain : ∀ c, ∀ x ∈ s.assigned c, '@' ∉ x.toList) :
    Confined (compileStmt s) s.assigned := by
  cases s <;> simp only [compileStmt]
  case imports line _ | pass line => exact confined_seen line
  all_goals refine Confined.seen ?_
  case function name params returns body => exact confined_function name params returns _
  case classDef =>
    refine .of_fails fun config state done => ?_
    rw [layout_bind]
    exact fail_ne_ok
  case assign target value => exact confined_assign target none value fun c => List.Subset.refl _
  case annotated target declared value =>
    cases value with
    | none => exact .of_fails fun _ _ _ => fail_ne_ok
    | some value => exact confined_assign target (some declared) value fun c => List.Subset.refl _
  case augmented => exact .of_fails fun _ _ _ => defect_ne_ok
  case expr value =>
    refine confined_evaluate value.adds_operand fun c htransacts => ?_
    have hcalls : value.callsTransaction = true := htransacts
    simp [Stmt.assigned, hcalls]
  case ifElse test body orelse =>
    have hbody := confined_all body fun c x hx => hplain c x (List.mem_append_left _ hx)
    have horelse := confined_all orelse fun c x hx => hplain c x (List.mem_append_right _ hx)
    exact (confined_block hbody).ifElse (confined_block horelse)
  case forIn target iter body =>
    refine .forIn (confined_block (confined_all body hplain)) (.fromHere (accounts_compileBody body))
      ?_ hplain
    exact fun config state done hl hdone => (restores_block (declares_all body) hl hdone).1
  case raise value => exact confined_raise value
  case ret line value => exact confined_ret line value

theorem confined_all : ∀ body : List Stmt,
    (∀ c, ∀ x ∈ allAssigned c body, '@' ∉ x.toList) →
    ∀ s ∈ body, Confined (compileStmt s) s.assigned
  | [], _, _, hs => nomatch hs
  | s :: rest, hplain, s', hs' => by
    have hs := confined_compileStmt s fun c x hx => hplain c x (List.mem_append_left _ hx)
    have hrest := confined_all rest fun c x hx => hplain c x (List.mem_append_right _ hx)
    rcases List.mem_cons.mp hs' with rfl | hmem
    · exact hs
    · exact hrest s' hmem

end

/-! ## Plain names -/

/-- No name in the list has the sign that hidden names have. -/
def Plain (os : List Occurrence) : Prop := ∀ o ∈ os, '@' ∉ o.id.toList

theorem plain_append {os os' : List Occurrence} : Plain (os ++ os') ↔ Plain os ∧ Plain os' :=
  List.forall_mem_append

/-- The root of a target is a name that occurs in it, or the storage. -/
theorem Expr.plain_root : ∀ {target : Expr}, Plain target.occurrences →
    ∀ x ∈ target.root, '@' ∉ x.toList
  | .name _ id, h, x, hx => by
    obtain rfl : x = id := by simpa [root, places?] using hx
    exact h (.var x) (by simp [occurrences])
  | .attr line value field, h, x, hx => by
    cases hstorage : (Expr.attr line value field).isStorage with
    | true =>
      obtain rfl : x = storageName := by simpa [root, places?, hstorage] using hx
      decide
    | false =>
      have hvalue : x ∈ value.root := by
        simpa [root, places?, hstorage, Function.comp_def] using hx
      exact plain_root (fun o ho => h o (List.mem_cons_of_mem _ ho)) x hvalue
  | .subscript _ value index, h, x, hx => by
    have hvalue : x ∈ value.root := by simpa [root, places?, Function.comp_def] using hx
    exact plain_root (fun o ho => h o (List.mem_append_left _ ho)) x hvalue
  | .literal .., _, x, hx | .list .., _, x, hx | .tuple .., _, x, hx | .dict .., _, x, hx
  | .call .., _, x, hx | .compare .., _, x, hx | .binary .., _, x, hx | .unary .., _, x, hx
  | .boolean .., _, x, hx => by
    simp [root, places?] at hx

namespace Stmt

/-- A variable that is assigned to is named in the statement, or by the compiler. -/
theorem plain_assigned_mutual (c : Context) :
    (∀ s : Stmt, Plain s.occurrences → ∀ x ∈ s.assigned c, '@' ∉ x.toList) ∧
    ∀ body, Plain (allOccurrences body) → ∀ x ∈ allAssigned c body, '@' ∉ x.toList := by
  have hoperations : '@' ∉ operationsName.toList := by decide
  have hstorage : '@' ∉ storageName.toList := by decide
  cases c <;> apply callsTransaction.mutual_induct <;> intros <;>
    grind [occurrences, allOccurrences, assigned, allAssigned, plain_append, Plain, Expr.plain_root]

theorem plain_assigned {s : Stmt} (h : Plain s.occurrences) (c : Context) :
    ∀ x ∈ s.assigned c, '@' ∉ x.toList :=
  (plain_assigned_mutual c).1 s h

theorem plain_allAssigned {body : List Stmt} (h : ∀ s ∈ body, Plain s.occurrences) (c : Context) :
    ∀ x ∈ allAssigned c body, '@' ∉ x.toList := by
  induction body with
  | nil => exact nofun
  | cons s rest ih =>
    obtain ⟨hs, hrest⟩ := List.forall_mem_cons.mp h
    exact List.forall_mem_append.mpr ⟨plain_assigned hs c, ih hrest⟩

theorem plain_of_mem {body : List Stmt} (h : Plain (allOccurrences body)) {s : Stmt}
    (hs : s ∈ body) : Plain s.occurrences :=
  fun o ho => h o (occurrences_subset_of_mem hs ho)

/-- The members of a class have their names in the class, if in another role. -/
theorem plain_of_member : ∀ {body : List Stmt}, Plain (memberOccurrences body) →
    ∀ s ∈ body, Plain s.occurrences
  | s :: rest, h, s', hs' => by
    -- names count, and not what they are names of
    obtain ⟨hs, hrest⟩ : Plain s.occurrences ∧ Plain (memberOccurrences rest) := by
      cases hlabel : s.declaresLabel with
      | false =>
        rw [memberOccurrences_cons hlabel] at h
        exact plain_append.mp h
      | true =>
        cases s with
        | function line name params returns body =>
          simp only [Plain, memberOccurrences, occurrences, List.forall_mem_cons,
            List.forall_mem_append] at h ⊢
          exact ⟨⟨h.1, h.2.1, h.2.2.1, h.2.2.2.1⟩, h.2.2.2.2⟩
        | annotated line target typeExpr value =>
          simp only [Plain, memberOccurrences, occurrences, List.forall_mem_append,
            List.forall_mem_map] at h ⊢
          exact ⟨⟨h.1, h.2.1, h.2.2.1⟩, h.2.2.2⟩
        | _ => cases hlabel
    rcases List.mem_cons.mp hs' with rfl | hmem
    · exact hs
    · exact plain_of_member hrest s' hmem

end Stmt

/-! ## Modules -/

/-- The names in a statement that is compiled on the way are names of the module. -/
theorem Module.Reaches.plain {m : Module} {traced : Bool} {p : Gen.Point}
    (h : m.Reaches traced p) (hplain : Plain m.occurrences) : p.Holds (Plain ·.occurrences) := by
  refine h.holds (fun {s} hs => ?_) fun s hs => plain_of_mem (fun o ho => hplain o ?_) hs
  · have hblock (body : List Stmt) (hsub : ∀ o ∈ allOccurrences body, o ∈ s.occurrences) :
        ∀ s' ∈ body, Plain s'.occurrences :=
      fun _ => plain_of_mem fun o ho => hs o (hsub o ho)
    cases s with
    | classDef line name bases decorators body =>
      have hmembers : Plain (memberOccurrences body) :=
        fun o ho => hs o (by simp [Stmt.occurrences, ho])
      exact Stmt.plain_of_member hmembers
    | function line name params returns body | forIn line target iter body =>
      exact hblock body fun o ho => by simp [Stmt.occurrences, ho]
    | ifElse line test body orelse =>
      refine List.forall_mem_append.mpr ⟨hblock body fun o ho => ?_, hblock orelse fun o ho => ?_⟩
      · simp [Stmt.occurrences, ho]
      · simp [Stmt.occurrences, ho]
    | _ => exact List.forall_mem_nil _
  · exact Stmt.occurrences_desugar_subset.2.2 m.body ho

/-- The frame of a statement. Let a statement be compiled on the way through a module whose names
are plain, in whatever context and from whatever layout, and let its code be run on a stack as deep
as the layout says. If the run ends, then each cell that was on the stack before is what it was,
unless it is the cell of a variable that the statement assigns to. This does not depend on what
values are and what primitives make of them. -/
theorem statements_keep_other_cells {m : Module} (hplain : ∀ o ∈ m.occurrences, '@' ∉ o.id.toList)
    {traced : Bool} {s : Stmt} {config : Gen.Config} {state : Gen.State}
    (hreach : m.Reaches traced ⟨.stmt s, config, state⟩) {done : Gen.Step Unit}
    (hdone : compileStmt s config state = .ok done) {α : Type} (M : Machine α)
    {stack stack' : List α} (hdepth : stack.length = state.layout.depth)
    (hrun : M.run done.code stack = .ends stack') {slot : Nat} (hslot : slot < state.layout.depth)
    (hkept : ∀ name ∈ s.assigned state.layout.context, state.layout.slot? name ≠ some slot) :
    Stack.atSlot stack' slot = Stack.atSlot stack slot := by
  have hnames : Plain s.occurrences := hreach.plain hplain s (List.mem_singleton.mpr rfl)
  have hretains := confined_compileStmt s (Stmt.plain_assigned hnames) hreach.formed.wellFormed
    hdone
  refine hretains M hdepth hrun slot hslot ?_
  rintro ⟨name, hname, hat⟩
  exact hkept name hname hat

/-- The body of a loop adds the element to a variable. -/
def Stmt.adding : Stmt :=
  .forIn 3 "n" (.list 3 [.literal 3 (.int 7)])
    [.assign 4 (.name 4 "total") (.binary 4 (.name 4 "total") .add (.name 4 "n"))]

/-- The element of the loop has the name of a variable. -/
def Module.tally : Module :=
  ⟨[.assign 1 (.name 1 "total") (.literal 1 (.int 2)),
    .assign 2 (.name 2 "n") (.literal 2 (.int 5)), adding]⟩

/-- The variable that is hidden in the loop is not changed by it. -/
theorem statements_keep_other_cells_tally :
    ∃ (state : Gen.State) (done : Gen.Step Unit) (stack : List Int),
      Module.tally.Reaches false ⟨.stmt Stmt.adding, ⟨.empty, false⟩, state⟩ ∧
      compileStmt Stmt.adding ⟨.empty, false⟩ state = .ok done ∧
      Machine.sums.run done.code [5, 2] = .ends stack ∧ stack = [5, 9] ∧
      state.layout.slot? "n" = some 1 ∧ Stack.atSlot stack 1 = Stack.atSlot [5, 2] 1 := by
  have hrun : ((compileStmt (.assign 1 (.name 1 "total") (.literal 1 (.int 2))) ⟨.empty, false⟩
      (Gen.State.seeing ⟨.empty .module, 0⟩ 1)).toOption.bind fun first =>
        (compileStmt (.assign 2 (.name 2 "n") (.literal 2 (.int 5))) ⟨.empty, false⟩
          (first.state.seeing 2)).toOption.bind fun second =>
        (compileStmt Stmt.adding ⟨.empty, false⟩ (second.state.seeing 3)).toOption.map fun done =>
          (((second.state.seeing 3).layout.depth, (second.state.seeing 3).layout.slot? "total",
            (second.state.seeing 3).layout.slot? "n"), Machine.sums.run done.code [5, 2])) =
      some ((2, some 0, some 1), .ends [5, 9]) := by decide +kernel
  simp only [Option.bind_eq_some_iff, Option.map_eq_some_iff,
    Except.toOption_eq_some_iff] at hrun
  obtain ⟨first, hfirst, second, hsecond, done, hdone, hends⟩ := hrun
  obtain ⟨hslots, hrun⟩ := Prod.mk.inj hends
  obtain ⟨hdepth, hslots⟩ := Prod.mk.inj hslots
  obtain ⟨htotal, hn⟩ := Prod.mk.inj hslots
  have hstart : Module.tally.Reaches false ⟨.session Module.tally.desugar.body, ⟨.empty, false⟩,
    ⟨.empty .module, 0⟩⟩ := .session
  have hreach : Module.tally.Reaches false
      ⟨.stmt Stmt.adding, ⟨.empty, false⟩, second.state.seeing 3⟩ :=
    ((hstart.next (.sessionRest hfirst)).next (.sessionRest hsecond)).next .sessionStmt
  refine ⟨_, done, _, hreach, hdone, hrun, rfl, hn, ?_⟩
  have hlength : [5, 2].length = (second.state.seeing 3).layout.depth := hdepth.symm
  refine statements_keep_other_cells (by decide +kernel) hreach hdone Machine.sums hlength hrun
    (by rw [hdepth]; decide) ?_
  intro name hname
  obtain rfl : name = "total" := by
    simpa [Stmt.adding, Stmt.assigned, Stmt.allAssigned, Expr.root, Expr.places?] using hname
  rw [htotal]
  decide

end Covenant
