import Covenant.Proofs.Reach
import Covenant.Proofs.StackBalance
import Covenant.Proofs.TypeSoundness

/-!
# Covenant — layouts stay consistent

Every access to a variable is computed from the slot that the layout has for it, so a layout in
which two names share a slot, or a slot is not below the top, spoils all code after it. By
`layouts_stay_consistent` no code is compiled from such a layout: consistency is kept up from each
point of the compiler to the next (`Point.Formed`, `Next.formed`), hence wherever a module gets to
(`Module.Reaches.formed`). Only the pair that an entrypoint ends with leaves a name without a cell
(`pending_operations_outlive_their_cell`), and nothing comes after it.

The same theorem says what a statement does to the variables around it: nothing. They stay bound to
the same slots with the same types, and at most one new name is added.
-/

namespace Covenant

namespace Gen

variable {config : Config} {state : State} {l : Layout}

/-! ## Operands start on top of the named cells -/

theorem meets_operands (es : List Expr) :
    ∀ o ∈ operands es, o.Meets fun _ n m step => Stacks n m step :=
  forall_mem_operands fun e _ => counted_stacks.operand e

theorem stacks_pushAs (e : Expr) (want : Ty) (n : Nat) :
    Stacks n (n + 1) (e.operand.pushAs want) :=
  (counted_stacks.operand e).pushAs counted_stacks want n

/-- The value of an operand, under whatever expectation. -/
theorem stacks_value (e : Expr) (expected : Option Ty) {next : Gen Unit} {m : Nat}
    (hnext : Stacks 1 m next) : Stacks 0 m (do let _ ← e.operand.value expected; next) :=
  counted_stacks.bind ((counted_stacks.operand e).value counted_stacks expected 0) fun _ => hnext

/-- What an expression runs ahead of an operand leaves cells on top, and nothing else. -/
theorem Before.stacks {e part : Expr} {step : Gen Unit} (h : Before e step part) :
    ∃ n, Stacks 0 n step := by
  have hc := counted_stacks
  have hitems (element : Ty) (later : List Expr) : Stacks 0 1 (do
      apply (.nil element)
      Operand.consAll element (operands later)) :=
    hc.bind (hc.apply_of 0 (by simp) rfl) fun _ => hc.consAll element 0 (meets_operands later)
  have hentries (big : Bool) (key value : Ty) (later : List (Expr × Expr)) {m : Nat}
      {next : Gen Unit} (hnext : Stacks 1 m next) : Stacks 0 m (do
        apply (.emptyMap big key value)
        Operand.insertAll key value (entryOperands later)
        next) :=
    hc.bind (hc.apply_of 0 (by simp) rfl) fun _ =>
      hc.bind (hc.insertAll key value 0 (forall_mem_entryOperands fun part _ => hc.operand part))
        fun _ => hnext
  cases h with
  | item line earlier later item element | element line func arg earlier later keywords element =>
    exact ⟨1, hitems element later⟩
  | entryValue line earlier later key value big keyTy valueTy =>
    exact ⟨1, by simpa using hentries big keyTy valueTy later (hc.pure ())⟩
  | entryKey line earlier later key value big keyTy valueTy =>
    exact ⟨2, hentries big keyTy valueTy later <| hc.bind (stacks_pushAs value valueTy 1) fun _ =>
      hc.apply_of 1 (by simp) rfl⟩
  | owner | container | rightComparand | rightOperand | negated | callee | receiver =>
    exact ⟨0, hc.pure ()⟩
  | index line value index | addedValue line funcLine value key added field keywords =>
    exact ⟨1, stacks_value value none (hc.pure ())⟩
  | leftComparand line left right op expected =>
    exact ⟨1, stacks_value right expected (hc.pure ())⟩
  | leftOperand line left right op want => exact ⟨1, stacks_pushAs right want 0⟩
  | connected line op earlier later operand =>
    split
    · exact ⟨0, hc.pure ()⟩
    · exact ⟨1, hc.emitBoolean op (meets_operands earlier)⟩
  | closureArgument line func arg args keywords hmem =>
    exact ⟨1, stacks_value func none (hc.pure ())⟩
  | recordArgument line func arg earlier later keywords wants hlength =>
    exact ⟨_, hc.pushAllReversed 0 (meets_operands later) hlength⟩
  | argument line func arg earlier later keywords wants hlength =>
    exact ⟨_, hc.pushAll 0 (meets_operands earlier) hlength⟩
  | methodArgument line funcLine value arg field earlier later keywords wants hlength =>
    exact ⟨_, stacks_value value none (hc.pushAll 1 (meets_operands earlier) hlength)⟩
  | operationArgument line func arg earlier later keywords wants hlength =>
    exact ⟨_, hc.bind (hc.fetch _) fun _ => hc.pushAll 1 (meets_operands earlier) hlength⟩
  | default line funcLine value key default field keywords keyTy =>
    exact ⟨0, stacks_value value none <| hc.bind (stacks_pushAs key keyTy 1) fun _ =>
      hc.bind (hc.apply_of 0 (by simp) rfl) fun _ => stacks_pop 0⟩
  | addedKey line funcLine value key added field keywords valueTy =>
    exact ⟨2, stacks_value value none <| hc.bind (stacks_pushAs added valueTy 1) fun _ =>
      hc.apply_of 1 (by simp) rfl⟩

/-- Each container that is opened is one more cell. -/
theorem stacks_openSteps : ∀ {steps : List PathStep} (n : Nat),
    (∀ step ∈ steps, step.Meets fun _ n m step => Stacks n m step) →
    Stacks (n + 1) (steps.length + n + 1) (openSteps steps)
  | [], n, _ => by
    rw [List.length_nil, Nat.zero_add]
    exact counted_stacks.pure ()
  | step :: rest, n, hsteps => by
    obtain ⟨hstep, hrest⟩ := List.forall_mem_cons.mp hsteps
    rw [List.length_cons, Nat.add_right_comm _ 1, Nat.add_assoc _ n 1]
    exact counted_stacks.bind (counted_stacks.openStep stacks_copy hstep) fun _ =>
      stacks_openSteps (n + 1) hrest

theorem BeforeAssigned.stacks {scope : Scope} {target value part : Expr} {path : Path}
    {step : Gen Unit} (h : BeforeAssigned path value step part)
    (hpath : Path.resolve scope target = .ok path) : ∃ n, Stacks 0 n step := by
  have hc := counted_stacks
  obtain ⟨places, root, -, -, hsteps⟩ := Path.resolve_eq_ok hpath
  have hmeets := hc.pathSteps hsteps
  -- up to the container that holds the place, whichever it is
  have hopened {outer inner : List PathStep} (heq : path.steps = outer ++ inner) {m : Nat}
      {next : Gen Unit} (hnext : Stacks (outer.length + 1) m next) :
      Stacks 0 m (do fetch path.root; openSteps outer; next) :=
    hc.bind (hc.fetch _) fun _ => hc.bind (stacks_openSteps 0 fun step hstep =>
      hmeets step (heq ▸ List.mem_append_left inner hstep)) fun _ => hnext
  cases h with
  | opens outer inner index ty heq => exact ⟨_, hopened heq (stacks_copy _)⟩
  | value outer inner heq => exact ⟨_, by simpa using hopened heq (hc.pure ())⟩
  | closes outer inner index ty heq =>
    have hinner : ∀ step ∈ inner, step.Meets fun _ n m step => Stacks n m step :=
      fun step hstep =>
        hmeets step (heq ▸ List.mem_append_right outer (List.mem_cons_of_mem _ hstep))
    have hsome : Stacks (outer.length + 2) (outer.length + 2) (apply .some) :=
      hc.apply_of (outer.length + 1) (by simp) rfl
    refine ⟨outer.length + 2, hopened heq (Counted.ite (fun _ => ?_) fun hmore => ?_)⟩
    · exact hc.bind (stacks_pushAs value path.leaf _) fun _ => hsome
    · have hkey : (PathStep.key part.operand ty).Meets fun _ n m step => Stacks n m step :=
        hc.operand part
      exact hc.bind (hc.openStep stacks_copy hkey) fun _ => hc.bind
        (hc.writeSteps stacks_copy (stacks_pushAs value path.leaf) _ (by simpa using hmore) hinner)
        fun _ => hsome

/-! ## From point to point -/

/-- The layout at a point is well formed, and it is what the task needs: a block starts on what
there was outside of it, a loop from an element without a name, and a function has its argument. -/
structure Point.Formed (p : Point) : Prop where
  wellFormed : p.state.layout.WellFormed
  ready : match p.task with
    | .members module _ => module.WellFormed
    | .body _ outer => outer.WellFormed ∧ outer.Grows p.state.layout
    | .loop _ _ _ => p.state.layout.TopFree
    | .closure param _ => p.state.layout.binds param = true
    | _ => True

theorem layout_of_recordClass {name : Ident} {body : List Stmt} {done : Step Fields}
    (h : recordClass name body config state = .ok done) : done.state.layout = state.layout :=
  (yields_recordClass name body).of_ok h

theorem yields_pending (hl : state.layout.WellFormed) (method : Method) :
    Yields (pending method) config state fun _ l => l.WellFormed := by
  refine .ite (fun _ => ?_) fun _ => yields_pure hl
  refine (yields_apply_after 0 (.refl _) rfl).bind fun _ s hs => ?_
  have hdepth := hs.depth
  exact yields_bindTop (by omega) fun l hbind => (hs.wellFormed hl).bind (hs.topFree hl) hbind

theorem grows_of_compileStmt {s : Stmt} {done : Step Unit} (hl : state.layout.WellFormed)
    (h : compileStmt s config state = .ok done) : state.layout.Grows done.state.layout :=
  (declares_compileStmt s hl h).1

theorem grows_of_compileBody {outer : Layout} {body : List Stmt} {done : Step Unit}
    (houter : outer.WellFormed) (hgrows : outer.Grows state.layout)
    (h : compileBody body outer config state = .ok done) : outer.Grows done.state.layout :=
  (restores_compileBody houter (declares_all body) hgrows h).1

/-- What is started from a consistent layout goes on to start other things from consistent layouts.
-/
theorem Next.formed {p q : Point} (h : Next p q) (hp : p.Formed) : q.Formed := by
  obtain ⟨hl, hready⟩ := hp
  have hseen {state : State} (line : Nat) (hl : state.layout.WellFormed) :
      (state.seeing line).layout.WellFormed := state.layout_seeing line ▸ hl
  cases h with
  | sessionRecord hs hdone | recordsRecord hs hdone =>
    exact ⟨layout_of_recordClass hdone ▸ hseen _ hl, trivial⟩
  | sessionStmt | prologueSkip | prologueStmt | firstExpr => exact ⟨hseen _ hl, trivial⟩
  | sessionRest hdone | prologueRest hs hdone =>
    exact ⟨(grows_of_compileStmt (hseen _ hl) hdone).wellFormed, trivial⟩
  | recordsSkip | bodyStmt => exact ⟨hl, trivial⟩
  | prologue => exact ⟨.empty .module, trivial⟩
  | members => exact ⟨hl, hl⟩
  | deploy hfound hinit hvalue => exact ⟨.empty .deploy, trivial⟩
  | entry hfound hinit hmethod hdeployed hparam hstart =>
    exact ⟨(wellFormed_roomLayout hready).bind (topFree_roomLayout hready) hstart, trivial⟩
  | entryBody hpending =>
    have hwf := (yields_pending hl _).of_ok hpending
    exact ⟨hwf, hwf, .refl hwf⟩
  | epilogue hpending hdone hgoes =>
    have hwf := (yields_pending hl _).of_ok hpending
    exact ⟨(grows_of_compileBody hwf (.refl hwf) hdone).wellFormed, trivial⟩
  | bodyRest hdone hgoes =>
    obtain ⟨houter, hgrows⟩ := hready
    have hnext := hgrows.trans (grows_of_compileStmt hl hdone)
    exact ⟨hnext.wellFormed, houter, hnext⟩
  | assigned hs hpath hstep hdone =>
    obtain ⟨n, hstacks⟩ := hstep.stacks hpath
    exact ⟨(hstacks.after hdone).wellFormed (hseen _ hl), trivial⟩
  | @branch config state lineNo lineNo' test body orelse chosen pushed start hchosen hdone hstart =>
    have hafter : (state.seeing lineNo).layout.After 1 pushed.state.layout :=
      (test.yields_pushAs (hseen _ hl) (.refl _) .bool).of_ok hdone
    obtain ⟨-, rfl⟩ := (Layout.pop_eq_ok_iff _).mp hstart
    have hdepth := hafter.depth
    have hwf : (pushed.state.layout.atDepth (pushed.state.layout.depth - 1)).WellFormed :=
      (hafter.atDepth (m := 0) (by omega)).wellFormed (hseen _ hl)
    exact ⟨hwf, hwf, .refl hwf⟩
  | loop hty hdone =>
    have hafter := (Expr.yields_value _ (hseen _ hl) (.refl _) none).of_ok hdone
    exact ⟨hafter.wellFormed (hseen _ hl), hafter.topFree (hseen _ hl)⟩
  | loopBody hbound =>
    obtain ⟨l, hbind, rfl⟩ := bindTop_eq_ok_iff.mp hbound
    have hwf := hl.bind hready hbind
    exact ⟨hwf, hwf, .refl hwf⟩
  | @closure config state lineNo name param paramExpr result body argTy resultTy start hparam harg
      hresult hstart =>
    have hframe := Layout.WellFormed.frame state.layout (.function name resultTy)
    exact ⟨hframe.bind_push hstart, Layout.binds_of_cell? (Layout.cell?_of_bind hstart)⟩
  | closureBody => exact ⟨hl, hl, .refl hl⟩
  | operand hty hstep hdone =>
    obtain ⟨n, hstacks⟩ := hstep.stacks
    exact ⟨(hstacks.after hdone).wellFormed (hseen _ hl), trivial⟩

/-- A variable that is freed leaves a consistent layout. -/
theorem wellFormed_of_freeingAfter {name : Ident} {body : Gen Unit} {done : Step Unit}
    (hbody : ∀ inner, body config state = .ok inner → inner.state.layout.WellFormed)
    (h : freeingAfter name body config state = .ok done) : done.state.layout.WellFormed := by
  obtain ⟨inner, hinner, hends⟩ := unlessDiverges_eq_ok h
  have hwf := hbody inner hinner
  rcases hends with ⟨-, rfl⟩ | ⟨-, freed, hfreed, rfl⟩
  · exact hwf
  · obtain ⟨slot, hslot, -, rfl⟩ := free_eq_ok_iff.mp hfreed
    exact (hwf.without hslot).unhide name

/-- A task that is started from a consistent layout leaves one. -/
theorem Point.Formed.done {p : Point} (hp : p.Formed) {last : Step Unit}
    (h : p.task.run p.config p.state = .ok last) : last.state.layout.WellFormed := by
  obtain ⟨task, config, state⟩ := p
  obtain ⟨hl, hready⟩ := hp
  cases task with
  | stmt s => exact (grows_of_compileStmt hl h).wellFormed
  | body rest outer => exact (grows_of_compileBody hready.1 hready.2 h).wellFormed
  | loop target element inner =>
    refine wellFormed_of_freeingAfter (fun last hlast => ?_) h
    obtain ⟨bound, rest, hbound, hrest, rfl⟩ := bind_eq_ok_iff.mp hlast
    obtain ⟨l, hbind, rfl⟩ := bindTop_eq_ok_iff.mp hbound
    exact (restores_block (declares_all inner) (hl.bind hready hbind) hrest).1.wellFormed
  | closure param inner =>
    refine wellFormed_of_freeingAfter (fun last hlast => ?_) h
    exact (restores_block (declares_all inner) hl hlast).1.wellFormed
  | expr e expected =>
    obtain ⟨first, rest, hfirst, hrest, rfl⟩ := bind_eq_ok_iff.mp h
    cases hrest
    exact hl.of_keeps ((e.yields_compile hl expected).of_ok hfirst).1
  | _ =>
    cases h
    exact hl

/-- The pair that an entrypoint ends with takes the top cell away and leaves its name behind: with one
cell more the layout would be consistent, and no names are left in it but two. -/
theorem wellFormed_of_epilogue {done : Step Unit} (hl : state.layout.WellFormed)
    (h : epilogue config state = .ok done) :
    (done.state.layout.push 1).WellFormed ∧ ∀ name, done.state.layout.binds name = true →
      name = Layout.storageName ∨ name = Layout.operationsName := by
  obtain ⟨order, code, l, -, hleft, hdrop, -, hlayout⟩ := epilogue_eq_ok h
  have hwf : l.WellFormed := Layout.dropNames_induction (P := Layout.WellFormed)
    (fun hl _ hslot _ => hl.without hslot) hl hdrop
  rw [hlayout]
  refine ⟨hwf.atDepth ?_, hleft⟩
  show l.depth ≤ (if l.binds Layout.operationsName then l.depth - 1 else l.depth) + 1
  split <;> omega

end Gen

/-! ## Modules -/

namespace Module

open Gen

variable {m : Module} {traced : Bool}

theorem Reaches.formed {p : Point} (h : m.Reaches traced p) : p.Formed := by
  induction h with
  | session | program => exact ⟨.empty .module, trivial⟩
  | next _ hnext ih => exact hnext.formed ih

theorem Passes.wellFormed {records : Records} {l : Layout} (h : m.Passes traced records l) :
    l.WellFormed := by
  induction h with
  | start hp => exact hp.formed.wellFormed
  | done hp hdone => exact hp.formed.done hdone
  | base hp hfound hinit hdeployed => exact (stored_entryLayout hp.formed.ready _).1
  | pushed _ n ih => exact ih.atDepth (Nat.le_add_right _ n)
  | dropped _ hdrop ih =>
    obtain ⟨slot, hslot, -, -, rfl⟩ := Layout.dropName_eq_ok_iff.mp hdrop
    exact ih.without hslot
  | hidden _ name ih => exact ih.hide name

end Module

theorem Stmt.length_declared (s : Stmt) : s.declared.length ≤ 1 := by
  cases s with
  | assign _ target _ | annotated _ target _ _ | augmented _ target _ _ =>
    cases h : target.name? <;> simp [declared, h]
  | _ => simp [declared]

/-- Layouts are consistent, and statements keep to their scope. In every layout that arises while a
module is compiled, names have a slot just if they have a type, and different names have different
slots. All slots are below the top, but for one: after the pair that an entrypoint ends with, the
name of the cell that was on top, `__operations__` or `__storage__`, may be left with a slot that is
just above it. From any consistent layout, a statement that is accepted leaves every variable with
its slot and its type, and no fewer cells than before, and it adds at most one name. -/
theorem layouts_stay_consistent :
    (∀ (m : Module) (traced : Bool) (records : Records) (l : Layout), m.Arises traced records l →
      (∀ name, (l.slot? name).isSome = (l.ty? name).isSome) ∧
      (∀ name other slot, l.slot? name = some slot → l.slot? other = some slot → name = other) ∧
      ∀ name slot, l.slot? name = some slot → slot < l.depth ∨
        slot = l.depth ∧ m.Paired traced records l ∧
          (name = Layout.storageName ∨ name = Layout.operationsName)) ∧
    ∀ (s : Stmt) (config : Gen.Config) (state : Gen.State) (done : Gen.Step Unit),
      state.layout.WellFormed → compileStmt s config state = .ok done →
      (∀ name slot ty, state.layout.slot? name = some slot → state.layout.ty? name = some ty →
        done.state.layout.slot? name = some slot ∧ done.state.layout.ty? name = some ty) ∧
      state.layout.depth ≤ done.state.layout.depth ∧
      ∀ name other, done.state.layout.binds name = true → state.layout.binds name = false →
        done.state.layout.binds other = true → state.layout.binds other = false → name = other := by
  refine ⟨fun m traced records l h => ?_, fun s config state done hl hdone => ?_⟩
  · rcases h with h | ⟨hp, hlast⟩
    · have hl := h.wellFormed
      exact ⟨hl.agrees, fun _ _ _ => hl.slots_distinct, fun _ _ h => .inl (hl.slots_below h)⟩
    · obtain ⟨hl, hleft⟩ := Gen.wellFormed_of_epilogue hp.formed.wellFormed hlast
      refine ⟨hl.agrees, fun _ _ _ => hl.slots_distinct, fun name slot hslot => ?_⟩
      rcases Nat.lt_succ_iff_lt_or_eq.mp (hl.slots_below hslot) with hbelow | htop
      · exact .inl hbelow
      · exact .inr ⟨htop, .epilogue hp hlast, hleft name (Layout.binds_iff.mpr ⟨slot, hslot⟩)⟩
  · obtain ⟨hgrows, hadds⟩ := declares_compileStmt s hl hdone
    have hextends := hgrows.extending
    refine ⟨fun name slot ty hslot hty => ?_, hextends.depth_le, ?_⟩
    · have hkept := hextends.kept (Layout.cell?_eq_some_iff (c := ⟨slot, ty⟩) |>.mpr ⟨hslot, hty⟩)
      exact ⟨Layout.slot?_of_cell? hkept, Layout.ty?_of_cell? hkept⟩
    intro name other hname hnew hother hnew'
    have hfirst := (hadds hname).resolve_left (by simp [hnew])
    have hsecond := (hadds hother).resolve_left (by simp [hnew'])
    -- there is room for one name only
    have hone := s.length_declared
    rcases hdeclared : s.declared with _ | ⟨declared, _ | ⟨_, _⟩⟩
    · simp [hdeclared] at hfirst
    · rw [hdeclared] at hfirst hsecond
      rw [List.mem_singleton.mp hfirst, List.mem_singleton.mp hsecond]
    · simp [hdeclared] at hone

/-- The second statement of a module starts from a layout that has the variable of the first. -/
theorem layouts_stay_consistent_constant : ∃ (state : Gen.State) (done : Gen.Step Unit) (slot : Nat),
    Module.constant.Arises false .empty state.layout ∧
    state.layout.slot? "k" = some slot ∧ (state.layout.ty? "k").isSome = true ∧
    state.layout.WellFormed ∧
    compileStmt (.expr 2 (.name 2 "k")) ⟨.empty, false⟩ state = .ok done ∧
    state.layout.depth ≤ done.state.layout.depth := by
  have hrun : (compileStmt (.assign 1 (.name 1 "k") (.literal 1 (.int 2))) ⟨.empty, false⟩
      (Gen.State.seeing ⟨.empty .module, 0⟩ 1)).toOption.bind (fun first =>
        (compileStmt (.expr 2 (.name 2 "k")) ⟨.empty, false⟩ first.state).toOption.map fun _ =>
          first.state.layout.slot? "k") = some (some 0) := by decide +kernel
  simp only [Option.bind_eq_some_iff, Option.map_eq_some_iff, Except.toOption_eq_some_iff] at hrun
  obtain ⟨first, hfirst, done, hdone, hslot⟩ := hrun
  have hstart : Module.constant.Reaches false ⟨.session Module.constant.desugar.body,
    ⟨.empty, false⟩, ⟨.empty .module, 0⟩⟩ := .session
  have hpasses : Module.constant.Passes false .empty first.state.layout :=
    .start (hstart.next (.sessionRest hfirst))
  obtain ⟨hconsistent, hscoped⟩ := layouts_stay_consistent
  have hty := (hconsistent _ _ _ _ (.inl hpasses)).1 "k"
  rw [hslot] at hty
  exact ⟨first.state, done, 0, .inl hpasses, hslot, hty.symm, hpasses.wellFormed, hdone,
    (hscoped _ _ _ _ hpasses.wellFormed hdone).2.1⟩

/-- A contract that sends back a part of what came along. -/
def Method.payment : Method :=
  ⟨4, "pay", [], none,
    [.expr 5 (.call 5 (.name 5 "transaction")
      [.call 5 (.name 5 "Contract") [.name 5 "SENDER"] [], .literal 5 (.int 5), .name 5 "Unit"] [])]⟩

def Stmt.payments : List Stmt :=
  [.function 2 "deploy" [] none [.ret 3 (some (.literal 3 (.int 0)))], Method.payment.stmt]

def Module.payments : Module := ⟨[.classDef 1 "Contract" [] [] Stmt.payments]⟩

/-- Two cells have been made one, and the layout still has two names: the list of pending operations
is said to be where there is nothing any more. -/
theorem pending_operations_outlive_their_cell :
    ∃ l, Module.payments.Arises false .empty l ∧ l.depth = 1 ∧
      l.slot? Layout.operationsName = some 1 := by
  have hmembers : Module.payments.Reaches false
      ⟨.members (.empty .module) Stmt.payments, ⟨.empty, false⟩, ⟨.empty .module, 1⟩⟩ :=
    .next (.next (.next (.next .program (.recordsSkip rfl)) .prologue) (.prologueSkip rfl)) .members
  let init : Method := ⟨2, "deploy", [], none, [.ret 3 (some (.literal 3 (.int 0)))]⟩
  let start : Layout := (((Layout.empty (.entrypoint "pay")).push 2).bindSlot Layout.storageName 0
    .int).bindSlot Layout.parameterName 1 .unit
  have hfound : Gen.members none Stmt.payments ⟨.empty, false⟩ ⟨.empty .module, 1⟩ =
      .ok ⟨(some init, [.payment]), [], ⟨.empty .module, 4⟩⟩ := rfl
  have hdeployed : Gen.deploy init ⟨.empty, false⟩ ⟨.empty .module, 4⟩ =
      .ok ⟨(.int, [.prim (.push .int (.int 0))]), [], ⟨.empty .module, 3⟩⟩ := rfl
  have hparam : Gen.entrypointParam .payment ⟨.empty, false⟩ ⟨.empty .module, 4⟩ =
      .ok ⟨(Layout.parameterName, .unit), [], ⟨.empty .module, 4⟩⟩ := rfl
  have hentry : Module.payments.Reaches false ⟨.entry .payment, ⟨.empty, false⟩, ⟨start, 4⟩⟩ :=
    .next hmembers (.entry hfound rfl (List.mem_singleton.mpr rfl) hdeployed hparam rfl)
  have hrun : (Gen.pending .payment ⟨.empty, false⟩ ⟨start, 4⟩).toOption.bind (fun ready =>
      (compileBody Method.payment.body ready.state.layout ⟨.empty, false⟩
        ready.state).toOption.bind fun done =>
          (Gen.epilogue ⟨.empty, false⟩ done.state).toOption.map fun last => (diverges done.code,
            last.state.layout.depth, last.state.layout.slot? Layout.operationsName)) =
      some (false, 1, some 1) := by decide +kernel
  simp only [Option.bind_eq_some_iff, Option.map_eq_some_iff, Except.toOption_eq_some_iff,
    Prod.mk.injEq] at hrun
  obtain ⟨ready, hready, done, hdone, last, hlast, hgoes, hdepth, hslot⟩ := hrun
  have hepilogue := hentry.next (.epilogue hready hdone hgoes)
  exact ⟨last.state.layout, .inr (.epilogue hepilogue hlast), hdepth, hslot⟩

end Covenant
