import Covenant.Proofs.TypeSoundness.Advance

/-!
# Covenant — statements move typed stacks along

Every statement takes stacks that match its layout to stacks that match the layout after it, or
aborts (`wellTyped_compileStmt`). Two conditions on names come in here. No variable has the name of the
pending operations, which would let a transfer prepend to something else. And no expression statement
calls `now` on a value, which would leave that value on the stack; whether `Timestamp` is the class or
a variable is tracked along the statements.
-/

namespace Covenant

open Gen StackTy Stack Layout

/-! ## Typed steps -/

/-- The names bound in the later layout are those of the first and the given ones. -/
def Layout.AddsOnly (l l' : Layout) (names : List Ident) : Prop :=
  ∀ ⦃name : Ident⦄, l'.binds name = true → l.binds name = true ∨ name ∈ names

namespace Layout

variable {l l' outer : Layout} {name : Ident} {ty : Ty}

/-- Naming the top cell adds that name. -/
theorem addsOnly_of_bind (hfresh : l.binds name = false) (h : l.bind name ty = .ok l') :
    l.AddsOnly l' [name] := by
  intro other hother
  obtain ⟨-, rfl⟩ := bind_eq_ok_iff.mp h
  rw [hide_of_unbound hfresh, binds_eq_isSome, slot?_bindSlot] at hother
  split at hother
  · next heq => exact .inr (by simp [heq])
  · exact .inl hother

/-- Names that are added one after the other. -/
theorem AddsOnly.trans {l'' : Layout} {names names' : List Ident} (h : l.AddsOnly l' names)
    (h' : l'.AddsOnly l'' names') : l.AddsOnly l'' (names ++ names') := by
  intro name hname
  rw [List.mem_append, ← or_assoc]
  exact (h' hname).imp (fun hold => h hold) id

/-- The only new cell is the one of the new variable. -/
theorem covered_of_bind (hdepth : l.depth = outer.depth + 1) (h : l.bind name ty = .ok l')
    (x : StackTy) : Covered outer l' [x] := by
  intro i y hy
  have hi := (List.getElem?_eq_some_iff.mp hy).1
  rw [List.length_reverse, List.length_singleton] at hi
  refine .inl ⟨name, (slot?_of_cell? (cell?_of_bind h)).trans (congrArg some ?_)⟩
  show l.depth - 1 = outer.depth + i
  omega

end Layout

/-- The class that knows the time. -/
def clockName : Ident := "Timestamp"

/-- Where a step can start: settled records and types, and no variable that hides the clock unless
it is `shadowed`. -/
structure Gen.Ready (config : Config) (shadowed : Bool) (l : Layout) : Prop where
  records : config.records.Settled
  typed : l.Typed
  clock : shadowed = false → l.binds clockName = false

namespace Gen

variable {config : Config} {state : State} {done : Step Unit} {l : Layout} {shadowed : Bool}
  {declared : List Ident}

theorem Ready.ground (h : Ready config shadowed l) {s : List StackTy} (hs : l.Matches s) :
    Ground config l s :=
  ⟨h.records, h.typed.wellFormed, h.typed.settled, hs⟩

theorem Ready.mono (h : Ready config shadowed l) {hidden : Bool}
    (hhidden : hidden = false → shadowed = false) : Ready config hidden l :=
  ⟨h.records, h.typed, fun hfree => h.clock (hhidden hfree)⟩

/-- From wherever it can start, the step moves typed stacks along, and it declares the given names
only. -/
def WellTyped (step : Gen Unit) (shadowed : Bool) (declared : List Ident) : Prop :=
  ∀ ⦃config : Config⦄ ⦃state : State⦄ ⦃done : Step Unit⦄, Ready config shadowed state.layout →
    step config state = .ok done →
    state.layout.Advances done.code done.state.layout ∧
      state.layout.AddsOnly done.state.layout declared

/-- The code aborts on every stack that matches the layout. -/
def Aborts (l : Layout) (code : Code) : Prop :=
  ∀ ⦃s : List StackTy⦄, l.Matches s → StackTy.run code s = some .aborts

/-- The code moves typed stacks along, and leaves nothing declared in the end unless it aborts. -/
abbrev AdvancesBlock (l : Layout) (code : Code) (l' : Layout) : Prop :=
  l.Advances code l' ∧ (Aborts l code ∨ l.AddsOnly l' [])

/-- A block is well typed from wherever it can start. -/
def WellTypedBlock (step : Gen Unit) (shadowed : Bool) : Prop :=
  ∀ ⦃config : Config⦄ ⦃state : State⦄ ⦃done : Step Unit⦄, Ready config shadowed state.layout →
    step config state = .ok done → AdvancesBlock state.layout done.code done.state.layout

theorem WellTyped.seen {step : Gen Unit} {line : Nat} (h : WellTyped step shadowed declared) :
    WellTyped (do Gen.seen line; step) shadowed declared := by
  intro config state done hready hdone
  rw [seen_bind] at hdone
  have hlayout := state.layout_seeing line
  have hstep := h (hlayout ▸ hready) hdone
  rwa [hlayout] at hstep

theorem wellTyped_seen (line : Nat) : WellTyped (Gen.seen line) shadowed declared := by
  intro config state done hready hdone
  rw [seen_apply] at hdone
  cases hdone
  show state.layout.Advances [] (state.seeing line).layout ∧
    state.layout.AddsOnly (state.seeing line).layout declared
  rw [state.layout_seeing]
  exact ⟨.refl hready.typed, fun _ h => .inl h⟩

/-- A step that leaves spare cells on top of a layout and declares nothing. -/
theorem advances_of_leaves (hready : Ready config shadowed state.layout) {step : Gen Unit}
    (hstep : ∀ {s : List StackTy}, Ground config state.layout s →
      Leaves config state.layout s [] step fun _ t => ∀ x ∈ t, state.layout.context.Spares x)
    (hdone : step config state = .ok done) :
    state.layout.Advances done.code done.state.layout ∧
      state.layout.AddsOnly done.state.layout [] := by
  -- the static facts do not depend on the stack, of which there is one
  obtain ⟨s, hs⟩ := exists_matches hready.typed.wellFormed
  obtain ⟨t, -, hend, -, hclosures⟩ := hstep (hready.ground hs) (.refl _) hdone
  refine ⟨⟨hready.typed.of_keeps hend.keeps, hend.keeps.extends, hclosures, ?_⟩, ?_⟩
  · intro s hs
    have hground := hready.ground hs
    obtain ⟨t, hspares, hend, hrun, -⟩ := hstep hground (.refl _) hdone
    exact .inr ⟨t, hrun, (hground.above hend).holds, covered_of_spares _ hspares⟩
  · intro name hname
    exact .inl (hend.keeps.binds name ▸ hname)

/-- A value on top of a layout is dealt with by one instruction, which aborts or leaves spare
cells. -/
theorem advances_of_value {α : Type} {first : Gen α} {pushed : Step α} {x : α → StackTy}
    {i : Instr} {l' : Layout} (hready : Ready config shadowed state.layout)
    (hvalue : ∀ {s : List StackTy}, state.layout.Matches s →
      Leaves config state.layout s [] first fun a t => t = [x a])
    (hpushed : first config state = .ok pushed) (hkeeps : state.layout.Keeps l')
    (hi : ClosuresTyped i)
    (hruns : ∀ {s : List StackTy}, state.layout.Matches s →
      StackTy.step i (x pushed.result :: s) = some .aborts ∨
        ∃ t, StackTy.step i (x pushed.result :: s) = some (.ends (t ++ s)) ∧
          (∀ y ∈ t, state.layout.context.Spares y) ∧ l'.depth = state.layout.depth + t.length) :
    state.layout.Advances (pushed.code ++ [i]) l' ∧ state.layout.AddsOnly l' [] := by
  obtain ⟨s, hs⟩ := exists_matches hready.typed.wellFormed
  obtain ⟨-, -, -, -, hclosures⟩ := hvalue hs (.refl _) hpushed
  refine ⟨⟨hready.typed.of_keeps hkeeps, hkeeps.extends, ?_, fun {s} hs => ?_⟩,
    fun name hname => .inl (hkeeps.binds name ▸ hname)⟩
  · exact allClosuresTyped_append.mpr ⟨hclosures, hi, trivial⟩
  · obtain ⟨_, rfl, -, hrun, -⟩ := hvalue hs (.refl _) hpushed
    have hrun : StackTy.run (pushed.code ++ [i]) s = StackTy.step i (x pushed.result :: s) :=
      (run_append_ends hrun).trans (run_singleton _ _)
    rw [hrun]
    refine (hruns hs).imp id ?_
    rintro ⟨t, hstep, hspares, hlength⟩
    exact ⟨t, hstep, Holds.above hs hready.typed.wellFormed hkeeps hlength,
      covered_of_spares _ hspares⟩

/-- A value on top of a layout becomes a new variable. -/
theorem advances_of_declares {α : Type} {first : Gen α} {next : α → Gen Unit} (ty : α → Ty)
    {name : Ident} (hready : Ready config shadowed state.layout)
    (hfirst : ∀ {s : List StackTy}, Ground config state.layout s →
      Leaves config state.layout s [] first fun a t =>
        (ty a).hasUnknown = false ∧ t = [(ty a).stack])
    (hnext : ∀ {a : α} {state' : State} {done : Step Unit}, state.layout.Keeps state'.layout →
      next a config state' = .ok done → bindTop name (ty a) config state' = .ok done)
    (hfresh : state.layout.binds name = false)
    (hname : ∀ a, name = operationsName → ty a = .list .operation)
    (hdone : (first >>= next) config state = .ok done) :
    state.layout.Advances done.code done.state.layout ∧
      state.layout.AddsOnly done.state.layout [name] := by
  obtain ⟨pushed, last, hpushed, hlast, rfl⟩ := bind_eq_ok_iff.mp hdone
  obtain ⟨s, hs⟩ := exists_matches hready.typed.wellFormed
  obtain ⟨_, ⟨hknown, rfl⟩, hend, -, hclosures⟩ := hfirst (hready.ground hs) (.refl _) hpushed
  obtain ⟨l, hbind, rfl⟩ := bindTop_eq_ok_iff.mp (hnext hend.keeps hlast)
  have hwf := hready.typed.wellFormed
  have hgrows : state.layout.Grows l := .bind hwf hend hfresh hbind
  have htyped : l.Typed := (hready.typed.of_keeps hend.keeps).bind (hend.topFree hwf) hknown
    (hname _) hbind
  refine ⟨⟨htyped, hgrows.extending, ?_, ?_⟩, ?_⟩
  · exact allClosuresTyped_append.mpr ⟨hclosures, allClosuresTyped_notes config _⟩
  · intro s hs
    have hground := hready.ground hs
    obtain ⟨_, ⟨-, rfl⟩, hend, hrun, -⟩ := hfirst hground (.refl _) hpushed
    refine .inr ⟨[(ty pushed.result).stack], ?_, ?_, ?_⟩
    · exact (run_append_ends hrun).trans (run_notes config _ _)
    · exact Matches.bind (hground.above hend).holds (hground.above hend).wellFormed rfl hbind
    · exact covered_of_bind hend.depth hbind _
  · intro other hother
    refine (addsOnly_of_bind ((hend.keeps.binds name).trans hfresh) hbind hother).imp ?_ id
    exact fun hold => hend.keeps.binds other ▸ hold

/-! ## Simple statements -/

/-- A variable that is there gets a value of its type, and a new one is put on top. -/
theorem wellTyped_assignName {target : Expr} {name : Ident} (hname : name ≠ operationsName)
    {declared : Option Ty} {value : Operand} (hvalue : value.Sound) :
    WellTyped (assignName target name declared value) shadowed [name] := by
  intro config state done hready hdone
  have hother (want : Ty) : name = operationsName → want = .list .operation :=
    fun heq => absurd heq hname
  have hwf := hready.typed.wellFormed
  rcases assignName_eq_ok hdone with ⟨want, hwant, -, -, hdone⟩ | ⟨-, hnone, hdone⟩
  · cases hbound : state.layout.binds name with
    | true =>
      obtain ⟨c, hcell⟩ := hwf.cell?_of_binds hbound
      obtain rfl := hwant c.ty (ty?_of_cell? hcell)
      obtain ⟨hadvances, hadds⟩ := advances_of_leaves hready (fun hground =>
        (tracked_leaves hground).checkFits_bind fun hfits =>
          (hvalue.pushAs hground hfits).bind fun _ u hu => by
            obtain ⟨-, rfl⟩ := hu
            refine leaves_layout_bind fun l' hkeeps => .ite (fun _ => ?_) fun hfree => ?_
            · refine (leaves_replace hground hcell).mono fun _ u hu => ?_
              simp [hu]
            · exact absurd (by rw [hkeeps.binds, hbound]) hfree) hdone
      exact ⟨hadvances, fun other hother => (hadds hother).imp id (by simp)⟩
    | false =>
      obtain ⟨found, hfound, hfits, hdone⟩ := checkFits_bind_eq_ok_iff.mp hdone
      have hwant := typeOf_eq_of_fits hfound hfits ▸ hfound
      refine advances_of_declares (fun _ => want) hready (fun hground => ?_) ?_ hbound
        (fun _ => hother want) hdone
      · exact hvalue.pushAs hground hwant
      · intro _ state' _ hkeeps hnext
        rw [layout_bind] at hnext
        split at hnext
        · next hthere =>
          rw [hkeeps.binds, hbound] at hthere
          contradiction
        · exact hnext
  · refine advances_of_declares id hready (fun hground => ?_) (fun _ h => h)
      (hwf.ty?_eq_none_iff.mp hnone) hother hdone
    exact (hvalue.value hground).mono fun ty u hu => hu.2

/-- Assigning to a name may declare it. -/
theorem wellTyped_assign {target : Expr}
    (hname : ∀ name ∈ target.name?, name ≠ operationsName) (declared : Option Expr)
    (value : Expr) : WellTyped (assign target declared value) shadowed target.name?.toList := by
  intro config state done hready hdone
  rcases assign_eq_ok hdone with ⟨line, name, ty, rfl, hdone⟩ | ⟨hnone, hdone⟩
  · exact wellTyped_assignName (hname name rfl) value.sound_operand hready hdone
  · rw [hnone]
    refine advances_of_leaves hready (fun hground => ?_) hdone
    refine .ite (fun _ => ?_) fun hstorage => ?_
    · exact ((tracked_leaves hground).assignStorage (value.sound_operand hground)).mono
        fun _ u hu => by simp [hu]
    · exact ((tracked_leaves hground).assignPath (by simpa using hstorage) hnone (fun _ => trivial)
        (value.sound_operand hground)).mono fun _ u hu => by simp [hu]

/-- A return from a function leaves a spare cell; one from an entrypoint writes the storage. -/
theorem wellTyped_ret (value : Option Expr) : WellTyped (ret value) shadowed [] := by
  intro config state done hready hdone
  refine advances_of_leaves hready (fun {s} hground => ?_) hdone
  refine leaves_layout_bind fun l' hkeeps => ?_
  rw [hkeeps.context]
  split
  · next name want value hcontext =>
    have h := tracked_leaves hground
    refine h.typeOf_bind fun found hfound => h.ensure rfl fun hwant => ?_
    subst hwant
    refine (value.sound_operand.pushAs hground hfound).mono fun _ u hu => ?_
    simp only [hu.2, List.mem_singleton, forall_eq]
    exact ⟨name, found, hcontext, rfl⟩
  · next name want hcontext =>
    refine .ite (fun hunit => ?_) fun _ => leaves_failAt
    refine Leaves.mono (leaves_apply [] rfl rfl) fun _ u hu => ?_
    simp only [hu, List.mem_singleton, forall_eq]
    exact ⟨name, want, hcontext, by rw [hunit]; rfl⟩
  · exact ((tracked_leaves hground).assignStorage (Expr.sound_operand _ hground)).mono
      fun _ u hu => by simp [hu]
  · exact leaves_failAt
  · exact leaves_failAt

/-- An expression statement leaves nothing behind, unless it calls `now` on a value. -/
theorem leaves_evaluate {s : List StackTy} (hground : Ground config l s) {value : Operand}
    (hvalue : value.Sound) (hnow : ¬NowOnValue ⟨config.records, l⟩ value.expr) :
    Leaves config l s [] (evaluate value) fun _ t => t = [] := by
  unfold evaluate
  split
  · exact leaves_pure rfl
  · refine leaves_depth_bind ((hvalue.compile hground).bind fun ty u hu => leaves_depth_bind ?_)
    rcases hu.2 with rfl | rfl | ⟨-, hvalue⟩
    · rw [if_pos (by simp)]
      exact leaves_drop
    · rw [if_neg (by simp)]
      exact leaves_pure rfl
    · exact absurd hvalue hnow

end Gen

/-- A call of `now` is on the class that has it, which no variable may hide then. -/
def Expr.asksClass (shadowed : Bool) : Expr → Bool
  | .call _ (.attr _ (.name _ id) "now") _ _ => id == clockName && !shadowed
  | .call _ (.attr _ _ "now") _ _ => false
  | _ => true

/-- Where the class is asked, no value is called `now` on. -/
theorem Expr.not_nowOnValue {shadowed : Bool} {l : Layout}
    (hclock : shadowed = false → l.binds clockName = false) {e : Expr}
    (he : e.asksClass shadowed = true) (records : Records) : ¬NowOnValue ⟨records, l⟩ e := by
  rintro ⟨line, funcLine, value, args, keywords, rfl, hclass⟩
  cases value with
  | name valueLine id =>
    simp only [Expr.asksClass, Bool.and_eq_true, beq_iff_eq, Bool.not_eq_true'] at he
    obtain ⟨rfl, hshadowed⟩ := he
    rw [Scope.class?, hclock hshadowed] at hclass
    simp [clockName, BuiltinClass.ofName?] at hclass
  | _ => simp [Expr.asksClass] at he

namespace Gen

variable {config : Config} {state : State} {done : Step Unit} {l : Layout} {shadowed : Bool}
  {code : Code}

/-- An expression statement has no effect on the types. -/
theorem wellTyped_evaluate {value : Expr} (hnow : value.asksClass shadowed = true) :
    WellTyped (evaluate value.operand) shadowed [] := by
  intro config state done hready hdone
  refine advances_of_leaves hready (fun hground => ?_) hdone
  exact (leaves_evaluate hground value.sound_operand (Expr.not_nowOnValue hready.clock hnow _)).mono
    fun _ u hu => by simp [hu]

/-- A raise aborts with its value. -/
theorem wellTyped_raise (value : Option Expr) : WellTyped (raise value) shadowed [] := by
  intro config state done hready hdone
  cases value with
  | none => exact absurd hdone fail_ne_ok
  | some value =>
    rw [raise, scope_bind] at hdone
    obtain ⟨message, -, hdone⟩ := typed_bind_eq_ok_iff.mp hdone
    obtain ⟨pushed, last, hpushed, hlast, rfl⟩ := bind_eq_ok_iff.mp hdone
    obtain ⟨-, rfl⟩ := emit_pop_eq_ok_iff.mp hlast
    have hafter : state.layout.After 1 pushed.state.layout :=
      (message.yields_value hready.typed.wellFormed (.refl _) none).of_ok hpushed
    have hdepth := hafter.depth
    exact advances_of_value hready (fun hs => (message.sound_operand.value (hready.ground hs)).mono
      fun _ _ hu => hu.2.2) hpushed (hafter.keeps.withDepth (by omega)) (by simp [ClosuresTyped])
      fun _ => .inl (by simp [StackTy.step])

/-! ## Blocks -/

/-- Code that diverges aborts on every stack that it is meant for. -/
theorem aborts_of_diverges {l' : Layout} (h : l.Advances code l') (hdiv : diverges code = true) :
    Aborts l code := by
  intro s hs
  rcases h.runs hs with haborts | ⟨t, hrun, -⟩
  · exact haborts
  · exact absurd (run_of_diverges code hdiv hrun) (by simp)

/-- A block that does not abort leaves spare cells only, as many as its layout says. -/
theorem runs_of_block {l' : Layout} (hl : l.Typed) (h : AdvancesBlock l code l')
    {s : List StackTy} (hs : l.Matches s) :
    StackTy.run code s = some .aborts ∨ (diverges code = false ∧
      ∃ t, StackTy.run code s = some (.ends (t ++ s)) ∧ (∀ x ∈ t, l.context.Spares x) ∧
        l'.depth = l.depth + t.length) := by
  rcases h.1.runs hs with haborts | ⟨t, hrun, hmatches, hcovered⟩
  · exact .inl haborts
  rcases h.2 with haborts | hadds
  · exact .inl (haborts hs)
  refine .inr ⟨?_, t, hrun, ?_, ?_⟩
  · cases hdiv : diverges code with
    | false => rfl
    | true => exact absurd (run_of_diverges code hdiv hrun) (by simp)
  · exact hcovered.spares hl.wellFormed h.1.extending fun hname =>
      (hadds hname).resolve_right (by simp)
  · rw [← hmatches.length, ← hs.length, List.length_append]
    exact Nat.add_comm _ _

/-- What has been declared since an outer layout is dropped in some order, and then there is nothing
else than in the outer layout. -/
theorem freeDeclared_eq_ok {outer : Layout} (h : freeDeclared outer config state = .ok done) :
    ∃ order, (∀ name ∈ order, outer.binds name = false) ∧
      state.layout.dropNames order = .ok (done.code, done.state.layout) ∧
      outer.AddsOnly done.state.layout [] := by
  rw [freeDeclared, layout_bind] at h
  obtain ⟨code, l, hfree, rfl⟩ := freeAll_eq_ok_iff.mp h
  obtain ⟨order, hperm, hdrop⟩ := freeAll_eq_ok hfree
  have hmem {name : Ident} : name ∈ order ↔
      state.layout.binds name = true ∧ outer.binds name = false :=
    hperm.mem_iff.trans mem_declaredSince_iff
  refine ⟨order, fun name hname => ?_, hdrop, fun name hname => .inl ?_⟩
  · exact (hmem.mp hname).2
  · obtain ⟨hbound, hkept⟩ := binds_of_dropNames hdrop hname
    cases hnew : outer.binds name with
    | true => rfl
    | false => exact absurd (hmem.mpr ⟨hbound, hnew⟩) hkept

end Gen

/-! ## What the statements of a block declare -/

namespace Stmt

/-- The variable that the statement declares, if it is not there yet. -/
def declared : Stmt → List Ident
  | function _ name _ _ _ => [name]
  | assign _ target _ | annotated _ target _ _ | augmented _ target _ _ => target.name?.toList
  | _ => []

mutual

/-- Expression statements call `now` on the class only. A function body sees no variable but its
parameter. -/
def asksClass (shadowed : Bool) : Stmt → Bool
  | function _ _ params _ body => allAskClass (params.any (·.name == clockName)) body
  | expr _ value => value.asksClass shadowed
  | ifElse _ _ body orelse => allAskClass shadowed body && allAskClass shadowed orelse
  | forIn _ target _ body => allAskClass (shadowed || target == clockName) body
  | _ => true

/-- The same of the statements of a block, of which one may declare a variable that hides the class
from the following ones. -/
def allAskClass (shadowed : Bool) : List Stmt → Bool
  | [] => true
  | s :: rest => s.asksClass shadowed && allAskClass (shadowed || s.declared.contains clockName) rest

end

end Stmt

namespace Gen

variable {config : Config} {state : State} {done : Step Unit} {l : Layout} {shadowed : Bool}
  {body : Gen Unit}

/-- After a statement the clock is hidden if it was before or the statement has hidden it. -/
theorem clock_of_addsOnly {l' : Layout} (hclock : shadowed = false → l.binds clockName = false)
    {declared : List Ident} (hadds : l.AddsOnly l' declared)
    (hfree : (shadowed || declared.contains clockName) = false) : l'.binds clockName = false := by
  rw [Bool.or_eq_false_iff] at hfree
  cases hbinds : l'.binds clockName with
  | false => rfl
  | true =>
    rcases hadds hbinds with hold | hnew
    · rw [hclock hfree.1] at hold
      exact hold.symm
    · have hcontains := hfree.2
      simp [hnew] at hcontains

/-- The next statement can start where this one ends. -/
theorem Ready.advances {l' : Layout} (h : Ready config shadowed l) {code : Code}
    (hadvances : l.Advances code l') {declared : List Ident} (hadds : l.AddsOnly l' declared) :
    Ready config (shadowed || declared.contains clockName) l' where
  records := h.records
  typed := hadvances.typed
  clock := clock_of_addsOnly h.clock hadds

/-- Every statement of the block is well typed where it stands. -/
def AllWellTyped : Bool → List Stmt → Prop
  | _, [] => True
  | shadowed, s :: rest => WellTyped (compileStmt s) shadowed s.declared ∧
      AllWellTyped (shadowed || s.declared.contains clockName) rest

/-- A block from somewhere in its middle on, after the code emitted so far. -/
theorem advances_compileBody {outer : Layout} (houter : outer.WellFormed) {body : List Stmt}
    {code : Code} (hbody : AllWellTyped shadowed body)
    (hready : Ready config shadowed state.layout) (h : outer.Advances code state.layout)
    (hdone : compileBody body outer config state = .ok done) :
    AdvancesBlock outer (code ++ done.code) done.state.layout := by
  induction body generalizing shadowed state code done with
  | nil =>
    rw [compileBody] at hdone
    obtain ⟨order, hnew, hdrop, hadds⟩ := freeDeclared_eq_ok hdone
    exact ⟨h.dropNames houter hnew hdrop, .inr hadds⟩
  | cons s rest ih =>
    obtain ⟨first, hfirst, hends⟩ := unlessDiverges_eq_ok hdone
    obtain ⟨hadvances, hadds⟩ := hbody.1 hready hfirst
    have hthere := h.trans hadvances
    rcases hends with ⟨hdiv, rfl⟩ | ⟨-, last, hlast, rfl⟩
    · -- the block stops at a statement that aborts
      refine ⟨hthere, .inl fun s hs => ?_⟩
      rcases h.runs hs with haborts | ⟨t, hrun, hmatches, -⟩
      · exact run_append_aborts haborts
      · rw [run_append_ends hrun]
        exact aborts_of_diverges hadvances hdiv hmatches
    · obtain hrest := ih hbody.2 (hready.advances hadvances hadds) hthere hlast
      rwa [List.append_assoc] at hrest

theorem wellTypedBlock_compileBody {body : List Stmt} (hbody : AllWellTyped shadowed body) :
    WellTypedBlock (fromHere (compileBody body)) shadowed := by
  intro config state done hready hdone
  rw [fromHere, layout_bind] at hdone
  exact advances_compileBody hready.typed.wellFormed hbody hready (.refl hready.typed) hdone

/-! ## Statements that hold blocks -/

/-- Two branches that both go on leave the same stack. -/
theorem run_ifElse {onTrue onFalse : Step Unit} (hl : l.Typed)
    (htrue : AdvancesBlock l onTrue.code onTrue.state.layout)
    (hfalse : AdvancesBlock l onFalse.code onFalse.state.layout) {depth : Nat}
    (hjoined : JoinedDepth onTrue onFalse depth) {s : List StackTy} (hs : l.Matches s) :
    StackTy.step (.ifElse onTrue.code onFalse.code) (.base .bool :: s) = some .aborts ∨
      ∃ t, StackTy.step (.ifElse onTrue.code onFalse.code) (.base .bool :: s) =
          some (.ends (t ++ s)) ∧
        (∀ x ∈ t, l.context.Spares x) ∧ depth = l.depth + t.length := by
  simp only [StackTy.step]
  rcases runs_of_block hl htrue hs with htrue | ⟨hgoes₁, t, htrue, ht, hdepth₁⟩ <;>
    rcases runs_of_block hl hfalse hs with hfalse | ⟨hgoes₂, u, hfalse, hu, hdepth₂⟩ <;>
    rw [htrue, hfalse, Option.bind_some, Option.bind_some]
  · exact .inl rfl
  · refine .inr ⟨u, rfl, hu, ?_⟩
    rcases hjoined with ⟨heq | hdiv, rfl⟩ | ⟨-, rfl⟩
    · omega
    · simp [hdiv] at hgoes₂
    · exact hdepth₂
  · refine .inr ⟨t, rfl, ht, ?_⟩
    rcases hjoined with ⟨-, rfl⟩ | ⟨hdiv, -⟩
    · exact hdepth₁
    · simp [hdiv] at hgoes₁
  · rcases hjoined with ⟨heq | hdiv, rfl⟩ | ⟨hdiv, -⟩
    · obtain rfl : t = u := Context.Spares.eq_of_length ht hu (by omega)
      exact .inr ⟨t, if_pos rfl, ht, hdepth₁⟩
    · simp [hdiv] at hgoes₂
    · simp [hdiv] at hgoes₁

/-- A conditional leaves spare cells only, the same number whichever branch is taken. -/
theorem wellTyped_ifElse {test : Expr} {body orelse : Gen Unit}
    (hbody : WellTypedBlock body shadowed) (horelse : WellTypedBlock orelse shadowed) :
    WellTyped (ifElse test body orelse) shadowed [] := by
  intro config state done hready hdone
  obtain ⟨pushed, onTrue, onFalse, depth, htest, hpushed, htrue, hfalse, hjoined, rfl⟩ :=
    ifElse_eq_ok hdone
  have hafter : state.layout.After 1 pushed.state.layout :=
    (test.yields_pushAs hready.typed.wellFormed (.refl _) .bool).of_ok hpushed
  -- both branches start from the layout beneath the test
  let start := pushed.state.layout.atDepth state.layout.depth
  have hstart : state.layout.After 0 start := hafter.atDepth rfl
  have hstartReady : Ready config shadowed start :=
    ⟨hready.records, hready.typed.of_keeps hstart.keeps,
      fun h => by rw [hstart.keeps.binds, hready.clock h]⟩
  have hbody := hbody hstartReady htrue
  have horelse := horelse hstartReady hfalse
  have hdepth : state.layout.depth ≤ depth := by
    rcases hjoined with ⟨-, rfl⟩ | ⟨-, rfl⟩
    · exact hbody.1.extending.depth_le
    · exact horelse.1.extending.depth_le
  refine advances_of_value hready (x := fun _ => .base .bool)
    (fun hs => (test.sound_operand.pushAs (hready.ground hs) htest).mono fun _ _ hu => hu.2)
    hpushed (hafter.keeps.withDepth hdepth) ⟨hbody.1.closures, horelse.1.closures⟩ fun {s} hs => ?_
  have hmatches : start.Matches s := ((hready.ground hs).above (t := []) hstart).holds
  have hruns := run_ifElse hstartReady.typed hbody horelse hjoined hmatches
  rwa [hstart.keeps.context] at hruns

/-- A body that is freed of the variable on top when it started. -/
theorem runs_freeingAfter {name : Ident} {bound : Layout} {c : Cell}
    (hbound : bound.Typed) (hc : bound.cell? name = some c) (htop : c.slot + 1 = bound.depth)
    (hbody : ∀ {inner : Step Unit}, body config state = .ok inner →
      AdvancesBlock bound inner.code inner.state.layout)
    (hdone : freeingAfter name body config state = .ok done) :
    AllClosuresTyped done.code ∧ ∀ {x : StackTy} {s : List StackTy}, bound.Matches (x :: s) →
      StackTy.run done.code (x :: s) = some .aborts ∨
        ∃ t, StackTy.run done.code (x :: s) = some (.ends (t ++ s)) ∧
          (∀ x ∈ t, bound.context.Spares x) ∧
          done.state.layout.depth + 1 = bound.depth + t.length := by
  obtain ⟨inner, hinner, hends⟩ := unlessDiverges_eq_ok hdone
  have hbody := hbody hinner
  have hadvances := hbody.1
  rcases hends with ⟨hdiv, rfl⟩ | ⟨-, freed, hfreed, rfl⟩
  · exact ⟨hadvances.closures, fun hs => .inl (aborts_of_diverges hadvances hdiv hs)⟩
  obtain ⟨slot, hslot, -, rfl⟩ := free_eq_ok_iff.mp hfreed
  -- the variable has the cell that it was given
  have hkept := slot?_of_cell? (hadvances.extending.kept hc)
  obtain rfl := Option.some.inj (hslot.symm.trans hkept)
  refine ⟨?_, fun {x s} hs => ?_⟩
  · exact allClosuresTyped_append.mpr ⟨hadvances.closures, allClosuresTyped_append.mpr
      ⟨allClosuresTyped_notes config _, closuresTyped_dropAt _, trivial⟩⟩
  rcases runs_of_block hbound hbody hs with haborts | ⟨-, t, hrun, hspares, hdepth⟩
  · exact .inl (run_append_aborts haborts)
  have hlength := hs.length
  rw [List.length_cons] at hlength
  -- above the variable there are just the spare cells of the body
  have hindex : inner.state.layout.depth - 1 - c.slot = t.length := by omega
  have herase : (t ++ x :: s).eraseIdx t.length = t ++ s := by
    rw [List.eraseIdx_append_of_length_le (Nat.le_refl _), Nat.sub_self]
    rfl
  refine .inr ⟨t, ?_, hspares, ?_⟩
  · have hdrop : step (dropAt t.length) (t ++ x :: s) = some (.ends (t ++ s)) := by
      rw [step_dropAt (by simp), herase]
    show StackTy.run (inner.code ++ (config.notes _ ++ [dropAt _])) (x :: s) = _
    rw [run_append_ends hrun, run_append_ends (run_notes config _ _), hindex, run_singleton, hdrop]
  · show ((inner.state.layout.without name c.slot).unhide name).depth + 1 = _
    rw [depth_unhide, depth_without]
    omega

/-- Notes do not touch the stack. -/
theorem advances_notes (hl : l.Typed) (config : Config) (n : Note) :
    l.Advances (config.notes n) l where
  typed := hl
  extending := .refl l
  closures := allClosuresTyped_notes config n
  runs {s} hs := .inr ⟨[], run_notes config n s, hs, covered_nil l l⟩

/-- A loop leaves the stack as it was. The body starts with an element in the place of the list,
under
the name of the loop variable, and has to end without it. -/
theorem wellTyped_forIn {target : Ident} (hname : target ≠ operationsName) {iter : Expr}
    (hbody : WellTypedBlock body (shadowed || target == clockName)) :
    WellTyped (forIn target iter body) shadowed [] := by
  intro config state done hready hdone
  obtain ⟨element, pushed, inner, htype, hpushed, hinner, hends, rfl⟩ := forIn_eq_ok hdone
  have hvalue {s : List StackTy} (hs : state.layout.Matches s) :
      Leaves config state.layout s [] (iter.operand.value none) fun _ t =>
        element.hasUnknown = false ∧ t = [.list element.stack] := by
    refine (iter.sound_operand.value (hready.ground hs)).mono fun ty u hu => ?_
    obtain ⟨hty, hknown, rfl⟩ := hu
    cases hty.symm.trans htype
    rw [Ty.hasUnknown] at hknown
    exact ⟨hknown, rfl⟩
  obtain ⟨s, hs⟩ := exists_matches hready.typed.wellFormed
  obtain ⟨_, ⟨hknown, rfl⟩, hafter, -, -⟩ := hvalue hs (.refl _) hpushed
  have hdepth := hafter.depth
  rw [List.length_singleton] at hdepth
  -- the element takes the place of the list and the name of the loop variable
  obtain ⟨bound, hbind⟩ : ∃ bound, pushed.state.layout.bind target element = .ok bound :=
    ⟨_, Layout.bind_eq_ok_iff.mpr ⟨by omega, rfl⟩⟩
  have htyped : bound.Typed :=
    (hready.typed.of_keeps hafter.keeps).bind (hafter.topFree hready.typed.wellFormed) hknown
      (fun heq => absurd heq hname) hbind
  have hboundDepth := depth_of_bind hbind
  -- the loop variable may hide the clock in the body
  have hboundReady : Ready config (shadowed || target == clockName) bound := by
    refine ⟨hready.records, htyped, fun hfree => ?_⟩
    rw [Bool.or_eq_false_iff] at hfree
    refine unbound_of_bind hbind (by decide) ?_ ?_
    · rintro rfl
      exact absurd hfree.2 (by simp)
    · rw [hafter.keeps.binds, hready.clock hfree.1]
  have hloop : ∀ {step : Step Unit},
      (do bindTop target element; body : Gen Unit) config pushed.state = .ok step →
      AdvancesBlock bound step.code step.state.layout := by
    intro step hstep
    obtain ⟨first, last, hfirst, hlast, rfl⟩ := bind_eq_ok_iff.mp hstep
    obtain ⟨l, hl, rfl⟩ := bindTop_eq_ok_iff.mp hfirst
    cases hl.symm.trans hbind
    obtain ⟨hadvances, hend⟩ := hbody hboundReady hlast
    refine ⟨(advances_notes htyped config _).trans hadvances, hend.imp ?_ id⟩
    exact fun haborts s hs => (run_append_ends (run_notes config _ s)).trans (haborts hs)
  have hcell := cell?_of_bind hbind
  obtain ⟨hinnerClosures, hinnerRuns⟩ := runs_freeingAfter htyped hcell
    (show pushed.state.layout.depth - 1 + 1 = bound.depth by omega) hloop hinner
  refine advances_of_value hready (x := fun _ => .list element.stack)
    (fun hs => (hvalue hs).mono fun _ _ hu => hu.2) hpushed
    (hafter.keeps.withDepth (Nat.le_refl _)) hinnerClosures fun {s} hs => ?_
  have hmatches : bound.Matches (element.stack :: s) := by
    have hpushed : pushed.state.layout.Matches (element.stack :: s) :=
      Holds.above hs hready.typed.wellFormed hafter.keeps (t := [element.stack]) hdepth
    exact hpushed.bind (hafter.wellFormed hready.typed.wellFormed) rfl hbind
  -- one round leaves the stack as it was, and no round at all does so too
  have hstep : StackTy.step (.iter inner.code) (.list element.stack :: s) = some (.ends s) := by
    simp only [StackTy.step]
    rcases hinnerRuns hmatches with haborts | ⟨t, hround, -, hlength⟩
    · rw [haborts]
      rfl
    · have hend : inner.state.layout.depth = state.layout.depth := by
        rcases hends with heq | hdiv
        · exact heq
        · exact absurd (run_of_diverges _ hdiv hround) (by simp)
      obtain rfl : t = [] := List.length_eq_zero_iff.mp (by omega)
      rw [hround]
      exact if_pos rfl
  exact .inr ⟨[], hstep, by simp, rfl⟩

/-- The frame of a function has just the argument. -/
theorem ready_frame (hrecords : config.records.Settled) (l : Layout) {context : Context}
    {param : Ident} (hparam : param ≠ operationsName) {argTy : Ty}
    (hknown : argTy.hasUnknown = false) {start : Layout}
    (h : ((l.frame context).push 1).bind param argTy = .ok start) :
    Ready config (param == clockName) start ∧ start.Matches [argTy.stack] ∧
      start.cell? param = some ⟨0, argTy⟩ ∧ start.depth = 1 ∧ start.context = context := by
  have hempty (name : Ident) : ((l.frame context).push 1).cell? name = none := rfl
  have htyped : ((l.frame context).push 1).Typed := by
    refine ⟨(WellFormed.frame l context).atDepth (Nat.zero_le 1), ?_, ?_⟩
    · intro name c hc
      exact absurd ((hempty name).symm.trans hc) (by simp)
    · intro c hc
      exact absurd ((hempty _).symm.trans hc) (by simp)
  have htop : ((l.frame context).push 1).TopFree :=
    fun name slot hslot => by cases hslot
  have hmatches : ((l.frame context).push 1).Matches [argTy.stack] :=
    ⟨rfl, fun {name c} hc => absurd ((hempty name).symm.trans hc) (by simp)⟩
  have hcontext : start.context = context := by
    obtain ⟨-, rfl⟩ := Layout.bind_eq_ok_iff.mp h
    rw [Layout.hide_of_unbound rfl]
    rfl
  refine ⟨⟨hrecords, htyped.bind htop hknown (fun heq => absurd heq hparam) h, fun hne => ?_⟩,
    hmatches.bind htyped.wellFormed rfl h, cell?_of_bind h, depth_of_bind h, hcontext⟩
  refine unbound_of_bind h (by decide) ?_ rfl
  rintro rfl
  exact absurd hne (by simp)

/-- A function is a typed closure under a new name. -/
theorem wellTyped_function {name : Ident} (hname : name ≠ operationsName)
    {params : List Param} (hparams : ∀ p ∈ params, p.name ≠ operationsName)
    {returns : Option Expr} (hbody : WellTypedBlock body (params.any (·.name == clockName))) :
    WellTyped (function name params returns body) shadowed [name] := by
  intro config state done hready hdone
  obtain ⟨param, paramExpr, result, argTy, resultTy, start, inner, bound, hfresh, rfl, -, hargTy, -,
    hresultTy, hstart, hinner, hends, hbound, rfl⟩ := function_eq_ok hdone
  have hargKnown := TypeExpr.known_of_type hready.records hargTy
  have hresultKnown := TypeExpr.known_of_type hready.records hresultTy
  -- the body takes the argument to the result
  obtain ⟨hstartReady, hstartMatches, hcell, hdepth, hcontext⟩ :=
    ready_frame hready.records state.layout (hparams param (by simp)) hargKnown hstart
  have hbody : WellTypedBlock body (param.name == clockName) := by simpa using hbody
  obtain ⟨hclosures, hruns⟩ := runs_freeingAfter hstartReady.typed hcell hdepth.symm
    (fun h => hbody hstartReady h) hinner
  have hclosure : StackTy.run inner.code [argTy.stack] = some .aborts ∨
      StackTy.run inner.code [argTy.stack] = some (.ends [resultTy.stack]) := by
    rcases hruns hstartMatches with haborts | ⟨t, hrun, hspares, hlength⟩
    · exact .inl haborts
    have hone : inner.state.layout.depth = 1 := by
      rcases hends with hdiv | hone
      · exact absurd (run_of_diverges _ hdiv hrun) (by simp)
      · exact hone
    match t, hrun, hspares, hlength with
    | [x], hrun, hspares, _ =>
      obtain ⟨_, want, heq, rfl⟩ := hspares x (by simp)
      obtain ⟨-, rfl⟩ := Context.function.inj (hcontext.symm.trans heq)
      exact .inr hrun
    | [], _, _, hlength | _ :: _ :: _, _, _, hlength =>
      simp only [List.length_nil, List.length_cons] at hlength
      omega
  obtain ⟨l, hbind, rfl⟩ := bindTop_eq_ok_iff.mp hbound
  -- the closure becomes a variable
  have hwf := hready.typed.wellFormed
  have hroom : ((state.layout.push 1).setFormals name [param.name]).Typed :=
    ⟨(hwf.atDepth (Nat.le_succ _)).setFormals name _, hready.typed.settled.known,
      hready.typed.settled.operations⟩
  have hlambda : (Ty.lambda argTy resultTy).hasUnknown = false := by
    rw [Ty.hasUnknown, hargKnown, hresultKnown]
    rfl
  have hextends := (Layout.Grows.closure hwf hfresh hbind).extending
  refine ⟨⟨hroom.bind hwf.topFree_push hlambda (fun heq => absurd heq hname) hbind, hextends,
    ?_, ?_⟩, ?_⟩
  · exact ⟨⟨hclosure, hclosures⟩, allClosuresTyped_notes config _⟩
  · intro s hs
    have hmatches : ((state.layout.push 1).setFormals name [param.name]).Matches
        ((Ty.lambda argTy resultTy).stack :: s) := by
      have habove : (state.layout.push 1).Matches ((Ty.lambda argTy resultTy).stack :: s) :=
        Holds.above hs hwf (.atDepth _ (Nat.le_succ _))
          (t := [(Ty.lambda argTy resultTy).stack]) rfl
      exact ⟨habove.length, habove.cells⟩
    refine .inr ⟨[(Ty.lambda argTy resultTy).stack], ?_,
      hmatches.bind hroom.wellFormed rfl hbind, ?_⟩
    · have hpush : step (.lambda argTy resultTy inner.code) s =
          some (.ends ((Ty.lambda argTy resultTy).stack :: s)) := rfl
      exact (run_cons_ends hpush).trans (run_notes config _ _)
    · exact covered_of_bind rfl hbind _
  · intro other hother
    have hadds : ((state.layout.push 1).setFormals name [param.name]).AddsOnly l [name] :=
      addsOnly_of_bind hfresh hbind
    exact hadds hother

end Gen

/-! ## The recursion over statements -/

namespace Stmt

mutual

/-- The names that the statement gives to variables, at any depth. -/
def binders : Stmt → List Ident
  | function _ name params _ body => name :: params.map (·.name) ++ allBinders body
  | classDef _ _ _ _ body => allBinders body
  | assign _ target _ | annotated _ target _ _ | augmented _ target _ _ => target.name?.toList
  | ifElse _ _ body orelse => allBinders body ++ allBinders orelse
  | forIn _ target _ body => target :: allBinders body
  | _ => []

def allBinders : List Stmt → List Ident
  | [] => []
  | s :: rest => s.binders ++ allBinders rest

end

end Stmt

open Gen in
mutual

/-- Every statement moves typed stacks along. -/
theorem wellTyped_compileStmt {s : Stmt} {shadowed : Bool}
    (hnames : operationsName ∉ s.binders) (hclock : s.asksClass shadowed = true) :
    WellTyped (compileStmt s) shadowed s.declared := by
  have hassign {target : Expr} (hnames : operationsName ∉ target.name?.toList)
      (declared : Option Expr) (value : Expr) :
      WellTyped (assign target declared value) shadowed target.name?.toList :=
    wellTyped_assign (fun name hname heq => hnames (heq ▸ Option.mem_toList.mpr hname)) declared value
  cases s <;> simp only [compileStmt, Stmt.declared, Stmt.binders, Stmt.asksClass, List.cons_append,
    List.mem_cons, List.mem_append, not_or, Bool.and_eq_true] at hnames hclock ⊢
  case imports line _ | pass line => exact wellTyped_seen line
  all_goals refine WellTyped.seen ?_
  case function name params returns body =>
    have hbody := wellTypedBlock_compileBody (allWellTyped_compileStmt hnames.2.2 hclock)
    have hparams : ∀ p ∈ params, p.name ≠ operationsName :=
      fun p hp heq => hnames.2.1 (heq ▸ List.mem_map_of_mem hp)
    exact wellTyped_function (Ne.symm hnames.1) hparams hbody
  case classDef =>
    intro config state done _ hdone
    rw [layout_bind] at hdone
    exact absurd hdone fail_ne_ok
  case assign target value => exact hassign hnames none value
  case annotated target declared value =>
    cases value with
    | none => exact fun _ _ _ _ hdone => absurd hdone fail_ne_ok
    | some value => exact hassign hnames (some declared) value
  case augmented => exact fun _ _ _ _ hdone => absurd hdone defect_ne_ok
  case expr => exact wellTyped_evaluate hclock
  case ifElse test body orelse =>
    exact wellTyped_ifElse
      (wellTypedBlock_compileBody (allWellTyped_compileStmt hnames.1 hclock.1))
      (wellTypedBlock_compileBody (allWellTyped_compileStmt hnames.2 hclock.2))
  case forIn target iter body =>
    exact wellTyped_forIn (Ne.symm hnames.1)
      (wellTypedBlock_compileBody (allWellTyped_compileStmt hnames.2 hclock))
  case raise value => exact wellTyped_raise value
  case ret value => exact wellTyped_ret value

/-- Every statement of a block moves typed stacks along. -/
theorem allWellTyped_compileStmt : ∀ {body : List Stmt} {shadowed : Bool},
    operationsName ∉ Stmt.allBinders body → Stmt.allAskClass shadowed body = true →
    AllWellTyped shadowed body
  | [], _, _, _ => trivial
  | s :: rest, shadowed, hnames, hclock => by
    rw [Stmt.allBinders, List.mem_append, not_or] at hnames
    rw [Stmt.allAskClass, Bool.and_eq_true] at hclock
    exact ⟨wellTyped_compileStmt hnames.1 hclock.1, allWellTyped_compileStmt hnames.2 hclock.2⟩

end

end Covenant
