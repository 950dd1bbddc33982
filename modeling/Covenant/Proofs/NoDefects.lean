import Covenant.Proofs.Gen.Assembly
import Covenant.Proofs.NoDefects.Expr

/-!
# Covenant — internal inconsistencies are unreachable

No program, whatever its shape and its names, makes the compiler report a defect
(`no_defect_is_reported`).

A statement is *tame* if from a well-formed layout it runs into no defect and ends with a well-formed
layout that extends the old one. Every statement without augmented assignments is tame
(`tame_compileStmt`), and desugaring leaves no other (`Stmt.isPlain_desugar`). Blocks, methods and
whole contracts are put together from tame statements. The last agreement that is needed is about
the epilogue of an entrypoint: the storage still has its cell there, and so have the pending
operations if there are any, because no hidden name is one of these two names.
-/

namespace Covenant

open Gen Layout Stmt

namespace Gen

variable {config : Config} {state : State}

theorem yields_mapM_denoted_bind {β : Type} {declared : Option Expr} {next : Option Ty → Gen β}
    {Q : β → Layout → Prop} (h : ∀ declared, Yields (next declared) config state Q) :
    Yields (declared.mapM denoted >>= next) config state Q := by
  cases declared with
  | none => simpa using h none
  | some e =>
    simp only [Option.mapM_some, map_eq_pure_bind, bind_assoc, pure_bind]
    exact yields_denoted_bind fun ty => h (some ty)

end Gen

/-! ## Simple statements -/

/-- The later layout is well formed and has new variables only above the old top. -/
structure Layout.Grows (l l' : Layout) : Prop where
  wellFormed : l'.WellFormed
  extending : l.Extends l'

namespace Layout.Grows

variable {l l' l'' : Layout}

theorem refl (hl : l.WellFormed) : l.Grows l := ⟨hl, .refl l⟩

theorem trans (h : l.Grows l') (h' : l'.Grows l'') : l.Grows l'' :=
  ⟨h'.wellFormed, h.extending.trans h'.extending⟩

theorem of_keeps (hl : l.WellFormed) (h : l.Keeps l') : l.Grows l' :=
  ⟨hl.of_keeps h, h.extends⟩

/-- A new variable takes the cell on top. -/
theorem bind (hl : l.WellFormed) {n : Nat} (hafter : l.After (n + 1) l') {name : Ident} {ty : Ty}
    (hfresh : l.binds name = false) (h : l'.bind name ty = .ok l'') : l.Grows l'' := by
  have hdepth := hafter.depth
  refine ⟨(hafter.wellFormed hl).bind (hafter.topFree hl) h, ?_⟩
  exact hafter.keeps.extends.bind (by omega) ((hafter.keeps.binds name).trans hfresh) h

/-- A closure takes a cell of its own, and its parameters are noted down. -/
theorem closure (hl : l.WellFormed) {name : Ident} {formals : List Ident} {ty : Ty}
    (hfresh : l.binds name = false)
    (h : ((l.push 1).setFormals name formals).bind name ty = .ok l') : l.Grows l' := by
  have hextends := (Extends.refl l).withDepth (Nat.le_add_right l.depth 1)
  refine ⟨(hl.setFormals name formals).bind_push h, ?_⟩
  exact (hextends.setFormals name formals).bind (Nat.lt_succ_self _) hfresh h

end Layout.Grows

/-- The later layout has the same cells, or one more for a new variable of one of the names. -/
def Layout.Declares (l : Layout) (names : List Ident) (l' : Layout) : Prop :=
  l.After 0 l' ∨ ∃ name ∈ names, ∃ ty m, l.After 1 m ∧ l.binds name = false ∧ m.bind name ty = .ok l'

theorem Layout.Declares.grows {l l' : Layout} {names : List Ident} (h : l.Declares names l')
    (hl : l.WellFormed) : l.Grows l' := by
  rcases h with hsame | ⟨name, -, ty, m, hafter, hfresh, hbind⟩
  · exact .of_keeps hl hsame.keeps
  · exact .bind hl hafter hfresh hbind

namespace Gen

variable {config : Config} {state : State} {l : Layout} {body step : Gen Unit} {name : Ident}

theorem yields_bindTop_declares (hafter : l.After 1 state.layout) (hfresh : l.binds name = false)
    (ty : Ty) : Yields (bindTop name ty) config state fun _ l' => l.Declares [name] l' := by
  have hdepth := hafter.depth
  exact yields_bindTop (by omega) fun l' h =>
    .inr ⟨name, List.mem_singleton.mpr rfl, ty, state.layout, hafter, hfresh, h⟩

section WellFormed

variable (hl : state.layout.WellFormed)
include hl

theorem yields_assignName (target : Expr) (name : Ident) (declared : Option Ty) (value : Expr) :
    Yields (assignName target name declared value.operand) config state fun _ l =>
      state.layout.Declares [name] l := by
  refine .congr layout_bind ?_
  have htyped (want : Ty) : Yields (do
      checkFits value want
      value.operand.pushAs want
      if (← layout).binds name then
        replace name
      else
        bindTop name want) config state fun _ l => state.layout.Declares [name] l := by
    refine yields_checkFits_bind fun _ _ _ => ?_
    refine (value.yields_pushAs hl (.refl _) want).bind fun _ s hs => .congr layout_bind ?_
    refine .ite (fun hbound => ?_) fun hfree => ?_
    · rw [hs.keeps.binds] at hbound
      exact (yields_replace_after hl hs hbound).mono fun _ _ h => .inl h
    · rw [hs.keeps.binds] at hfree
      exact yields_bindTop_declares hs (by simpa using hfree) want
  cases declared with
  | none =>
    cases hexisting : state.layout.ty? name with
    | none =>
      -- without a type the variable has no cell yet
      exact (value.yields_value hl (.refl _) none).bind fun ty _ hs =>
        yields_bindTop_declares hs (hl.ty?_eq_none_iff.mp hexisting) ty
    | some want => exact htyped want
  | some declaredTy =>
    cases hexisting : state.layout.ty? name with
    | none => exact htyped declaredTy
    | some existingTy => exact yields_unless rfl fun _ => htyped declaredTy

theorem yields_assignStorage (value : Expr) :
    Yields (assignStorage value.operand) config state fun _ l => state.layout.After 0 l :=
  ((tracked_yields hl).assignStorage (t := []) (value.counts_operand hl)).yields

/-- Assigning declares at most the variable that is the target. -/
theorem yields_assign (target : Expr) (declared : Option Expr) (value : Expr) :
    Yields (assign target declared value) config state fun _ l =>
      state.layout.Declares target.name?.toList l := by
  refine yields_mapM_denoted_bind fun declared => ?_
  have hplace (hname : target.name? = none) :
      Yields (if target.isStorage then assignStorage value.operand else assignPath target value)
        config state fun _ l => state.layout.Declares target.name?.toList l := by
    refine .ite (fun _ => ?_) fun hstorage => ?_
    · exact (yields_assignStorage hl value).mono fun _ _ h => .inl h
    · exact ((tracked_yields hl).assignPath (t := []) (by simpa using hstorage) hname
        (fun _ => trivial) (value.counts_operand hl)).yields.mono fun _ _ h => .inl h
  cases target with
  | name line name => exact yields_assignName hl _ name declared value
  | attr | subscript => exact hplace rfl
  | _ => exact yields_failAt rfl

/-- What an expression statement leaves is dropped. Only if `now` is called on a value, that value
stays. -/
theorem yields_evaluate (value : Expr) :
    Yields (evaluate value.operand) config state fun _ l => state.layout.Keeps l ∧
      (NowOnValue ⟨config.records, state.layout⟩ value ∨ l.depth = state.layout.depth) := by
  unfold evaluate
  split
  · exact yields_pure ⟨.refl _, .inr rfl⟩
  · refine .congr depth_bind ((value.yields_compile hl none).bind fun _ s hs => .congr depth_bind ?_)
    obtain ⟨hkeeps, hcells⟩ := hs
    have hle := hkeeps.depth_le
    refine .ite (fun hgrown => yields_emit_bind ?_) fun hsame => yields_pure ⟨hkeeps, ?_⟩
    · refine yields_pop (by omega) ⟨hkeeps.withDepth (by omega), hcells.imp id fun hone => ?_⟩
      rw [depth_atDepth]
      omega
    · exact .inr (by omega)

theorem yields_raise (value : Option Expr) :
    Yields (raise value) config state fun _ l => state.layout.After 0 l := by
  cases value with
  | none => exact yields_fail rfl
  | some value =>
    refine .congr scope_bind (yields_typed_bind (sane_raised _ value) fun message _ => ?_)
    refine (message.yields_value hl (.refl _) none).bind fun _ s hs => yields_emit_bind ?_
    have hdepth := hs.depth
    exact yields_pop (by omega) (hs.atDepth (by omega))

/-- A return from a function leaves its value on the stack; one from an entrypoint leaves nothing. -/
theorem yields_ret (value : Option Expr) :
    Yields (ret value) config state fun _ l => state.layout.Keeps l ∧
      ((∃ name want, state.layout.context = .function name want) ∨
        l.depth = state.layout.depth) := by
  refine .congr layout_bind ?_
  split
  · next name want value hcontext =>
    refine yields_typeOf_bind fun found _ => yields_unless rfl fun _ => ?_
    exact (value.yields_pushAs hl (.refl _) want).mono
      fun _ _ h => ⟨h.keeps, .inl ⟨name, want, hcontext⟩⟩
  · next name want hcontext =>
    refine .ite (fun _ => ?_) fun _ => yields_fail rfl
    exact (yields_apply_after 0 (.refl _) rfl).mono
      fun _ _ h => ⟨h.keeps, .inl ⟨name, want, hcontext⟩⟩
  · exact (yields_assignStorage hl _).mono fun _ _ h => ⟨h.keeps, .inr h.depth⟩
  · exact yields_fail rfl
  · exact yields_fail rfl

end WellFormed

/-! ## Statements that hold blocks -/

/-- From a well-formed layout the step runs into no defect, and it leaves the old variables where
they are. -/
def Tame (step : Gen Unit) : Prop :=
  ∀ ⦃config : Config⦄ ⦃state : State⦄, state.layout.WellFormed →
    Yields step config state fun _ l => state.layout.Grows l

theorem Tame.of_keeps (h : ∀ ⦃config : Config⦄ ⦃state : State⦄, state.layout.WellFormed →
    Yields step config state fun _ l => state.layout.Keeps l) : Tame step :=
  fun _ _ hl => (h hl).mono fun _ _ hkeeps => .of_keeps hl hkeeps

theorem Tame.seen {line : Nat} (h : Tame step) : Tame (do Gen.seen line; step) := by
  intro config state hl
  refine .congr seen_bind ?_
  have hseen := state.layout_seeing line
  have hstep : Yields step config (state.seeing line) fun _ l =>
      (state.seeing line).layout.Grows l := h (hseen ▸ hl)
  rwa [hseen] at hstep

theorem tame_seen (line : Nat) : Tame (Gen.seen line) := by
  intro config state hl
  have hend : state.layout.Grows (state.seeing line).layout := by
    rw [state.layout_seeing]
    exact .refl hl
  exact hend

/-- Freeing what a block declared leaves what the outer layout had. -/
theorem yields_freeDeclared {outer : Layout} (houter : outer.WellFormed)
    (hgrows : outer.Grows state.layout) :
    Yields (freeDeclared outer) config state fun _ l => outer.Grows l := by
  refine .congr layout_bind (yields_freeAll hgrows.wellFormed ?_ ?_ ?_)
  · exact hgrows.wellFormed.nodup.filter _
  · exact fun name hname => (mem_declaredSince_iff.mp hname).1
  · intro order code l hperm hdrop
    refine dropNames_induction ?_ hgrows hdrop
    intro l name slot h hname hslot hbelow
    have hnew := (mem_declaredSince_iff.mp (hperm.mem_iff.mp hname)).2
    exact ⟨h.wellFormed.without hslot, h.extending.without houter hslot hbelow hnew⟩

theorem yields_compileBody {outer : Layout} (houter : outer.WellFormed) {body : List Stmt}
    (hbody : ∀ s ∈ body, Tame (compileStmt s)) (hgrows : outer.Grows state.layout) :
    Yields (compileBody body outer) config state fun _ l => outer.Grows l := by
  induction body generalizing state with
  | nil =>
    rw [compileBody]
    exact yields_freeDeclared houter hgrows
  | cons s rest ih =>
    obtain ⟨hs, hrest⟩ := List.forall_mem_cons.mp hbody
    rw [compileBody]
    refine (hs hgrows.wellFormed).listen.bind fun _ s' hs' => ?_
    exact .ite (fun _ => yields_pure (hgrows.trans hs')) fun _ => ih hrest (hgrows.trans hs')

theorem tame_block {body : List Stmt} (hbody : ∀ s ∈ body, Tame (compileStmt s)) :
    Tame (fromHere (compileBody body)) :=
  fun _ _ hl => .congr layout_bind (yields_compileBody hl hbody (.refl hl))

theorem yields_freeingAfter
    (h : Yields body config state fun _ l => l.WellFormed ∧ l.binds name = true) :
    Yields (freeingAfter name body) config state fun _ _ => True :=
  h.listen.bind fun _ _ hs =>
    .ite (fun _ => yields_pure trivial) fun _ => yields_free hs.1 hs.2 fun _ _ => trivial

theorem Tame.block (h : Tame step) {start : Layout} (hstart : start.WellFormed) :
    Yields (block start step) config state fun ended l => start.Grows ended.2 ∧ l = state.layout :=
  Yields.block (h hstart)

/-- A tame body keeps the variable that was on top when it started. -/
theorem Tame.yields_bound (hbody : Tame body) {outer : Layout} {ty : Ty}
    (hl : state.layout.WellFormed) (hstart : outer.bind name ty = .ok state.layout) :
    Yields body config state fun _ l => l.WellFormed ∧ l.binds name = true := by
  have hbound : state.layout.binds name = true := binds_of_cell? (cell?_of_bind hstart)
  exact (hbody hl).mono fun _ _ h => ⟨h.wellFormed, h.extending.binds hbound⟩

theorem yields_paramType_bind {β : Type} {param : Param} {next : Ty → Gen β}
    {Q : β → Layout → Prop} (h : ∀ ty, Yields (next ty) config state Q) :
    Yields (paramType param >>= next) config state Q := by
  unfold paramType
  split
  · exact yields_denoted_bind h
  · exact yields_failAt_bind rfl

/-- The end of a function definition: a closure on top gets the function's name. -/
theorem yields_bindClosure (hl : state.layout.WellFormed) (hfresh : state.layout.binds name = false)
    (formals : List Ident) (argTy resultTy : Ty) (code : Code) :
    Yields (do
      emit (.lambda argTy resultTy code)
      push 1
      setLayout ((← layout).setFormals name formals)
      bindTop name (.lambda argTy resultTy)) config state fun _ l => state.layout.Grows l := by
  refine yields_emit_bind (.congr push_bind (.congr layout_bind (.congr setLayout_bind ?_)))
  exact yields_bindTop (Nat.zero_lt_succ _) fun _ hbind => .closure hl hfresh hbind

/-- A function is a closure under a new name. -/
theorem tame_function (name : Ident) (params : List Param) (returns : Option Expr)
    (hbody : Tame body) : Tame (function name params returns body) := by
  intro config state hl
  unfold function
  refine .congr layout_bind (yields_when rfl fun hnew => ?_)
  have hfresh : state.layout.binds name = false := by simpa using hnew
  match params with
  | [] | _ :: _ :: _ => exact yields_fail rfl
  | [param] =>
    refine yields_paramType_bind fun argTy => ?_
    cases returns with
    | none => exact yields_fail_bind rfl
    | some result =>
    refine yields_denoted_bind fun resultTy => .congr layout_bind ?_
    have hframe := WellFormed.frame state.layout (.function name resultTy)
    obtain ⟨start, hstart⟩ : ∃ start,
        ((state.layout.frame (.function name resultTy)).push 1).bind param.name argTy = .ok start :=
      ⟨_, Layout.bind_eq_ok_iff.mpr ⟨Nat.zero_lt_succ _, rfl⟩⟩
    refine yields_sound_bind hstart ?_
    have hinner : Yields body config { state with layout := start } _ :=
      hbody.yields_bound (hframe.bind_push hstart) hstart
    refine (yields_freeingAfter hinner).block.bind fun ended s hs => ?_
    obtain ⟨code, final⟩ := ended
    have hclosure : Yields _ config s fun _ l => s.layout.Grows l :=
      yields_bindClosure (hs.2 ▸ hl) (hs.2 ▸ hfresh) [param.name] argTy resultTy code
    rw [hs.2] at hclosure
    refine .ite (fun _ => hclosure) fun _ => ?_
    exact yields_when rfl fun _ => yields_unless rfl fun _ => hclosure

/-- A conditional forgets what its branches declare. -/
theorem tame_ifElse (test : Expr) {body orelse : Gen Unit} (hbody : Tame body)
    (horelse : Tame orelse) : Tame (ifElse test body orelse) := by
  refine Tame.of_keeps fun config state hl => ?_
  refine yields_typeOf_bind fun found _ => yields_unless rfl fun _ => ?_
  refine (test.yields_pushAs hl (.refl _) .bool).bind fun _ s hs => ?_
  have hdepth := hs.depth
  refine yields_pop_bind (by omega) (.congr layout_bind ?_)
  have hstart : state.layout.Keeps (s.atDepth (s.layout.depth - 1)).layout :=
    hs.keeps.withDepth (by omega)
  have hwf := hl.of_keeps hstart
  refine (hbody.block hwf).bind fun onTrue s' hs' => ?_
  refine (horelse.block hwf).bind fun onFalse s'' hs'' => ?_
  have hend {depth : Nat} (hle : state.layout.depth ≤ depth) :
      Yields (do
        setLayout { (s.atDepth (s.layout.depth - 1)).layout with depth := depth }
        emit (.ifElse onTrue.1 onFalse.1)) config s'' fun _ l => state.layout.Keeps l :=
    .congr setLayout_bind (yields_emit (hstart.withDepth hle))
  have htrue := Nat.le_trans hstart.depth_le hs'.1.extending.depth_le
  have hfalse := Nat.le_trans hstart.depth_le hs''.1.extending.depth_le
  exact .ite (fun _ => hend htrue) fun _ => .ite (fun _ => hend hfalse) fun _ => yields_fail_bind rfl

/-- A loop forgets what its body declares, and its variable. -/
theorem tame_forIn (target : Ident) (iter : Expr) (hbody : Tame body) :
    Tame (forIn target iter body) := by
  refine Tame.of_keeps fun config state hl => ?_
  refine yields_typeOf_bind fun found _ => ?_
  cases found with
  | list element =>
    refine (iter.yields_value hl (.refl _) none).bind fun _ s hs => .congr layout_bind ?_
    have hdepth := hs.depth
    refine yields_pop_bind (by omega) ?_
    have hinner : Yields (do bindTop target element; body) config
        { s.atDepth (s.layout.depth - 1) with layout := s.layout } fun _ l =>
          l.WellFormed ∧ l.binds target = true := by
      refine (yields_bindTop (P := fun _ l => s.layout.bind target element = .ok l)
        (show 0 < s.layout.depth by omega) fun _ h => h).bind fun _ _ hbound => ?_
      exact hbody.yields_bound ((hs.wellFormed hl).bind (hs.topFree hl) hbound) hbound
    refine (yields_freeingAfter hinner).block.bind fun ended s' hs' => .congr depth_bind ?_
    refine yields_unless rfl fun _ => yields_emit ?_
    rw [hs'.2]
    exact hs.keeps.withDepth (by omega)
  | _ => exact yields_failAt rfl

end Gen

/-! ## Statements without augmented assignments -/

namespace Stmt

mutual

/-- There is no augmented assignment in the statement, at any depth. -/
def isPlain : Stmt → Bool
  | augmented .. => false
  | function _ _ _ _ body => areAllPlain body
  | classDef _ _ _ _ body => areAllPlain body
  | ifElse _ _ body orelse => areAllPlain body && areAllPlain orelse
  | forIn _ _ _ body => areAllPlain body
  | _ => true

def areAllPlain : List Stmt → Bool
  | [] => true
  | s :: rest => s.isPlain && areAllPlain rest

end

/-- Desugaring removes every augmented assignment. -/
theorem isPlain_desugar : (∀ s : Stmt, s.desugar.isPlain = true) ∧
    ∀ body, areAllPlain (desugarAll body) = true := by
  apply desugar.mutual_induct <;> intros <;> simp_all [desugar, desugarAll, isPlain, areAllPlain]

end Stmt

open Gen in
mutual

/-- Every statement without augmented assignments is tame. -/
theorem tame_compileStmt {s : Stmt} (hplain : s.isPlain = true) : Tame (compileStmt s) := by
  cases s <;> simp only [compileStmt, isPlain, Bool.and_eq_true] at hplain ⊢
  case imports line _ | pass line => exact tame_seen line
  all_goals refine Tame.seen ?_
  case function name params returns body =>
    exact tame_function name params returns (tame_block (tame_compileAll hplain))
  case classDef => exact fun _ _ _ => .congr layout_bind (yields_fail rfl)
  case assign target value =>
    exact fun _ _ hl => (yields_assign hl target none value).mono fun _ _ h => h.grows hl
  case annotated target declared value =>
    cases value with
    | none => exact fun _ _ _ => yields_fail rfl
    | some value =>
      exact fun _ _ hl =>
        (yields_assign hl target (some declared) value).mono fun _ _ h => h.grows hl
  case augmented => cases hplain
  case expr value => exact .of_keeps fun _ _ hl => (yields_evaluate hl value).mono fun _ _ h => h.1
  case ifElse test body orelse =>
    exact tame_ifElse test (tame_block (tame_compileAll hplain.1))
      (tame_block (tame_compileAll hplain.2))
  case forIn target iter body => exact tame_forIn target iter (tame_block (tame_compileAll hplain))
  case raise value => exact .of_keeps fun _ _ hl => (yields_raise hl value).mono fun _ _ h => h.keeps
  case ret value => exact .of_keeps fun _ _ hl => (yields_ret hl value).mono fun _ _ h => h.1

theorem tame_compileAll : ∀ {body : List Stmt}, areAllPlain body = true →
    ∀ s ∈ body, Tame (compileStmt s)
  | [], _ => by simp
  | s :: rest, hplain => by
    rw [areAllPlain, Bool.and_eq_true] at hplain
    exact List.forall_mem_cons.mpr ⟨tame_compileStmt hplain.1, tame_compileAll hplain.2⟩

end

namespace Gen

variable {config : Config} {state : State} {body : List Stmt}

/-! ## Entrypoints -/

/-- The layout is well formed, and the storage has its cell. -/
abbrev Stored (l : Layout) : Prop := l.WellFormed ∧ l.binds storageName = true

/-- Entrypoints start from the storage, alone at the bottom. -/
theorem stored_entryLayout {module : Layout} (hmodule : module.WellFormed) (storage : Ty) :
    Stored (entryLayout module storage) := by
  refine ⟨(hmodule.shift 1).bindSlot (Nat.zero_lt_succ _) ?_ storageName, ?_⟩
  · intro other hslot
    rw [slot?_shift] at hslot
    obtain ⟨slot, -, heq⟩ := Option.map_eq_some_iff.mp hslot
    exact Nat.succ_ne_zero slot heq
  · simp [binds_eq_isSome, entryLayout]

/-- At the end of an entrypoint the storage has its cell. The pending operations have another, or
get one now. -/
theorem yields_epilogue (hl : Stored state.layout) :
    Yields epilogue config state fun _ _ => True := by
  refine .congr layout_bind ?_
  refine (yields_freeAll hl.1 (hl.1.nodup.filter _)
    (fun name hname => mem_names_iff.mp (List.mem_filter.mp hname).1)
    (P := fun _ l => Stored l) ?_).bind fun _ s hs => ?_
  · intro order code l hperm hdrop
    refine dropNames_induction (P := Stored) ?_ hl hdrop
    intro l name slot h hname hslot _
    have hne : storageName ≠ name := by
      rintro rfl
      have hmem := (List.mem_filter.mp (hperm.mem_iff.mp hname)).2
      simp at hmem
    exact ⟨h.1.without hslot, by rw [binds_without hne, h.2]⟩
  obtain ⟨slot, hslot⟩ := binds_iff.mp hs.2
  have hbelow := hs.1.slots_below hslot
  refine .congr layout_bind (.ite (fun hbound => ?_) fun _ => ?_)
  · -- two names have two cells
    obtain ⟨slot', hslot'⟩ := binds_iff.mp hbound
    have hbelow' := hs.1.slots_below hslot'
    have hslots : slot ≠ slot' := by
      rintro rfl
      exact absurd (hs.1.slots_distinct hslot hslot') (by decide)
    exact yields_apply (show 2 ≤ s.layout.depth by omega) trivial
  · refine (yields_apply_after 0 (.refl _) rfl).bind fun _ s' hs' => ?_
    have hdepth := hs'.depth
    exact yields_apply (show 2 ≤ s'.layout.depth by omega) trivial

theorem yields_entrypointCode (hl : Stored state.layout) {method : Method}
    (hplain : areAllPlain method.body = true) :
    Yields (entrypointCode method) config state fun _ _ => True := by
  have hblock {s : State} (hs : Stored s.layout) :
      Yields (compileBlock method.body) config s fun _ l => Stored l :=
    (tame_block (tame_compileAll hplain) hs.1).mono fun _ _ h =>
      ⟨h.wellFormed, h.extending.binds hs.2⟩
  have hbody : Yields (do
      annotate (.entered method.name)
      if anyCallsTransaction method.body then
        apply (.nil .operation)
        bindTop operationsName (.list .operation)
      compileBlock method.body) config state fun _ l => Stored l := by
    refine yields_annotate_bind (.ite (fun _ => ?_) fun _ => hblock hl)
    refine (yields_apply_after 0 (.refl _) rfl).bind fun _ s hs => ?_
    have hdepth := hs.depth
    refine (yields_bindTop (P := fun _ l => Stored l) (show 0 < s.layout.depth by omega)
      fun l hbind => ?_).bind fun _ _ h => hblock h
    refine ⟨(hs.wellFormed hl.1).bind (hs.topFree hl.1) hbind, ?_⟩
    exact binds_of_bind hbind (by decide) (by rw [hs.keeps.binds, hl.2])
  exact hbody.listen.bind fun _ _ hs =>
    .ite (fun _ => yields_pure trivial) fun _ => yields_epilogue hs

theorem yields_entrypoint {method : Method} (hplain : areAllPlain method.body = true)
    {base : Layout} (hbase : Stored base) (storage : Ty) :
    Yields (entrypoint method base storage) config state fun _ _ => True := by
  have hparam : Yields (entrypointParam method) config state fun _ _ => True := by
    unfold entrypointParam
    dsimp only
    split
    · exact yields_pure trivial
    · exact yields_paramType_bind fun _ => yields_pure trivial
    · exact yields_fail rfl
  refine hparam.bind fun named s _ => ?_
  obtain ⟨param, paramTy⟩ := named
  obtain ⟨hwf, hstorage⟩ := hbase
  let entry : Layout := Layout.push { base with context := .entrypoint method.name } 1
  obtain ⟨start, hstart⟩ : ∃ start, entry.bind param paramTy = .ok start :=
    ⟨_, Layout.bind_eq_ok_iff.mpr ⟨Nat.zero_lt_succ _, rfl⟩⟩
  refine yields_sound_bind hstart ?_
  have hbound : start.binds storageName = true := by
    refine binds_of_bind hstart (by decide) ?_
    exact hstorage
  have hcode : Yields (entrypointCode method) config { s with layout := start } fun _ _ => True :=
    yields_entrypointCode ⟨(hwf.withContext _).bind_push hstart, hbound⟩ hplain
  exact hcode.block.bind fun _ _ _ => yields_pure trivial

theorem yields_entrypoints {base : Layout} (hbase : Stored base) {methods : List Method}
    (hplain : ∀ m ∈ methods, areAllPlain m.body = true) (start : Contract) :
    Yields (entrypoints base start methods) config state fun _ _ => True := by
  induction methods generalizing start state with
  | nil => exact yields_pure trivial
  | cons method rest ih =>
    obtain ⟨hmethod, hrest⟩ := List.forall_mem_cons.mp hplain
    rw [entrypoints]
    refine .congr seen_bind ((yields_entrypoint hmethod hbase _).bind fun e s _ => ?_)
    split
    · exact yields_failAt rfl
    · exact ih hrest _

/-! ## Contracts -/

theorem yields_prologue {contract : Option (List Stmt)}
    (hcontract : ∀ members ∈ contract, areAllPlain members = true)
    (hplain : areAllPlain body = true) (hl : state.layout.WellFormed) :
    Yields (prologue contract body) config state fun found l =>
      l.WellFormed ∧ ∀ members ∈ found, areAllPlain members = true := by
  induction body generalizing contract state with
  | nil => exact yields_pure ⟨hl, hcontract⟩
  | cons s rest ih =>
    rw [areAllPlain, Bool.and_eq_true] at hplain
    have hseen : (state.seeing s.line).layout.WellFormed := state.layout_seeing s.line ▸ hl
    rw [prologue_cons]
    refine .congr seen_bind (.ite (fun _ => .ite (fun _ => yields_fail rfl) fun _ => ?_) fun _ => ?_)
    · exact (tame_compileStmt hplain.1 hseen).bind fun _ _ hs => ih hcontract hplain.2 hs.wellFormed
    cases hclass : s.refusal? contract.isSome with
    | some cause =>
      have hcause : cause.isDefect = false := by
        cases s <;> first | cases hclass | grind [Stmt.refusal?, Cause.isDefect]
      exact yields_fail hcause
    | none =>
      refine ih (fun members hmembers => ?_) hplain.2 hseen
      rcases Option.or_eq_some_iff.mp hmembers with hold | ⟨-, hnew⟩
      · exact hcontract members hold
      · obtain ⟨line, name, bases, decorators, rfl, -⟩ := Stmt.eq_classDef_of_contract? hnew
        have hinner := hplain.1
        rwa [isPlain] at hinner

theorem yields_members {init : Option Method} (hinit : ∀ m ∈ init, areAllPlain m.body = true)
    (hplain : areAllPlain body = true) :
    Yields (members init body) config state fun found _ =>
      ∀ m ∈ found.2, areAllPlain m.body = true := by
  induction body generalizing init state with
  | nil => exact yields_pure (by simp)
  | cons s rest ih =>
    rw [areAllPlain, Bool.and_eq_true] at hplain
    cases s with
    | function line name params returns inner =>
      have hinner := hplain.1
      rw [isPlain] at hinner
      simp only [members]
      refine .congr seen_bind (.ite (fun _ => .ite (fun _ => yields_fail rfl) fun _ => ?_) fun _ => ?_)
      · refine ih ?_ hplain.2
        rintro _ ⟨⟩
        exact hinner
      · refine (ih hinit hplain.2).bind fun found _ hfound => yields_pure ?_
        exact List.forall_mem_cons.mpr ⟨hinner, hfound⟩
    | pass line =>
      simp only [members]
      exact .congr seen_bind (ih hinit hplain.2)
    | _ =>
      simp only [members]
      exact .congr seen_bind (.ite (fun _ => ih hinit hplain.2) fun _ => yields_fail rfl)

theorem yields_deploy (method : Method) : Yields (deploy method) config state fun _ _ => True := by
  unfold deploy
  split
  · next line init _ =>
    refine yields_mapM_denoted_bind fun declared => ?_
    have hvalue {s : State} (hs : s.layout = .empty .deploy) :
        Yields (init.operand.value declared) config s fun _ _ => True :=
      (init.yields_value (hs ▸ WellFormed.empty .deploy) (.refl _) declared).mono
        fun _ _ _ => trivial
    refine Yields.bind (Yields.apart (P := fun _ _ => True) ?_) fun done _ _ => ?_
    · cases declared with
      | none => exact hvalue rfl
      | some want => exact yields_checkFits_bind fun _ _ _ => hvalue rfl
    · -- without a declared type, the storage has the type of its initial value
      cases declared <;> exact yields_pure trivial
  · exact yields_fail rfl

theorem yields_contract (hplain : areAllPlain body = true) (code : Code) {module : Layout}
    (hmodule : module.WellFormed) :
    Yields (contract body code module) config state fun _ _ => True := by
  refine (yields_members (by simp) hplain).bind fun found s hfound => ?_
  obtain ⟨init, methods⟩ := found
  cases init with
  | none => exact yields_fail rfl
  | some init =>
    refine (yields_deploy init).bind fun deployed s _ => ?_
    exact yields_entrypoints (stored_entryLayout hmodule deployed.1) hfound _

/-! ## Record classes -/

theorem yields_recordFields (record : Ident) (body : List Stmt) :
    Yields (recordFields record body) config state fun _ l => l = state.layout := by
  induction body generalizing state with
  | nil => exact yields_pure rfl
  | cons s rest ih =>
    unfold recordFields
    split
    · split
      · exact yields_failAt rfl
      · exact yields_denoted_bind fun ty => ih.bind fun _ _ hs => yields_pure hs
    · exact ih
    · exact .ite (fun _ => ih) fun _ => yields_failAt rfl

theorem yields_recordClass (name : Ident) (body : List Stmt) :
    Yields (recordClass name body) config state fun _ l => l = state.layout := by
  unfold recordClass
  refine .congr scope_bind (yields_when rfl fun _ => ?_)
  refine (yields_recordFields name body).bind fun fields s hs => yields_when rfl fun _ => ?_
  split
  · exact yields_fail rfl
  · exact yields_pure hs

theorem yields_withRecordClasses {α : Type} {step : Gen α}
    (hstep : ∀ config state, Yields step config state fun _ _ => True) (body : List Stmt) :
    Yields (withRecordClasses step body) config state fun _ _ => True := by
  induction body generalizing config state with
  | nil => exact hstep config state
  | cons s rest ih =>
    cases s with
    | classDef line name bases decorators inner =>
      rw [withRecordClasses]
      refine .ite (fun _ => .congr seen_bind ?_) fun _ => ih
      -- the rest runs under a configuration with one more record
      exact (yields_recordClass name inner).bind fun fields s _ => ih
    | _ =>
      rw [withRecordClasses]
      · exact ih
      · simp

/-! ## Whole programs -/

theorem yields_contractProgram (hplain : areAllPlain body = true) :
    Yields (contractProgram body) config state fun _ _ => True := by
  refine yields_withRecordClasses (fun config state => ?_) body
  have hmodule : Yields (prologue none body) config { state with layout := .empty .module }
      fun found l => l.WellFormed ∧ ∀ members ∈ found, areAllPlain members = true :=
    yields_prologue (by simp) hplain (WellFormed.empty .module)
  refine hmodule.apart.bind fun done s hdone => ?_
  cases hresult : done.result with
  | none => rfl
  | some members => exact yields_contract (hdone.1.2 members hresult) done.code hdone.1.1

theorem yields_statements (hplain : areAllPlain body = true) (hl : state.layout.WellFormed) :
    Yields (statements body) config state fun _ _ => True := by
  induction body generalizing config state with
  | nil => exact yields_pure trivial
  | cons s rest ih =>
    rw [areAllPlain, Bool.and_eq_true] at hplain
    have hseen : (state.seeing s.line).layout.WellFormed := state.layout_seeing s.line ▸ hl
    have hother : Yields (do compileStmt s; statements rest) config (state.seeing s.line)
        fun _ _ => True :=
      (tame_compileStmt hplain.1 hseen).bind fun _ _ hs => ih hplain.2 hs.wellFormed
    cases s with
    | classDef line name bases decorators inner =>
      rw [statements]
      refine .congr seen_bind (.ite (fun _ => ?_) fun _ => yields_fail rfl)
      exact (yields_recordClass name inner).bind fun fields s hs => ih hplain.2 (hs ▸ hseen)
    | _ =>
      simp only [statements]
      exact .congr seen_bind hother

theorem Yields.ne_defect {α β : Type} {step : Gen α} {P : α → Layout → Prop}
    (h : Yields step config state P) (f : Step α → β) (d : Defect) (line : Option Nat) :
    (step config state).map f ≠ .error ⟨.defect d, line⟩ := by
  unfold Yields at h
  cases hstep : step config state with
  | ok done => simp [Except.map]
  | error e =>
    rw [hstep] at h
    rintro ⟨⟩
    simp [CompileError.isDefect, Cause.isDefect] at h

end Gen

/-- No program makes the compiler report an internal inconsistency, whichever way it is compiled. -/
theorem no_defect_is_reported (m : Module) (traced : Bool) (d : Defect) (line : Option Nat) :
    m.compile traced ≠ .error ⟨.defect d, line⟩ ∧
      m.compileStatements traced ≠ .error ⟨.defect d, line⟩ := by
  have hplain : Stmt.areAllPlain m.desugar.body = true := Stmt.isPlain_desugar.2 m.body
  constructor
  · exact (yields_contractProgram hplain).ne_defect _ d line
  · exact (yields_statements hplain (Layout.WellFormed.empty .module)).ne_defect _ d line

end Covenant
