import Covenant.Proofs.Notes
import Covenant.Proofs.TypeSoundness.Stmt

/-!
# Covenant — blocks leave the stack as they found it

Outside of functions, a block that goes on to its end leaves the names it started with at the slots
and types they had, and the stack as deep as it was (`block_restores_layout`). Branches and loop
bodies are blocks, so this holds of them as well.

The names come back because freeing what a block declared leaves the outer variables alone. For the
depth one has to know that no cell without a name is left behind: every statement that goes on makes
the stack deeper by just as many cells as it declares variables (`Layout.SameUnnamed`). A return from a
function leaves its value, which is why functions are excluded. The other exception is a method that
does not consume its receiver: `now` called on a value (`now_on_value_leaves_a_cell`).
-/

namespace Covenant

open Gen

/-! ## Cells without a name -/

namespace Layout

variable {l l' l'' outer : Layout} {name : Ident} {slot : Nat} {names : List Ident}

/-- There are as many cells without a name as before. -/
def SameUnnamed (l l' : Layout) : Prop :=
  l'.depth + l.names.length = l.depth + l'.names.length

theorem SameUnnamed.refl (l : Layout) : l.SameUnnamed l := rfl

theorem SameUnnamed.trans (h : l.SameUnnamed l') (h' : l'.SameUnnamed l'') : l.SameUnnamed l'' := by
  unfold SameUnnamed at *
  omega

/-- Layouts with the same names have equally many of them. -/
theorem length_names_eq (hl : l.names.Nodup) (hl' : l'.names.Nodup)
    (h : ∀ name, l'.binds name = l.binds name) : l'.names.length = l.names.length := by
  have hperm : l'.names.Perm l.names := by
    refine (List.perm_ext_iff_of_nodup hl' hl).mpr fun name => ?_
    rw [mem_names_iff, mem_names_iff, h name]
  exact hperm.length_eq

theorem After.sameUnnamed (h : l.After 0 l') (hl : l.WellFormed) : l.SameUnnamed l' := by
  have hnames : l'.names.length = l.names.length :=
    length_names_eq hl.nodup (h.keeps.nodup hl.nodup) h.keeps.binds
  have hdepth := h.depth
  unfold SameUnnamed
  omega

theorem length_names_bindSlot (h : name ∉ l.names) (slot : Nat) (ty : Ty) :
    (l.bindSlot name slot ty).names.length = l.names.length + 1 := by
  rw [names, bindSlot, Table.names_insert, List.length_cons, Table.names_erase,
    List.filter_eq_self.mpr]
  · rfl
  · intro other hother
    have hne : other ≠ name := fun heq => h (heq ▸ hother)
    simpa using hne

/-- A new name for the cell on top of so many cells as before. -/
theorem sameUnnamed_of_bind {m : Layout} {ty : Ty} (hdepth : m.depth = l.depth + 1)
    (hnames : m.names.length = l.names.length) (hfresh : m.binds name = false)
    (hbind : m.bind name ty = .ok l') : l.SameUnnamed l' := by
  have hsame : l'.depth = m.depth := depth_of_bind hbind
  have hnew : name ∉ m.names := by
    rw [mem_names_iff, hfresh]
    simp
  have hlength : l'.names.length = m.names.length + 1 := by
    obtain ⟨-, rfl⟩ := bind_eq_ok_iff.mp hbind
    rw [hide_of_unbound hfresh]
    exact length_names_bindSlot hnew _ ty
  unfold SameUnnamed
  omega

theorem Declares.sameUnnamed (h : l.Declares names l') (hl : l.WellFormed) : l.SameUnnamed l' := by
  rcases h with hsame | ⟨name, -, ty, m, hafter, hfresh, hbind⟩
  · exact hsame.sameUnnamed hl
  · have hnames : m.names.length = l.names.length :=
      length_names_eq hl.nodup (hafter.keeps.nodup hl.nodup) hafter.keeps.binds
    exact sameUnnamed_of_bind hafter.depth hnames ((hafter.keeps.binds name).trans hfresh) hbind

theorem Declares.addsOnly (h : l.Declares names l') : l.AddsOnly l' names := by
  rcases h with hsame | ⟨name, hmem, ty, m, hafter, hfresh, hbind⟩
  · exact fun other hother => .inl (hsame.keeps.binds other ▸ hother)
  · intro other hother
    have hadds := addsOnly_of_bind ((hafter.keeps.binds name).trans hfresh) hbind hother
    rw [hafter.keeps.binds, List.mem_singleton] at hadds
    rcases hadds with hold | rfl
    · exact .inl hold
    · exact .inr hmem

/-- A dropped variable takes its name and its cell away. -/
theorem sameUnnamed_without (hl : l.WellFormed) (hslot : l.slot? name = some slot) :
    l.SameUnnamed (l.without name slot) := by
  have hmem : name ∈ l.names := mem_names_iff.mpr (binds_iff.mpr ⟨slot, hslot⟩)
  have hnames : (l.without name slot).names = l.names.erase name := by
    rw [names, without, Table.names_mapValues, Table.names_erase, hl.nodup.erase_eq_filter]
    rfl
  have hlength : (l.without name slot).names.length = l.names.length - 1 := by
    rw [hnames, List.length_erase_of_mem hmem]
  have hpos : 0 < l.names.length := List.length_pos_of_mem hmem
  have hbelow := hl.slots_below hslot
  unfold SameUnnamed
  rw [depth_without]
  omega

/-- A layout with the outer variables and no others, and as many cells without a name, is as deep as
the outer one. -/
theorem depth_eq_of_sameUnnamed (houter : outer.WellFormed) (hgrows : outer.Grows l)
    (hadds : outer.AddsOnly l []) (h : outer.SameUnnamed l) : l.depth = outer.depth := by
  have hbinds (name : Ident) : l.binds name = outer.binds name := by
    cases hname : l.binds name with
    | true => exact ((hadds hname).resolve_right (by simp)).symm
    | false =>
      cases hkept : outer.binds name with
      | false => rfl
      | true =>
        have hstill := hgrows.extending.binds hkept
        rw [hname] at hstill
        exact hstill
  have hnames := length_names_eq houter.nodup hgrows.wellFormed.nodup hbinds
  unfold SameUnnamed at h
  omega

end Layout

/-! ## What statements declare -/

namespace Gen

variable {config : Config} {state : State} {done : Step Unit} {outer : Layout}

/-- From a well-formed layout, the step adds no variables but the given ones, and these on top. -/
def Declares (step : Gen Unit) (names : List Ident) : Prop :=
  ∀ ⦃config : Config⦄ ⦃state : State⦄ ⦃done : Step Unit⦄, state.layout.WellFormed →
    step config state = .ok done →
    state.layout.Grows done.state.layout ∧ state.layout.AddsOnly done.state.layout names

/-- From a well-formed layout, the step grows it, and a step that goes on adds no variable. -/
def Restores (step : Gen Unit) : Prop :=
  ∀ ⦃config : Config⦄ ⦃state : State⦄ ⦃done : Step Unit⦄, state.layout.WellFormed →
    step config state = .ok done →
    state.layout.Grows done.state.layout ∧
      (diverges done.code = false → state.layout.AddsOnly done.state.layout [])

theorem Declares.seen {step : Gen Unit} {names : List Ident} {line : Nat} (h : Declares step names) :
    Declares (do Gen.seen line; step) names := by
  intro config state done hl hdone
  rw [seen_bind] at hdone
  have hlayout := state.layout_seeing line
  have hstep := h (hlayout ▸ hl) hdone
  rwa [hlayout] at hstep

theorem declares_seen (line : Nat) (names : List Ident) : Declares (Gen.seen line) names := by
  intro config state done hl hdone
  rw [seen_apply] at hdone
  cases hdone
  show state.layout.Grows (state.seeing line).layout ∧
    state.layout.AddsOnly (state.seeing line).layout names
  rw [state.layout_seeing]
  exact ⟨.refl hl, fun _ h => .inl h⟩

theorem declares_of_keeps {step : Gen Unit} {names : List Ident}
    (h : ∀ ⦃config : Config⦄ ⦃state : State⦄ ⦃done : Step Unit⦄, state.layout.WellFormed →
      step config state = .ok done → state.layout.Keeps done.state.layout) :
    Declares step names := by
  intro config state done hl hdone
  have hkeeps := h hl hdone
  exact ⟨.of_keeps hl hkeeps, fun name hname => .inl (hkeeps.binds name ▸ hname)⟩

/-- The layout after a function: one more cell, named after it. -/
theorem function_layout {name : Ident} {params : List Param} {returns : Option Expr}
    {body : Gen Unit} (hdone : function name params returns body config state = .ok done) :
    ∃ ty formals, state.layout.binds name = false ∧
      ((state.layout.push 1).setFormals name formals).bind name ty = .ok done.state.layout := by
  obtain ⟨param, paramExpr, result, argTy, resultTy, start, inner, bound, hfresh, -, -, -, -, -, -,
    -, -, hbound, rfl⟩ := function_eq_ok hdone
  obtain ⟨l, hbind, rfl⟩ := bindTop_eq_ok_iff.mp hbound
  exact ⟨_, _, hfresh, hbind⟩

theorem declares_function (name : Ident) (params : List Param) (returns : Option Expr)
    (body : Gen Unit) : Declares (function name params returns body) [name] := by
  intro config state done hl hdone
  obtain ⟨ty, formals, hfresh, hbind⟩ := function_layout hdone
  refine ⟨.closure hl hfresh hbind, ?_⟩
  have hadds : ((state.layout.push 1).setFormals name formals).AddsOnly done.state.layout [name] :=
    Layout.addsOnly_of_bind hfresh hbind
  exact hadds

/-- A conditional leaves what its branches declare behind them. -/
theorem declares_ifElse {test : Expr} {body orelse : Gen Unit} (hbody : Restores body)
    (horelse : Restores orelse) : Declares (ifElse test body orelse) [] := by
  refine declares_of_keeps fun config state done hl hdone => ?_
  obtain ⟨pushed, onTrue, onFalse, depth, -, hpushed, htrue, hfalse, hjoined, rfl⟩ :=
    ifElse_eq_ok hdone
  have hafter : state.layout.After 1 pushed.state.layout :=
    (test.yields_pushAs hl (.refl _) .bool).of_ok hpushed
  have hstart : (pushed.state.layout.atDepth state.layout.depth).WellFormed :=
    hl.of_keeps (hafter.keeps.withDepth (Nat.le_refl _))
  have hle₁ := (hbody hstart htrue).1.extending.depth_le
  have hle₂ := (horelse hstart hfalse).1.extending.depth_le
  refine hafter.keeps.withDepth ?_
  rcases hjoined with ⟨-, rfl⟩ | ⟨-, rfl⟩
  · exact hle₁
  · exact hle₂

/-- A loop ends with the layout that it started from. -/
theorem after_forIn {target : Ident} {iter : Expr} {body : Gen Unit} (hl : state.layout.WellFormed)
    (hdone : forIn target iter body config state = .ok done) :
    state.layout.After 0 done.state.layout := by
  obtain ⟨element, pushed, inner, -, hpushed, -, -, rfl⟩ := forIn_eq_ok hdone
  have hafter : state.layout.After 1 pushed.state.layout :=
    (iter.yields_value hl (.refl _) none).of_ok hpushed
  exact hafter.atDepth rfl

/-- Freeing what has been declared since an outer layout leaves the outer variables, and takes a cell
away for each name. -/
theorem restores_freeDeclared (houter : outer.WellFormed) (hgrows : outer.Grows state.layout)
    (hdone : freeDeclared outer config state = .ok done) :
    outer.Grows done.state.layout ∧ outer.AddsOnly done.state.layout [] ∧
      state.layout.SameUnnamed done.state.layout := by
  obtain ⟨order, hnew, hdrop, hadds⟩ := freeDeclared_eq_ok hdone
  -- each drop keeps up both facts, since it is of a name that the outer layout does not have
  obtain ⟨hend, hsame⟩ :
      outer.Grows done.state.layout ∧ state.layout.SameUnnamed done.state.layout := by
    refine Layout.dropNames_induction (P := fun l => outer.Grows l ∧ state.layout.SameUnnamed l) ?_
      ⟨hgrows, .refl _⟩ hdrop
    rintro l name slot ⟨hl, hsame⟩ hname hslot hbelow
    have hrest := hl.extending.without houter hslot hbelow (hnew name hname)
    exact ⟨⟨hl.wellFormed.without hslot, hrest⟩,
      hsame.trans (Layout.sameUnnamed_without hl.wellFormed hslot)⟩
  exact ⟨hend, hadds, hsame⟩

theorem restores_compileBody (houter : outer.WellFormed) {body : List Stmt}
    (hbody : ∀ s ∈ body, Declares (compileStmt s) s.declared) (hgrows : outer.Grows state.layout)
    (hdone : compileBody body outer config state = .ok done) :
    outer.Grows done.state.layout ∧
      (diverges done.code = false → outer.AddsOnly done.state.layout []) := by
  induction body generalizing state done with
  | nil =>
    rw [compileBody] at hdone
    obtain ⟨hend, hadds, -⟩ := restores_freeDeclared houter hgrows hdone
    exact ⟨hend, fun _ => hadds⟩
  | cons s rest ih =>
    obtain ⟨hs, hrest⟩ := List.forall_mem_cons.mp hbody
    obtain ⟨first, hfirst, hends⟩ := unlessDiverges_eq_ok hdone
    have hthere := hgrows.trans (hs hgrows.wellFormed hfirst).1
    rcases hends with ⟨hdiv, rfl⟩ | ⟨-, last, hlast, rfl⟩
    · exact ⟨hthere, fun hgoes => by rw [hdiv] at hgoes; contradiction⟩
    · obtain ⟨hend, hadds⟩ := ih hrest hthere hlast
      exact ⟨hend, fun hgoes => hadds (diverges_of_append hgoes)⟩

theorem restores_block {body : List Stmt}
    (hbody : ∀ s ∈ body, Declares (compileStmt s) s.declared) :
    Restores (fromHere (compileBody body)) := by
  intro config state done hl hdone
  rw [fromHere, layout_bind] at hdone
  exact restores_compileBody hl hbody (.refl hl) hdone

end Gen

open Gen in
mutual

/-- Every statement declares what it says. -/
theorem declares_compileStmt (s : Stmt) : Declares (compileStmt s) s.declared := by
  have hassign (target : Expr) (declared : Option Expr) (value : Expr) :
      Declares (assign target declared value) target.name?.toList := by
    intro config state done hl hdone
    have hdeclares := (yields_assign hl target declared value).of_ok hdone
    exact ⟨hdeclares.grows hl, hdeclares.addsOnly⟩
  cases s <;> simp only [compileStmt, Stmt.declared]
  case imports line _ | pass line => exact declares_seen line _
  all_goals refine Declares.seen ?_
  case function name params returns body => exact declares_function name params returns _
  case classDef =>
    intro config state done _ hdone
    rw [layout_bind] at hdone
    exact absurd hdone fail_ne_ok
  case assign target value => exact hassign target none value
  case annotated target declared value =>
    cases value with
    | none => exact fun _ _ _ _ hdone => absurd hdone fail_ne_ok
    | some value => exact hassign target (some declared) value
  case augmented => exact fun _ _ _ _ hdone => absurd hdone defect_ne_ok
  case expr value =>
    exact declares_of_keeps fun _ _ _ hl hdone => ((yields_evaluate hl value).of_ok hdone).1
  case ifElse test body orelse =>
    exact declares_ifElse (restores_block (declares_all body)) (restores_block (declares_all orelse))
  case forIn => exact declares_of_keeps fun _ _ _ hl hdone => (after_forIn hl hdone).keeps
  case raise value =>
    exact declares_of_keeps fun _ _ _ hl hdone => ((yields_raise hl value).of_ok hdone).keeps
  case ret value =>
    exact declares_of_keeps fun _ _ _ hl hdone => ((yields_ret hl value).of_ok hdone).1

theorem declares_all : ∀ body : List Stmt, ∀ s ∈ body, Declares (compileStmt s) s.declared
  | [] => by simp
  | s :: rest => List.forall_mem_cons.mpr ⟨declares_compileStmt s, declares_all rest⟩

end

/-! ## What statements leave behind -/

namespace Gen

variable {config : Config} {state : State} {done : Step Unit} {shadowed : Bool} {l l' : Layout}

/-- Where a block is balanced: outside of functions, with no variable that hides the clock unless it is
`shadowed`. -/
structure Unreturning (shadowed : Bool) (l : Layout) : Prop where
  wellFormed : l.WellFormed
  context : ∀ name want, l.context ≠ .function name want
  clock : shadowed = false → l.binds clockName = false

/-- After a step the clock is hidden if it was before or the step has hidden it. -/
theorem Unreturning.grows (h : Unreturning shadowed l) (hgrows : l.Grows l') {declared : List Ident}
    (hadds : l.AddsOnly l' declared) :
    Unreturning (shadowed || declared.contains clockName) l' where
  wellFormed := hgrows.wellFormed
  context name want := by
    rw [hgrows.extending.context]
    exact h.context name want
  clock := clock_of_addsOnly h.clock hadds

theorem Unreturning.of_keeps (h : Unreturning shadowed l) (hkeeps : l.Keeps l') :
    Unreturning shadowed l' where
  wellFormed := h.wellFormed.of_keeps hkeeps
  context name want := by
    rw [hkeeps.context]
    exact h.context name want
  clock hfree := by rw [hkeeps.binds, h.clock hfree]

/-- A step that goes on leaves no further cell without a name. -/
def Balances (step : Gen Unit) (shadowed : Bool) : Prop :=
  ∀ ⦃config : Config⦄ ⦃state : State⦄ ⦃done : Step Unit⦄, Unreturning shadowed state.layout →
    step config state = .ok done → diverges done.code = false →
    state.layout.SameUnnamed done.state.layout

/-- Every statement of the block is balanced where it stands. -/
def AllBalance : Bool → List Stmt → Prop
  | _, [] => True
  | shadowed, s :: rest => Balances (compileStmt s) shadowed ∧
      AllBalance (shadowed || s.declared.contains clockName) rest

theorem Balances.seen {step : Gen Unit} {line : Nat} (h : Balances step shadowed) :
    Balances (do Gen.seen line; step) shadowed := by
  intro config state done hstart hdone hgoes
  rw [seen_bind] at hdone
  have hlayout := state.layout_seeing line
  have hstep := h (hlayout ▸ hstart) hdone hgoes
  rwa [hlayout] at hstep

theorem balances_seen (line : Nat) : Balances (Gen.seen line) shadowed := by
  intro config state done _ hdone _
  rw [seen_apply] at hdone
  cases hdone
  show state.layout.SameUnnamed (state.seeing line).layout
  rw [state.layout_seeing]
  exact .refl _

theorem sameUnnamed_compileBody {outer : Layout} (houter : outer.WellFormed) {body : List Stmt}
    (hbody : AllBalance shadowed body) (hstart : Unreturning shadowed state.layout)
    (hgrows : outer.Grows state.layout) (hsame : outer.SameUnnamed state.layout)
    (hdone : compileBody body outer config state = .ok done) (hgoes : diverges done.code = false) :
    outer.SameUnnamed done.state.layout := by
  induction body generalizing shadowed state done with
  | nil =>
    rw [compileBody] at hdone
    exact hsame.trans (restores_freeDeclared houter hgrows hdone).2.2
  | cons s rest ih =>
    obtain ⟨first, hfirst, hends⟩ := unlessDiverges_eq_ok hdone
    obtain ⟨hmore, hadds⟩ := declares_compileStmt s hstart.wellFormed hfirst
    rcases hends with ⟨hdiv, rfl⟩ | ⟨hfirstGoes, last, hlast, rfl⟩
    · rw [hdiv] at hgoes
      contradiction
    · have hthere := hsame.trans (hbody.1 hstart hfirst hfirstGoes)
      have hend := ih hbody.2 (hstart.grows hmore hadds) (hgrows.trans hmore) hthere hlast
        (diverges_of_append hgoes)
      exact hend

/-- A block that goes on ends with the depth it started from. -/
theorem depth_of_block {body : List Stmt} (hbody : AllBalance shadowed body)
    (hstart : Unreturning shadowed state.layout)
    (hdone : fromHere (compileBody body) config state = .ok done)
    (hgoes : diverges done.code = false) : done.state.layout.depth = state.layout.depth := by
  have hl := hstart.wellFormed
  obtain ⟨hgrows, hadds⟩ := restores_block (declares_all body) hl hdone
  rw [fromHere, layout_bind] at hdone
  have hsame := sameUnnamed_compileBody hl hbody hstart (.refl hl) (.refl _) hdone hgoes
  exact Layout.depth_eq_of_sameUnnamed hl hgrows (hadds hgoes) hsame

/-- A conditional goes on if one of its branches does, and then it is as deep as that one. -/
theorem balances_ifElse {test : Expr} {body orelse : List Stmt} (hbody : AllBalance shadowed body)
    (horelse : AllBalance shadowed orelse) :
    Balances (ifElse test (fromHere (compileBody body)) (fromHere (compileBody orelse)))
      shadowed := by
  intro config state done hstart hdone hgoes
  have hl := hstart.wellFormed
  obtain ⟨pushed, onTrue, onFalse, depth, -, hpushed, htrue, hfalse, hjoined, rfl⟩ :=
    ifElse_eq_ok hdone
  have hafter : state.layout.After 1 pushed.state.layout :=
    (test.yields_pushAs hl (.refl _) .bool).of_ok hpushed
  have hbranch : Unreturning shadowed (pushed.state.layout.atDepth state.layout.depth) :=
    hstart.of_keeps (hafter.keeps.withDepth (Nat.le_refl _))
  have hdepth₁ := depth_of_block hbody hbranch htrue
  have hdepth₂ := depth_of_block horelse hbranch hfalse
  have hone : diverges onTrue.code = false ∨ diverges onFalse.code = false := by
    have hlast : diverges [.ifElse onTrue.code onFalse.code] = false := diverges_of_append hgoes
    rwa [diverges, if_pos List.all_nil, Instr.diverges, Bool.and_eq_false_iff] at hlast
  have hdepth : depth = state.layout.depth := by
    rcases hjoined with ⟨heq | hdiv, rfl⟩ | ⟨hdiv, rfl⟩
    · rcases hone with hone | hone
      · exact hdepth₁ hone
      · exact heq.trans (hdepth₂ hone)
    · exact hdepth₁ (hone.resolve_right (by simp [hdiv]))
    · exact hdepth₂ (hone.resolve_left (by simp [hdiv]))
  exact (hafter.atDepth hdepth).sameUnnamed hl

end Gen

open Gen in
mutual

/-- Every statement is balanced that calls `now` on the class only. -/
theorem balances_compileStmt {s : Stmt} {shadowed : Bool} (hclock : s.asksClass shadowed = true) :
    Balances (compileStmt s) shadowed := by
  cases s <;> simp only [compileStmt, Stmt.asksClass, Bool.and_eq_true] at hclock ⊢
  case imports line _ | pass line => exact balances_seen line
  all_goals refine Balances.seen ?_
  case ifElse => exact balances_ifElse (allBalance hclock.1) (allBalance hclock.2)
  all_goals
    rintro config state done hstart hdone -
    have hl := hstart.wellFormed
  case function name params returns body =>
    obtain ⟨ty, formals, hfresh, hbind⟩ := function_layout hdone
    exact Layout.sameUnnamed_of_bind (m := (state.layout.push 1).setFormals name formals)
      rfl rfl hfresh hbind
  case classDef =>
    rw [layout_bind] at hdone
    exact absurd hdone fail_ne_ok
  case assign target value => exact ((yields_assign hl target none value).of_ok hdone).sameUnnamed hl
  case annotated target declared value =>
    cases value with
    | none => exact absurd hdone fail_ne_ok
    | some value => exact ((yields_assign hl target (some declared) value).of_ok hdone).sameUnnamed hl
  case augmented => exact absurd hdone defect_ne_ok
  case expr value =>
    obtain ⟨hkeeps, hdepth⟩ := (yields_evaluate hl value).of_ok hdone
    exact Layout.After.sameUnnamed
      ⟨hkeeps, hdepth.resolve_left (Expr.not_nowOnValue hstart.clock hclock _)⟩ hl
  case forIn => exact (after_forIn hl hdone).sameUnnamed hl
  case raise value => exact ((yields_raise hl value).of_ok hdone).sameUnnamed hl
  case ret value =>
    obtain ⟨hkeeps, hdepth⟩ := (yields_ret hl value).of_ok hdone
    have houtside : ¬∃ name want, state.layout.context = .function name want :=
      fun ⟨name, want, hcontext⟩ => hstart.context name want hcontext
    exact Layout.After.sameUnnamed ⟨hkeeps, hdepth.resolve_left houtside⟩ hl

theorem allBalance : ∀ {body : List Stmt} {shadowed : Bool},
    Stmt.allAskClass shadowed body = true → AllBalance shadowed body
  | [], _, _ => trivial
  | s :: rest, shadowed, hclock => by
    rw [Stmt.allAskClass, Bool.and_eq_true] at hclock
    exact ⟨balances_compileStmt hclock.1, allBalance hclock.2⟩

end

/-- Outside of functions, a block that goes on leaves the variables it started with at their slots,
and no others. If its expression statements call `now` on the class only, it leaves the stack as deep
as it was. -/
theorem block_restores_layout {body : List Stmt} {config : Config} {state : State}
    {done : Step Unit} (hl : state.layout.WellFormed)
    (hcontext : ∀ name want, state.layout.context ≠ .function name want)
    (hdone : compileBlock body config state = .ok done) (hgoes : diverges done.code = false) :
    (∀ name, done.state.layout.slot? name = state.layout.slot? name ∧
        done.state.layout.ty? name = state.layout.ty? name) ∧
      (Stmt.allAskClass (state.layout.binds clockName) body = true →
        done.state.layout.depth = state.layout.depth) := by
  obtain ⟨hgrows, hadds⟩ := restores_block (declares_all body) hl hdone
  refine ⟨fun name => ?_, fun hclock => ?_⟩
  · cases hbound : state.layout.binds name with
    | true =>
      obtain ⟨c, hc⟩ := hl.cell?_of_binds hbound
      have hkept := hgrows.extending.kept hc
      exact ⟨(Layout.slot?_of_cell? hkept).trans (Layout.slot?_of_cell? hc).symm,
        (Layout.ty?_of_cell? hkept).trans (Layout.ty?_of_cell? hc).symm⟩
    | false =>
      have hfree : done.state.layout.binds name = false := by
        refine Bool.eq_false_iff.mpr fun hname => ?_
        have hold := (hadds hgoes hname).resolve_right (by simp)
        exact absurd (hold.symm.trans hbound) (by simp)
      rw [Layout.slot?_eq_none_iff.mpr hbound, Layout.slot?_eq_none_iff.mpr hfree,
        hl.ty?_eq_none_iff.mpr hbound, hgrows.wellFormed.ty?_eq_none_iff.mpr hfree]
      exact ⟨rfl, rfl⟩
  · have hstart : Unreturning (state.layout.binds clockName) state.layout := ⟨hl, hcontext, id⟩
    exact depth_of_block (allBalance hclock) hstart hdone hgoes

/-- A block with a variable of its own, a branch with another one, and a loop. -/
def Stmt.tallies : List Stmt :=
  [.assign 1 (.name 1 "n") (.literal 1 (.int 1)),
    .ifElse 2 (.compare 2 (.name 2 "n") [(.lt, .literal 2 (.int 3))])
      [.assign 3 (.name 3 "m") (.literal 3 (.int 2)), .assign 4 (.name 4 "n") (.name 4 "m")]
      [.raise 5 (some (.literal 5 (.str "too large")))],
    .forIn 6 "i" (.list 6 [.name 6 "n"]) [.assign 7 (.name 7 "n") (.name 7 "i")],
    .expr 8 (.call 8 (.attr 8 (.name 8 "Timestamp") "now") [] [])]

theorem block_restores_layout_tallies : ∃ done,
    compileBlock Stmt.tallies ⟨.empty, false⟩ ⟨.empty .module, 0⟩ = .ok done ∧
      diverges done.code = false ∧
      (∀ name, done.state.layout.slot? name = none ∧ done.state.layout.ty? name = none) ∧
      done.state.layout.depth = 0 := by
  have hgoes : (compileBlock Stmt.tallies ⟨.empty, false⟩ ⟨.empty .module, 0⟩).toOption.map
      (fun done => diverges done.code) = some false := by decide +kernel
  obtain ⟨done, hdone, hgoes⟩ := Except.exists_ok_of_map hgoes
  obtain ⟨hcells, hdepth⟩ := block_restores_layout (.empty .module)
    (fun name want => by simp [Layout.empty]) hdone hgoes
  exact ⟨done, hdone, hgoes, hcells, hdepth (by decide +kernel)⟩

/-- Called on a value, `now` leaves that value on the stack: a block that does so ends one cell deeper
than it started. -/
theorem now_on_value_leaves_a_cell : ∃ (body : List Stmt) (config : Config) (state : State)
    (done : Step Unit), state.layout.WellFormed ∧ state.layout.context = .module ∧
      compileBlock body config state = .ok done ∧ diverges done.code = false ∧
      done.state.layout.depth = state.layout.depth + 1 := by
  let start : Layout := ((Layout.empty .module).push 1).bindSlot "t" 0 .timestamp
  let body : List Stmt := [.expr 2 (.call 2 (.attr 2 (.name 2 "t") "now") [] [])]
  have hl : start.WellFormed := by
    have hroom := (Layout.WellFormed.empty .module).atDepth (Nat.zero_le 1)
    exact hroom.bindSlot Nat.zero_lt_one (fun h => by cases h) "t"
  have hrun : (compileBlock body ⟨.empty, false⟩ ⟨start, 1⟩).toOption.map
      (fun done => (diverges done.code, done.state.layout.depth)) = some (false, 2) := by
    decide +kernel
  obtain ⟨done, hdone, hends⟩ := Except.exists_ok_of_map hrun
  obtain ⟨hgoes, hdepth⟩ := Prod.mk.inj hends
  exact ⟨body, _, _, done, hl, rfl, hdone, hgoes, hdepth⟩

end Covenant
