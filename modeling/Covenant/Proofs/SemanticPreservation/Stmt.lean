import Covenant.Proofs.SemanticPreservation.Expr
import Covenant.Proofs.StackBalance

/-!
# Covenant — statements do what they mean

The code of a statement of the core language takes a stack with the variables of a store to a stack
with the variables of the store after the statement (`Stmt.simulates`), and a block does the same for
the variables it started with (`concurs_block`).

A loop variable may shadow a variable of the same name, whose cell is then under a hidden name and is
no longer in the store. So it has to be known of every statement that it leaves such cells alone, along
with the cells that have no name at all (`Layout.Frames`).
-/

namespace Covenant

open Gen Outcome Stack Interpretation Layout Ident

variable {α : Type} {I : Interpretation α} {config : Config} {records : Records}
  {l l' outer : Layout} {s s' s'' : List (Datum α)} {σ σ' σ'' : Store α} {name : Ident} {v : Val α}

/-! ## What statements leave alone -/

namespace Layout

/-- The cells that belong to no variable in scope are the same. -/
def Frames (l : Layout) (s s' : List (Datum α)) : Prop :=
  ∀ slot, slot < l.depth →
    (∀ name, isPlain name = true → l.slot? name ≠ some slot) →
    atSlot s' slot = atSlot s slot

theorem Frames.refl (l : Layout) (s : List (Datum α)) : l.Frames s s := fun _ _ _ => rfl

/-- A slot that no variable has before has none later either, as new variables go on top. -/
theorem Frames.trans (h : l.Frames s s') (hextends : l.Extends l') (h' : l'.Frames s' s'') :
    l.Frames s s'' := by
  intro slot hslot hplain
  refine (h' slot (Nat.lt_of_lt_of_le hslot hextends.depth_le) fun name hname hthere => ?_).trans
    (h slot hslot hplain)
  cases hold : l.slot? name with
  | none =>
    have habove := hextends.above hthere (slot?_eq_none_iff.mp hold)
    omega
  | some before =>
    obtain rfl := Option.some.inj ((hextends.slots hold).symm.trans hthere)
    exact hplain name hname hold

end Layout

/-- From one stack and store to another ones, which have the variables of a later layout. Cells and
variables that are not in scope are the same. -/
structure Carries (I : Interpretation α) (records : Records) (l l' : Layout)
    (s s' : List (Datum α)) (σ σ' : Store α) : Prop where
  reads : Reads I records l' s' σ'
  frame : l.Frames s s'
  hidden : ∀ name, isPlain name = false → σ' name = σ name

namespace Carries

theorem refl (h : Reads I records l s σ) : Carries I records l l s s σ σ :=
  ⟨h, .refl l s, fun _ _ => rfl⟩

/-- A later layout has the variables of an earlier one where they were. -/
theorem trans {l'' : Layout} (h : Carries I records l l' s s' σ σ') (hextends : l.Extends l')
    (h' : Carries I records l' l'' s' s'' σ' σ'') : Carries I records l l'' s s'' σ σ'' where
  reads := h'.reads
  frame := h.frame.trans hextends h'.frame
  hidden name hname := (h'.hidden name hname).trans (h.hidden name hname)

end Carries

/-- Only the named cells and the number of cells matter. -/
theorem Reads.of_cells (h : Reads I records l s σ) (hl : l'.WellFormed)
    (hcells : ∀ name, l'.cell? name = l.cell? name) (hdepth : l'.depth = l.depth) :
    Reads I records l' s σ where
  records := h.records
  wellFormed := hl
  known hc := h.known (hcells _ ▸ hc)
  holds := ⟨h.holds.length.trans hdepth.symm, fun hc => h.holds.cells (hcells _ ▸ hc)⟩
  unbound hplain hc := h.unbound hplain (hcells _ ▸ hc)

theorem Reads.of_after (h : Reads I records l s σ) (hafter : l.After 0 l') :
    Reads I records l' s σ :=
  h.above (t := []) hafter

/-- Code that ends does not diverge. -/
theorem Outcome.Concurs.not_diverges {γ : Type} {R : List (Datum α) → γ → Prop} {code : Code}
    {x : Outcome α γ} (h : Concurs R (I.run code s) x) :
    Concurs (fun s' c => diverges code = false ∧ R s' c) (I.run code s) x := by
  cases hrun : I.run code s with
  | stuck => rw [hrun] at h; cases h
  | aborts v =>
    rw [hrun] at h
    cases h
    exact .aborts v
  | ends s' =>
    rw [hrun] at h
    cases h with
    | ends hR =>
      refine .ends ⟨?_, hR⟩
      cases hdiv : diverges code with
      | false => rfl
      | true => exact absurd hrun (run_ne_ends code s hdiv)

/-! ## Assignment -/

theorem ne_of_hidden {other : Ident} (hplain : isPlain name = true)
    (hother : isPlain other = false) : other ≠ name := by
  rintro rfl
  rw [hplain] at hother
  contradiction

/-- A variable gets a new value. -/
theorem concurs_replace (hreads : Reads I config.records l s σ) (hplain : isPlain name = true)
    {c : Cell} (hc : l.cell? name = some c) (htyped : I.Has c.ty v.datum) {state : State}
    {done : Step Unit} (hafter : l.After 1 state.layout)
    (hdone : replace name config state = .ok done) :
    Concurs (Carries I config.records l done.state.layout s · σ ·)
      (I.run done.code (v.datum :: s)) (.ends (σ.assign name v)) := by
  have hd : state.layout.cell? name = some c := (hafter.keeps.cells name).trans hc
  have hpushed := hreads.above (t := [v.datum]) hafter
  have hlength := hreads.holds.length
  have hslot := hreads.wellFormed.below hc
  have hdepth := hafter.depth
  obtain ⟨old, hold, -, -, htag⟩ := hreads.exists_val hplain hc
  obtain ⟨hlayout, hend, hrun⟩ :=
    run_replace hreads.wellFormed hlength hc hafter hdone v.datum
  rw [hrun]
  refine .ends ⟨?_, ?_, ?_⟩
  · refine ⟨hreads.records, hend.wellFormed hreads.wellFormed, ?_, ?_, ?_⟩
    · exact fun hcell => hreads.known (hend.keeps.cells _ ▸ hcell)
    · rw [hlayout]
      refine hpushed.holds.settled hpushed.wellFormed (hafter.topFree hreads.wellFormed) hd
        ⟨htyped, fun _ => ⟨_, if_pos rfl, rfl, ?_⟩⟩ fun other ty b hne hb => ⟨hb.1, fun hother => ?_⟩
      · rw [hold]
        exact htag
      · obtain ⟨w, hw, hrest⟩ := hb.2 hother
        exact ⟨w, (if_neg hne).trans hw, hrest⟩
    · intro other hother hnone
      rw [hend.keeps.cells] at hnone
      have hne : other ≠ name := by
        rintro rfl
        exact absurd (hc.symm.trans hnone) (by simp)
      exact (if_neg hne).trans (hreads.unbound hother hnone)
  · intro slot hbelow hfree
    -- counted from the top, the slot of the variable below the new value
    have hindex : state.layout.depth - 2 - c.slot = s.length - 1 - c.slot := by omega
    have hother : slot ≠ c.slot := fun heq => hfree name hplain (heq ▸ slot?_of_cell? hc)
    rw [hindex, atSlot_set (by omega) (by omega), if_neg hother]
  · exact fun other hother => if_neg (ne_of_hidden hplain hother)

/-- The top cell becomes a variable, which may shadow another one. -/
theorem Reads.bind (hreads : Reads I records l s σ) {m : Layout} (hafter : l.After 1 m)
    (hplain : isPlain name = true) {ty : Ty} (hbind : m.bind name ty = .ok l')
    (hknown : ty.hasUnknown = false) (htyped : I.Has ty v.datum) (htag : v.Tagged ty) :
    Reads I records l' (v.datum :: s) (σ.set name v) := by
  have hpushed := hreads.above (t := [v.datum]) hafter
  refine ⟨hreads.records, hpushed.wellFormed.bind (hafter.topFree hreads.wellFormed) hbind, ?_, ?_, ?_⟩
  · intro other d hd
    obtain ⟨-, rfl⟩ := bind_eq_ok_iff.mp hbind
    rw [cell?_bindSlot] at hd
    split at hd
    · cases hd
      exact hknown
    · obtain ⟨before, hbefore⟩ := cell?_hide_eq_some hpushed.wellFormed hd
      exact hpushed.known hbefore
  · refine hpushed.holds.bind hpushed.wellFormed hbind ⟨htyped, fun _ => ⟨v, if_pos rfl, rfl, htag⟩⟩ ?_
    intro before other d b hbefore hb hne hhidden
    refine ⟨hb.1, fun hother => ?_⟩
    -- of a plain name the cell was there under the same name
    have hcell : l'.cell? other = some d := by
      obtain ⟨-, rfl⟩ := bind_eq_ok_iff.mp hbind
      rw [cell?_bindSlot, if_neg hne, hhidden]
    obtain ⟨heq, -⟩ | ⟨-, hsame⟩ :=
      cell?_of_bind_plain hbind (isPlain_iff.mp hother) hcell
    · exact absurd heq hne
    · obtain rfl := hpushed.wellFormed.distinct hbefore hsame rfl
      obtain ⟨w, hw, hrest⟩ := hb.2 hother
      exact ⟨w, (if_neg hne).trans hw, hrest⟩
  · intro other hother hnone
    have hne : other ≠ name := by
      rintro rfl
      exact absurd ((cell?_of_bind hbind).symm.trans hnone) (by simp)
    refine (if_neg hne).trans (hpushed.unbound hother ?_)
    rwa [cell?_bind hbind (isPlain_iff.mp hother), if_neg hne] at hnone

/-- A new variable on top of the stack. -/
theorem concurs_bindTop (hreads : Reads I config.records l s σ) (hplain : isPlain name = true)
    (hfresh : l.binds name = false) {ty : Ty} (hknown : ty.hasUnknown = false)
    (htyped : I.Has ty v.datum) (htag : v.Tagged ty) {state : State} {done : Step Unit}
    (hafter : l.After 1 state.layout) (hdone : bindTop name ty config state = .ok done) :
    Concurs (Carries I config.records l done.state.layout s · σ ·)
      (I.run done.code (v.datum :: s)) (.ends (σ.assign name v)) := by
  obtain ⟨l', hbind, rfl⟩ := bindTop_eq_ok_iff.mp hdone
  have hassign : σ.assign name v = σ.set name v := by
    rw [Store.assign, hreads.unbound hplain (cell?_of_unbound hfresh)]
    rfl
  show Concurs _ (I.run (config.notes _) _) _
  rw [run_notes, hassign]
  refine .ends ⟨hreads.bind hafter hplain hbind hknown htyped htag, fun slot hslot _ => ?_, ?_⟩
  · exact atSlot_cons_of_lt v.datum (hreads.holds.length ▸ hslot)
  · exact fun other hother => if_neg (ne_of_hidden hplain hother)

/-! ## Steps -/

namespace Gen

variable {value : Expr} {line : Nat}

/-- The code of the step does to a stack what evaluation does to the store with the same variables. -/
def Simulates (I : Interpretation α) (config : Config) (step : Gen Unit)
    (x : Store α → Outcome α (Store α)) : Prop :=
  ∀ ⦃state : State⦄ ⦃done : Step Unit⦄ ⦃s : List (Datum α)⦄ ⦃σ : Store α⦄,
    Unreturning true state.layout → Reads I config.records state.layout s σ →
    step config state = .ok done →
    Concurs (Carries I config.records state.layout done.state.layout s · σ ·)
      (I.run done.code s) (x σ)

/-- All statements of a block do what they mean. -/
abbrev AllSimulate (I : Interpretation α) (config : Config) (body : List Stmt) : Prop :=
  ∀ s ∈ body, Simulates I config (compileStmt s) (I.exec config.records s)

/-- Taking note of a line changes nothing that evaluation knows of. -/
theorem Simulates.seen {step : Gen Unit} {x x' : Store α → Outcome α (Store α)}
    (h : Simulates I config step x) (hx : ∀ σ, x' σ = x σ) :
    Simulates I config (do Gen.seen line; step) x' := by
  intro state done s σ hstart hreads hdone
  rw [seen_bind] at hdone
  rw [hx]
  have hlayout := state.layout_seeing line
  have hstep := h (hlayout ▸ hstart) (hlayout ▸ hreads) hdone
  rwa [hlayout] at hstep

/-- A value is computed on top of the variables and then dealt with. -/
theorem concurs_bind {β γ : Type} {step : Gen β} {next : β → Gen Unit} {x : Outcome α γ}
    {f : γ → Outcome α (Store α)} {P : β → List (Datum α) → γ → Prop} {state : State}
    {done : Step Unit} (h : Computes I config state.layout s [] step x P)
    (hdone : (step >>= next) config state = .ok done)
    (hnext : ∀ {first : Step β} {last : Step Unit} {t : List (Datum α)} {c : γ},
      state.layout.After t.length first.state.layout → P first.result t c →
      next first.result config first.state = .ok last →
      Concurs (Carries I config.records state.layout last.state.layout s · σ ·)
        (I.run last.code (t ++ s)) (f c)) :
    Concurs (Carries I config.records state.layout done.state.layout s · σ ·)
      (I.run done.code s) (x >>= f) := by
  obtain ⟨first, last, hfirst, hlast, rfl⟩ := bind_eq_ok_iff.mp hdone
  show Concurs _ (I.run (first.code ++ last.code) s) _
  rw [run_append]
  refine (h (.refl _) hfirst).bind fun s' c hs' => ?_
  obtain ⟨t, rfl, hafter, hP⟩ := hs'
  exact hnext hafter hP hlast

section

variable (hplain : isPlain name = true) (hvalue : ∀ σ, value.Faithful I config σ)
include hplain hvalue

/-- An assignment to a variable: it gets a new value, or is declared on top. -/
theorem simulates_assignName {declared : Option Ty} :
    Simulates I config (assignName (.name line name) name declared value.operand) fun σ => do
      let v ← I.eval config.records σ value
      return σ.assign name ⟨declared.getD v.ty, v.datum⟩ := by
  intro state done s σ hstart hreads hdone
  rcases assignName_eq_ok hdone with
    ⟨want, hwant, hdeclared, hexists, hdone⟩ | ⟨rfl, hnone, hdone⟩
  · obtain ⟨found, hfound, hfits, hdone⟩ := checkFits_bind_eq_ok_iff.mp hdone
    have hwantTy := typeOf_eq_of_fits hfound hfits ▸ hfound
    refine concurs_bind ((hvalue σ).pushAs hreads hwantTy) hdone ?_
    rintro first last _ v hafter ⟨rfl, hsuits⟩ hlast
    rw [layout_bind, hafter.keeps.binds] at hlast
    cases hbound : state.layout.binds name with
    | true =>
      obtain ⟨c, hcell⟩ := hreads.wellFormed.cell?_of_binds hbound
      obtain rfl := hwant c.ty (ty?_of_cell? hcell)
      rw [if_pos hbound] at hlast
      exact concurs_replace hreads hplain hcell (v := ⟨declared.getD v.ty, v.datum⟩)
        hsuits.typed hafter hlast
    | false =>
      rw [if_neg (by simp [hbound])] at hlast
      -- without a declared type the variable would have been there
      obtain ⟨ty, rfl⟩ : ∃ ty, declared = some ty := by
        cases declared with
        | some ty => exact ⟨ty, rfl⟩
        | none =>
          have hthere := hreads.wellFormed.binds_of_ty? (hexists rfl)
          exact absurd (hthere.symm.trans hbound) (by simp)
      obtain rfl := hdeclared ty rfl
      exact concurs_bindTop hreads hplain hbound hsuits.known (v := ⟨want, v.datum⟩)
        hsuits.typed (.inr rfl) hafter hlast
  · refine concurs_bind ((hvalue σ).value hreads) hdone ?_
    rintro first last _ v hafter ⟨hty, rfl, hsuits⟩ hlast
    have hfresh := hreads.wellFormed.ty?_eq_none_iff.mp hnone
    exact concurs_bindTop hreads hplain hfresh hsuits.known hsuits.typed (hsuits.tagged hty)
      hafter hlast

theorem simulates_assign :
    Simulates I config (assign (.name line name) none value) fun σ => do
      return σ.assign name (← I.eval config.records σ value) := by
  intro state done s σ hstart hreads hdone
  rw [assign, Option.mapM_none, pure_bind] at hdone
  exact simulates_assignName hplain hvalue hstart hreads hdone

/-- The annotation gives the type that the value is taken apart by later. -/
theorem simulates_annotated {declared : Expr} :
    Simulates I config (assign (.name line name) (some declared) value) fun σ =>
      match TypeExpr.type config.records declared with
      | .ok ty => do return σ.assign name ⟨ty, (← I.eval config.records σ value).datum⟩
      | .error _ => .stuck := by
  intro state done s σ hstart hreads hdone
  simp only [assign, Option.mapM_some, map_eq_pure_bind, bind_assoc, pure_bind] at hdone
  obtain ⟨ty, hty, hdone⟩ := denoted_bind_eq_ok_iff.mp hdone
  rw [hty]
  exact simulates_assignName hplain hvalue hstart hreads hdone

end

/-! ## Simple statements -/

/-- A value that nothing uses is dropped. -/
theorem concurs_drop {d : Datum α} {state : State} {done : Step Unit}
    (hreads : Reads I config.records l s σ) (hafter : l.After 1 state.layout)
    (hdone : (do emit .drop; pop 1 : Gen Unit) config state = .ok done) :
    Concurs (Carries I config.records l done.state.layout s · σ ·) (I.run done.code (d :: s))
      (.ends σ) := by
  obtain ⟨-, rfl⟩ := emit_pop_eq_ok_iff.mp hdone
  have hdepth := hafter.depth
  show Concurs _ (I.run [.drop] _) _
  rw [run_singleton, step]
  exact .ends ⟨hreads.of_after (hafter.atDepth (by omega)), .refl l s, fun _ _ => rfl⟩

/-- An expression statement has no effect but to abort. -/
theorem simulates_evaluate (hvalue : ∀ σ, value.Faithful I config σ) :
    Simulates I config (evaluate value.operand) fun σ => do
      let _ ← I.eval config.records σ value
      return σ := by
  intro state done s σ hstart hreads hdone
  rcases evaluate_eq_ok hdone with ⟨line, text, heq, rfl⟩ | hdone
  · obtain rfl : value = .literal line (.str text) := heq
    show Concurs _ (I.run [] s) (do
      let _ ← I.eval config.records σ (.literal line (.str text))
      return σ)
    rw [run_nil, eval]
    exact .ends (.refl hreads)
  · have hcompile : Computes I config state.layout s [] (value.operand.compile none)
        (I.eval config.records σ value) fun _ t v => t = [v.datum] := by
      refine computes_typeOf_bind fun ty hty => computes_seen_bind ?_
      refine ((hvalue σ).emits hreads hty).then_pure fun _ t v hv => computes_pure ?_
      exact hv.1
    refine concurs_bind hcompile hdone ?_
    rintro first last _ v hafter rfl hlast
    have hdepth := hafter.depth
    rw [depth_bind, if_pos (by rw [hdepth]; simp)] at hlast
    exact concurs_drop hreads hafter hlast

/-- What is raised is the same for the generator, which knows the variables in scope, and for the
evaluator, which has their values. -/
theorem raised_eq_ok (hreads : Reads I records l s σ) {value message : Expr}
    (hcore : value.isCore records = true) (h : raised ⟨records, l⟩ value = .ok message) :
    message = σ.raised records value ∧ message.isCore records = true := by
  have hitself (hraised : raised ⟨records, l⟩ value = .ok value)
      (hsame : σ.raised records value = value) :
      message = σ.raised records value ∧ message.isCore records = true := by
    cases h.symm.trans hraised
    exact ⟨hsame.symm, hcore⟩
  match value, hcore with
  | .call line (.name funcLine id) args keywords, hcore =>
    have hargs := hcore
    simp only [Expr.isCore, Bool.and_eq_true] at hargs
    have hbinds := hreads.isSome_eq_binds hargs.1.1.1
    have hexception : isException ⟨records, l⟩ (.name funcLine id) =
        ((σ id).isNone && !records.contains id && !Builtin.isName id) := by
      rw [isException, ← hbinds, Option.not_isSome]
    match args, hargs with
    | [argument], hargs =>
      simp only [raised, hexception] at h
      simp only [Store.raised]
      split at h
      · next hexc =>
        cases h
        rw [if_pos hexc]
        exact ⟨rfl, by simpa [Expr.areCore] using hargs.2⟩
      · next hexc =>
        cases h
        rw [if_neg hexc]
        exact ⟨rfl, hcore⟩
    | [], _ | _ :: _ :: _, _ =>
      have hraised : isException ⟨records, l⟩ (.name funcLine id) = false := by
        cases hexc : isException ⟨records, l⟩ (.name funcLine id) with
        | false => rfl
        | true => simp [raised, hexc, faultAt_ne_ok] at h
      exact hitself (by simp [raised, hraised]) rfl
  | .name _ _, _ | .literal _ _, _ | .list _ _, _ | .attr _ _ _, _ | .subscript _ _ _, _
  | .compare _ _ _, _ | .binary _ _ _ _, _ | .unary _ _ _, _ | .boolean _ _ _, _ =>
    exact hitself rfl rfl

/-- What is raised is evaluated, and then both abort with it. -/
theorem simulates_raise (hcore : value.isCore config.records = true) :
    Simulates I config (raise (some value)) fun σ =>
      I.eval config.records σ (σ.raised config.records value) >>= fun v => .aborts v.datum := by
  intro state done s σ hstart hreads hdone
  rw [raise, scope_bind] at hdone
  obtain ⟨message, hmessage, hdone⟩ := typed_bind_eq_ok_iff.mp hdone
  obtain ⟨rfl, hmessageCore⟩ := raised_eq_ok hreads hcore hmessage
  have hvalue := Expr.faithful I config σ hmessageCore
  refine concurs_bind (hvalue.value hreads) hdone ?_
  rintro first last _ v hafter ⟨-, rfl, -⟩ hlast
  obtain ⟨-, rfl⟩ := emit_pop_eq_ok_iff.mp hlast
  show Concurs _ (I.run [.failwith] (v.datum :: s)) _
  rw [run_singleton, step]
  exact .aborts v.datum

end Gen

/-! ## Blocks -/

/-- Dropping variables that an outer layout does not have leaves the outer cells alone. -/
theorem run_dropNames (houter : outer.WellFormed) {names : List Ident}
    (hnames : ∀ name ∈ names, outer.binds name = false) {code : Code} (hgrows : outer.Grows l)
    (hlength : s.length = l.depth) (hdrop : l.dropNames names = .ok (code, l')) :
    ∃ s', I.run code s = .ends s' ∧ s'.length = l'.depth ∧
      ∀ slot, slot < outer.depth → atSlot s' slot = atSlot s slot := by
  induction names generalizing l s code with
  | nil =>
    cases hdrop
    exact ⟨s, run_nil s, hlength, fun _ _ => rfl⟩
  | cons name rest ih =>
    obtain ⟨hnew, hrest⟩ := List.forall_mem_cons.mp hnames
    obtain ⟨dropped, tail, hdropped, hbelow, htail, rfl⟩ := dropNames_cons_eq_ok_iff.mp hdrop
    -- what is dropped lies above all cells of the outer layout
    have habove := hgrows.extending.above hdropped hnew
    have hshorter : (s.eraseIdx (l.depth - 1 - dropped)).length =
        (l.without name dropped).depth := by
      rw [List.length_eraseIdx, if_pos (by omega), hlength, depth_without]
    have hless : outer.Grows (l.without name dropped) :=
      ⟨hgrows.wellFormed.without hdropped, hgrows.extending.without houter hdropped hbelow hnew⟩
    obtain ⟨s', hrun, hend, hslots⟩ := ih hrest hless hshorter htail
    refine ⟨s', ?_, hend, fun slot hslot => (hslots slot hslot).trans ?_⟩
    · rw [run_cons, step_dropAt (by omega), Outcome.ends_bind, hrun]
    · rw [← hlength, atSlot_eraseIdx (by omega) (by omega), if_pos (by omega)]

/-- The variables of an outer layout, after those declared since have been dropped. -/
theorem Carries.within {s₀ : List (Datum α)} {σ₀ : Store α} (hbefore : Reads I records outer s₀ σ₀)
    (h : Carries I records outer l s₀ s σ₀ σ) (hgrows : outer.Grows l)
    (hlength : s'.length = outer.depth)
    (hslots : ∀ slot, slot < outer.depth → atSlot s' slot = atSlot s slot) :
    Carries I records outer outer s₀ s' σ₀ (σ.within σ₀) where
  reads := by
    refine ⟨hbefore.records, hbefore.wellFormed, hbefore.known, ⟨hlength, ?_⟩, ?_⟩
    · intro name c hc
      obtain ⟨d, hd, htyped, hval⟩ := h.reads.holds.cells (hgrows.extending.kept hc)
      refine ⟨d, (hslots _ (hbefore.wellFormed.below hc)).trans hd, htyped, fun hplain => ?_⟩
      obtain ⟨v, hv, hrest⟩ := hval hplain
      refine ⟨v, (if_pos ?_).trans hv, hrest⟩
      rw [hbefore.isSome_eq_binds hplain]
      exact binds_of_cell? hc
    · intro name hplain hnone
      refine if_neg ?_
      rw [hbefore.unbound hplain hnone]
      simp
  frame slot hslot hfree := (hslots slot hslot).trans (h.frame slot hslot hfree)
  hidden name hname := by
    rw [Store.within, h.hidden name hname]
    cases σ₀ name with
    | none => rfl
    | some v => rfl

namespace Gen

variable {state : State} {done : Step Unit} {body : List Stmt}

/-- Freeing what has been declared since an outer layout leaves the outer variables as they are. -/
theorem concurs_freeDeclared {s₀ : List (Datum α)} {σ₀ : Store α}
    (hbefore : Reads I config.records outer s₀ σ₀)
    (h : Carries I config.records outer state.layout s₀ s σ₀ σ) (hgrows : outer.Grows state.layout)
    (hsame : outer.SameUnnamed state.layout) (hdone : freeDeclared outer config state = .ok done) :
    Concurs (fun s' τ => Carries I config.records outer outer s₀ s' σ₀ (τ.within σ₀))
      (I.run done.code s) (.ends σ) := by
  have houter := hbefore.wellFormed
  obtain ⟨hend, hadds, hless⟩ := restores_freeDeclared houter hgrows hdone
  have hdepth := depth_eq_of_sameUnnamed houter hend hadds (hsame.trans hless)
  obtain ⟨order, hnew, hdrop, -⟩ := freeDeclared_eq_ok hdone
  obtain ⟨s', hrun, hlength, hslots⟩ := run_dropNames (I := I) houter hnew hgrows
    h.reads.holds.length hdrop
  rw [hrun]
  exact .ends (h.within hbefore hgrows (hlength.trans hdepth) hslots)

/-- A block from somewhere in its middle on. -/
theorem concurs_compileBody (hbody : AllSimulate I config body)
    (hbalance : AllBalance true body) {s₀ : List (Datum α)} {σ₀ : Store α}
    (hbefore : Reads I config.records outer s₀ σ₀) (hstart : Unreturning true state.layout)
    (hgrows : outer.Grows state.layout) (hsame : outer.SameUnnamed state.layout)
    (h : Carries I config.records outer state.layout s₀ s σ₀ σ)
    (hdone : compileBody body outer config state = .ok done) :
    Concurs (fun s' τ => Carries I config.records outer outer s₀ s' σ₀ (τ.within σ₀))
      (I.run done.code s) (I.execAll config.records body σ) := by
  induction body generalizing state done s σ with
  | nil =>
    rw [compileBody] at hdone
    rw [execAll]
    exact concurs_freeDeclared hbefore h hgrows hsame hdone
  | cons first rest ih =>
    obtain ⟨hfirstSim, hrestSim⟩ := List.forall_mem_cons.mp hbody
    obtain ⟨step, hstep, hends⟩ := unlessDiverges_eq_ok hdone
    obtain ⟨hmore, hadds⟩ := declares_compileStmt first hstart.wellFormed hstep
    have hsim := (hfirstSim hstart h.reads hstep).not_diverges
    rw [execAll]
    rcases hends with ⟨hdiv, rfl⟩ | ⟨hgoes, last, hlast, rfl⟩
    · -- the statement aborts, and so does the block
      rw [← bind_pure (I.run done.code s)]
      refine hsim.bind fun s' σ' hs' => ?_
      rw [hdiv] at hs'
      exact absurd hs'.1 (by simp)
    · show Concurs _ (I.run (step.code ++ last.code) s) _
      rw [run_append]
      refine hsim.bind fun s' σ' hs' => ?_
      exact ih hrestSim hbalance.2 (hstart.grows hmore hadds) (hgrows.trans hmore)
        (hsame.trans (hbalance.1 hstart hstep hgoes)) (h.trans hgrows.extending hs'.2) hlast

/-- A block does what its statements do, as far as it concerns the variables it started with. -/
theorem concurs_block (hbody : AllSimulate I config body)
    (hbalance : AllBalance true body) (hstart : Unreturning true state.layout)
    (hreads : Reads I config.records state.layout s σ)
    (hdone : fromHere (compileBody body) config state = .ok done) :
    Concurs (Carries I config.records state.layout state.layout s · σ ·)
      (I.run done.code s) (I.execBlock config.records body σ) := by
  rw [fromHere, layout_bind] at hdone
  have hbody := concurs_compileBody hbody hbalance hreads hstart (.refl hstart.wellFormed) (.refl _)
    (.refl hreads) hdone
  rw [← bind_pure (I.run done.code s), execBlock]
  exact hbody.bind fun s' τ hs' => .ends hs'

/-! ## Conditionals -/

/-- The depth of a conditional that goes on is the depth it started from. -/
theorem depth_of_ifElse {test : Expr} {body orelse : List Stmt} (hbody : AllBalance true body)
    (horelse : AllBalance true orelse) (hstart : Unreturning true state.layout)
    (hdone : ifElse test (fromHere (compileBody body)) (fromHere (compileBody orelse)) config state =
      .ok done) (hgoes : diverges done.code = false) :
    done.state.layout.depth = state.layout.depth := by
  obtain ⟨hgrows, hadds⟩ := declares_ifElse (restores_block (declares_all body))
    (restores_block (declares_all orelse)) hstart.wellFormed hdone
  exact depth_eq_of_sameUnnamed hstart.wellFormed hgrows hadds
    (balances_ifElse hbody horelse hstart hdone hgoes)

/-- A block compiled from a copy of the layout. -/
theorem concurs_branch (hbody : AllSimulate I config body)
    (hbalance : AllBalance true body) (hstart : Unreturning true l)
    (hreads : Reads I config.records l s σ) (hafter : l.After 0 state.layout)
    (hdone : fromHere (compileBody body) config state = .ok done) :
    Concurs (Carries I config.records l l s · σ ·) (I.run done.code s)
      (I.execBlock config.records body σ) := by
  refine (concurs_block hbody hbalance (hstart.of_keeps hafter.keeps) (hreads.of_after hafter)
    hdone).mono fun s' σ' h => ?_
  have hdepth := hafter.depth
  refine ⟨h.reads.of_cells hstart.wellFormed (fun name => (hafter.keeps.cells name).symm) (by omega),
    fun slot hslot hfree => ?_, h.hidden⟩
  refine h.frame slot (by omega) fun name hname hthere => hfree name hname ?_
  rwa [hafter.keeps.slots] at hthere

/-- Of the two branches the same one is taken, and it starts from the same variables. -/
theorem simulates_ifElse {test : Expr} (htest : ∀ σ, test.Faithful I config σ)
    {body orelse : List Stmt}
    (hbody : AllSimulate I config body) (horelse : AllSimulate I config orelse)
    (hbalance : AllBalance true body) (hbalance' : AllBalance true orelse) :
    Simulates I config (ifElse test (fromHere (compileBody body)) (fromHere (compileBody orelse)))
      fun σ => I.eval config.records σ test >>= fun v =>
        match v.datum with
        | .bool true => I.execBlock config.records body σ
        | .bool false => I.execBlock config.records orelse σ
        | _ => .stuck := by
  intro state done s σ hstart hreads hdone
  have hdepth := depth_of_ifElse hbalance hbalance' hstart hdone
  obtain ⟨pushed, onTrue, onFalse, depth, hty, hpushed, htrue, hfalse, -, rfl⟩ := ifElse_eq_ok hdone
  have hafter : state.layout.After 1 pushed.state.layout :=
    (test.yields_pushAs hstart.wellFormed (.refl _) .bool).of_ok hpushed
  have hbranch : state.layout.After 0 (pushed.state.layout.atDepth state.layout.depth) :=
    hafter.atDepth rfl
  refine (Concurs.not_diverges
    (R := (Carries I config.records state.layout state.layout s · σ ·)) ?_).mono fun s' σ' hs' => ?_
  · show Concurs _ (I.run (pushed.code ++ [.ifElse onTrue.code onFalse.code]) s) _
    rw [run_append]
    refine ((htest σ).pushAs (t := []) hreads hty (.refl _) hpushed).bind fun s' v hs' => ?_
    obtain ⟨_, rfl, -, rfl, hsuits⟩ := hs'
    obtain ⟨b, hb⟩ := hsuits.typed
    rw [run_singleton, hb]
    cases b with
    | true =>
      simp only [List.cons_append, List.nil_append, step]
      exact concurs_branch hbody hbalance hstart hreads hbranch htrue
    | false =>
      simp only [List.cons_append, List.nil_append, step]
      exact concurs_branch horelse hbalance' hstart hreads hbranch hfalse
  · obtain ⟨hgoes, hcarries⟩ := hs'
    have hdepth : depth = state.layout.depth := hdepth hgoes
    subst hdepth
    exact ⟨hcarries.reads.of_after hbranch, hcarries.frame, hcarries.hidden⟩

/-! ## Loops -/

/-- Rounds that carry the variables over make a loop that does. -/
theorem concurs_rounds {element : Ty}
    {round : Datum α → List (Datum α) → Outcome α (List (Datum α))}
    {round' : Datum α → Store α → Outcome α (Store α)}
    (hround : ∀ {d : Datum α} {s : List (Datum α)} {σ : Store α}, I.Has element d →
      Reads I records l s σ → Concurs (Carries I records l l s · σ ·) (round d s) (round' d σ))
    {items : List (Datum α)} (hitems : ∀ d ∈ items, I.Has element d)
    (hreads : Reads I records l s σ) :
    Concurs (Carries I records l l s · σ ·) (rounds round items s)
      (evalRounds round' items σ) := by
  induction items generalizing s σ with
  | nil => exact .ends (.refl hreads)
  | cons d rest ih =>
    obtain ⟨hd, hrest⟩ := List.forall_mem_cons.mp hitems
    rw [rounds, evalRounds]
    refine (hround hd hreads).bind fun s' σ' hs' => ?_
    exact (ih hrest hs'.reads).mono fun s'' σ'' hs'' => hs'.trans (.refl l) hs''

/-- After a round the loop variable is gone, and a variable that it shadowed is what it was. -/
theorem Carries.restoring {m : Layout} {ty : Ty} {d e : Datum α} {v : Val α} {τ : Store α}
    (hreads : Reads I records l s σ) (hplain : isPlain name = true) (hafter : l.After 1 m)
    (hbind : m.bind name ty = .ok l')
    (h : Carries I records l' l' (d :: s) (e :: s') (σ.set name v) τ) :
    Carries I records l l s s' σ (τ.restoring σ name) := by
  have hl := hreads.wellFormed
  have hdepth := hafter.depth
  have hdepth' : l'.depth = m.depth := depth_of_bind hbind
  have hbefore := hreads.holds.length
  have hlength : s'.length = l.depth := by
    have hend := h.reads.holds.length
    rw [List.length_cons] at hend
    omega
  -- a slot of no variable but, perhaps, the shadowed one has the value it had
  have hkeeps {slot : Nat} (hslot : slot < l.depth)
      (hfree : ∀ other, isPlain other = true → other ≠ name → l.slot? other ≠ some slot) :
      atSlot s' slot = atSlot s slot := by
    have hframe := h.frame slot (by omega) fun other hother hthere => by
      rw [slot?_bind hbind (isPlain_iff.mp hother)] at hthere
      split at hthere
      · have htop := Option.some.inj hthere
        omega
      · next hne => exact hfree other hother hne ((hafter.keeps.slots other).symm.trans hthere)
    rwa [atSlot_cons_of_lt e (by omega), atSlot_cons_of_lt d (by omega)] at hframe
  refine ⟨⟨hreads.records, hl, hreads.known, ⟨hlength, ?_⟩, ?_⟩, ?_, ?_⟩
  · intro other c hc
    have hslot := hl.below hc
    by_cases hother : isPlain other = true ∧ other ≠ name
    · obtain ⟨hother, hne⟩ := hother
      obtain ⟨after, hthere, hsame⟩ := exists_name_of_bind hbind
        (isPlain_iff.mp hother) ((hafter.keeps.cells other).trans hc)
      obtain rfl := hsame hne
      obtain ⟨w, hw, hat, htyped, htag⟩ := h.reads.exists_val hother hthere
      rw [atSlot_cons_of_lt e (by omega)] at hat
      exact ⟨w.datum, hat, htyped, fun _ => ⟨w, (if_neg hne).trans hw, rfl, htag⟩⟩
    · obtain ⟨d, hd, htyped, hval⟩ := hreads.holds.cells hc
      refine ⟨d, (hkeeps hslot fun another hanother hne hthere => ?_).trans hd, htyped, ?_⟩
      · exact hother (hl.slots_distinct hthere (slot?_of_cell? hc) ▸ ⟨hanother, hne⟩)
      · intro hplain'
        obtain rfl : other = name := not_not.mp fun hne => hother ⟨hplain', hne⟩
        obtain ⟨w, hw, hrest⟩ := hval hplain'
        exact ⟨w, (if_pos rfl).trans hw, hrest⟩
  · intro other hother hnone
    by_cases heq : other = name
    · exact (if_pos heq).trans (hreads.unbound hother hnone)
    · refine (if_neg heq).trans (h.reads.unbound hother ?_)
      rw [cell?_bind hbind (isPlain_iff.mp hother), if_neg heq, hafter.keeps.cells, hnone]
  · exact fun slot hslot hfree => hkeeps hslot fun other hother _ => hfree other hother
  · intro other hother
    have hne := ne_of_hidden hplain hother
    exact (if_neg hne).trans ((h.hidden other hother).trans (if_neg hne))

/-- One round of a loop. -/
theorem concurs_round (hplain : isPlain name = true) {element : Ty}
    (hknown : element.hasUnknown = false) (hbody : AllSimulate I config body)
    (hbalance : AllBalance true body) (hstart : Unreturning true l)
    (hafter : l.After 1 state.layout)
    (hdone : freeingAfter name (do bindTop name element; fromHere (compileBody body)) config state =
      .ok done) {v : Val α} (htyped : I.Has element v.datum) (htag : v.Tagged element)
    (hreads : Reads I config.records l s σ) :
    Concurs (Carries I config.records l l s · σ ·) (I.run done.code (v.datum :: s))
      (I.execBlock config.records body (σ.set name v) >>= fun τ => .ends (τ.restoring σ name)) := by
  obtain ⟨inner, hinner, hends⟩ := unlessDiverges_eq_ok hdone
  obtain ⟨bound, block, hbound, hblock, rfl⟩ := bind_eq_ok_iff.mp hinner
  obtain ⟨l', hbind, rfl⟩ := bindTop_eq_ok_iff.mp hbound
  have hinside := hreads.bind hafter hplain hbind hknown htyped htag
  have hstart' : Unreturning true l' := by
    refine ⟨hinside.wellFormed, fun function want => ?_, by simp⟩
    rw [context_of_bind hbind, hafter.keeps.context]
    exact hstart.context function want
  have hrun : I.run (config.notes (.bound name) ++ block.code) (v.datum :: s) =
      I.run block.code (v.datum :: s) := by
    rw [run_append, run_notes, Outcome.ends_bind]
  have hsim := concurs_block hbody hbalance hstart' hinside hblock
  rw [← hrun] at hsim
  rcases hends with ⟨hdiv, rfl⟩ | ⟨hgoes, freed, hfreed, rfl⟩
  · rw [← bind_pure (I.run _ _)]
    refine hsim.not_diverges.bind fun s' τ hs' => ?_
    have hgoes := hs'.1
    rw [hdiv] at hgoes
    contradiction
  · show Concurs _ (I.run (_ ++ freed.code) (v.datum :: s)) _
    rw [run_append]
    refine hsim.bind fun s' τ hs' => ?_
    -- the loop variable is on top again, and is dropped
    have hcell : block.state.layout.cell? name = some ⟨state.layout.depth - 1, element⟩ :=
      (restores_block (declares_all body) hstart'.wellFormed hblock).1.extending.kept
        (cell?_of_bind hbind)
    have hdepth : block.state.layout.depth = l'.depth :=
      depth_of_block hbalance hstart' hblock (diverges_of_append hgoes)
    have hlength := hs'.reads.holds.length
    have hbefore := hafter.depth
    rw [depth_of_bind hbind] at hdepth hlength
    obtain ⟨slot, hslot, -, rfl⟩ := free_eq_ok_iff.mp hfreed
    cases hslot.symm.trans (slot?_of_cell? hcell)
    cases s' with
    | nil =>
      rw [List.length_nil] at hlength
      omega
    | cons e rest =>
      have htop : block.state.layout.depth - 1 - (state.layout.depth - 1) = 0 := by omega
      have hdrop : I.run (config.notes (.freed name) ++ [dropAt 0]) (e :: rest) =
          .ends rest := by
        rw [run_append, run_notes, Outcome.ends_bind, run_singleton,
          step_dropAt (by simp)]
        rfl
      show Concurs _ (I.run (config.notes (.freed name) ++
        [dropAt (block.state.layout.depth - 1 - (state.layout.depth - 1))]) (e :: rest)) _
      rw [htop, hdrop]
      exact .ends (Carries.restoring hreads hplain hafter hbind hs')

/-- A loop goes through the elements of the list in order. -/
theorem simulates_forIn (hplain : isPlain name = true) {iter : Expr}
    (hiter : ∀ σ, iter.Faithful I config σ) (hbody : AllSimulate I config body)
    (hbalance : AllBalance true body) :
    Simulates I config (forIn name iter (fromHere (compileBody body))) fun σ =>
      I.eval config.records σ iter >>= fun v =>
        match v.datum with
        | .list items =>
          evalRounds (fun item σ =>
            I.execBlock config.records body (σ.set name ⟨v.ty.element, item⟩) >>= fun τ =>
              .ends (τ.restoring σ name)) items σ
        | _ => .stuck := by
  intro state done s σ hstart hreads hdone
  obtain ⟨element, pushed, inner, hty, hpushed, hinner, -, rfl⟩ := forIn_eq_ok hdone
  have hafter : state.layout.After 1 pushed.state.layout :=
    (iter.yields_value hstart.wellFormed (.refl _) none).of_ok hpushed
  show Concurs _ (I.run (pushed.code ++ [.iter inner.code]) s) _
  rw [run_append]
  refine ((hiter σ).value (t := []) hreads (.refl _) hpushed).bind fun s' v hs' => ?_
  obtain ⟨_, rfl, -, hfound, rfl, hsuits⟩ := hs'
  rw [Except.ok.inj (hfound.symm.trans hty)] at hsuits
  have htyped := hsuits.typed
  rw [Has, Datum.IsOf] at htyped
  obtain ⟨items, hitems, hall⟩ := htyped
  have hknown := hsuits.known
  rw [Ty.hasUnknown] at hknown
  -- an element is taken apart by the type of the elements of the list
  have htag (item : Datum α) : Val.Tagged ⟨v.ty.element, item⟩ element := by
    refine (hsuits.tagged hty).imp (fun hflat => ?_) fun heq => ?_
    · rwa [Ty.isFlat] at hflat
    · show v.ty.element = element
      rw [heq, Ty.element]
  rw [run_singleton, hitems]
  simp only [List.cons_append, List.nil_append, step]
  refine (concurs_rounds (fun {item s σ} hitem hreads => ?_) hall hreads).mono fun s' σ' h => ?_
  · exact concurs_round hplain hknown hbody hbalance hstart hafter hinner
      (v := ⟨v.ty.element, item⟩) hitem (htag item) hreads
  · exact ⟨h.reads.of_after (hafter.atDepth rfl), h.frame, h.hidden⟩

end Gen

/-! ## The recursion over statements -/

namespace Stmt

mutual

/-- A statement of the core language does not call `now` on a value. -/
theorem asksClass_of_isCore (records : Records) : ∀ {s : Stmt}, s.isCore records = true →
    s.asksClass true = true
  | .expr line value, hcore => by
    rw [isCore] at hcore
    rw [asksClass]
    unfold Expr.asksClass
    split <;> simp_all [Expr.isCore]
  | .ifElse _ test body orelse, hcore => by
    rw [isCore, Bool.and_eq_true, Bool.and_eq_true] at hcore
    rw [asksClass, Bool.and_eq_true]
    exact ⟨allAskClass_of_areCore records hcore.1.2, allAskClass_of_areCore records hcore.2⟩
  | .forIn _ target iter body, hcore => by
    rw [isCore, Bool.and_eq_true] at hcore
    rw [asksClass, Bool.true_or]
    exact allAskClass_of_areCore records hcore.2
  | .function _ _ _ _ _, hcore => by simp [isCore] at hcore
  | .classDef _ _ _ _ _, _ | .assign _ _ _, _ | .annotated _ _ _ _, _ | .augmented _ _ _ _, _
  | .raise _ _, _ | .ret _ _, _ | .imports _ _, _ | .pass _, _ => by simp [asksClass]

theorem allAskClass_of_areCore (records : Records) : ∀ {body : List Stmt},
    areCore records body = true → allAskClass true body = true
  | [], _ => rfl
  | s :: rest, hcore => by
    rw [areCore, Bool.and_eq_true] at hcore
    rw [allAskClass, Bool.and_eq_true, Bool.true_or]
    exact ⟨asksClass_of_isCore records hcore.1, allAskClass_of_areCore records hcore.2⟩

end

mutual

/-- Every statement of the core language does what it means. -/
theorem simulates (I : Interpretation α) (config : Config) : ∀ {s : Stmt},
    s.isCore config.records = true → Simulates I config (compileStmt s) (I.exec config.records s)
  | .assign line target value, hcore => by
    cases target with
    | name nameLine name =>
      rw [isCore, Bool.and_eq_true] at hcore
      simp only [compileStmt]
      exact (simulates_assign hcore.1 fun σ => Expr.faithful I config σ hcore.2).seen
        fun σ => by rw [exec]
    | _ => simp [isCore] at hcore
  | .annotated line target declared (some value), hcore => by
    cases target with
    | name nameLine name =>
      rw [isCore, Bool.and_eq_true] at hcore
      simp only [compileStmt]
      exact (simulates_annotated hcore.1 fun σ => Expr.faithful I config σ hcore.2).seen
        fun σ => by unfold exec; rfl
    | _ => simp [isCore] at hcore
  | .expr line value, hcore => by
    rw [isCore] at hcore
    simp only [compileStmt]
    exact (simulates_evaluate fun σ => Expr.faithful I config σ hcore).seen fun σ => by rw [exec]
  | .ifElse line test body orelse, hcore => by
    rw [isCore, Bool.and_eq_true, Bool.and_eq_true] at hcore
    obtain ⟨⟨htest, hbody⟩, horelse⟩ := hcore
    simp only [compileStmt]
    exact (simulates_ifElse (fun σ => Expr.faithful I config σ htest) (allSimulate I config hbody)
      (allSimulate I config horelse) (allBalance (allAskClass_of_areCore _ hbody))
      (allBalance (allAskClass_of_areCore _ horelse))).seen fun σ => by rw [exec]; rfl
  | .forIn line target iter body, hcore => by
    rw [isCore, Bool.and_eq_true, Bool.and_eq_true] at hcore
    obtain ⟨⟨htarget, hiter⟩, hbody⟩ := hcore
    simp only [compileStmt]
    refine (simulates_forIn htarget (fun σ => Expr.faithful I config σ hiter)
      (allSimulate I config hbody) (allBalance (allAskClass_of_areCore _ hbody))).seen fun σ => ?_
    simp only [execBlock, bind_assoc, pure_eq_ends, ends_bind]
    unfold exec
    rfl
  | .raise line (some value), hcore => by
    rw [isCore] at hcore
    simp only [compileStmt]
    exact (simulates_raise hcore).seen fun σ => by rw [exec]
  | .pass line, _ => by
    intro state done s σ hstart hreads hdone
    rw [compileStmt, seen_apply] at hdone
    cases hdone
    rw [exec]
    show Concurs _ (I.run [] s) _
    rw [run_nil]
    refine .ends ?_
    show Carries I config.records state.layout (state.seeing line).layout s s σ σ
    rw [state.layout_seeing]
    exact .refl hreads
  | .annotated _ target _ none, hcore => by cases target <;> simp [isCore] at hcore
  | .function _ _ _ _ _, hcore | .classDef _ _ _ _ _, hcore | .augmented _ _ _ _, hcore
  | .raise _ none, hcore | .ret _ _, hcore | .imports _ _, hcore => by simp [isCore] at hcore

/-- Every statement of a block does what it means. -/
theorem allSimulate (I : Interpretation α) (config : Config) : ∀ {body : List Stmt},
    areCore config.records body = true → AllSimulate I config body
  | [], _ => List.forall_mem_nil _
  | s :: rest, hcore => by
    rw [areCore, Bool.and_eq_true] at hcore
    exact List.forall_mem_cons.mpr ⟨simulates I config hcore.1, allSimulate I config hcore.2⟩

end

end Stmt

end Covenant
