import Covenant.Proofs.Frame

/-!
# Covenant — calls by keyword

The argument of a closure may be given by keyword if the layout has a formal argument under the name
that is called. Such names are kept beside the cells, so the question is what they say about the
cell that the name stands for. `keyword_calls` answers it for every point that a run comes to.

A run takes a stack from point to point of the compiler (`Gen.Leads`, `Module.Visits`). The formal
argument of a name goes back to a definition that the run has come past, whose closure is still in
the cell of the name as long as the name has not got lost (`Module.Introduced`): by an assignment,
which leaves the formal argument as it was, or in the body of a function, which starts from a stack
of its own but with the formal arguments of what is around it. Hiding a variable hides its formal
argument as well, so a loop takes no part in this.
-/

namespace Covenant

open Ending Stack Code Layout

/-! ## Formal arguments of a layout -/

namespace Layout

variable {l l' l'' : Layout} {name f : Ident}

/-- A name that is bound stays bound. A formal argument that the later layout has for it was there
before, and then it is the same variable. -/
structure HandsOn (l l' : Layout) (f : Ident) : Prop where
  binds : l.binds f = true → l'.binds f = true
  formals : l'.formals.get? f ≠ none → l'.formals.get? f = l.formals.get? f
  slot : l'.formals.get? f ≠ none → l.binds f = true → l'.slot? f = l.slot? f

theorem Keeps.handsOn (h : l.Keeps l') (f : Ident) : l.HandsOn l' f :=
  ⟨(h.binds f).trans, fun _ => h.formals f, fun _ _ => h.slots f⟩

theorem HandsOn.of_keeps (h : l'.HandsOn l'' f) (hkeeps : l.Keeps l') : l.HandsOn l'' f where
  binds hbound := h.binds ((hkeeps.binds f).trans hbound)
  formals hlater := (h.formals hlater).trans (hkeeps.formals f)
  slot hlater hbound := (h.slot hlater ((hkeeps.binds f).trans hbound)).trans (hkeeps.slots f)

theorem WellFormed.not_touches (hl : l.WellFormed) {slot : Nat} (hslot : l.slot? f = some slot)
    {names : List Ident} (hf : f ∉ names) : ¬l.Touches names slot := by
  rintro ⟨name, hname, hslot'⟩
  exact hf (hl.slots_distinct hslot' hslot ▸ hname)

/-- A hidden variable takes its formal argument along. -/
theorem formals_hide (hf : '@' ∉ f.toList) :
    (l.hide name).formals.get? f =
      if f = name ∧ l.binds name = true then none else l.formals.get? f := by
  cases hslot : l.slot? name with
  | none =>
    have hfree := slot?_eq_none_iff.mp hslot
    rw [hide_of_unbound hfree, hfree, if_neg (by simp)]
  | some slot =>
    have hne : f ≠ hiddenName name slot := (hiddenName_ne hf).symm
    have hmoved : (l.hide name).formals = move l.formals name (hiddenName name slot) := by
      rw [hide, hslot]
      rfl
    rw [hmoved, get?_move, if_neg hne, binds_iff.mpr ⟨slot, hslot⟩]
    by_cases hname : f = name
    · cases hformals : l.formals.get? name <;> simp [hname, hformals]
    · simp [hname]

theorem handsOn_of_bind {ty : Ty} (hf : '@' ∉ f.toList) (h : l.bind name ty = .ok l') :
    l.HandsOn l' f := by
  have hformals : l'.formals.get? f =
      if f = name ∧ l.binds name = true then none else l.formals.get? f := by
    obtain ⟨-, rfl⟩ := bind_eq_ok_iff.mp h
    exact formals_hide hf
  refine ⟨binds_of_bind h hf, fun hlater => ?_, fun hlater hbound => ?_⟩
  · rw [hformals] at hlater ⊢
    split at hlater
    · exact absurd rfl hlater
    · next hother => exact if_neg hother
  · have hne : f ≠ name := fun heq => hlater (by rw [hformals, if_pos ⟨heq, heq ▸ hbound⟩])
    rw [slot?_bind h hf, if_neg hne]

end Layout

namespace Gen

/-- Only definitions give a name a formal argument, the one that they have. -/
theorem formals_of_compileStmt {s : Stmt} {config : Config} {state : State} {done : Step Unit}
    (hl : state.layout.WellFormed) (h : compileStmt s config state = .ok done) (f : Ident) :
    done.state.layout.formals.get? f = state.layout.formals.get? f ∨
      ∃ line param returns body, s = .function line f [param] returns body ∧
        done.state.layout.formals.get? f = some [param.name] := by
  have hseen := state.layout_seeing s.line
  have hl : (state.seeing s.line).layout.WellFormed := hseen ▸ hl
  rw [← hseen]
  have hassign {names : List Ident} {l : Layout}
      (hdeclares : (state.seeing s.line).layout.Declares names l) :
      l.formals.get? f = (state.seeing s.line).layout.formals.get? f := by
    rcases hdeclares with hafter | ⟨name, -, ty, m, hafter, hfresh, hbind⟩
    · exact hafter.keeps.formals f
    · obtain ⟨-, rfl⟩ := Layout.bind_eq_ok_iff.mp hbind
      rw [Layout.hide_of_unbound ((hafter.keeps.binds name).trans hfresh)]
      exact hafter.keeps.formals f
  cases s <;> simp only [compileStmt, seen_bind] at h
  case function line name params returns body =>
    obtain ⟨param, paramExpr, result, argTy, resultTy, start, inner, bound, hfresh, rfl, -, -, -, -,
      -, -, -, hbound, rfl⟩ := function_eq_ok h
    obtain ⟨l, hbind, rfl⟩ := bindTop_eq_ok_iff.mp hbound
    have hunbound : (((state.seeing line).layout.push 1).setFormals name [param.name]).binds name =
        false := hfresh
    have hformals : l.formals.get? f = if f = name then some [param.name] else
        (state.seeing line).layout.formals.get? f := by
      obtain ⟨-, rfl⟩ := Layout.bind_eq_ok_iff.mp hbind
      rw [Layout.hide_of_unbound hunbound]
      exact Table.get?_insert ..
    split at hformals
    · next hf => exact .inr ⟨_, _, _, _, by rw [hf], hformals⟩
    · exact .inl hformals
  case assign target value => exact .inl (hassign ((yields_assign hl target none value).of_ok h))
  case annotated target written value =>
    cases value with
    | none => exact absurd h fail_ne_ok
    | some value => exact .inl (hassign ((yields_assign hl target (some written) value).of_ok h))
  case expr value => exact .inl (((yields_evaluate hl value).of_ok h).1.formals f)
  case ifElse test body orelse =>
    obtain ⟨pushed, onTrue, onFalse, depth, -, hpushed, -, -, -, rfl⟩ := ifElse_eq_ok h
    have hafter := (test.yields_pushAs hl (.refl _) .bool).of_ok hpushed
    exact .inl (hafter.keeps.formals f)
  case forIn => exact .inl ((after_forIn hl h).keeps.formals f)
  case raise value => exact .inl (((yields_raise hl value).of_ok h).keeps.formals f)
  case ret value => exact .inl (((yields_ret hl value).of_ok h).1.formals f)
  case imports | pass =>
    rw [seen_apply] at h
    cases h
    exact .inl rfl
  case classDef =>
    rw [layout_bind] at h
    exact absurd h fail_ne_ok
  case augmented => exact absurd h defect_ne_ok

/-- A definition puts one more cell on top, and this is the cell of the name. -/
theorem slot?_of_function {line : Nat} {name : Ident} {params : List Param} {returns : Option Expr}
    {body : List Stmt} {config : Config} {state : State} {done : Step Unit}
    (h : compileStmt (.function line name params returns body) config state = .ok done) :
    state.layout.binds name = false ∧ done.state.layout.depth = state.layout.depth + 1 ∧
      done.state.layout.slot? name = some state.layout.depth := by
  simp only [compileStmt, seen_bind] at h
  rw [← state.layout_seeing line]
  obtain ⟨ty, formals, hfresh, hbind⟩ := function_layout h
  exact ⟨hfresh, depth_of_bind hbind, slot?_of_cell? (cell?_of_bind hbind)⟩

/-! ## From point to point with a stack -/

/-- `Past s done p q`: between the points a statement is passed. -/
inductive Past (s : Stmt) (done : Step Unit) : Point → Point → Prop
  | session {config state rest} (h : compileStmt s config (state.seeing s.line) = .ok done) :
    Past s done ⟨.session (s :: rest), config, state⟩ ⟨.session rest, config, done.state⟩
  | prologue {config state rest} (hs : s.isCode = true)
      (h : compileStmt s config (state.seeing s.line) = .ok done) :
    Past s done ⟨.prologue none (s :: rest), config, state⟩
      ⟨.prologue none rest, config, done.state⟩
  | body {config state rest outer} (h : compileStmt s config state = .ok done)
      (hgoes : diverges done.code = false) :
    Past s done ⟨.body (s :: rest) outer, config, state⟩ ⟨.body rest outer, config, done.state⟩

/-- The second task does not start from the cells of the first with more cells on top. -/
def Task.isApart : Task → Task → Bool
  | _, .closure _ _ | _, .entry _ | _, .epilogue | .records _ _, .prologue _ _
  | .members _ _, .expr _ _ => true
  | _, _ => false

variable {α : Type}

/-- `Leads M lost p q stack stack'`: with `stack` at `p`, a run may have `stack'` at `q`. The names
in `lost` may stand for something else then. What is on top of the old cells inside of a statement
is left open, and so are elements of lists, arguments and the storage. -/
inductive Leads (M : Machine α) : (Ident → Prop) → Point → Point → List α → List α → Prop
  | past {s done p q stack stack'} (h : Past s done p q)
      (hrun : M.run done.code stack = ends stack') :
    Leads M (· ∈ s.assigned p.state.layout.context) p q stack stack'
  | inside {p q stack} (h : Next p q) (hpast : ∀ s done, ¬Past s done p q)
      (hpart : p.task.isApart q.task = false) (top : List α)
      (hdepth : q.state.layout.depth = top.length + p.state.layout.depth) :
    Leads M (fun _ => False) p q stack (top ++ stack)
  /-- One round of a loop after another. -/
  | round {target element body config state done stack stack'}
      (h : (Task.loop target element body).run config state = .ok done)
      (hdepth : done.state.layout.depth + 1 = state.layout.depth)
      (hrun : M.run done.code stack = ends stack') (item : α) :
    Leads M (· ∈ Stmt.allAssigned state.layout.context body)
      ⟨.loop target element body, config, state⟩ ⟨.loop target element body, config, state⟩ stack
      (item :: stack')
  | closure {p param body config state stack} (h : Next p ⟨.closure param body, config, state⟩)
      (arg : α) :
    Leads M (fun _ => True) p ⟨.closure param body, config, state⟩ stack [arg]
  | afresh {p q context stack} (h : Next p q) (hempty : q.state.layout = .empty context) :
    Leads M (fun _ => True) p q stack []
  | entry {body method config} {state state' : State} {stack}
      (h : Next ⟨.members state.layout body, config, state⟩ ⟨.entry method, config, state'⟩)
      (param storage : α) :
    Leads M (· = storageName) ⟨.members state.layout body, config, state⟩
      ⟨.entry method, config, state'⟩ stack (param :: stack ++ [storage])

section

variable {M : Machine α} {lost : Ident → Prop} {s : Stmt} {done : Step Unit} {p q : Point}
  {stack stack' : List α} {f : Ident}

theorem Past.next (h : Past s done p q) : Next p q := by
  cases h with
  | session h => exact .sessionRest h
  | prologue hs h => exact .prologueRest hs h
  | body h hgoes => exact .bodyRest h hgoes

theorem Past.compiled (h : Past s done p q) : ∃ state, state.layout = p.state.layout ∧
    compileStmt s p.config state = .ok done ∧ q.state = done.state := by
  cases h with
  | session h | prologue _ h => exact ⟨_, State.layout_seeing .., h, rfl⟩
  | body h _ => exact ⟨_, rfl, h, rfl⟩

theorem Past.mem (h : Past s done p q) : s ∈ p.task.stmts := by
  cases h <;> simp [Task.stmts]

/-- A round of a loop retains what its body does not assign to. -/
theorem retains_loop {target : Ident} {element : Ty} {body : List Stmt} {config : Config}
    {state : State} (hp : (Point.mk (.loop target element body) config state).Formed)
    (hbody : ∀ s ∈ body, Plain s.occurrences)
    (hdepth : done.state.layout.depth + 1 = state.layout.depth)
    (h : (Task.loop target element body).run config state = .ok done) :
    Retains done.code state.layout.depth done.state.layout.depth
      (state.layout.Touches (Stmt.allAssigned state.layout.context body)) := by
  obtain ⟨hl, htop⟩ := hp
  rw [← hdepth]
  have hwf : (state.layout.atDepth done.state.layout.depth).WellFormed :=
    ⟨hl.nodup, hl.agrees,
      fun hslot => Nat.lt_of_add_lt_add_right (Nat.lt_of_lt_of_eq (htop hslot) hdepth.symm),
      hl.slots_distinct⟩
  have hafter : (state.layout.atDepth done.state.layout.depth).After 1 state.layout :=
    ⟨⟨fun _ => rfl, fun _ => rfl, hdepth ▸ Nat.le_succ _, fun _ => rfl, rfl, rfl, id⟩, hdepth.symm⟩
  have hconfined := confined_all body fun c => Stmt.plain_allAssigned hbody c
  exact retains_round (confined_block hconfined) (.fromHere (accounts_compileBody body))
    (fun _ _ _ hl hdone => (restores_block (declares_all body) hl hdone).1)
    (Stmt.plain_allAssigned hbody) hwf hafter h

/-- Inside of a statement names are what they were, or they are hidden together with their formal
arguments. -/
theorem Next.handsOn (h : Next p q) (hp : p.Formed) (hpast : ∀ s done, ¬Past s done p q)
    (hpart : p.task.isApart q.task = false) (hf : '@' ∉ f.toList) :
    p.state.layout.HandsOn q.state.layout f := by
  obtain ⟨hl, -⟩ := hp
  have hsame {l l' : Layout} (heq : l' = l) : l.HandsOn l' f :=
    heq ▸ (Keeps.refl l).handsOn f
  have hseen {state : State} (line : Nat) (hl : state.layout.WellFormed) :
      (state.seeing line).layout.WellFormed := state.layout_seeing line ▸ hl
  have hafter {state : State} {line n : Nat} {l : Layout}
      (hafter : (state.seeing line).layout.After n l) : state.layout.HandsOn l f :=
    state.layout_seeing line ▸ hafter.keeps.handsOn f
  cases h with
  | sessionRecord hs hdone | recordsRecord hs hdone =>
    exact hsame ((layout_of_recordClass hdone).trans (State.layout_seeing ..))
  | sessionStmt | prologueSkip | prologueStmt | firstExpr => exact hsame (State.layout_seeing ..)
  | recordsSkip | members | bodyStmt | closureBody => exact hsame rfl
  | sessionRest h => exact absurd (.session h) (hpast _ _)
  | prologueRest hs h => exact absurd (.prologue hs h) (hpast _ _)
  | bodyRest h hgoes => exact absurd (.body h hgoes) (hpast _ _)
  | prologue | deploy | entry | epilogue | closure => cases hpart
  | @entryBody config state method ready h =>
    unfold pending at h
    split at h
    · obtain ⟨room, bound, hroom, hbound, rfl⟩ := bind_eq_ok_iff.mp h
      obtain ⟨l, hbind, rfl⟩ := bindTop_eq_ok_iff.mp hbound
      have hkeeps := ((yields_apply_after 0 (.refl _) rfl).of_ok hroom).keeps
      exact (handsOn_of_bind hf hbind).of_keeps hkeeps
    · cases h
      exact hsame rfl
  | assigned hs hpath hstep h =>
    obtain ⟨n, hstacks⟩ := hstep.stacks hpath
    exact hafter (hstacks.after h)
  | operand hty hstep h =>
    obtain ⟨n, hstacks⟩ := hstep.stacks
    exact hafter (hstacks.after h)
  | @branch config state lineNo lineNo' test body orelse chosen pushed start hchosen h hstart =>
    have hpushed : (state.seeing lineNo).layout.After 1 pushed.state.layout :=
      (test.yields_pushAs (hseen _ hl) (.refl _) .bool).of_ok h
    obtain ⟨-, rfl⟩ := (Layout.pop_eq_ok_iff _).mp hstart
    have hdepth := hpushed.depth
    exact hafter (hpushed.atDepth (m := 0) (by omega))
  | @loop config state lineNo target iter body element pushed hty h =>
    exact hafter ((iter.yields_value (hseen _ hl) (.refl _) none).of_ok h)
  | loopBody h =>
    obtain ⟨l, hbind, rfl⟩ := bindTop_eq_ok_iff.mp h
    exact handsOn_of_bind hf hbind

/-- In an entrypoint the storage is beneath the module-level variables. -/
theorem find?_of_room {module start : Layout} {storageTy ty : Ty} {method name : Ident}
    (hf : '@' ∉ f.toList) (hstorage : f ≠ storageName)
    (h : (roomLayout module storageTy method).bind name ty = .ok start) {slot : Nat}
    (hslot : module.slot? f = some slot) (hbelow : slot < stack.length) (param storage : α) :
    start.binds f = true ∧ (start.formals.get? f ≠ none → module.formals.get? f ≠ none ∧
      start.find? (param :: stack ++ [storage]) f = atSlot stack slot) := by
  have hroom : (roomLayout module storageTy method).slot? f = some (slot + 1) := by
    rw [slot?_roomLayout, if_neg hstorage, hslot, Option.map_some]
  have hhands := handsOn_of_bind hf h
  have hbound := binds_iff.mpr ⟨_, hroom⟩
  refine ⟨hhands.binds hbound, fun hformals => ⟨hhands.formals hformals ▸ hformals, ?_⟩⟩
  rw [find?_of_slot _ ((hhands.slot hformals hbound).trans hroom), Nat.add_comm]
  exact (atSlot_length_add _ [storage] _).trans (atSlot_cons_of_lt param hbelow)

/-- A stack is as deep as the layout says. -/
theorem Leads.length (h : Leads M lost p q stack stack')
    (hstack : stack.length = p.state.layout.depth) : stack'.length = q.state.layout.depth := by
  cases h with
  | past h hrun =>
    obtain ⟨state, hstate, hdone, hq⟩ := h.compiled
    rw [hq]
    exact endsAt_of_balanced (accounts_compileStmt _ hdone) M (hstack.trans (hstate ▸ rfl)) hrun
  | inside h hpast hpart top hdepth => rw [List.length_append, hstack, hdepth]
  | @round target element body config state done _ stack' h hdepth hrun item =>
    have hbalanced : Depth.Balanced done.code state.layout.depth done.state.layout.depth :=
      ((exact_bindTop target element).accounts.bind fun _ =>
        .fromHere (accounts_compileBody body)).freeingAfter target h
    have hends := endsAt_of_balanced hbalanced M hstack hrun
    rw [List.length_cons, hends, hdepth]
  | closure h arg =>
    cases h with
    | closure hparam harg hresult hstart => exact (depth_of_bind hstart).symm
  | afresh h hempty => rw [hempty]; rfl
  | entry h param storage =>
    cases h with
    | entry hfound hinit hmethod hdeployed hparam hstart =>
      rw [depth_of_bind hstart]
      simp [hstack, entryLayout, Layout.push, Layout.shift, Layout.bindSlot]

end

end Gen

namespace Module

open Gen

variable {α : Type}

/-- The points that a run comes to, and the stack there. -/
inductive Visits (m : Module) (traced : Bool) (M : Machine α) : Point → List α → Prop
  | session :
    Visits m traced M ⟨.session m.desugar.body, ⟨.empty, traced⟩, ⟨.empty .module, 0⟩⟩ []
  | program :
    Visits m traced M
      ⟨.records m.desugar.body m.desugar.body, ⟨.empty, traced⟩, ⟨.empty .module, 0⟩⟩ []
  | next {lost p q stack stack'} (hp : Visits m traced M p stack)
      (h : Leads M lost p q stack stack') :
    Visits m traced M q stack'

/-- `Introduced m traced M f k v p stack`: on the way to `p`, a run comes past a definition of `f`
whose only argument is called `k`. If `f` has not been lost since, then `v` is what the definition
has left on top of the stack. -/
inductive Introduced (m : Module) (traced : Bool) (M : Machine α) (f k : Ident) :
    Option α → Point → List α → Prop
  | defined {p q stack rest line param returns body done v} (hp : m.Visits traced M p stack)
      (hpast : Past (.function line f [param] returns body) done p q) (hk : param.name = k)
      (hrun : M.run done.code stack = ends (v :: rest)) :
    Introduced m traced M f k (some v) q (v :: rest)
  | kept {lost p q stack stack' v} (hp : Introduced m traced M f k v p stack)
      (h : Leads M lost p q stack stack') (hf : ¬lost f) : Introduced m traced M f k v q stack'
  | lost {lost p q stack stack' v} (hp : Introduced m traced M f k v p stack)
      (h : Leads M lost p q stack stack') (hf : lost f) : Introduced m traced M f k none q stack'

variable {m : Module} {traced : Bool} {M : Machine α} {p : Point} {stack : List α} {f k : Ident}

theorem Visits.reaches (h : m.Visits traced M p stack) : m.Reaches traced p := by
  induction h with
  | session => exact .session
  | program => exact .program
  | next _ h ih =>
    cases h with
    | past h => exact ih.next h.next
    | inside h | closure h | afresh h | entry h => exact ih.next h
    | round => exact ih

theorem Visits.length (h : m.Visits traced M p stack) : stack.length = p.state.layout.depth := by
  induction h with
  | session | program => rfl
  | next _ h ih => exact h.length ih

theorem Introduced.visits {v : Option α} (h : m.Introduced traced M f k v p stack) :
    m.Visits traced M p stack := by
  induction h with
  | defined hp hpast hk hrun => exact hp.next (.past hpast hrun)
  | kept _ h _ ih | lost _ h _ ih => exact ih.next h

/-- A formal argument goes back to a definition. -/
theorem Visits.introduced (h : m.Visits traced M p stack) (hf : '@' ∉ f.toList)
    {formals : List Ident} (hformals : p.state.layout.formals.get? f = some formals) :
    ∃ k v, formals = [k] ∧ m.Introduced traced M f k v p stack := by
  induction h generalizing formals with
  | session | program => cases hformals
  | @next lost p q stack stack' hp h ih =>
    have hbefore (hformals : p.state.layout.formals.get? f = some formals) :
        ∃ k v, formals = [k] ∧ m.Introduced traced M f k v q stack' := by
      obtain ⟨k, v, hk, hintroduced⟩ := ih hformals
      by_cases hlost : lost f
      · exact ⟨k, none, hk, hintroduced.lost h hlost⟩
      · exact ⟨k, v, hk, hintroduced.kept h hlost⟩
    have hback {l : Layout} (h : l.HandsOn q.state.layout f)
        (hl : l.formals = p.state.layout.formals) :
        p.state.layout.formals.get? f = some formals := by
      rw [← hl, ← h.formals (by simp [hformals]), hformals]
    have hlength := h.length hp.length
    have hwf := hp.reaches.formed
    cases h with
    | @past s done _ _ _ _ hpast hrun =>
      obtain ⟨state, hstate, hdone, hq⟩ := hpast.compiled
      rw [hq] at hformals
      rcases formals_of_compileStmt (hstate ▸ hwf.wellFormed) hdone f with
        hsame | ⟨line, param, returns, body, rfl, hparam⟩
      · exact hbefore (hstate ▸ hsame ▸ hformals)
      · have hdepth := (slot?_of_function hdone).2.1
        rw [hq] at hlength
        match stack', hlength, hrun with
        | [], hlength, _ => exact absurd (hlength.trans hdepth) (by simp)
        | v :: rest, _, hrun =>
          cases hparam.symm.trans hformals
          exact ⟨_, some v, rfl, .defined hp hpast rfl hrun⟩
    | inside hnext hpast hpart => exact hbefore (hback (hnext.handsOn hwf hpast hpart hf) rfl)
    | round => exact hbefore hformals
    | closure hnext =>
      cases hnext with
      | closure _ _ _ hstart => exact hbefore (hback (handsOn_of_bind hf hstart) rfl)
    | afresh _ hempty =>
      rw [hempty] at hformals
      cases hformals
    | entry hnext =>
      cases hnext with
      | entry _ _ _ _ _ hstart => exact hbefore (hback (handsOn_of_bind hf hstart) rfl)

/-- What a definition has left on top of the stack stays in the cell of the name, until the name
gets lost or is hidden. -/
theorem Introduced.find? (hplain : Plain m.occurrences) (hf : '@' ∉ f.toList) {v : Option α} {c : α}
    (h : m.Introduced traced M f k v p stack) (hv : v = some c) :
    p.state.layout.binds f = true ∧
      (p.state.layout.formals.get? f ≠ none → p.state.layout.find? stack f = some c) := by
  induction h with
  | @defined p q stack rest line param returns body done v hp hpast hk hrun =>
    cases hv
    obtain ⟨state, hstate, hdone, hq⟩ := hpast.compiled
    obtain ⟨-, hdepth, hbound⟩ := slot?_of_function hdone
    have hlength := (Leads.past hpast hrun).length hp.length
    rw [hq] at hlength ⊢
    refine ⟨binds_iff.mpr ⟨_, hbound⟩, fun _ => ?_⟩
    have hslot : state.layout.depth = rest.length := by
      have := hlength.trans hdepth
      simpa using this.symm
    rw [find?_of_slot _ hbound, hslot, atSlot_cons_length]
  | lost => cases hv
  | @kept lost p q stack stack' v hp h hkept ih =>
    obtain ⟨hbound, hfound⟩ := ih hv
    obtain ⟨slot, hslot⟩ := binds_iff.mp hbound
    rw [find?_of_slot _ hslot] at hfound
    have hwf := hp.visits.reaches.formed
    have hlength := hp.visits.length
    have hbelow : slot < stack.length := hlength ▸ hwf.wellFormed.slots_below hslot
    have hnames := hp.visits.reaches.plain hplain
    cases h with
    | @past s done _ _ _ _ hpast hrun =>
      obtain ⟨state, hstate, hdone, hq⟩ := hpast.compiled
      rw [hq]
      rw [← hstate] at hslot hlength hfound hkept
      have hl : state.layout.WellFormed := hstate ▸ hwf.wellFormed
      have hsame := (grows_of_compileStmt hl hdone).extending.slots hslot
      refine ⟨binds_iff.mpr ⟨_, hsame⟩, fun hformals => ?_⟩
      have hretains := confined_compileStmt s (Stmt.plain_assigned (hnames s hpast.mem)) hl hdone
      rw [find?_of_slot _ hsame,
        hretains M hlength hrun _ (hl.slots_below hslot) (hl.not_touches hslot hkept)]
      rcases formals_of_compileStmt hl hdone f with hold | ⟨_, _, _, _, rfl, -⟩
      · exact hfound (hold ▸ hformals)
      · -- a name that is bound is not defined again
        exact absurd (binds_iff.mpr ⟨slot, hslot⟩) (by simp [(slot?_of_function hdone).1])
    | inside hnext hpast hpart top =>
      have hhands := hnext.handsOn hwf hpast hpart hf
      refine ⟨hhands.binds hbound, fun hformals => ?_⟩
      rw [find?_of_slot _ ((hhands.slot hformals hbound).trans hslot),
        atSlot_append top hbelow]
      exact hfound (hhands.formals hformals ▸ hformals)
    | @round target element body config state done _ stack' h hdepth hrun item =>
      refine ⟨hbound, fun hformals => ?_⟩
      have hretains := retains_loop hwf hnames hdepth h
      have htop : slot < done.state.layout.depth :=
        Nat.lt_of_add_lt_add_right (Nat.lt_of_lt_of_eq (hwf.ready hslot) hdepth.symm)
      have hends := (Leads.round h hdepth hrun item).length hlength
      rw [find?_of_slot _ hslot, atSlot_cons_of_lt item (by simp at hends; omega),
        hretains M hlength hrun _ htop (hwf.wellFormed.not_touches hslot hkept)]
      exact hfound hformals
    | closure | afresh => exact absurd trivial hkept
    | @entry body method config state state' _ hnext param storage =>
      cases hnext with
      | entry _ _ _ _ _ hstart =>
        obtain ⟨hbinds, hsame⟩ := find?_of_room hf hkept hstart hslot hbelow param storage
        refine ⟨hbinds, fun hformals => ?_⟩
        obtain ⟨hbefore, hfind⟩ := hsame hformals
        exact hfind.trans (hfound hbefore)

end Module

/-- `f(k=value)` -/
def Expr.callByKeyword (line nameLine : Nat) (f k : Ident) (value : Expr) : Expr :=
  .call line (.name nameLine f) [] [(k, value)]

section

variable {line nameLine : Nat} {f k : Ident} {value : Expr} {expected : Option Ty}
  {config : Gen.Config} {state : Gen.State} {done : Gen.Step Ty}

/-- A closure takes a keyword only if this is the formal argument under its name. -/
theorem formals_of_keyword (hbound : state.layout.binds f = true)
    (h : (Expr.callByKeyword line nameLine f k value).operand.compile expected config state =
      .ok done) : state.layout.formals.get? f = some [k] := by
  obtain ⟨ty, inner, -, hemit, -⟩ := Operand.compile_eq_ok_iff.mp h
  rw [← state.layout_seeing line] at hbound ⊢
  simp only [Expr.callByKeyword, Expr.operand, Expr.line, emitExpr, operands, keywordOperands,
    Gen.emitCall, Gen.scope_bind, Gen.typed_bind_eq_ok_iff] at hemit
  obtain ⟨callee, hcallee, hemit⟩ := hemit
  simp only [calleeOf, Callee.classify, hbound, if_true] at hcallee
  obtain ⟨arg, result, rfl, -⟩ := Callee.ofValue_eq_ok hcallee
  simp only [Gen.callClosure, Gen.layout_bind, Expr.name?, Option.bind_some] at hemit
  rcases hget : (state.seeing line).layout.formals.get? f with _ | ⟨_ | ⟨formal, _ | ⟨_, _⟩⟩⟩ <;>
    simp only [hget, Gen.failAt_ne_ok] at hemit
  by_cases hk : formal = k
  · rw [hk]
  · rw [if_neg hk] at hemit
    exact absurd hemit Gen.failAt_ne_ok

/-- Calls by keyword. Let a run of a module, whose names are plain, come to a call of a variable by
keyword, and let the call be accepted. Then the run has come past a definition of the variable whose
only argument has this name. And whichever definition it has come past, if the variable has not been
lost since, then in its cell is what that definition has left there. -/
theorem keyword_calls {m : Module} (hplain : ∀ o ∈ m.occurrences, '@' ∉ o.id.toList)
    {traced : Bool} {α : Type} {M : Machine α} {stack : List α}
    (hvisits : m.Visits traced M
      ⟨.expr (.callByKeyword line nameLine f k value) expected, config, state⟩ stack)
    (hf : '@' ∉ f.toList) (hbound : state.layout.binds f = true)
    (hdone : (Expr.callByKeyword line nameLine f k value).operand.compile expected config state =
      .ok done) :
    (∃ v, m.Introduced traced M f k v
      ⟨.expr (.callByKeyword line nameLine f k value) expected, config, state⟩ stack) ∧
    ∀ k' closure, m.Introduced traced M f k' (some closure)
      ⟨.expr (.callByKeyword line nameLine f k value) expected, config, state⟩ stack →
      state.layout.find? stack f = some closure := by
  have hformals := formals_of_keyword hbound hdone
  obtain ⟨k', v, hk, hintroduced⟩ := hvisits.introduced hf hformals
  obtain rfl : k = k' := by simpa using hk
  refine ⟨⟨v, hintroduced⟩, fun _ closure hclosure => ?_⟩
  exact (hclosure.find? hplain hf rfl).2 (by simp [hformals])

end

/-- `def f(k: int) -> int: return k` -/
def Stmt.echo : Stmt :=
  .function 1 "f" [⟨"k", some (.name 1 "int"), 1⟩] (some (.name 1 "int"))
    [.ret 2 (some (.name 2 "k"))]

/-- `f(k=1)` -/
def Expr.echoed (line : Nat) : Expr :=
  .callByKeyword line line "f" "k" (.literal line (.int 1))

/-- The call is compiled where the closure is on top of the stack. -/
theorem keyword_calls_echoed : ∃ (state : Gen.State) (done : Gen.Step Ty),
    Module.Visits ⟨[.echo, .expr 3 (.echoed 3)]⟩ false Machine.sums
      ⟨.expr (.echoed 3) none, ⟨.empty, false⟩, state⟩ [0] ∧ state.layout.binds "f" = true ∧
    (Expr.echoed 3).operand.compile none ⟨.empty, false⟩ state = .ok done ∧
    Module.Introduced ⟨[.echo, .expr 3 (.echoed 3)]⟩ false Machine.sums "f" "k" (some 0)
      ⟨.expr (.echoed 3) none, ⟨.empty, false⟩, state⟩ [0] ∧
    state.layout.find? [0] "f" = some (0 : Int) := by
  have hrun : ((compileStmt .echo ⟨.empty, false⟩
        (Gen.State.seeing ⟨.empty .module, 0⟩ 1)).toOption.bind fun first =>
      ((Expr.echoed 3).operand.compile none ⟨.empty, false⟩
        ((first.state.seeing 3).seeing 3)).toOption.map fun _ =>
          (Machine.sums.run first.code [], ((first.state.seeing 3).seeing 3).layout.binds "f")) =
      some (.ends [0], true) := by decide +kernel
  simp only [Option.bind_eq_some_iff, Option.map_eq_some_iff, Except.toOption_eq_some_iff] at hrun
  obtain ⟨first, hfirst, done, hdone, hends⟩ := hrun
  obtain ⟨hends, hbound⟩ := Prod.mk.inj hends
  have hdefined : Module.Introduced ⟨[.echo, .expr 3 (.echoed 3)]⟩ false Machine.sums "f" "k"
      (some 0) ⟨.session [.expr 3 (.echoed 3)], ⟨.empty, false⟩, first.state⟩ [0] :=
    .defined .session (.session hfirst) rfl hends
  have hstmt := hdefined.kept
    (.inside .sessionStmt (by rintro _ _ ⟨⟩) rfl [] (Nat.zero_add _).symm) id
  have hcall : Module.Introduced _ false Machine.sums "f" "k" (some 0)
      ⟨.expr (.echoed 3) none, _, _⟩ [0] :=
    hstmt.kept (.inside (.firstExpr (List.mem_singleton.mpr rfl)) (by rintro _ _ ⟨⟩) rfl []
      (Nat.zero_add _).symm) id
  obtain ⟨-, hfind⟩ := keyword_calls (by decide +kernel) hcall.visits (by decide) hbound hdone
  exact ⟨_, done, hcall.visits, hbound, hdone, hcall, hfind _ _ hcall⟩

/-- `def g(f: Callable[[int], int]) -> int: return f(k=1)` -/
def Stmt.applying : Stmt :=
  .function 3 "g" [⟨"f", some (.subscript 3 (.name 3 "Callable")
      (.tuple 3 [.list 3 [.name 3 "int"], .name 3 "int"])), 3⟩] (some (.name 3 "int"))
    [.ret 4 (some (.echoed 4))]

/-- A parameter may be called by keyword if a function around has its name, whatever it is called
with. -/
theorem keyword_of_another_function :
    (Module.compileStatements ⟨[.echo, .applying]⟩ false).toOption.isSome = true ∧
      (Module.compileStatements ⟨[.applying]⟩ false).toOption.isSome = false := by
  decide +kernel

end Covenant
