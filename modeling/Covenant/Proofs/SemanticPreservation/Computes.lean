import Covenant.Proofs.Evaluation
import Covenant.Proofs.Gen.Rules
import Covenant.Proofs.Typing.Stable

/-!
# Covenant — what the code of a step computes

A stack and a store say the same about the variables if every variable of the layout has its value at
its slot (`Reads`). Variables that are shadowed are not in the store; only their types are known.

`Gen.Computes I config l s before step x post` compares a step with a computation `x` of the
evaluator. If the step succeeds on top of layout `l`, whose cells are `s`, then its code, run on
`before ++ s`, aborts exactly if `x` does, with the same value. Otherwise both end, and the cells that
the code leaves on top of `s` and the result of `x` are as `post` says. Neither gets stuck.

A sequence of steps computes what the sequence of their computations does (`Computes.bind`), so the
code of an expression is compared with its evaluation part by part.
-/

namespace Covenant

open Interpretation

/-! ## Types of values -/

/-- Values of the type are not taken apart, but for lists of them. -/
def Ty.isFlat : Ty → Bool
  | .list element => element.isFlat
  | .record _ _ | .map _ _ _ | .lambda _ _ => false
  | _ => true

namespace Val

variable {α : Type}

/-- The type of the value serves to take it apart like one of the given type. -/
def Tagged (v : Val α) (ty : Ty) : Prop := ty.isFlat = true ∨ v.ty = ty

theorem Tagged.eq {v : Val α} {ty : Ty} (h : v.Tagged ty) (hty : ty.isFlat = false) : v.ty = ty :=
  h.resolve_left (by simp [hty])

end Val

/-! ## Stores and stacks -/

namespace Interpretation

variable {α : Type} (I : Interpretation α)

/-- The cell has a value of the type, which is that of the variable, unless it is hidden. -/
def Represents (σ : Store α) (name : Ident) (ty : Ty) (d : Datum α) : Prop :=
  I.Has ty d ∧ (Ident.isPlain name = true → ∃ v, σ name = some v ∧ v.datum = d ∧ v.Tagged ty)

/-- Notes have no effect when they are run. -/
theorem run_notes (config : Gen.Config) (n : Note) (s : List (Datum α)) :
    I.run (config.notes n) s = .ends s := by
  unfold Gen.Config.notes
  split
  · rw [run_singleton, step]
  · exact run_nil s

end Interpretation

/-- What code can rely on: settled records, a well-formed layout with settled types, and a stack and a
store with the variables of the layout. -/
structure Reads {α : Type} (I : Interpretation α) (records : Records) (l : Layout)
    (s : List (Datum α)) (σ : Store α) : Prop where
  records : records.Settled
  wellFormed : l.WellFormed
  known : ∀ {name : Ident} {c : Cell}, l.cell? name = some c → c.ty.hasUnknown = false
  holds : l.Holds (I.Represents σ) s
  unbound : ∀ {name : Ident}, Ident.isPlain name = true → l.cell? name = none → σ name = none

namespace Reads

variable {α : Type} {I : Interpretation α} {records : Records} {l l' : Layout}
  {s t : List (Datum α)} {σ : Store α}

/-- Intermediate values leave the variables where they are. -/
theorem above (h : Reads I records l s σ) (hafter : l.After t.length l') :
    Reads I records l' (t ++ s) σ where
  records := h.records
  wellFormed := hafter.wellFormed h.wellFormed
  known hc := h.known (hafter.keeps.cells _ ▸ hc)
  holds := h.holds.above h.wellFormed hafter.keeps hafter.depth
  unbound hplain hc := h.unbound hplain (hafter.keeps.cells _ ▸ hc)

/-- A variable has the value at its slot. -/
theorem exists_val (h : Reads I records l s σ) {name : Ident} (hplain : Ident.isPlain name = true)
    {c : Cell} (hc : l.cell? name = some c) :
    ∃ v, σ name = some v ∧ Stack.atSlot s c.slot = some v.datum ∧ I.Has c.ty v.datum ∧
      v.Tagged c.ty := by
  obtain ⟨d, hd, htyped, hval⟩ := h.holds.cells hc
  obtain ⟨v, hv, rfl, htag⟩ := hval hplain
  exact ⟨v, hv, hd, htyped, htag⟩

/-- The store has the variables of the layout and no others. -/
theorem isSome_eq_binds (h : Reads I records l s σ) {name : Ident}
    (hplain : Ident.isPlain name = true) : (σ name).isSome = l.binds name := by
  cases hbound : l.binds name with
  | false => rw [h.unbound hplain (Layout.cell?_of_unbound hbound), Option.isSome_none]
  | true =>
    obtain ⟨c, hc⟩ := h.wellFormed.cell?_of_binds hbound
    obtain ⟨v, hv, -⟩ := h.exists_val hplain hc
    rw [hv, Option.isSome_some]

end Reads

/-! ## Steps -/

namespace Gen

open Outcome

variable {α β γ δ ε : Type} {I : Interpretation α} {config : Config} {l : Layout}
  {s t : List (Datum α)} {line : Nat} {cause : Cause} {c : Prop}

/-- The code of the step, if it succeeds, computes on top of a layout what `x` does. -/
def Computes (I : Interpretation α) (config : Config) (l : Layout) (s before : List (Datum α))
    (step : Gen β) (x : Outcome α γ) (post : β → List (Datum α) → γ → Prop) : Prop :=
  ∀ ⦃state : State⦄ ⦃done : Step β⦄, l.After before.length state.layout →
    step config state = .ok done →
    Concurs (fun s' c => ∃ t, s' = t ++ s ∧ l.After t.length done.state.layout ∧ post done.result t c)
      (I.run done.code (before ++ s)) x

variable {step : Gen β} {next : β → Gen δ} {x : Outcome α γ} {f : γ → Outcome α ε}
  {P P' : β → List (Datum α) → γ → Prop} {Q : δ → List (Datum α) → ε → Prop}

theorem Computes.mono (h : Computes I config l s t step x P) (hpost : ∀ b u c, P b u c → P' b u c) :
    Computes I config l s t step x P' := by
  intro state done hafter hdone
  refine (h hafter hdone).mono fun s' c hs' => ?_
  obtain ⟨u, hu, hend, hP⟩ := hs'
  exact ⟨u, hu, hend, hpost _ u c hP⟩

/-- The result that the cells are compared with is what the computation ends with. -/
theorem Computes.and_ends (h : Computes I config l s t step x P) :
    Computes I config l s t step x fun b u c => P b u c ∧ x = .ends c := by
  intro state done hafter hdone
  have hboth := h hafter hdone
  generalize I.run done.code (t ++ s) = y at hboth ⊢
  cases hboth with
  | aborts v => exact .aborts v
  | ends hpost =>
    obtain ⟨u, hu, hend, hP⟩ := hpost
    exact .ends ⟨u, hu, hend, hP, rfl⟩

/-- A sequence of steps computes what the sequence of computations does. -/
theorem Computes.bind (h : Computes I config l s t step x P)
    (hnext : ∀ b u c, P b u c → Computes I config l s u (next b) (f c) Q) :
    Computes I config l s t (step >>= next) (x >>= f) Q := by
  intro state done hafter hdone
  obtain ⟨first, last, hfirst, hlast, rfl⟩ := bind_eq_ok_iff.mp hdone
  show Concurs _ (I.run (first.code ++ last.code) (t ++ s)) _
  rw [run_append]
  refine (h hafter hfirst).bind fun s' c hs' => ?_
  obtain ⟨u, rfl, hmiddle, hP⟩ := hs'
  exact hnext _ u c hP hmiddle hlast

/-- The result of a computation is put into another form. -/
theorem Computes.map {P : β → List (Datum α) → ε → Prop} {g : γ → ε}
    (h : Computes I config l s t step x fun b u c => P b u (g c)) :
    Computes I config l s t step (x >>= fun c => .ends (g c)) P := by
  intro state done hafter hdone
  have hboth := h hafter hdone
  generalize I.run done.code (t ++ s) = y at hboth ⊢
  cases hboth with
  | aborts v => exact .aborts v
  | ends hpost => exact .ends hpost

/-- A sequence in which the code does nothing for the second computation. -/
theorem Computes.then_pure {P : β → List (Datum α) → γ → Prop} {next : β → Gen δ}
    (h : Computes I config l s t step x P) {Q : δ → List (Datum α) → γ → Prop}
    (hnext : ∀ b u c, P b u c → Computes I config l s u (next b) (.ends c) Q) :
    Computes I config l s t (step >>= next) x Q := by
  have hbind := h.bind (f := Outcome.ends) hnext
  have hid : (x >>= Outcome.ends) = x := bind_pure x
  rwa [hid] at hbind

/-- A sequence that starts with code that no computation stands for. -/
theorem Computes.prepare {P : β → List (Datum α) → Unit → Prop} {y : Outcome α ε}
    (h : Computes I config l s t step (.ends ()) P)
    (hnext : ∀ b u, P b u () → Computes I config l s u (next b) y Q) :
    Computes I config l s t (step >>= next) y Q :=
  h.bind (f := fun _ => y) fun b u _ hP => hnext b u hP

theorem Computes.ite {step' : Gen β} [Decidable c] (h : c → Computes I config l s t step x P)
    (h' : ¬c → Computes I config l s t step' x P) :
    Computes I config l s t (if c then step else step') x P := by
  split
  · next hc => exact h hc
  · next hc => exact h' hc

theorem computes_pure {b : β} {c : γ} (h : P b t c) :
    Computes I config l s t (pure b) (.ends c) P := by
  intro state done hafter hdone
  cases hdone
  show Concurs _ (I.run [] (t ++ s)) _
  rw [run_nil]
  exact .ends ⟨t, rfl, hafter, h⟩

/-! ## Failure -/

/-- Where the generator gives up there is no code to compare. -/
theorem computes_defect {d : Defect} : Computes I config l s t (defect d) x P :=
  fun _ _ _ hdone => absurd hdone defect_ne_ok

theorem computes_unless [Decidable c] {next : Unit → Gen β}
    (h : c → Computes I config l s t (next ()) x P) :
    Computes I config l s t (if c then next () else failAt line cause >>= next) x P :=
  .ite h fun _ _ _ _ hdone => absurd hdone failAt_bind_ne_ok

theorem computes_when [Decidable c] {next : Unit → Gen β}
    (h : ¬c → Computes I config l s t (next ()) x P) :
    Computes I config l s t (if c then failAt line cause >>= next else next ()) x P :=
  .ite (fun _ _ _ _ hdone => absurd hdone failAt_bind_ne_ok) h

/-! ## Questions -/

theorem computes_layout_bind {next : Layout → Gen β}
    (h : ∀ l', l.Keeps l' → Computes I config l s t (next l') x P) :
    Computes I config l s t (layout >>= next) x P := by
  intro state done hafter hdone
  rw [layout_bind] at hdone
  exact h _ hafter.keeps hafter hdone

theorem computes_scope_bind {next : Scope → Gen β}
    (h : ∀ l', l.Keeps l' → Computes I config l s t (next ⟨config.records, l'⟩) x P) :
    Computes I config l s t (scope >>= next) x P := by
  intro state done hafter hdone
  rw [scope_bind] at hdone
  exact h _ hafter.keeps hafter hdone

theorem computes_seen_bind {next : Unit → Gen β} (h : Computes I config l s t (next ()) x P) :
    Computes I config l s t (seen line >>= next) x P := by
  intro state done hafter hdone
  rw [seen_bind] at hdone
  exact h (by rw [state.layout_seeing]; exact hafter) hdone

/-- What follows a question about types may rely on the answer. -/
theorem computes_typed_bind {outcome : Typed δ} {next : δ → Gen β}
    (h : ∀ a, outcome = .ok a → Computes I config l s t (next a) x P) :
    Computes I config l s t (typed outcome >>= next) x P := by
  intro state done hafter hdone
  obtain ⟨a, ha, hdone⟩ := typed_bind_eq_ok_iff.mp hdone
  exact h a ha hafter hdone

/-- Types do not depend on the values on top. -/
theorem computes_typeOf_bind {e : Expr} {expected : Option Ty} {next : Ty → Gen β}
    (h : ∀ ty, Covenant.typeOf ⟨config.records, l⟩ e expected = .ok ty →
      Computes I config l s t (next ty) x P) :
    Computes I config l s t (typeOf e expected >>= next) x P := by
  intro state done hafter hdone
  obtain ⟨ty, hty, hdone⟩ := typeOf_bind_eq_ok_iff.mp hdone
  rw [typeOf_of_alike hafter.keeps.alike] at hty
  exact h ty hty hafter hdone

/-! ## Code -/

theorem computes_annotate_bind {n : Note} {next : Unit → Gen β}
    (h : Computes I config l s t (next ()) x P) :
    Computes I config l s t (annotate n >>= next) x P := by
  intro state done hafter hdone
  obtain ⟨rest, hrest, rfl⟩ := annotate_bind_eq_ok_iff.mp hdone
  show Concurs _ (I.run (config.notes n ++ rest.code) (t ++ s)) _
  rw [run_append, run_notes, Outcome.ends_bind]
  exact h hafter hrest

variable {P : Unit → List (Datum α) → γ → Prop}

/-- A primitive replaces its arguments by its result. -/
theorem computes_apply {p : Prim} (args : List (Datum α)) {t : List (Datum α)}
    (hargs : args.length = p.arity)
    (h : Concurs (fun d c => P () (d :: t) c) (I.prim p args) x) :
    Computes I config l s (args ++ t) (apply p) x P := by
  intro state done hafter hdone
  obtain ⟨harity, rfl⟩ := apply_eq_ok_iff.mp hdone
  have hdepth := hafter.depth
  rw [List.length_append] at hdepth
  show Concurs _ (I.run [.prim p] (args ++ t ++ s)) _
  rw [run_singleton, List.append_assoc, step_prim args hargs]
  have hend (d : Datum α) : l.After (d :: t).length
      (state.layout.atDepth (state.layout.depth - p.arity + 1)) :=
    hafter.atDepth (by rw [List.length_cons]; omega)
  generalize I.prim p args = y at h ⊢
  cases h with
  | aborts v => exact .aborts v
  | @ends d c hd => exact .ends ⟨d :: t, rfl, hend d, hd⟩

/-- A primitive that no computation stands for, and what comes after it. -/
theorem computes_apply_bind {p : Prim} (args : List (Datum α)) {t : List (Datum α)} {d : Datum α}
    (hargs : args.length = p.arity) (hd : I.prim p args = .ends d) {next : Unit → Gen β}
    {P : β → List (Datum α) → γ → Prop} (h : Computes I config l s (d :: t) (next ()) x P) :
    Computes I config l s (args ++ t) (apply p >>= next) x P := by
  have happly : Computes I config l s (args ++ t) (apply p) (.ends ()) fun _ u _ => u = d :: t :=
    computes_apply args hargs (by rw [hd]; exact .ends rfl)
  exact happly.prepare fun _ _ hu => hu ▸ h

/-- An instruction that leaves as many cells as before. -/
theorem computes_emit {i : Instr} {t : List (Datum α)}
    (h : Concurs (fun s' c => ∃ u, s' = u ++ s ∧ u.length = t.length ∧ P () u c)
      (I.step i (t ++ s)) x) :
    Computes I config l s t (emit i) x P := by
  intro state done hafter hdone
  obtain rfl := emit_eq_ok_iff.mp hdone
  show Concurs _ (I.run [i] (t ++ s)) _
  rw [run_singleton]
  refine h.mono fun s' c hs' => ?_
  obtain ⟨u, hu, hlength, hP⟩ := hs'
  exact ⟨u, hu, hlength ▸ hafter, hP⟩

/-- The value of an option, or an abort with a message. -/
theorem computes_unwrapOr (message : String) {found : Option (Datum α)} {t : List (Datum α)}
    (h : Concurs (fun d c => P () (d :: t) c)
      (match found with
        | some d => .ends d
        | none => .aborts (.string message)) x) :
    Computes I config l s (.ofOption found :: t) (emit (unwrapOr message)) x P := by
  refine computes_emit ?_
  rw [List.cons_append, step_unwrapOr]
  cases found with
  | none =>
    cases h
    exact .aborts _
  | some d =>
    cases h with
    | ends hd => exact .ends ⟨d :: t, rfl, by simp, hd⟩

/-! ## Named cells -/

/-- A variable is copied from its slot to the top. -/
theorem computes_fetch (hl : l.WellFormed) (hlength : s.length = l.depth) {name : Ident} {c : Cell}
    (hc : l.cell? name = some c) {d : Datum α} (hd : Stack.atSlot s c.slot = some d) {r : γ}
    (hpost : P () (d :: t) r) : Computes I config l s t (fetch name) (.ends r) P := by
  intro state done hafter hdone
  obtain ⟨slot, hslot, -, rfl⟩ := fetch_eq_ok_iff.mp hdone
  have hhere := Layout.slot?_of_cell? ((hafter.keeps.cells name).trans hc)
  obtain rfl := Option.some.inj (hslot.symm.trans hhere)
  have hdepth := hafter.depth
  have hbelow := hl.below hc
  -- the operand of `DUP` counts from the top, slots count from the bottom
  have hcopy := step_dup_atSlot (I := I) hd (by omega) t
  rw [hlength, ← hdepth] at hcopy
  show Concurs _ (I.run (config.notes _ ++ [.dup (state.layout.depth - c.slot)]) (t ++ s)) _
  rw [run_append, run_notes, Outcome.ends_bind,
    run_singleton, hcopy]
  exact .ends ⟨d :: t, rfl, hafter.atDepth (by rw [List.length_cons]; omega), hpost⟩

/-- The top cell takes the place of a variable. -/
theorem run_replace (hl : l.WellFormed) (hlength : s.length = l.depth) {name : Ident} {c : Cell}
    (hc : l.cell? name = some c) {state : State} {done : Step Unit}
    (hafter : l.After 1 state.layout) (hdone : replace name config state = .ok done)
    (d : Datum α) :
    done.state.layout = state.layout.settled name c ∧ l.After 0 done.state.layout ∧
      I.run done.code (d :: s) = .ends (s.set (state.layout.depth - 2 - c.slot) d) := by
  obtain ⟨c', hc', -, rfl⟩ := replace_eq_ok_iff.mp hdone
  obtain rfl : c' = c := Option.some.inj (hc'.symm.trans ((hafter.keeps.cells name).trans hc))
  have hdepth := hafter.depth
  have hbelow := hl.below hc
  refine ⟨rfl, hafter.settled hl hc', ?_⟩
  show I.run (config.notes _ ++ Layout.settleCode (state.layout.depth - 2 - c'.slot)) _ = _
  rw [run_append, run_notes, Outcome.ends_bind,
    run_settleCode (by omega)]

end Gen

end Covenant
