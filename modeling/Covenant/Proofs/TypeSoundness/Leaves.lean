import Covenant.Proofs.Gen.Rules
import Covenant.Proofs.Machine.Types
import Covenant.Proofs.Typing.Stable

/-!
# Covenant — the types that a step leaves on the stack

While an expression is compiled the variables stay where they are and intermediate values come and
go on top of them. So a step is described by the types of the intermediate values before and after
it: `Gen.Leaves config l s before step after` says that if the step succeeds on top of layout `l`,
whose cells have the types `s`, then its code takes the machine from `before ++ s` to a stack that
`after` describes, again on top of `s`.

The types `s` are those of the layout (`Ground`). A variable that gets a new value keeps its type, so
`s` never changes.
-/

namespace Covenant

open StackTy

/-! ## Code without closures -/

namespace StackTy

theorem run_notes (config : Gen.Config) (n : Note) (s : List StackTy) :
    run (config.notes n) s = some (.ends s) := by
  unfold Gen.Config.notes
  split
  · rw [run_singleton]
    rfl
  · exact run_nil s

/-- Notes have no closures in them. -/
theorem allClosuresTyped_notes (config : Gen.Config) (n : Note) : AllClosuresTyped (config.notes n) := by
  unfold Gen.Config.notes
  split
  · exact ⟨trivial, trivial⟩
  · trivial

theorem closuresTyped_dropAt (n : Nat) : ClosuresTyped (Layout.dropAt n) := by
  cases n <;> simp [Layout.dropAt, ClosuresTyped, AllClosuresTyped]

theorem allClosuresTyped_settleCode (jump : Nat) : AllClosuresTyped (Layout.settleCode jump) := by
  unfold Layout.settleCode
  split <;> simp [AllClosuresTyped, ClosuresTyped, closuresTyped_dropAt]

end StackTy

/-! ## Layouts and stacks of types -/

namespace Layout

/-- The types of all variables are settled, and the pending operations are a list of operations. -/
structure Settled (l : Layout) : Prop where
  known : ∀ {name : Ident} {c : Cell}, l.cell? name = some c → c.ty.hasUnknown = false
  operations : ∀ {c : Cell}, l.cell? operationsName = some c → c.ty = .list .operation

theorem Settled.of_keeps {l l' : Layout} (h : l.Settled) (hkeeps : l.Keeps l') : l'.Settled :=
  ⟨fun hc => h.known (hkeeps.cells _ ▸ hc), fun hc => h.operations (hkeeps.cells _ ▸ hc)⟩

/-- The stack has the types that the layout says. -/
def Matches (l : Layout) (s : List StackTy) : Prop := l.Holds (fun _ ty t => t = ty.stack) s

end Layout

/-- What an expression can rely on: settled records, and a well-formed layout with settled types that
the stack has. -/
structure Ground (config : Gen.Config) (l : Layout) (s : List StackTy) : Prop where
  records : config.records.Settled
  wellFormed : l.WellFormed
  settled : l.Settled
  holds : l.Matches s

namespace Ground

variable {config : Gen.Config} {l l' : Layout} {s t : List StackTy}

/-- Intermediate values leave the variables where they are. -/
theorem above (h : Ground config l s) (hafter : l.After t.length l') :
    Ground config l' (t ++ s) where
  records := h.records
  wellFormed := hafter.wellFormed h.wellFormed
  settled := h.settled.of_keeps hafter.keeps
  holds := h.holds.above h.wellFormed hafter.keeps hafter.depth

end Ground

namespace Gen

variable {α β : Type} {config : Config} {l : Layout} {s t : List StackTy} {cause : Cause}
  {line : Nat}

/-- What the step leaves on top of a layout, if it succeeds. -/
def Leaves (config : Config) (l : Layout) (s before : List StackTy) (step : Gen α)
    (after : α → List StackTy → Prop) : Prop :=
  ∀ ⦃state : State⦄ ⦃done : Step α⦄, l.After before.length state.layout →
    step config state = .ok done →
    ∃ t, after done.result t ∧ l.After t.length done.state.layout ∧
      StackTy.run done.code (before ++ s) = some (.ends (t ++ s)) ∧ AllClosuresTyped done.code

variable {step : Gen α} {next : α → Gen β} {P P' : α → List StackTy → Prop}
  {Q : β → List StackTy → Prop}

theorem Leaves.mono (h : Leaves config l s t step P) (hpost : ∀ a u, P a u → P' a u) :
    Leaves config l s t step P' := by
  intro state done hafter hdone
  obtain ⟨u, hu, hend, hrun, hclosures⟩ := h hafter hdone
  exact ⟨u, hpost _ u hu, hend, hrun, hclosures⟩

/-- A sequence goes on from what its first step leaves. -/
theorem Leaves.bind (h : Leaves config l s t step P)
    (hnext : ∀ a u, P a u → Leaves config l s u (next a) Q) :
    Leaves config l s t (step >>= next) Q := by
  intro state done hafter hdone
  obtain ⟨first, last, hfirst, hlast, rfl⟩ := bind_eq_ok_iff.mp hdone
  obtain ⟨u, hu, hmiddle, hrun, hclosures⟩ := h hafter hfirst
  obtain ⟨v, hv, hend, hrun', hclosures'⟩ := hnext _ u hu hmiddle hlast
  exact ⟨v, hv, hend, by rw [run_append_ends hrun, hrun'],
    allClosuresTyped_append.mpr ⟨hclosures, hclosures'⟩⟩

theorem Leaves.ite {step' : Gen α} {c : Prop} [Decidable c]
    (h : c → Leaves config l s t step P) (h' : ¬c → Leaves config l s t step' P) :
    Leaves config l s t (if c then step else step') P := by
  split
  · next hc => exact h hc
  · next hc => exact h' hc

/-- A step that emits nothing and leaves the layout alone. -/
theorem leaves_of_silent (h : ∀ {state : State} {done : Step α}, l.After t.length state.layout →
      step config state = .ok done → done.code = [] ∧ done.state.layout = state.layout ∧
        P done.result t) : Leaves config l s t step P := by
  intro state done hafter hdone
  obtain ⟨hcode, hlayout, hresult⟩ := h hafter hdone
  refine ⟨t, hresult, hlayout ▸ hafter, ?_, ?_⟩
  · rw [hcode, run_nil]
  · rw [hcode]
    trivial

theorem leaves_pure {a : α} (h : P a t) : Leaves config l s t (pure a) P :=
  leaves_of_silent fun _ hdone => by
    cases hdone
    exact ⟨rfl, rfl, h⟩

/-! ## Failure -/

theorem leaves_failAt : Leaves config l s t (failAt line cause) P :=
  fun _ _ _ hdone => absurd hdone failAt_ne_ok

/-! ## Questions -/

theorem leaves_layout_bind {next : Layout → Gen β}
    (h : ∀ l', l.Keeps l' → Leaves config l s t (next l') Q) :
    Leaves config l s t (layout >>= next) Q := by
  intro state done hafter hdone
  rw [layout_bind] at hdone
  exact h _ hafter.keeps hafter hdone

theorem leaves_depth_bind {next : Nat → Gen β}
    (h : Leaves config l s t (next (l.depth + t.length)) Q) :
    Leaves config l s t (depth >>= next) Q := by
  intro state done hafter hdone
  rw [depth_bind, hafter.depth] at hdone
  exact h hafter hdone

/-! ## Code -/

/-- A primitive replaces its arguments by its result. -/
theorem leaves_apply {p : Prim} (args : List StackTy) {t : List StackTy} {result : StackTy}
    (hargs : args.length = p.arity) (hresult : result? p args = some result) :
    Leaves config l s (args ++ t) (apply p) fun _ u => u = result :: t := by
  intro state done hafter hdone
  obtain ⟨harity, rfl⟩ := apply_eq_ok_iff.mp hdone
  have hdepth := hafter.depth
  rw [List.length_append] at hdepth
  refine ⟨result :: t, rfl, hafter.atDepth ?_, ?_, ?_⟩
  · rw [List.length_cons]
    omega
  · rw [run_singleton, List.append_assoc]
    exact step_prim args hargs hresult (t ++ s)
  · exact ⟨by simp [ClosuresTyped], trivial⟩

/-- An instruction that takes the top cell to another one. -/
theorem leaves_emit {i : Instr} {t : List StackTy} (u : List StackTy) (hi : ClosuresTyped i)
    (hlength : u.length = t.length) (hstep : StackTy.step i (t ++ s) = some (.ends (u ++ s))) :
    Leaves config l s t (emit i) fun _ v => v = u := by
  intro state done hafter hdone
  obtain rfl := emit_eq_ok_iff.mp hdone
  refine ⟨u, rfl, hlength ▸ hafter, ?_, hi, trivial⟩
  rw [run_singleton, hstep]

/-- The top cell goes away. -/
theorem leaves_drop {x : StackTy} :
    Leaves config l s (x :: t) (do emit .drop; pop 1) fun _ u => u = t := by
  intro state done hafter hdone
  obtain ⟨-, rfl⟩ := emit_pop_eq_ok_iff.mp hdone
  have hdepth := hafter.depth
  rw [List.length_cons] at hdepth
  refine ⟨t, rfl, hafter.atDepth (by omega), ?_, by simp [AllClosuresTyped, ClosuresTyped]⟩
  show StackTy.run [.drop] _ = _
  rw [run_singleton]
  rfl

theorem leaves_annotate {n : Note} : Leaves config l s t (annotate n) fun _ u => u = t := by
  intro state done hafter hdone
  obtain rfl := annotate_eq_ok_iff.mp hdone
  exact ⟨t, rfl, hafter, run_notes config n _, allClosuresTyped_notes config n⟩

/-- The value of an option, or an abort. -/
theorem leaves_unwrapOr (message : String) {v : StackTy} :
    Leaves config l s (.option v :: t) (emit (unwrapOr message)) fun _ u => u = v :: t := by
  refine leaves_emit (v :: t) ?_ (by simp) ?_
  · simp [unwrapOr, failWith, ClosuresTyped, AllClosuresTyped]
  · have hfail : StackTy.run (failWith message) (t ++ s) = some .aborts := by
      have hpush : StackTy.step (.prim (.push .string (.string message))) ([] ++ (t ++ s)) =
          some (.ends (Ty.string.stack :: (t ++ s))) :=
        step_prim [] rfl rfl (t ++ s)
      rw [List.nil_append] at hpush
      rw [failWith, run_cons_ends hpush, run_singleton]
      rfl
    simp only [unwrapOr, List.cons_append, StackTy.step, hfail, run_nil, Option.bind_some]
    rfl

/-! ## Named cells -/

/-- A copy of a variable has the type of the variable. -/
theorem leaves_fetch (hground : Ground config l s) {name : Ident} {c : Cell}
    (hc : l.cell? name = some c) :
    Leaves config l s t (fetch name) fun _ u => u = c.ty.stack :: t := by
  intro state done hafter hdone
  obtain ⟨slot, hslot, hbelow, rfl⟩ := fetch_eq_ok_iff.mp hdone
  have hhere := hground.above hafter
  have hd := (hafter.keeps.cells name).trans hc
  obtain rfl := Option.some.inj (hslot.symm.trans (Layout.slot?_of_cell? hd))
  obtain ⟨_, ht, rfl⟩ := hhere.holds.getElem? hhere.wellFormed hd
  have hdepth := hafter.depth
  refine ⟨c.ty.stack :: t, rfl, hafter.atDepth ?_, ?_, ?_⟩
  · rw [List.length_cons]
    omega
  · rw [run_append_ends (run_notes config _ _), run_singleton]
    simp only [StackTy.step]
    rw [if_neg (by omega), Nat.sub_right_comm, ht]
    rfl
  · exact allClosuresTyped_append.mpr ⟨allClosuresTyped_notes config _, by simp [ClosuresTyped], trivial⟩

/-- A variable gets a new value of its own type. -/
theorem leaves_replace (hground : Ground config l s) {name : Ident} {c : Cell}
    (hc : l.cell? name = some c) :
    Leaves config l s (c.ty.stack :: t) (replace name) fun _ u => u = t := by
  intro state done hafter hdone
  obtain ⟨d, hd, habove, rfl⟩ := replace_eq_ok_iff.mp hdone
  obtain rfl : d = c := Option.some.inj (hd.symm.trans ((hafter.keeps.cells name).trans hc))
  refine ⟨t, rfl, hafter.settled hground.wellFormed hd, ?_, ?_⟩
  · have hdepth := hafter.depth
    have hlength := hground.holds.length
    have hslot := hground.wellFormed.below hc
    obtain ⟨_, ht, rfl⟩ := hground.holds.getElem? hground.wellFormed hc
    rw [List.length_cons] at hdepth
    -- the cell of the variable has that type already
    have hindex : state.layout.depth - 2 - d.slot = t.length + (l.depth - 1 - d.slot) := by omega
    have hsame : (t ++ s).set (state.layout.depth - 2 - d.slot) d.ty.stack = t ++ s := by
      rw [hindex, List.set_append_right _ _ (Nat.le_add_right _ _), Nat.add_sub_cancel_left]
      obtain ⟨hlt, hget⟩ := List.getElem?_eq_some_iff.mp ht
      rw [← hget, List.set_getElem_self]
    rw [run_append_ends (run_notes config _ _)]
    show StackTy.run (Layout.settleCode _) (d.ty.stack :: (t ++ s)) = _
    rw [run_settleCode (by rw [List.length_append]; omega), hsame]
  · exact allClosuresTyped_append.mpr
      ⟨allClosuresTyped_notes config _, allClosuresTyped_settleCode _⟩

end Gen

end Covenant
