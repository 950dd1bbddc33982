import Covenant.Proofs.NoDefects
import Covenant.Proofs.TypeSoundness.Expr

/-!
# Covenant — how statements move layouts and stacks along

Statements declare variables, so the cells that a statement leaves on the stack are not all
intermediate values. `Layout.Advances l code l' declared` says what a statement does that is compiled
from layout `l` to layout `l'`: whatever stack matches `l`, its code aborts or puts further cells on
top such that the stack matches `l'`. All these cells have names, except that a return from a
function leaves its value without one. It is these *spare* cells that make branches agree: two blocks
that leave equally many of them leave the same stack.

The order in which variables are freed makes no difference (`runs_dropNames`).
-/

namespace Covenant

open StackTy Stack

/-- The type of the values that returns leave behind. -/
def Context.Spares (context : Context) (t : StackTy) : Prop :=
  ∃ name want, context = .function name want ∧ t = Ty.stack want

/-- Spare cells all have the same type. -/
theorem Context.Spares.eq_of_length {context : Context} : ∀ {t u : List StackTy},
    (∀ x ∈ t, context.Spares x) → (∀ x ∈ u, context.Spares x) → t.length = u.length → t = u
  | [], [], _, _, _ => rfl
  | x :: t, y :: u, ht, hu, hlength => by
    obtain ⟨hx, htail⟩ := List.forall_mem_cons.mp ht
    obtain ⟨hy, hutail⟩ := List.forall_mem_cons.mp hu
    obtain ⟨_, want, hcontext, hx⟩ := hx
    obtain ⟨_, _, hcontext', hy⟩ := hy
    obtain ⟨-, rfl⟩ := Context.function.inj (hcontext.symm.trans hcontext')
    rw [hx, hy, Context.Spares.eq_of_length htail hutail (Nat.succ.inj hlength)]

namespace Layout

variable {l l' l'' outer : Layout} {s t : List StackTy} {name : Ident} {slot : Nat}
  {names : List Ident} {code : Code}

/-! ## Layouts with settled types -/

/-- The layout is well formed and its types are settled. -/
structure Typed (l : Layout) : Prop where
  wellFormed : l.WellFormed
  settled : l.Settled

theorem Typed.of_keeps (hl : l.Typed) (h : l.Keeps l') : l'.Typed :=
  ⟨hl.wellFormed.of_keeps h, hl.settled.of_keeps h⟩

/-- Dropping a variable takes no other type away. -/
theorem Typed.without (hl : l.Typed) (hslot : l.slot? name = some slot) :
    (l.without name slot).Typed where
  wellFormed := hl.wellFormed.without hslot
  settled := by
    constructor
    · intro other d hd
      obtain ⟨-, e, he, rfl⟩ := cell?_without_eq_some hd
      exact hl.settled.known (c := e) he
    · intro d hd
      obtain ⟨-, e, he, rfl⟩ := cell?_without_eq_some hd
      exact hl.settled.operations (c := e) he

/-- A new variable has a settled type, which is a list of operations if it is the pending ones. -/
theorem Typed.bind (hl : l.Typed) (htop : l.TopFree) {ty : Ty} (hknown : ty.hasUnknown = false)
    (hname : name = operationsName → ty = .list .operation) (h : l.bind name ty = .ok l') :
    l'.Typed where
  wellFormed := hl.wellFormed.bind htop h
  settled := by
    constructor
    · intro other d hd
      obtain ⟨-, rfl⟩ := bind_eq_ok_iff.mp h
      rw [cell?_bindSlot] at hd
      split at hd
      · cases hd
        exact hknown
      · obtain ⟨before, hbefore⟩ := cell?_hide_eq_some hl.wellFormed hd
        exact hl.settled.known hbefore
    · intro d hd
      rcases cell?_of_bind_plain h (by decide) hd with ⟨heq, rfl⟩ | ⟨-, hold⟩
      · exact hname heq.symm
      · exact hl.settled.operations hold

/-- Naming the top cell changes no type. -/
theorem Matches.bind {x : StackTy} (h : l.Matches (x :: s)) (hl : l.WellFormed) {ty : Ty}
    (hx : x = ty.stack) (hbind : l.bind name ty = .ok l') : l'.Matches (x :: s) :=
  Holds.bind h hl hbind hx fun _ _ _ _ _ hP _ _ => hP

/-- Some stack matches a well-formed layout: no cell has two types. -/
theorem exists_matches (hl : l.WellFormed) : ∃ s, l.Matches s := by
  have hcell (i : Nat) : ∃ x : StackTy, ∀ name c, l.cell? name = some c → c.slot = i →
      x = c.ty.stack := by
    by_cases hnamed : ∃ name c, l.cell? name = some c ∧ c.slot = i
    · obtain ⟨name, c, hc, rfl⟩ := hnamed
      refine ⟨c.ty.stack, fun other d hd hslot => ?_⟩
      obtain rfl := hl.distinct hd hc hslot
      rw [Option.some.inj (hc.symm.trans hd)]
    · exact ⟨.nothing, fun name c hc hslot => absurd ⟨name, c, hc, hslot⟩ hnamed⟩
  -- one type for each slot, from the bottom
  let types := (List.range l.depth).map fun i => Classical.choose (hcell i)
  refine ⟨types.reverse, by simp [types], fun {name c} hc => ?_⟩
  refine ⟨Classical.choose (hcell c.slot), ?_, Classical.choose_spec (hcell c.slot) name c hc rfl⟩
  have hslot := hl.below hc
  simp [atSlot, types, hslot]

/-! ## Cells that are accounted for -/

/-- Every cell that has been put on top of the outer layout is named in the later one, or spare. -/
def Covered (outer l : Layout) (t : List StackTy) : Prop :=
  ∀ ⦃i : Nat⦄ ⦃x : StackTy⦄, atSlot t i = some x →
    (∃ name, l.slot? name = some (outer.depth + i)) ∨ outer.context.Spares x

theorem covered_nil (outer l : Layout) : Covered outer l [] := by
  intro i x hx
  simp [atSlot] at hx

/-- Where no new name is left, all cells on top are spare. -/
theorem Covered.spares (h : Covered outer l t) (houter : outer.WellFormed)
    (hextends : outer.Extends l)
    (hnames : ∀ {name : Ident}, l.binds name = true → outer.binds name = true) :
    ∀ x ∈ t, outer.context.Spares x := by
  intro x hx
  obtain ⟨i, hi⟩ := List.getElem?_of_mem (List.mem_reverse.mpr hx)
  rcases h hi with ⟨name, hslot⟩ | hspare
  · -- the cell of an outer variable is not on top of the outer layout
    obtain ⟨before, hbefore⟩ := binds_iff.mp (hnames (binds_iff.mpr ⟨_, hslot⟩))
    have hsame := Option.some.inj ((hextends.slots hbefore).symm.trans hslot)
    have hbelow := houter.slots_below hbefore
    omega
  · exact hspare

/-- Spare cells are accounted for. -/
theorem covered_of_spares (l : Layout) (h : ∀ x ∈ t, outer.context.Spares x) : Covered outer l t :=
  fun _ _ hx => .inr (h _ (List.mem_reverse.mp (List.mem_of_getElem? hx)))

/-- Cells that are put on top of accounted ones, where the names of these stay. -/
theorem Covered.append {u : List StackTy} (h : Covered outer l t) (h' : Covered l l' u)
    (hextends : l.Extends l') (hcontext : l.context = outer.context)
    (hdepth : l.depth = t.length + outer.depth) : Covered outer l' (u ++ t) := by
  intro i x hx
  by_cases hi : i < t.length
  · rw [atSlot_append u hi] at hx
    refine (h hx).imp ?_ id
    rintro ⟨name, hslot⟩
    exact ⟨name, hextends.slots hslot⟩
  · obtain ⟨j, rfl⟩ := Nat.exists_eq_add_of_le (Nat.not_lt.mp hi)
    rw [atSlot_length_add] at hx
    rcases h' hx with ⟨name, hslot⟩ | hspare
    · exact .inl ⟨name, hslot.trans (congrArg some (by omega))⟩
    · exact .inr (hcontext ▸ hspare)

/-- Dropping a variable takes its cell away and leaves the names of the others. -/
theorem Covered.without (h : Covered outer l t) (hl : l.WellFormed)
    (hslot : l.slot? name = some slot) (habove : outer.depth ≤ slot)
    (hdepth : l.depth = t.length + outer.depth) :
    Covered outer (l.without name slot) (t.eraseIdx (l.depth - 1 - slot)) := by
  intro i x hx
  have hbelow := hl.slots_below hslot
  have hindex : l.depth - 1 - slot = t.length - 1 - (slot - outer.depth) := by omega
  -- another variable keeps its name, and its slot closes up with the cells beneath
  have hkept {other : Ident} {before : Nat} (hother : l.slot? other = some before)
      (hne : before ≠ slot) : (l.without name slot).slot? other = some (lowered slot before) := by
    have hnames : other ≠ name := by
      rintro rfl
      exact hne (Option.some.inj (hother.symm.trans hslot))
    rw [slot?_without, if_neg hnames, hother, Option.map_some]
  have hi : i + 1 < t.length := by
    have hlt := (List.getElem?_eq_some_iff.mp hx).1
    rw [List.length_reverse, List.length_eraseIdx, if_pos (by omega)] at hlt
    omega
  rw [hindex, atSlot_eraseIdx (by omega) hi] at hx
  split at hx
  · next hlt =>
    refine (h hx).imp ?_ id
    rintro ⟨other, hother⟩
    refine ⟨other, (hkept hother (by omega)).trans (congrArg some ?_)⟩
    rw [lowered, if_neg (by omega)]
  · next hge =>
    refine (h hx).imp ?_ id
    rintro ⟨other, hother⟩
    refine ⟨other, (hkept hother (by omega)).trans (congrArg some ?_)⟩
    rw [lowered, if_pos (by omega)]
    omega

/-- Dropping variables from the top of an outer layout leaves what is underneath alone. -/
theorem runs_dropNames (houter : outer.WellFormed) (hl : l.WellFormed) (hextends : outer.Extends l)
    (hnew : ∀ name ∈ names, outer.binds name = false) (hmatches : l.Matches (t ++ s))
    (hs : s.length = outer.depth) (hcovered : Covered outer l t)
    (hdrop : l.dropNames names = .ok (code, l')) :
    ∃ u, run code (t ++ s) = some (.ends (u ++ s)) ∧ l'.Matches (u ++ s) ∧ Covered outer l' u := by
  induction names generalizing l t code with
  | nil =>
    cases hdrop
    exact ⟨t, run_nil _, hmatches, hcovered⟩
  | cons name rest ih =>
    obtain ⟨hname, hrest⟩ := List.forall_mem_cons.mp hnew
    obtain ⟨slot, tail, hslot, hbelow, htail, rfl⟩ := dropNames_cons_eq_ok_iff.mp hdrop
    have habove := hextends.above hslot hname
    have hlength := hmatches.length
    rw [List.length_append] at hlength
    -- the cell is one of those on top of the outer layout
    have herase : (t ++ s).eraseIdx (l.depth - 1 - slot) = t.eraseIdx (l.depth - 1 - slot) ++ s :=
      List.eraseIdx_append_of_lt_length (by omega) s
    have hstep : step (dropAt (l.depth - 1 - slot)) (t ++ s) =
        some (.ends (t.eraseIdx (l.depth - 1 - slot) ++ s)) := by
      rw [step_dropAt (by rw [List.length_append]; omega), herase]
    rw [run_cons_ends hstep]
    refine ih (hl.without hslot) (hextends.without houter hslot hbelow hname) hrest ?_ ?_ htail
    · rw [← herase]
      exact Holds.without hmatches hl hslot
    · exact hcovered.without hl hslot habove (by omega)

/-- Dropping needs no closures. -/
theorem allClosuresTyped_dropNames (h : l.dropNames names = .ok (code, l')) :
    AllClosuresTyped code :=
  code_of_dropNames trivial (fun n _ hrest => ⟨closuresTyped_dropAt n, hrest⟩) h

/-! ## What statements do -/

/-- Compiled from one layout to the other, the code aborts or takes every stack that matches the
first to one that matches the second, with further cells on top that are accounted for. -/
structure Advances (l : Layout) (code : Code) (l' : Layout) : Prop where
  typed : l'.Typed
  extending : l.Extends l'
  closures : AllClosuresTyped code
  runs : ∀ {s : List StackTy}, l.Matches s → run code s = some .aborts ∨
    ∃ t, run code s = some (.ends (t ++ s)) ∧ l'.Matches (t ++ s) ∧ Covered l l' t

theorem Advances.refl (hl : l.Typed) : l.Advances [] l where
  typed := hl
  extending := .refl l
  closures := trivial
  runs {s} hs := .inr ⟨[], run_nil s, hs, covered_nil l l⟩

/-- Code that goes on from where other code has ended. -/
theorem Advances.trans {code code' : Code} (h : l.Advances code l') (h' : l'.Advances code' l'') :
    l.Advances (code ++ code') l'' where
  typed := h'.typed
  extending := h.extending.trans h'.extending
  closures := allClosuresTyped_append.mpr ⟨h.closures, h'.closures⟩
  runs := by
    intro s hs
    rcases h.runs hs with haborts | ⟨t, hrun, hmatches, hcovered⟩
    · exact .inl (run_append_aborts haborts)
    rw [run_append_ends hrun]
    rcases h'.runs hmatches with haborts | ⟨u, hrun', hmatches', hcovered'⟩
    · exact .inl haborts
    have hdepth : l'.depth = t.length + l.depth := by
      rw [← hmatches.length, List.length_append, hs.length]
    refine .inr ⟨u ++ t, ?_, ?_, ?_⟩
    · rw [List.append_assoc, hrun']
    · rw [List.append_assoc]
      exact hmatches'
    · exact hcovered.append hcovered' h'.extending h.extending.context hdepth

/-- Dropping variables that the outer layout does not have, in whatever order. -/
theorem Advances.dropNames {code code' : Code} (h : outer.Advances code l)
    (houter : outer.WellFormed) (hnew : ∀ name ∈ names, outer.binds name = false)
    (hdrop : l.dropNames names = .ok (code', l')) : outer.Advances (code ++ code') l' := by
  obtain ⟨htyped, hextends⟩ : l'.Typed ∧ outer.Extends l' := by
    refine dropNames_induction (P := fun l => l.Typed ∧ outer.Extends l) ?_
      ⟨h.typed, h.extending⟩ hdrop
    intro l name slot hl hname hslot hbelow
    exact ⟨hl.1.without hslot, hl.2.without houter hslot hbelow (hnew name hname)⟩
  refine ⟨htyped, hextends, ?_, ?_⟩
  · exact allClosuresTyped_append.mpr ⟨h.closures, allClosuresTyped_dropNames hdrop⟩
  · intro s hs
    rcases h.runs hs with haborts | ⟨t, hrun, hmatches, hcovered⟩
    · exact .inl (run_append_aborts haborts)
    · rw [run_append_ends hrun]
      exact .inr (runs_dropNames houter h.typed.wellFormed h.extending hnew hmatches hs.length
        hcovered hdrop)

end Layout

end Covenant
