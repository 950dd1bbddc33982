import Covenant.Proofs.Gen.Closed
import Covenant.Proofs.Typing.Stable

/-!
# Covenant — steps that keep the types of names

Most steps inside a statement put cells on the stack and take them off again, and give variables new
values of the types they had. After such a step every name has the type it had before
(`Gen.Steady`), so that typing questions have the same answers. The code of an expression is a
sequence of such steps (`Gen.closed_steady`).
-/

namespace Covenant

namespace Layout

/-- Cells on top have no names yet. -/
theorem alike_atDepth (l : Layout) (d : Nat) : l.Alike (l.atDepth d) :=
  ⟨fun _ => rfl, fun _ => rfl, rfl⟩

/-- A variable with a new value keeps its type, and so do all others. -/
theorem alike_settled {l : Layout} {name : Ident} {c : Cell} (hc : l.cell? name = some c) :
    l.Alike (l.settled name c) := by
  refine ⟨fun other => ?_, fun other => ?_, context_settled l name c⟩
  · -- the cells above close up to fill the gap, which changes slots but no names
    rw [binds_eq_isSome, binds_eq_isSome, slot?_settled, slot?_without]
    by_cases hname : other = name
    · rw [if_pos hname, hname, slot?_of_cell? hc]
    · rw [if_neg hname, if_neg hname, Option.isSome_map, Option.isSome_map]
  · rw [ty?_settled]
    split
    · next hname => rw [hname, ty?_of_cell? hc]
    · rfl

end Layout

namespace Gen

variable {α β : Type}

/-- After the step names have the types they had before. -/
def Steady (plain : Gen α) : Prop :=
  ∀ ⦃config : Config⦄ ⦃state : State⦄ ⦃done : Step α⦄, plain config state = .ok done →
    state.layout.Alike done.state.layout

/-- The types stay the same from step to step. -/
theorem Steady.bind {plain : Gen α} (h : Steady plain) {next : α → Gen β}
    (hnext : ∀ a, Steady (next a)) : Steady (plain >>= next) := by
  intro config state done hdone
  obtain ⟨first, second, hfirst, hsecond, rfl⟩ := bind_eq_ok_iff.mp hdone
  have hlast := hnext first.result hsecond
  exact (h hfirst).trans hlast

theorem steady_emit (i : Instr) : Steady (emit i) := fun _ _ _ hdone => by
  cases hdone
  exact .refl _

theorem steady_annotate (n : Note) : Steady (annotate n) := fun _ _ _ hdone => by
  cases hdone
  exact .refl _

theorem steady_push (n : Nat) : Steady (push n) := fun _ state _ hdone => by
  cases hdone
  exact Layout.alike_atDepth state.layout _

theorem steady_pop (n : Nat) : Steady (pop n) := fun _ state _ hdone => by
  obtain ⟨-, rfl⟩ := pop_eq_ok_iff.mp hdone
  exact Layout.alike_atDepth state.layout _

theorem steady_apply (p : Prim) : Steady (apply p) :=
  (steady_emit _).bind fun _ => (steady_pop _).bind fun _ => steady_push 1

theorem steady_fetch (name : Ident) : Steady (fetch name) := fun _ state _ hdone => by
  obtain ⟨_, -, -, rfl⟩ := fetch_eq_ok_iff.mp hdone
  exact Layout.alike_atDepth state.layout _

theorem steady_replace (name : Ident) : Steady (replace name) := fun _ _ _ hdone => by
  obtain ⟨c, hc, -, rfl⟩ := replace_eq_ok_iff.mp hdone
  exact Layout.alike_settled hc

/-- The code of an expression leaves the types of names alone. -/
theorem closed_steady : Closed (fun _ _ _ step => Steady step) @Steady :=
  closed_each (R := fun l _ l' => l.Alike l') .refl .trans steady_annotate steady_apply steady_fetch
    steady_replace (fun _ => steady_emit _) ((steady_emit _).bind fun _ => steady_pop 1)
    ((steady_emit _).bind fun _ => steady_push 1) ((steady_emit _).bind fun _ => steady_pop 1)
    -- a block is compiled apart, so the layout around it stays as it is
    fun _ => .refl _

end Gen

end Covenant
