import Covenant.Instr.Divergence

/-!
# Covenant — code that diverges, on any machine

The code of a contract is run on several machines here: one counts cells, one knows the types of
cells, one moves cells without looking into them, one computes with values. For all of them code that
diverges does not end normally, and for the same reason. Of a machine `Endings` keeps only which
instructions and blocks may end, and what this reason needs: a block ends if its instructions do one
after the other, `FAILWITH` does not end, and a branch ends only if one of its two blocks may.

* `Endings.not_run` — code that diverges does not end.
-/

namespace Covenant

/-- Which instructions and blocks of a machine may end, from which state and in which. -/
structure Endings (S : Type) where
  step : Instr → S → S → Prop
  run : Code → S → S → Prop
  run_cons : ∀ {i : Instr} {rest : Code} {s t : S}, run (i :: rest) s t →
    ∃ u, step i s u ∧ run rest u t
  failwith : ∀ {s t : S}, ¬ step .failwith s t
  ifElse : ∀ {a b : Code} {s t : S}, step (.ifElse a b) s t → ∃ u v, run a u v ∨ run b u v
  ifNone : ∀ {a b : Code} {s t : S}, step (.ifNone a b) s t → ∃ u v, run a u v ∨ run b u v

namespace Endings

variable {S : Type} (E : Endings S)

mutual

theorem not_step (i : Instr) {s t : S} (hdiv : i.diverges = true) : ¬ E.step i s t := by
  intro h
  cases i <;> simp only [Instr.diverges, Bool.and_eq_true, Bool.false_eq_true] at hdiv
  case failwith => exact E.failwith h
  case ifElse a b =>
    obtain ⟨u, v, ha | hb⟩ := E.ifElse h
    · exact not_run a hdiv.1 ha
    · exact not_run b hdiv.2 hb
  case ifNone a b =>
    obtain ⟨u, v, ha | hb⟩ := E.ifNone h
    · exact not_run a hdiv.1 ha
    · exact not_run b hdiv.2 hb

/-- Code that diverges does not end. -/
theorem not_run : ∀ (code : Code) {s t : S}, diverges code = true → ¬ E.run code s t
  | [], _, _, hdiv, _ => by simp [diverges] at hdiv
  | i :: rest, _, _, hdiv, h => by
    rw [diverges] at hdiv
    obtain ⟨u, hstep, hrest⟩ := E.run_cons h
    split at hdiv
    · exact not_step i hdiv hstep
    · exact not_run rest hdiv hrest

end

end Endings

end Covenant
