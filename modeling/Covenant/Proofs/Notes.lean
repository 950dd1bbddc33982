import Covenant.Instr.Divergence

/-!
# Covenant — notes and code that aborts

Of a block the last instruction that is not a note decides whether control reaches its end. So notes
at the end of a block make no difference (`diverges_append`), nor do notes anywhere else: code from
which all notes have been deleted, also in the blocks that instructions carry, aborts just as it did
with them (`diverges_withoutNotes`).
-/

namespace Covenant

theorem diverges_of_notes {code : Code} (h : code.all Instr.isNote = true) : diverges code = false := by
  cases code with
  | nil => rfl
  | cons i rest =>
    rw [List.all_cons, Bool.and_eq_true] at h
    rw [diverges, if_pos h.2]
    cases i with
    | note n => rfl
    | _ => simp [Instr.isNote] at h

/-- The last instruction decides, so the second block does unless it only has notes. -/
theorem diverges_append (a b : Code) :
    diverges (a ++ b) = if b.all Instr.isNote then diverges a else diverges b := by
  induction a with
  | nil =>
    split
    · next hnotes => exact diverges_of_notes hnotes
    · rfl
  | cons i rest ih =>
    have hall : (rest ++ b).all Instr.isNote = (rest.all Instr.isNote && b.all Instr.isNote) :=
      List.all_append
    rw [List.cons_append, diverges, hall, ih]
    cases hb : b.all Instr.isNote with
    | false => simp
    | true => simp [diverges]

theorem diverges_of_append {a b : Code} (h : diverges (a ++ b) = false) : diverges b = false := by
  rw [diverges_append] at h
  split at h
  · next hnotes => exact diverges_of_notes hnotes
  · exact h

/-! ## Code without notes -/

mutual

/-- The instruction without the notes in its blocks. -/
def Instr.withoutNotes : Instr → Instr
  | .dip n body => .dip n (withoutNotes body)
  | .ifElse onTrue onFalse => .ifElse (withoutNotes onTrue) (withoutNotes onFalse)
  | .ifNone onNone onSome => .ifNone (withoutNotes onNone) (withoutNotes onSome)
  | .iter body => .iter (withoutNotes body)
  | .lambda arg result body => .lambda arg result (withoutNotes body)
  | i => i

/-- The code without notes, at any depth. -/
def withoutNotes : Code → Code
  | [] => []
  | i :: rest => if i.isNote then withoutNotes rest else i.withoutNotes :: withoutNotes rest

end

@[simp] theorem withoutNotes_append (code code' : Code) :
    withoutNotes (code ++ code') = withoutNotes code ++ withoutNotes code' := by
  induction code with
  | nil => rfl
  | cons i rest ih =>
    rw [List.cons_append, withoutNotes, withoutNotes, ih]
    split
    · rfl
    · rfl

@[simp] theorem Instr.isNote_withoutNotes (i : Instr) : i.withoutNotes.isNote = i.isNote := by
  cases i <;> rfl

/-- Something other than notes is left of a block just if there was something else in it. -/
theorem all_isNote_withoutNotes (code : Code) :
    (withoutNotes code).all Instr.isNote = code.all Instr.isNote := by
  induction code with
  | nil => rfl
  | cons i rest ih =>
    rw [withoutNotes, List.all_cons]
    by_cases hnote : i.isNote = true
    · rw [if_pos hnote, ih, hnote, Bool.true_and]
    · rw [if_neg hnote, List.all_cons, ih, Instr.isNote_withoutNotes]

mutual

theorem Instr.diverges_withoutNotes : ∀ i : Instr, i.withoutNotes.diverges = i.diverges
  | .ifElse a b | .ifNone a b => by
    rw [Instr.withoutNotes, Instr.diverges, Instr.diverges,
      Covenant.diverges_withoutNotes a, Covenant.diverges_withoutNotes b]
  | .prim _ | .dup _ | .dig _ | .dug _ | .drop | .swap | .unpair | .exec | .failwith | .note _ =>
    rfl
  | .dip _ _ | .iter _ | .lambda _ _ _ => rfl

/-- Notes have no part in whether code aborts. -/
@[simp] theorem diverges_withoutNotes : ∀ code : Code,
    diverges (withoutNotes code) = diverges code
  | [] => rfl
  | i :: rest => by
    have hrest := diverges_withoutNotes rest
    have hi := Instr.diverges_withoutNotes i
    rw [withoutNotes]
    by_cases hnote : i.isNote = true
    · rw [if_pos hnote, hrest]
      -- a note in front of other code is passed over, and one in front of notes does not abort
      by_cases hall : rest.all Instr.isNote = true
      · rw [diverges_of_notes hall, diverges_of_notes]
        rw [List.all_cons, hnote, hall, Bool.and_self]
      · rw [diverges, if_neg hall]
    · rw [if_neg hnote, diverges, diverges, all_isNote_withoutNotes, hrest, hi]

end

end Covenant
