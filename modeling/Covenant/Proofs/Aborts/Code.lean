import Covenant.Proofs.Machine.Depth
import Covenant.Proofs.Notes

/-!
# Covenant — code in which nothing follows an abort

The stack machine refuses code behind an abort. `stopsAtAbort` is this rule for one block, and
`blocks` lists the blocks inside of code, at any depth. Code is `orderly` if the rule holds of it and
of all the blocks inside, and if no block that is run beneath other cells aborts.

In orderly code the last instruction that is not a note is the only one that can diverge, so that
the analysis of `diverges` is exact:

* `Depth.run_eq_aborts_iff` — the count of cells says that the code aborts just if it diverges;
* `Depth.answers_of_mem_blocks` — if the count has an answer for the code, then it has one for every
  block inside.
-/

namespace Covenant

open Instr

/-! ## The rule for one block -/

/-- Behind an instruction that diverges there are only notes. -/
def stopsAtAbort : Code → Bool
  | [] => true
  | i :: rest => (!i.diverges || rest.all isNote) && stopsAtAbort rest

variable {code : Code}

theorem any_diverges_of_notes (h : code.all isNote = true) : code.any Instr.diverges = false := by
  rw [List.any_eq_false]
  intro i hi
  have hnote := List.all_eq_true.mp h i hi
  cases i <;> simp_all [isNote, Instr.diverges]

theorem stopsAtAbort_append (a b : Code) :
    stopsAtAbort (a ++ b) = (stopsAtAbort a && stopsAtAbort b &&
      (!a.any Instr.diverges || b.all Instr.isNote)) := by
  induction a with
  | nil => simp [stopsAtAbort]
  | cons i rest ih =>
    simp only [List.cons_append, stopsAtAbort, List.all_append, List.any_cons, ih]
    cases i.diverges <;> cases rest.all isNote <;> cases stopsAtAbort rest <;>
      cases stopsAtAbort b <;> cases b.all isNote <;> simp

theorem stopsAtAbort_append_iff {a b : Code} :
    stopsAtAbort (a ++ b) = true ↔ stopsAtAbort a = true ∧ stopsAtAbort b = true ∧
      (a.any Instr.diverges = true → b.all Instr.isNote = true) := by
  rw [stopsAtAbort_append, Bool.and_eq_true, Bool.and_eq_true, and_assoc]
  cases a.any Instr.diverges <;> simp

/-- In a block that keeps to the rule it is the last instruction that diverges, if any does. -/
theorem any_diverges_eq (h : stopsAtAbort code = true) :
    code.any Instr.diverges = diverges code := by
  induction code with
  | nil => rfl
  | cons i rest ih =>
    rw [stopsAtAbort, Bool.and_eq_true] at h
    rw [List.any_cons, diverges]
    split
    · next hnotes => rw [any_diverges_of_notes hnotes, Bool.or_false]
    · next hnotes =>
      have hi : i.diverges = false := by simpa [hnotes] using h.1
      rw [hi, Bool.false_or, ih h.2]

/-! ## Blocks inside of blocks -/

mutual

/-- All blocks inside an instruction, at any depth. -/
def Instr.blocks : Instr → List Code
  | .dip _ body | .iter body | .lambda _ _ body => body :: blocks body
  | .ifElse a b | .ifNone a b => a :: blocks a ++ b :: blocks b
  | _ => []

/-- All blocks inside of code, at any depth. -/
def blocks : Code → List Code
  | [] => []
  | i :: rest => i.blocks ++ blocks rest

end

theorem blocks_append (a b : Code) : blocks (a ++ b) = blocks a ++ blocks b := by
  induction a with
  | nil => rfl
  | cons i rest ih => rw [List.cons_append, blocks, blocks, ih, List.append_assoc]

theorem blocks_of_notes (h : code.all isNote = true) : blocks code = [] := by
  induction code with
  | nil => rfl
  | cons i rest ih =>
    rw [List.all_cons, Bool.and_eq_true] at h
    cases i with
    | note n => rw [blocks, ih h.2]; rfl
    | _ => simp [isNote] at h

mutual

/-- Nothing follows an abort in the blocks inside, and a block run beneath other cells goes on. -/
def Instr.orderly : Instr → Bool
  | .dip _ body => orderly body && !diverges body
  | .iter body | .lambda _ _ body => orderly body
  | .ifElse a b | .ifNone a b => orderly a && orderly b
  | _ => true

/-- Nothing follows an abort, neither in the code nor in the blocks inside. -/
def orderly : Code → Bool
  | [] => true
  | i :: rest => i.orderly && (!i.diverges || rest.all isNote) && orderly rest

end

theorem orderly_eq (code : Code) :
    orderly code = (stopsAtAbort code && code.all Instr.orderly) := by
  induction code with
  | nil => rfl
  | cons i rest ih =>
    rw [orderly, stopsAtAbort, List.all_cons, ih]
    cases i.orderly <;> simp [Bool.and_assoc]

theorem orderly_iff :
    orderly code = true ↔ stopsAtAbort code = true ∧ code.all Instr.orderly = true := by
  rw [orderly_eq, Bool.and_eq_true]

theorem orderly_cons_iff {i : Instr} {rest : Code} :
    orderly (i :: rest) = true ↔ i.orderly = true ∧
      (i.diverges = true → rest.all isNote = true) ∧ orderly rest = true := by
  rw [orderly, Bool.and_eq_true, Bool.and_eq_true, and_assoc]
  cases i.diverges <;> simp

theorem orderly_of_mem_blocks_mutual :
    (∀ i : Instr, i.orderly = true → ∀ block ∈ i.blocks, orderly block = true) ∧
      ∀ code : Code, code.all Instr.orderly = true →
        ∀ block ∈ blocks code, orderly block = true := by
  apply Instr.blocks.mutual_induct <;> intros <;>
    grind [Instr.orderly, Instr.blocks, blocks, orderly_iff]

/-! ## Straight code -/

/-- Control goes on past the instruction, and nothing follows an abort in the blocks inside. -/
def Instr.straight (i : Instr) : Bool := i.orderly && !i.diverges

theorem any_diverges_of_straight (h : code.all straight = true) :
    code.any Instr.diverges = false := by
  rw [List.any_eq_false]
  intro i hi
  have hstraight := List.all_eq_true.mp h i hi
  rw [Instr.straight, Bool.and_eq_true, Bool.not_eq_true'] at hstraight
  simp [hstraight.2]

theorem orderly_of_straight (h : code.all straight = true) : orderly code = true := by
  induction code with
  | nil => rfl
  | cons i rest ih =>
    rw [List.all_cons, Bool.and_eq_true, straight, Bool.and_eq_true, Bool.not_eq_true'] at h
    rw [orderly_cons_iff]
    exact ⟨h.1.1, fun hdiv => absurd (hdiv.symm.trans h.1.2) (by decide), ih h.2⟩

theorem diverges_of_straight (h : code.all Instr.straight = true) : diverges code = false := by
  rw [← any_diverges_eq (orderly_iff.mp (orderly_of_straight h)).1, any_diverges_of_straight h]

/-- Orderly code that goes on is straight. -/
theorem straight_of_orderly (h : orderly code = true) (hdiv : diverges code = false) :
    code.all Instr.straight = true := by
  obtain ⟨hstops, hinside⟩ := orderly_iff.mp h
  rw [← any_diverges_eq hstops, List.any_eq_false] at hdiv
  rw [List.all_eq_true] at hinside ⊢
  intro i hi
  rw [straight, hinside i hi, Bool.true_and]
  simpa using hdiv i hi

/-- Orderly code may follow code that goes on. -/
theorem orderly_append {a b : Code} (ha : a.all Instr.straight = true) (hb : orderly b = true) :
    orderly (a ++ b) = true := by
  have horderly := orderly_iff.mp (orderly_of_straight ha)
  have hb := orderly_iff.mp hb
  rw [orderly_iff, stopsAtAbort_append, List.all_append, any_diverges_of_straight ha]
  simp [horderly, hb]

/-- Whether the code diverges is decided by what follows the code that goes on. -/
theorem diverges_append_of_straight {a : Code} (ha : a.all straight = true) (b : Code) :
    diverges (a ++ b) = diverges b := by
  rw [diverges_append]
  split
  · next hnotes => rw [diverges_of_straight ha, diverges_of_notes hnotes]
  · rfl

/-! ## The count of cells -/

namespace Depth

theorem join_eq_aborts {a b : Flow} (h : a.join b = some .aborts) : a = .aborts ∧ b = .aborts :=
  ⟨(of_join h).1.elim id id, (of_join h).2.1.elim id id⟩

theorem needing_ne_aborts {n d e : Nat} : needing n d (.ends e) ≠ some .aborts := by
  unfold needing
  split <;> simp

mutual

/-- Where no code stands behind an abort, what always aborts can be told from the code. -/
theorem diverges_of_step : ∀ (i : Instr) {d : Nat}, i.orderly = true →
    step i d = some .aborts → i.diverges = true
  | .failwith, _, _, _ => rfl
  | .ifElse a b, d, horderly, h | .ifNone a b, d, horderly, h => by
    rw [Instr.orderly, Bool.and_eq_true] at horderly
    cases d with
    | zero => simp [step] at h
    | succ d =>
      simp only [step, Option.bind_eq_some_iff] at h
      obtain ⟨x, hx, y, hy, hjoin⟩ := h
      obtain ⟨rfl, rfl⟩ := join_eq_aborts hjoin
      rw [Instr.diverges, diverges_of_run a horderly.1 hx, diverges_of_run b horderly.2 hy]
      rfl
  | .dip n body, d, horderly, h => by
    rw [Instr.orderly, Bool.and_eq_true, Bool.not_eq_true'] at horderly
    simp only [step] at h
    split at h
    · obtain ⟨inner, hinner, hraise⟩ := Option.map_eq_some_iff.mp h
      cases inner with
      | aborts =>
        -- a block beneath other cells would have to diverge, which it does not
        exact absurd (diverges_of_run body horderly.1 hinner) (by simp [horderly.2])
      | ends e => simp [Flow.raise] at hraise
    · simp at h
  | .iter body, d, _, h => by
    cases d with
    | zero => simp [step] at h
    | succ d =>
      simp only [step, Option.bind_eq_some_iff] at h
      obtain ⟨x, -, hjoin⟩ := h
      exact absurd (join_eq_aborts hjoin).2 (by simp)
  | .lambda _ _ body, d, _, h => by
    simp only [step, Option.bind_eq_some_iff, Option.map_eq_some_iff] at h
    obtain ⟨_, -, _, -, hends⟩ := h
    simp at hends
  | .prim _, _, _, h | .dup _, _, _, h => by
    simp only [step] at h
    split at h
    · simp at h
    · exact absurd h needing_ne_aborts
  | .dig _, _, _, h | .dug _, _, _, h | .drop, _, _, h | .swap, _, _, h | .unpair, _, _, h
  | .exec, _, _, h => by
    simp only [step] at h
    exact absurd h needing_ne_aborts
  | .note _, _, _, h => by simp [step] at h

theorem diverges_of_run : ∀ (code : Code) {d : Nat}, orderly code = true →
    run code d = some .aborts → diverges code = true
  | [], d, _, h => by simp at h
  | i :: rest, d, horderly, h => by
    obtain ⟨hi, hbehind, hrest⟩ := orderly_cons_iff.mp horderly
    rw [diverges]
    rw [run] at h
    split at h
    · next e hstep =>
      have hdiv := diverges_of_run rest hrest h
      split
      · next hnotes => rw [diverges_of_notes hnotes] at hdiv; simp at hdiv
      · exact hdiv
    · next hother =>
      have hdiv := diverges_of_step i hi h
      rw [if_pos (hbehind hdiv), hdiv]

end

/-- The count says that orderly code aborts just if the code diverges. -/
theorem run_eq_aborts_iff {code : Code} (horderly : orderly code = true) {d : Nat} {flow : Flow}
    (h : run code d = some flow) : flow = .aborts ↔ diverges code = true := by
  constructor
  · rintro rfl
    exact diverges_of_run code horderly h
  · intro hdiv
    exact run_of_diverges code hdiv h

/-- The count has an answer for the block, if there are enough cells. -/
def Answers (code : Code) : Prop := ∃ d flow, run code d = some flow

theorem Balanced.answers {code : Code} {d d' : Nat} (h : Balanced code d d') : Answers code := by
  rcases h with h | h
  · exact ⟨d, _, h⟩
  · exact ⟨d, _, h⟩

mutual

theorem answers_of_mem_step (i : Instr) {d : Nat} {flow : Flow} (horderly : i.orderly = true)
    (h : step i d = some flow) (block : Code) (hmem : block ∈ i.blocks) : Answers block := by
  cases i <;> simp only [Instr.blocks, List.cons_append, List.mem_cons, List.mem_append,
    List.not_mem_nil] at hmem <;> simp only [Instr.orderly, Bool.and_eq_true] at horderly
  case dip n body =>
    simp only [step] at h
    split at h
    · obtain ⟨inner, hinner, -⟩ := Option.map_eq_some_iff.mp h
      rcases hmem with rfl | hmem
      · exact ⟨_, _, hinner⟩
      · exact answers_of_mem_blocks body horderly.1 hinner block hmem
    · simp at h
  case iter body =>
    cases d with
    | zero => simp [step] at h
    | succ d =>
      simp only [step, Option.bind_eq_some_iff] at h
      obtain ⟨inner, hinner, -⟩ := h
      rcases hmem with rfl | hmem
      · exact ⟨_, _, hinner⟩
      · exact answers_of_mem_blocks body horderly hinner block hmem
  case lambda body =>
    simp only [step, Option.bind_eq_some_iff] at h
    obtain ⟨inner, hinner, -⟩ := h
    rcases hmem with rfl | hmem
    · exact ⟨_, _, hinner⟩
    · exact answers_of_mem_blocks body horderly hinner block hmem
  case ifElse a b | ifNone a b =>
    cases d with
    | zero => simp [step] at h
    | succ d =>
      simp only [step, Option.bind_eq_some_iff] at h
      obtain ⟨x, hx, y, hy, -⟩ := h
      rcases hmem with rfl | hmem | rfl | hmem
      · exact ⟨_, _, hx⟩
      · exact answers_of_mem_blocks a horderly.1 hx block hmem
      · exact ⟨_, _, hy⟩
      · exact answers_of_mem_blocks b horderly.2 hy block hmem

/-- The count comes by every block inside of orderly code, as there is none behind an abort. -/
theorem answers_of_mem_blocks : ∀ (code : Code) {d : Nat} {flow : Flow}, orderly code = true →
    run code d = some flow → ∀ block ∈ blocks code, Answers block
  | [], _, _, _, _, _, hmem => by simp [blocks] at hmem
  | i :: rest, d, flow, horderly, h, block, hmem => by
    obtain ⟨hi, hbehind, hrest⟩ := orderly_cons_iff.mp horderly
    rw [blocks, List.mem_append] at hmem
    rw [run] at h
    split at h
    · next e hstep =>
      rcases hmem with hmem | hmem
      · exact answers_of_mem_step i hi hstep block hmem
      · exact answers_of_mem_blocks rest hrest h block hmem
    · next hother =>
      cases flow with
      | ends e => exact absurd h (hother e)
      | aborts =>
        rw [blocks_of_notes (hbehind (diverges_of_step i hi h))] at hmem
        exact answers_of_mem_step i hi h block (by simpa using hmem)

end

end Depth

end Covenant
