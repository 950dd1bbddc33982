import Covenant.Proofs.Layout.WellFormed
import Covenant.Proofs.Machine.Execution

/-!
# Covenant — stacks that hold what a layout says

The machine counts cells from the top, a layout from the bottom. `Stack.atSlot` is the bridge: the
cell at a slot, whatever has been put on top. A stack is a list of cells of any kind, top first, so
that one theory serves the machine on types and the machine on values.

`Layout.Holds` says that a stack has as many cells as the layout and that each named cell satisfies a
property of its name and type. The operations of a layout keep this up:

* `Holds.above` — cells on top of a layout change nothing underneath;
* `Holds.without` — a cell dropped from the middle;
* `Holds.settled` — a variable with a new value in its old slot;
* `Holds.bind` — the top cell gets a name.
-/

namespace Covenant

namespace Stack

variable {α : Type}

/-- The cell at a slot, counted from the bottom. -/
def atSlot (s : List α) (slot : Nat) : Option α := s.reverse[slot]?

variable {s t : List α} {a : α} {slot i : Nat}

theorem atSlot_eq_getElem? (h : slot < s.length) : atSlot s slot = s[s.length - 1 - slot]? :=
  List.getElem?_reverse h

/-- What lies at a slot does not depend on the cells on top. -/
theorem atSlot_append (t : List α) (h : slot < s.length) : atSlot (t ++ s) slot = atSlot s slot := by
  rw [atSlot, List.reverse_append, List.getElem?_append_left (by simpa using h), atSlot]

theorem atSlot_cons_of_lt (a : α) (h : slot < s.length) : atSlot (a :: s) slot = atSlot s slot :=
  atSlot_append [a] h

theorem atSlot_cons_length (a : α) (s : List α) : atSlot (a :: s) s.length = some a := by
  simp [atSlot]

theorem atSlot_length_add (t s : List α) (i : Nat) :
    atSlot (t ++ s) (s.length + i) = atSlot t i := by
  rw [atSlot, List.reverse_append, List.getElem?_append_right (by simp), List.length_reverse,
    Nat.add_sub_cancel_left, atSlot]

/-- Cells above a dropped one move down by one slot, the others stay. -/
theorem atSlot_eraseIdx (hslot : slot < s.length) (hi : i + 1 < s.length) :
    atSlot (s.eraseIdx (s.length - 1 - slot)) i =
      if i < slot then atSlot s i else atSlot s (i + 1) := by
  have hlength : (s.eraseIdx (s.length - 1 - slot)).length = s.length - 1 := by
    rw [List.length_eraseIdx, if_pos (by omega)]
  rw [atSlot_eq_getElem? (by omega), hlength, List.getElem?_eraseIdx]
  split
  · next habove =>
    rw [if_neg (by omega), atSlot_eq_getElem? hi]
    exact congrArg (s[·]?) (by omega)
  · next hbelow =>
    rw [if_pos (by omega), atSlot_eq_getElem? (by omega)]
    exact congrArg (s[·]?) (by omega)

theorem atSlot_set (hslot : slot < s.length) (hi : i < s.length) (a : α) :
    atSlot (s.set (s.length - 1 - slot) a) i = if i = slot then some a else atSlot s i := by
  rw [atSlot_eq_getElem? (by simpa using hi), List.length_set, List.getElem?_set]
  split
  · next heq => rw [if_pos (by omega), if_pos (by omega)]
  · next hne => rw [if_neg (by omega), atSlot_eq_getElem? hi]

/-- A cell that is taken out and put back in the same place gives way to the new one. -/
theorem insertIdx_eraseIdx (s : List α) (a : α) (h : i < s.length) :
    (s.eraseIdx i).insertIdx i a = s.set i a := by
  refine List.ext_getElem? fun j => ?_
  have hlength : (s.eraseIdx i).length = s.length - 1 := by
    rw [List.length_eraseIdx, if_pos h]
  rw [List.getElem?_insertIdx, List.getElem?_set]
  rcases Nat.lt_trichotomy j i with hlt | rfl | hgt
  · rw [if_pos hlt, if_neg (by omega), List.getElem?_eraseIdx, if_pos hlt]
  · rw [if_neg (Nat.lt_irrefl j), if_pos rfl, if_pos rfl, if_pos h, if_pos (by omega)]
  · rw [if_neg (by omega), if_neg (by omega), if_neg (by omega), List.getElem?_eraseIdx,
      if_neg (by omega), Nat.sub_add_cancel (by omega)]

theorem insertIdx_append (u : List α) (a : α) (h : i ≤ s.length) :
    (s ++ u).insertIdx i a = s.insertIdx i a ++ u := by
  induction s generalizing i with
  | nil =>
    obtain rfl : i = 0 := by simpa using h
    rfl
  | cons b rest ih =>
    cases i with
    | zero => rfl
    | succ n => simp [ih (Nat.le_of_succ_le_succ h)]

end Stack

/-! ## Moving cells -/

/-- A machine on stacks, with what its instructions do that move cells. -/
structure Mover (α : Type) extends Endings (List α) where
  nil : ∀ s, run [] s s
  cons : ∀ {i : Instr} {rest : Code} {s t u : List α}, step i s u → run rest u t →
    run (i :: rest) s t
  drop : ∀ a s, step .drop (a :: s) s
  dip : ∀ {body : Code} {s t : List α} (top : List α), run body s t →
    step (.dip top.length body) (top ++ s) (top ++ t)
  dug : ∀ {n : Nat} {s : List α} (a : α), n ≤ s.length → step (.dug n) (a :: s) (s.insertIdx n a)

namespace Mover

variable {α : Type} (M : Mover α) {s : List α}

theorem dropAt {n : Nat} (h : n < s.length) : M.step (Layout.dropAt n) s (s.eraseIdx n) := by
  obtain ⟨top, a, rest, rfl, rfl⟩ : ∃ top a rest, s = top ++ a :: rest ∧ top.length = n :=
    ⟨s.take n, s.get ⟨n, h⟩, s.drop (n + 1), by simp, by simp; omega⟩
  rw [List.eraseIdx_append_of_length_le (Nat.le_refl _), Nat.sub_self]
  cases top with
  | nil => exact M.drop a rest
  | cons b top => exact M.dip (b :: top) (M.cons (M.drop a rest) (M.nil rest))

/-- The top cell takes the place of the cell `jump` below it, which is dropped. -/
theorem settle (a : α) {jump : Nat} (h : jump < s.length) :
    M.run (Layout.settleCode jump) (a :: s) (s.set jump a) := by
  have hdrop : M.step (Layout.dropAt (jump + 1)) (a :: s) (a :: s.eraseIdx jump) :=
    M.dropAt (by simpa using h)
  refine M.cons hdrop ?_
  -- The new value has to be dug under the cells above its place, if there are any.
  split
  · have hlength : (s.eraseIdx jump).length = s.length - 1 := by
      rw [List.length_eraseIdx, if_pos h]
    rw [← Stack.insertIdx_eraseIdx s a h]
    exact M.cons (M.dug a (by omega)) (M.nil _)
  · next hzero =>
    obtain rfl : jump = 0 := by omega
    cases s with
    | nil => simp at h
    | cons b rest => exact M.nil _

end Mover

namespace Layout

open Stack

variable {α : Type} {l l' : Layout} {s : List α} {P P' : Ident → Ty → α → Prop} {name : Ident}
  {c : Cell}

/-- The stack has the cells of the layout, and its named cells are as described. -/
structure Holds (l : Layout) (P : Ident → Ty → α → Prop) (s : List α) : Prop where
  length : s.length = l.depth
  cells : ∀ {name : Ident} {c : Cell}, l.cell? name = some c →
    ∃ a, atSlot s c.slot = some a ∧ P name c.ty a

/-- A variable can be copied from its distance to the top. -/
theorem Holds.getElem? (h : l.Holds P s) (hl : l.WellFormed) (hc : l.cell? name = some c) :
    ∃ a, s[l.depth - 1 - c.slot]? = some a ∧ P name c.ty a := by
  obtain ⟨a, ha, hPa⟩ := h.cells hc
  have hbelow := hl.below hc
  rw [atSlot_eq_getElem? (by rw [h.length]; exact hbelow), h.length] at ha
  exact ⟨a, ha, hPa⟩

/-- More cells on top leave the named cells where they are. -/
theorem Holds.above (h : l.Holds P s) (hl : l.WellFormed) (hkeeps : l.Keeps l') {t : List α}
    (hdepth : l'.depth = l.depth + t.length) : l'.Holds P (t ++ s) where
  length := by
    rw [List.length_append, h.length, hdepth]
    exact Nat.add_comm _ _
  cells hc := by
    rw [hkeeps.cells] at hc
    obtain ⟨a, ha, hPa⟩ := h.cells hc
    have hbelow := hl.below hc
    exact ⟨a, by rw [atSlot_append t (by rw [h.length]; exact hbelow), ha], hPa⟩

/-- Dropping a variable's cell leaves the other variables with their cells. -/
theorem Holds.without (h : l.Holds P s) (hl : l.WellFormed) {slot : Nat}
    (hslot : l.slot? name = some slot) :
    (l.without name slot).Holds P (s.eraseIdx (l.depth - 1 - slot)) where
  length := by
    have hbelow := hl.slots_below hslot
    rw [List.length_eraseIdx, if_pos (by rw [h.length]; omega), h.length, depth_without]
  cells := by
    intro other _ hlowered
    obtain ⟨hne, d, hd, rfl⟩ := cell?_without_eq_some hlowered
    obtain ⟨a, ha, hPa⟩ := h.cells hd
    have hbelow := hl.slots_below hslot
    have hdbelow := hl.below hd
    have hslots : d.slot ≠ slot :=
      fun heq => hne (hl.slots_distinct (heq ▸ slot?_of_cell? hd) hslot)
    have hlength := h.length
    refine ⟨a, ?_, hPa⟩
    show atSlot _ (lowered slot d.slot) = some a
    unfold lowered
    -- a cell above the dropped one is found one slot further down
    split
    · next habove =>
      rw [← hlength, atSlot_eraseIdx (by omega) (by omega), if_neg (by omega),
        Nat.sub_add_cancel (by omega), ha]
    · next hnot =>
      rw [← hlength, atSlot_eraseIdx (by omega) (by omega), if_pos (by omega), ha]

/-- The top cell moves into the slot of a variable. -/
theorem Holds.settled {a : α} (h : l.Holds P (a :: s)) (hl : l.WellFormed) (htop : l.TopFree)
    (hc : l.cell? name = some c) (hnew : P' name c.ty a)
    (hother : ∀ other ty b, other ≠ name → P other ty b → P' other ty b) :
    (l.settled name c).Holds P' (s.set (l.depth - 2 - c.slot) a) := by
  have hlength := h.length
  rw [List.length_cons] at hlength
  have hkeeps := keeps_settled hl hc (d := s.length) hlength
  have hslot := htop (slot?_of_cell? hc)
  have hindex : l.depth - 2 - c.slot = s.length - 1 - c.slot := by omega
  refine ⟨?_, ?_⟩
  · rw [List.length_set, depth_settled]
    omega
  · intro other d hd
    rw [hkeeps.cells, cell?_atDepth] at hd
    have hdslot := htop (slot?_of_cell? hd)
    rw [hindex, atSlot_set (by omega) (by omega)]
    by_cases heq : other = name
    · subst heq
      cases hc.symm.trans hd
      exact ⟨a, if_pos rfl, hnew⟩
    · obtain ⟨b, hb, hPb⟩ := h.cells hd
      rw [atSlot_cons_of_lt a (by omega)] at hb
      refine ⟨b, ?_, hother other d.ty b heq hPb⟩
      rw [if_neg fun hslots => heq (hl.distinct hd hc hslots), hb]

/-- A new binding names the top cell. The bindings it hides keep their cells. -/
theorem Holds.bind {a : α} (h : l.Holds P (a :: s)) (hl : l.WellFormed) {ty : Ty}
    (hbind : l.bind name ty = .ok l') (hnew : P' name ty a)
    (hold : ∀ before other d b, l.cell? before = some d → P before d.ty b → other ≠ name →
      (l.hide name).cell? other = some d → P' other d.ty b) :
    l'.Holds P' (a :: s) := by
  obtain ⟨hpos, rfl⟩ := bind_eq_ok_iff.mp hbind
  refine ⟨by rw [depth_bindSlot, depth_hide]; exact h.length, ?_⟩
  intro other d hd
  rw [cell?_bindSlot] at hd
  split at hd
  · next heq =>
    cases hd
    have hlength := h.length
    rw [List.length_cons] at hlength
    refine ⟨a, ?_, heq ▸ hnew⟩
    have htop : l.depth - 1 = s.length := by omega
    rw [htop, atSlot_cons_length]
  · next hne =>
    obtain ⟨before, hbefore⟩ := cell?_hide_eq_some hl hd
    obtain ⟨b, hb, hPb⟩ := h.cells hbefore
    exact ⟨b, hb, hold before other d b hbefore hPb hne hd⟩

end Layout

end Covenant
