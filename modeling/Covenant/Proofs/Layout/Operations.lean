import Covenant.Proofs.Gen.Steps

/-!
# Covenant — operations on named cells

What the operations of a layout return, said once: when they succeed, which instructions they give
and which layout is left. `Layout.without` is the layout after a cell has been dropped from the
middle of the stack, `Layout.settled` the layout after a variable has been given a new value in its
old slot.

A layout has slots and types in two tables. `Layout.cell?` looks a name up in both.
-/

namespace Covenant

namespace Table

variable {α : Type} {t : Table α} (name : Ident)

/-- Erasing keeps the order of the other names. -/
theorem names_erase (t : Table α) :
    (t.erase name).names = t.names.filter fun other => other != name := by
  simp [names, erase, List.filter_map, Function.comp_def]

@[simp] theorem names_insert (t : Table α) (value : α) :
    (t.insert name value).names = name :: (t.erase name).names := rfl

@[simp] theorem names_mapValues (f : α → α) (t : Table α) : (t.mapValues f).names = t.names := by
  simp [names, mapValues]

/-- The names of a table are those under which something stands. -/
theorem mem_names_iff {name : Ident} : name ∈ t.names ↔ (t.get? name).isSome := by
  obtain ⟨entries⟩ := t
  simp only [names, get?]
  induction entries with
  | nil => simp
  | cons e rest ih =>
    obtain ⟨key, value⟩ := e
    rw [List.map_cons, List.mem_cons, lookup_cons, ih]
    by_cases hkey : name = key
    · simp [hkey]
    · simp [hkey]

theorem nodup_erase (h : t.names.Nodup) (name : Ident) : (t.erase name).names.Nodup := by
  rw [names_erase]
  exact h.filter _

/-- No operation lets a name stand twice. -/
theorem nodup_insert (h : t.names.Nodup) (name : Ident) (value : α) :
    (t.insert name value).names.Nodup := by
  rw [names_insert, List.nodup_cons]
  refine ⟨?_, nodup_erase h name⟩
  simp [names_erase]

end Table

/-- A named cell: its slot, counted from the bottom of the stack, and its type. -/
structure Cell where
  slot : Nat
  ty : Ty

namespace Layout

variable {l : Layout} {name : Ident} {l' : Layout} {names : List Ident} {ty : Ty} {code : Code}
  {i : Instr} {c : Cell}

/-- The cell of a name that has a slot and a type. -/
def cell? (l : Layout) (name : Ident) : Option Cell :=
  (l.slot? name).bind fun slot => (l.ty? name).map (Cell.mk slot)

/-- A named cell is a slot and a type under the same name. -/
theorem cell?_eq_some_iff :
    l.cell? name = some c ↔ l.slot? name = some c.slot ∧ l.ty? name = some c.ty := by
  obtain ⟨slot, ty⟩ := c
  simp [cell?, Option.bind_eq_some_iff]

theorem slot?_of_cell? (h : l.cell? name = some c) : l.slot? name = some c.slot :=
  (cell?_eq_some_iff.mp h).1

theorem ty?_of_cell? (h : l.cell? name = some c) : l.ty? name = some c.ty :=
  (cell?_eq_some_iff.mp h).2

@[simp] theorem cell?_atDepth (l : Layout) (d : Nat) : (l.atDepth d).cell? = l.cell? := rfl

theorem binds_eq_isSome (l : Layout) (name : Ident) : l.binds name = (l.slot? name).isSome := rfl

/-- The slots decide which names are bound. -/
theorem binds_iff : l.binds name = true ↔ ∃ slot, l.slot? name = some slot := by
  rw [binds_eq_isSome, Option.isSome_iff_exists]

theorem slot?_eq_none_iff : l.slot? name = none ↔ l.binds name = false := by
  rw [binds_eq_isSome, Option.isSome_eq_false_iff, Option.isNone_iff_eq_none]

theorem binds_of_cell? (h : l.cell? name = some c) : l.binds name = true :=
  binds_iff.mpr ⟨c.slot, slot?_of_cell? h⟩

theorem cell?_of_unbound (h : l.binds name = false) : l.cell? name = none := by
  rw [cell?, slot?_eq_none_iff.mpr h, Option.bind_none]

theorem mem_names_iff : name ∈ l.names ↔ l.binds name = true :=
  Table.mem_names_iff

/-- What has been declared since is bound now and was not bound then. -/
theorem mem_declaredSince_iff {l outer : Layout} :
    name ∈ l.declaredSince outer ↔ l.binds name = true ∧ outer.binds name = false := by
  simp [declaredSince, mem_names_iff]

/-! ## Dropping a cell -/

/-- The cell after another one has been dropped from a slot. -/
def Cell.lowered (slot : Nat) (c : Cell) : Cell := ⟨Layout.lowered slot c.slot, c.ty⟩

/-- The layout after a variable has been dropped from its slot. -/
def without (l : Layout) (name : Ident) (slot : Nat) : Layout :=
  { l with
    vars := (l.vars.erase name).mapValues (lowered slot)
    types := l.types.erase name
    formals := l.formals.erase name
    depth := l.depth - 1 }

section

variable (l : Layout) (name : Ident) (slot : Nat)

@[simp] theorem depth_without : (l.without name slot).depth = l.depth - 1 := rfl

/-- The cells above a dropped one come down by one. -/
theorem slot?_without (other : Ident) :
    (l.without name slot).slot? other =
      if other = name then none else (l.slot? other).map (lowered slot) := by
  simp only [slot?, without, Table.get?_mapValues, Table.get?_erase]
  split <;> rfl

/-- Types do not move with the cells. -/
theorem ty?_without (other : Ident) :
    (l.without name slot).ty? other = if other = name then none else l.ty? other :=
  Table.get?_erase l.types name other

theorem cell?_without (other : Ident) :
    (l.without name slot).cell? other =
      if other = name then none else (l.cell? other).map (Cell.lowered slot) := by
  simp only [cell?, slot?_without, ty?_without]
  split
  · rfl
  · cases l.slot? other <;> cases l.ty? other <;> rfl

end

/-- A cell that is left has been there, under another name than the dropped one. -/
theorem cell?_without_eq_some {name other : Ident} {slot : Nat} {c : Cell}
    (h : (l.without name slot).cell? other = some c) :
    other ≠ name ∧ ∃ d, l.cell? other = some d ∧ c = Cell.lowered slot d := by
  rw [cell?_without] at h
  split at h
  · simp at h
  · next hne =>
    obtain ⟨d, hd, rfl⟩ := Option.map_eq_some_iff.mp h
    exact ⟨hne, d, hd, rfl⟩

/-- A variable is dropped from the place its slot says, and the layout forgets it. -/
theorem dropName_eq_ok_iff :
    l.dropName name = .ok (i, l') ↔
      ∃ slot, l.slot? name = some slot ∧ slot < l.depth ∧ i = dropAt (l.depth - 1 - slot) ∧
        l' = l.without name slot := by
  unfold dropName
  cases l.slot? name with
  | none => simp
  | some slot =>
    simp only [Except.bind_eq_ok_iff, distance_eq_ok_iff, pop_eq_ok_iff,
      Table.traverse_of_ok (lower_eq slot), Except.ok.injEq, Except.pure_eq_ok_iff, Prod.mk.injEq]
    constructor
    · rintro ⟨_, ⟨hlt, rfl⟩, _, ⟨-, rfl⟩, _, rfl, rfl, rfl⟩
      exact ⟨slot, rfl, hlt, rfl, rfl⟩
    · rintro ⟨_, hslot, hlt, rfl, rfl⟩
      cases hslot
      exact ⟨_, ⟨hlt, rfl⟩, _, ⟨Nat.zero_lt_of_lt hlt, rfl⟩, _, rfl, rfl, rfl⟩

/-- A variable is freed as it is dropped, except that the one it hid comes back. -/
theorem free_eq_ok_iff :
    l.free name = .ok (i, l') ↔
      ∃ slot, l.slot? name = some slot ∧ slot < l.depth ∧ i = dropAt (l.depth - 1 - slot) ∧
        l' = (l.without name slot).unhide name := by
  simp only [free, Except.bind_eq_ok_iff, Prod.exists, dropName_eq_ok_iff, Except.pure_eq_ok_iff,
    Prod.mk.injEq]
  constructor
  · rintro ⟨_, _, ⟨slot, hslot, hlt, rfl, rfl⟩, rfl, rfl⟩
    exact ⟨slot, hslot, hlt, rfl, rfl⟩
  · rintro ⟨slot, hslot, hlt, rfl, rfl⟩
    exact ⟨_, _, ⟨slot, hslot, hlt, rfl, rfl⟩, rfl, rfl⟩

/-- The rest is dropped from the stack that the first drop leaves. -/
theorem dropNames_cons_eq_ok_iff {rest : List Ident} :
    l.dropNames (name :: rest) = .ok (code, l') ↔
      ∃ slot tail, l.slot? name = some slot ∧ slot < l.depth ∧
        (l.without name slot).dropNames rest = .ok (tail, l') ∧
        code = dropAt (l.depth - 1 - slot) :: tail := by
  simp only [dropNames, Except.bind_eq_ok_iff, Prod.exists, dropName_eq_ok_iff,
    Except.pure_eq_ok_iff, Prod.mk.injEq]
  constructor
  · rintro ⟨_, _, ⟨slot, hslot, hlt, rfl, rfl⟩, tail, _, hrest, rfl, rfl⟩
    exact ⟨slot, tail, hslot, hlt, hrest, rfl⟩
  · rintro ⟨slot, tail, hslot, hlt, hrest, rfl⟩
    exact ⟨_, _, ⟨slot, hslot, hlt, rfl, rfl⟩, tail, _, hrest, rfl, rfl⟩

/-- Variables are dropped one instruction at a time. -/
theorem code_of_dropNames {P : Code → Prop} (hnil : P [])
    (hcons : ∀ n rest, P rest → P (dropAt n :: rest)) (h : l.dropNames names = .ok (code, l')) :
    P code := by
  induction names generalizing l code with
  | nil =>
    cases h
    exact hnil
  | cons name rest ih =>
    obtain ⟨_, tail, -, -, htail, rfl⟩ := dropNames_cons_eq_ok_iff.mp h
    exact hcons _ _ (ih htail)

/-- What is bound in the end was bound before, and it has not been dropped. -/
theorem binds_of_dropNames {other : Ident} (h : l.dropNames names = .ok (code, l'))
    (hother : l'.binds other = true) : l.binds other = true ∧ other ∉ names := by
  induction names generalizing l code with
  | nil =>
    cases h
    exact ⟨hother, by simp⟩
  | cons name rest ih =>
    obtain ⟨_, tail, -, -, htail, rfl⟩ := dropNames_cons_eq_ok_iff.mp h
    obtain ⟨hbound, hfresh⟩ := ih htail
    obtain ⟨_, hslot⟩ := binds_iff.mp hbound
    rw [slot?_without] at hslot
    split at hslot
    · cases hslot
    · next hne =>
      obtain ⟨before, hbefore, -⟩ := Option.map_eq_some_iff.mp hslot
      exact ⟨binds_iff.mpr ⟨before, hbefore⟩, by simp [hne, hfresh]⟩

/-- Slots are looked up without losing or moving a name. -/
theorem slots_eq_ok {cells : List (Nat × Ident)} (h : l.slots names = .ok cells) :
    cells.map (·.2) = names := by
  induction names generalizing cells with
  | nil => simp_all [slots]
  | cons name rest ih =>
    rw [slots] at h
    split at h
    · simp at h
    · obtain ⟨tail, htail, hcells⟩ := Except.bind_eq_ok_iff.mp h
      obtain rfl := Except.pure_eq_ok_iff.mp hcells
      simp [ih htail]

/-- The names of bound variables can be looked up. -/
theorem slots_of_bound (h : ∀ name ∈ names, l.binds name = true) :
    ∃ cells, l.slots names = .ok cells := by
  induction names with
  | nil => exact ⟨[], rfl⟩
  | cons name rest ih =>
    obtain ⟨slot, hslot⟩ := binds_iff.mp (h name (by simp))
    obtain ⟨tail, htail⟩ := ih fun other hother => h other (by simp [hother])
    refine ⟨(slot, name) :: tail, ?_⟩
    rw [slots, hslot]
    exact Except.bind_eq_ok_iff.mpr ⟨tail, htail, rfl⟩

/-- Variables are freed in some order. Which order it is makes no difference to the proofs. -/
theorem freeAll_eq_ok (h : l.freeAll names = .ok (code, l')) :
    ∃ order, order.Perm names ∧ l.dropNames order = .ok (code, l') := by
  obtain ⟨cells, hslots, hdrop⟩ := Except.bind_eq_ok_iff.mp h
  refine ⟨_, ?_, hdrop⟩
  rw [← slots_eq_ok hslots]
  exact (List.mergeSort_perm _ _).map _

/-! ## A new value in an old slot -/

/-- The layout after a variable has been given the value that was on top. -/
def settled (l : Layout) (name : Ident) (cell : Cell) : Layout :=
  let dropped := l.without name cell.slot
  let back := { dropped with vars := dropped.vars.mapValues (raise cell.slot) }.bindSlot
    name cell.slot cell.ty
  match l.formals.get? name with
  | some formals => back.setFormals name formals
  | none => back

section

variable (l : Layout) (name : Ident) (cell : Cell)

@[simp] theorem depth_settled : (l.settled name cell).depth = l.depth - 1 := by
  unfold settled
  split <;> rfl

@[simp] theorem context_settled : (l.settled name cell).context = l.context := by
  unfold settled
  split <;> rfl

theorem vars_settled :
    (l.settled name cell).vars =
      ((l.without name cell.slot).vars.mapValues (raise cell.slot)).insert name cell.slot := by
  unfold settled
  split <;> rfl

/-- The variable keeps its slot. The others come down and go up again. -/
theorem slot?_settled (other : Ident) :
    (l.settled name cell).slot? other = if other = name then some cell.slot
      else ((l.without name cell.slot).slot? other).map (raise cell.slot) := by
  rw [slot?, vars_settled, Table.get?_insert, Table.get?_mapValues, slot?]

/-- The variable keeps its type as well. -/
theorem ty?_settled (other : Ident) :
    (l.settled name cell).ty? other = if other = name then some cell.ty else l.ty? other := by
  have htypes : (l.settled name cell).types = (l.types.erase name).insert name cell.ty := by
    unfold settled
    split <;> rfl
  simp only [ty?, htypes, Table.get?_insert, Table.get?_erase]
  split <;> rfl

end

/-- The code that puts the top cell in place of the cell `jump` below the next one. -/
def settleCode (jump : Nat) : Code :=
  dropAt (jump + 1) :: if 0 < jump then [.dug jump] else []

/-- The top cell is dug to its place only if it is not there already. -/
theorem settleCode_eq {n jump : Nat} (hi : i = dropAt (jump + 1)) (hn : n = jump) :
    (if 0 < n then [i, .dug n] else [i]) = settleCode jump := by
  subst hi hn
  unfold settleCode
  split <;> rfl

/-- A variable gets a new value exactly if it has a cell below the top one, with a type. -/
theorem replace_eq_ok_iff :
    l.replace name = .ok (code, l') ↔
      ∃ c, l.cell? name = some c ∧ c.slot + 1 < l.depth ∧
        code = settleCode (l.depth - 2 - c.slot) ∧ l' = l.settled name c := by
  unfold replace
  cases hcell : l.cell? name with
  | none =>
    -- what is missing is the slot or the type
    cases hslot : l.slot? name with
    | none => simp
    | some slot =>
      have hty : l.ty? name = none := by simpa [cell?, hslot] using hcell
      simp [hty]
  | some c =>
    simp only [slot?_of_cell? hcell, ty?_of_cell? hcell, Except.bind_eq_ok_iff, Prod.exists,
      dropName_eq_ok_iff, distance_eq_ok_iff, Except.pure_eq_ok_iff, Prod.mk.injEq,
      Option.some.injEq]
    constructor
    · rintro ⟨_, _, ⟨_, rfl, hlt, rfl, rfl⟩, _, ⟨habove, rfl⟩, rfl, rfl⟩
      rw [depth_without] at habove
      refine ⟨c, rfl, by omega, settleCode_eq ?_ ?_, rfl⟩
      · exact congrArg dropAt (by omega)
      · rw [depth_without]
        omega
    · rintro ⟨_, rfl, habove, rfl, rfl⟩
      refine ⟨_, _, ⟨_, rfl, by omega, rfl, rfl⟩, _, ⟨?_, rfl⟩, settleCode_eq ?_ ?_, rfl⟩
      · rw [depth_without]
        omega
      · exact congrArg dropAt (by omega)
      · rw [depth_without]
        omega

/-! ## Naming the top cell -/

/-- The top cell can be named as soon as there is one. -/
theorem bind_eq_ok_iff :
    l.bind name ty = .ok l' ↔
      0 < l.depth ∧ l' = (l.hide name).bindSlot name (l.depth - 1) ty := by
  unfold bind
  by_cases hzero : l.depth = 0
  · simp [hzero]
  · simp [hzero, Nat.pos_of_ne_zero hzero, eq_comm]

@[simp] theorem depth_hide (l : Layout) (name : Ident) : (l.hide name).depth = l.depth := by
  unfold hide
  split <;> rfl

@[simp] theorem depth_unhide (l : Layout) (name : Ident) : (l.unhide name).depth = l.depth := by
  unfold unhide
  split <;> rfl

@[simp] theorem depth_bindSlot (l : Layout) (name : Ident) (slot : Nat) (ty : Ty) :
    (l.bindSlot name slot ty).depth = l.depth := rfl

theorem depth_of_bind (h : l.bind name ty = .ok l') : l'.depth = l.depth := by
  obtain ⟨-, rfl⟩ := bind_eq_ok_iff.mp h
  simp

/-- Naming a cell does not leave the function that is compiled. -/
theorem context_of_bind (h : l.bind name ty = .ok l') : l'.context = l.context := by
  obtain ⟨-, rfl⟩ := bind_eq_ok_iff.mp h
  show (l.hide name).context = l.context
  unfold hide
  split <;> rfl

end Layout

namespace Gen

variable {config : Config} {state : State} {name : Ident} {done : Step Unit}

/-- What freeing a variable emits. -/
theorem free_eq_ok_iff :
    free name config state = .ok done ↔
      ∃ slot, state.layout.slot? name = some slot ∧ slot < state.layout.depth ∧
        done = ⟨(), config.notes (.freed name) ++ [Layout.dropAt (state.layout.depth - 1 - slot)],
          { state with layout := (state.layout.without name slot).unhide name }⟩ := by
  simp only [free, layout_bind, sound_bind_eq_ok_iff, Prod.exists, Layout.free_eq_ok_iff]
  constructor
  · rintro ⟨_, _, ⟨slot, hslot, hlt, rfl, rfl⟩, h⟩
    exact ⟨slot, hslot, hlt, by simpa using h⟩
  · rintro ⟨slot, hslot, hlt, rfl⟩
    exact ⟨_, _, ⟨slot, hslot, hlt, rfl, rfl⟩, by simp⟩

/-- What giving a variable the value on top emits. -/
theorem replace_eq_ok_iff :
    replace name config state = .ok done ↔
      ∃ c, state.layout.cell? name = some c ∧ c.slot + 1 < state.layout.depth ∧
        done = ⟨(), config.notes (.replaced name) ++
          Layout.settleCode (state.layout.depth - 2 - c.slot),
          { state with layout := state.layout.settled name c }⟩ := by
  simp only [replace, annotate_bind_eq_ok_iff, layout_bind, sound_bind_eq_ok_iff, Prod.exists,
    Layout.replace_eq_ok_iff]
  constructor
  · rintro ⟨_, ⟨_, _, ⟨c, hc, hlt, rfl, rfl⟩, h⟩, rfl⟩
    exact ⟨c, hc, hlt, by simp_all⟩
  · rintro ⟨c, hc, hlt, rfl⟩
    exact ⟨⟨(), Layout.settleCode (state.layout.depth - 2 - c.slot), _⟩,
      ⟨_, _, ⟨c, hc, hlt, rfl, rfl⟩, by simp⟩, rfl⟩

end Gen

end Covenant
