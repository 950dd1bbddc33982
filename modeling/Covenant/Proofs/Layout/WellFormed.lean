import Covenant.Proofs.Layout.Operations

/-!
# Covenant — well-formed layouts

A layout is well formed if its two tables have the same names, every named cell is on the stack and no
two names share a cell. This is what keeps the operations on named cells from running into an
inconsistency: a name that has a slot has a type, and a slot that is on the stack stays on it while
other cells come and go.

Two relations say how layouts change.

* `Layout.Keeps` — the named cells are the same, and no cell beneath the old top is gone. This is
  what expressions do. `Layout.After` also says how many cells there are on top.
* `Layout.Extends` — the old named cells are the same, and new ones sit above the old top. This is
  what statements do, and what a block undoes when it frees what its statements declared.

Hiding a shadowed binding is a renaming of slot and type (`Layout.slot?_rename`, `Layout.ty?_rename`),
so it neither moves a cell nor gives a cell two names.
-/

namespace Covenant

open Table

namespace Layout

variable {l l' l'' : Layout} {name : Ident} {c d : Cell} {other : Ident} {slot : Nat} {ty : Ty}
  {names : List Ident}

/-- Names have a slot just if they have a type. Every slot is on the stack, and no two names share
one. -/
structure WellFormed (l : Layout) : Prop where
  nodup : l.names.Nodup
  agrees : ∀ name, (l.slot? name).isSome = (l.ty? name).isSome
  slots_below : ∀ {name : Ident} {slot : Nat}, l.slot? name = some slot → slot < l.depth
  slots_distinct : ∀ {name other : Ident} {slot : Nat}, l.slot? name = some slot →
    l.slot? other = some slot → name = other

namespace WellFormed

theorem empty (context : Context) : (Layout.empty context).WellFormed :=
  ⟨List.nodup_nil, fun _ => rfl, fun h => by simp [slot?, Layout.empty] at h,
    fun h => by simp [slot?, Layout.empty] at h⟩

theorem frame (l : Layout) (context : Context) : (l.frame context).WellFormed :=
  ⟨List.nodup_nil, fun _ => rfl, fun h => by simp [slot?, Layout.empty, Layout.frame] at h,
    fun h => by simp [slot?, Layout.empty, Layout.frame] at h⟩

section

variable (hl : l.WellFormed)
include hl

/-- A named cell is on the stack. -/
theorem below (hc : l.cell? name = some c) : c.slot < l.depth :=
  hl.slots_below (slot?_of_cell? hc)

/-- No two names share a cell. -/
theorem distinct (hc : l.cell? name = some c) (hd : l.cell? other = some d)
    (heq : c.slot = d.slot) : name = other :=
  hl.slots_distinct (slot?_of_cell? hc) (heq ▸ slot?_of_cell? hd)

/-- A variable with a type has a slot. -/
theorem cell?_of_ty? (hty : l.ty? name = some ty) : ∃ slot, l.cell? name = some ⟨slot, ty⟩ := by
  have hagrees := hl.agrees name
  rw [hty, Option.isSome_some, Option.isSome_iff_exists] at hagrees
  obtain ⟨slot, hslot⟩ := hagrees
  exact ⟨slot, cell?_eq_some_iff.mpr ⟨hslot, hty⟩⟩

/-- A variable with a slot has a type. -/
theorem cell?_of_slot? (hslot : l.slot? name = some slot) :
    ∃ ty, l.cell? name = some ⟨slot, ty⟩ := by
  have hagrees := hl.agrees name
  rw [hslot, Option.isSome_some, eq_comm, Option.isSome_iff_exists] at hagrees
  obtain ⟨ty, hty⟩ := hagrees
  exact ⟨ty, cell?_eq_some_iff.mpr ⟨hslot, hty⟩⟩

theorem cell?_of_binds (hbound : l.binds name = true) : ∃ c, l.cell? name = some c := by
  obtain ⟨slot, hslot⟩ := binds_iff.mp hbound
  obtain ⟨ty, hc⟩ := hl.cell?_of_slot? hslot
  exact ⟨_, hc⟩

theorem binds_of_ty? (hty : l.ty? name = some ty) : l.binds name = true := by
  obtain ⟨slot, hc⟩ := hl.cell?_of_ty? hty
  exact binds_of_cell? hc

theorem ty?_eq_none_iff : l.ty? name = none ↔ l.binds name = false := by
  rw [binds_eq_isSome, hl.agrees, Option.isSome_eq_false_iff, Option.isNone_iff_eq_none]

end

end WellFormed

/-! ## Layouts with the same named cells -/

/-- The same named cells, with no fewer cells on the stack. -/
structure Keeps (l l' : Layout) : Prop where
  slots : ∀ name, l'.slot? name = l.slot? name
  types : ∀ name, l'.ty? name = l.ty? name
  depth_le : l.depth ≤ l'.depth
  formals : ∀ name, l'.formals.get? name = l.formals.get? name
  shadowed : l'.shadowed = l.shadowed
  context : l'.context = l.context
  nodup : l.names.Nodup → l'.names.Nodup

theorem Keeps.refl (l : Layout) : l.Keeps l :=
  ⟨fun _ => rfl, fun _ => rfl, Nat.le_refl _, fun _ => rfl, rfl, rfl, id⟩

theorem Keeps.trans (h : l.Keeps l') (h' : l'.Keeps l'') : l.Keeps l'' where
  slots name := (h'.slots name).trans (h.slots name)
  types name := (h'.types name).trans (h.types name)
  depth_le := Nat.le_trans h.depth_le h'.depth_le
  formals name := (h'.formals name).trans (h.formals name)
  shadowed := h'.shadowed.trans h.shadowed
  context := h'.context.trans h.context
  nodup hnodup := h'.nodup (h.nodup hnodup)

theorem Keeps.atDepth (l : Layout) {d : Nat} (hd : l.depth ≤ d) : l.Keeps (l.atDepth d) :=
  ⟨fun _ => rfl, fun _ => rfl, hd, fun _ => rfl, rfl, rfl, id⟩

/-- The depth of the later layout does not matter as long as the old cells are all there. -/
theorem Keeps.withDepth (h : l.Keeps l') {d : Nat} (hd : l.depth ≤ d) : l.Keeps (l'.atDepth d) :=
  ⟨h.slots, h.types, hd, h.formals, h.shadowed, h.context, h.nodup⟩

theorem Keeps.cells (h : l.Keeps l') (name : Ident) : l'.cell? name = l.cell? name := by
  rw [cell?, cell?, h.slots, h.types]

theorem Keeps.binds (h : l.Keeps l') (name : Ident) : l'.binds name = l.binds name := by
  rw [binds_eq_isSome, binds_eq_isSome, h.slots]

/-- Cells that come and go on top do no harm. -/
theorem WellFormed.of_keeps (hl : l.WellFormed) (h : l.Keeps l') : l'.WellFormed where
  nodup := h.nodup hl.nodup
  agrees name := by rw [h.slots, h.types, hl.agrees]
  slots_below hslot := Nat.lt_of_lt_of_le (hl.slots_below (h.slots _ ▸ hslot)) h.depth_le
  slots_distinct hslot hslot' := hl.slots_distinct (h.slots _ ▸ hslot) (h.slots _ ▸ hslot')

theorem WellFormed.atDepth (hl : l.WellFormed) {d : Nat} (hd : l.depth ≤ d) :
    (l.atDepth d).WellFormed :=
  hl.of_keeps (.atDepth l hd)

/-- Formal argument names are no cells. -/
theorem WellFormed.setFormals (hl : l.WellFormed) (function : Ident) (formals : List Ident) :
    (l.setFormals function formals).WellFormed :=
  ⟨hl.nodup, hl.agrees, hl.slots_below, hl.slots_distinct⟩

/-! ## Dropping a cell -/

/-- A slot after a cell has been dropped is another slot, lowered. -/
theorem slot?_without_eq_some {dropped : Nat} (h : (l.without name dropped).slot? other = some slot) :
    other ≠ name ∧ ∃ before, l.slot? other = some before ∧ slot = lowered dropped before := by
  rw [slot?_without] at h
  split at h
  · simp at h
  · next hne =>
    obtain ⟨before, hbefore, rfl⟩ := Option.map_eq_some_iff.mp h
    exact ⟨hne, before, hbefore, rfl⟩

/-- Dropping a cell moves the cells above it down, and no other cell was at its slot. -/
theorem WellFormed.without (hl : l.WellFormed) (hslot : l.slot? name = some slot) :
    (l.without name slot).WellFormed where
  nodup := by
    rw [names, Layout.without, names_mapValues]
    exact nodup_erase hl.nodup name
  agrees other := by
    rw [slot?_without, ty?_without]
    split
    · rfl
    · rw [Option.isSome_map, hl.agrees]
  slots_below := by
    intro other _ hlowered
    obtain ⟨hne, before, hbefore, rfl⟩ := slot?_without_eq_some hlowered
    have hbelow := hl.slots_below hbefore
    have hdropped := hl.slots_below hslot
    -- the dropped slot is free now, so the cells above it move into the gap
    have hslots : slot ≠ before := fun heq => hne (hl.slots_distinct hbefore (heq ▸ hslot))
    rw [depth_without]
    unfold lowered
    split <;> omega
  slots_distinct := by
    intro first second _ hlowered hlowered'
    obtain ⟨hfirst, d, hd, rfl⟩ := slot?_without_eq_some hlowered
    obtain ⟨hsecond, e, he, heq⟩ := slot?_without_eq_some hlowered'
    -- neither cell was at the slot itself, and lowering is injective elsewhere
    have hslotd : slot ≠ d := fun h => hfirst (hl.slots_distinct hd (h ▸ hslot))
    have hslote : slot ≠ e := fun h => hsecond (hl.slots_distinct he (h ▸ hslot))
    have hsame : d = e := by
      unfold lowered at heq
      grind
    exact hl.slots_distinct hd (hsame ▸ he)

/-- Dropping one variable leaves the others bound. -/
theorem binds_without (hne : other ≠ name) : (l.without name slot).binds other = l.binds other := by
  simp [binds_eq_isSome, slot?_without, hne]

/-! ## A new value in an old slot -/

/-- A slot comes back up by what it went down, unless it is the one that was dropped. -/
theorem raise_lowered {before : Nat} (hne : before ≠ slot) :
    raise slot (lowered slot before) = before := by
  unfold raise lowered
  grind

/-- A variable with a new value has its old cell, and so has every other variable. -/
theorem keeps_settled (hl : l.WellFormed) (hc : l.cell? name = some c) {d : Nat}
    (hd : d + 1 = l.depth) : (l.atDepth d).Keeps (l.settled name c) where
  slots other := by
    rw [slot?_settled]
    split
    · next heq => rw [heq, slot?_atDepth, slot?_of_cell? hc]
    · next hne =>
      rw [slot?_without, if_neg hne, slot?_atDepth]
      cases hslot : l.slot? other with
      | none => rfl
      | some before =>
        -- another variable is at another slot, so what was lowered is raised again
        have hbefore : before ≠ c.slot :=
          fun heq => hne (hl.slots_distinct hslot (heq ▸ slot?_of_cell? hc))
        simp [raise_lowered hbefore]
  types other := by
    rw [ty?_settled, ty?_atDepth]
    split
    · next heq => rw [heq, ty?_of_cell? hc]
    · rfl
  depth_le := by
    rw [depth_settled, depth_atDepth]
    omega
  formals other := by
    unfold settled
    rw [formals_atDepth]
    cases hformals : l.formals.get? name with
    | none =>
      simp only [bindSlot, without, get?_erase]
      split
      · next heq => rw [heq, hformals]
      · rfl
    | some formals =>
      simp only [bindSlot, without, setFormals, get?_insert, get?_erase]
      split
      · next heq => rw [heq, hformals]
      · rfl
  shadowed := by
    unfold settled
    split <;> rfl
  context := context_settled l name c
  nodup hnodup := by
    rw [names, vars_settled]
    refine nodup_insert ?_ _ _
    rw [names_mapValues, without, names_mapValues]
    exact nodup_erase hnodup name

/-! ## Names that change -/

/-- What stood under the old name stands under the new one, in place of what was there. -/
theorem get?_move {α : Type} (t : Table α) (source target other : Ident) :
    (move t source target).get? other =
      if (t.get? source).isSome then
        if other = target then t.get? source else if other = source then none else t.get? other
      else t.get? other := by
  unfold move
  cases hsource : t.get? source with
  | none => rfl
  | some value => simp [get?_insert, get?_erase]

/-- The slot moves to the new name, if there is one. -/
theorem slot?_rename (l : Layout) (source target other : Ident) :
    (l.rename source target).slot? other =
      if l.binds source then
        if other = target then l.slot? source else if other = source then none else l.slot? other
      else l.slot? other :=
  get?_move l.vars source target other

/-- The type moves together with the slot. -/
theorem ty?_rename (hl : l.WellFormed) (source target other : Ident) :
    (l.rename source target).ty? other =
      if l.binds source then
        if other = target then l.ty? source else if other = source then none else l.ty? other
      else l.ty? other := by
  rw [binds_eq_isSome, hl.agrees]
  exact get?_move l.types source target other

theorem names_rename_nodup (hl : l.names.Nodup) (source target : Ident) :
    (l.rename source target).names.Nodup := by
  simp only [names, rename, move]
  split
  · exact nodup_insert (nodup_erase hl source) _ _
  · exact hl

/-- After a renaming every slot has the name it had or the new one. -/
theorem slot?_rename_eq_some {source target other : Ident}
    (h : (l.rename source target).slot? other = some slot) :
    (other = target ∧ l.slot? source = some slot) ∨
      (l.slot? other = some slot ∧ (other = source → l.slot? source = none)) := by
  rw [slot?_rename] at h
  split at h
  · split at h
    · next heq => exact .inl ⟨heq, h⟩
    · split at h
      · cases h
      · next hne => exact .inr ⟨h, fun heq => absurd heq hne⟩
  · next hnone => exact .inr ⟨h, fun _ => slot?_eq_none_iff.mpr (by simpa using hnone)⟩

/-- A renaming gives no cell a second name. -/
theorem WellFormed.rename (hl : l.WellFormed) (source target : Ident) :
    (l.rename source target).WellFormed := by
  refine ⟨names_rename_nodup hl.nodup source target, fun other => ?_, ?_, ?_⟩
  · rw [slot?_rename, ty?_rename hl]
    have hsource := hl.agrees source
    have hother := hl.agrees other
    grind
  · intro other slot hslot
    rcases slot?_rename_eq_some hslot with ⟨-, hsource⟩ | ⟨hother, -⟩
    · exact hl.slots_below hsource
    · exact hl.slots_below hother
  · intro first second slot hslot hslot'
    -- a name that is neither source nor target cannot have the slot of the source
    rcases slot?_rename_eq_some hslot with ⟨hfirst, hd⟩ | ⟨hd, hfirst⟩ <;>
      rcases slot?_rename_eq_some hslot' with ⟨hsecond, he⟩ | ⟨he, hsecond⟩
    · exact hfirst.trans hsecond.symm
    · have hnone := hsecond (hl.slots_distinct he hd)
      exact absurd (hnone.symm.trans hd) (by simp)
    · have hnone := hfirst (hl.slots_distinct hd he)
      exact absurd (hnone.symm.trans he) (by simp)
    · exact hl.slots_distinct hd he

/-- Which names are hidden makes no difference. -/
theorem WellFormed.withShadowed (hl : l.WellFormed) (shadowed : Table (List Ident)) :
    ({ l with shadowed := shadowed } : Layout).WellFormed :=
  ⟨hl.nodup, hl.agrees, hl.slots_below, hl.slots_distinct⟩

theorem WellFormed.withContext (hl : l.WellFormed) (context : Context) :
    ({ l with context := context } : Layout).WellFormed :=
  ⟨hl.nodup, hl.agrees, hl.slots_below, hl.slots_distinct⟩

/-- Hiding a variable renames it. -/
theorem WellFormed.hide (hl : l.WellFormed) (name : Ident) : (l.hide name).WellFormed := by
  unfold Layout.hide
  split
  · exact (hl.rename name _).withShadowed _
  · exact hl

theorem WellFormed.unhide (hl : l.WellFormed) (name : Ident) : (l.unhide name).WellFormed := by
  unfold Layout.unhide
  split
  · exact (hl.rename _ name).withShadowed _
  · exact hl

/-! ## Naming the top cell -/

/-- The cell on top of the stack has no name. -/
def TopFree (l : Layout) : Prop :=
  ∀ ⦃name : Ident⦄ ⦃slot : Nat⦄, l.slot? name = some slot → slot + 1 < l.depth

/-- A cell that is new on top has no name. -/
theorem Keeps.topFree (h : l.Keeps l') (hl : l.WellFormed) (hd : l.depth < l'.depth) :
    l'.TopFree := by
  intro other slot hslot
  have hbelow := hl.slots_below (h.slots other ▸ hslot)
  omega

section

variable (l : Layout) (name : Ident) (slot : Nat) (ty : Ty) (other : Ident)

@[simp] theorem slot?_bindSlot :
    (l.bindSlot name slot ty).slot? other = if other = name then some slot else l.slot? other :=
  get?_insert l.vars name other slot

@[simp] theorem ty?_bindSlot :
    (l.bindSlot name slot ty).ty? other = if other = name then some ty else l.ty? other :=
  get?_insert l.types name other ty

@[simp] theorem cell?_bindSlot :
    (l.bindSlot name slot ty).cell? other =
      if other = name then some ⟨slot, ty⟩ else l.cell? other := by
  simp only [cell?, slot?_bindSlot, ty?_bindSlot]
  split <;> rfl

end

/-- A name can be given to a cell that has none. -/
theorem WellFormed.bindSlot (hl : l.WellFormed) (hslot : slot < l.depth)
    (hfree : ∀ {other}, l.slot? other ≠ some slot) (name : Ident) :
    (l.bindSlot name slot ty).WellFormed := by
  refine ⟨nodup_insert hl.nodup name _, fun other => ?_, ?_, ?_⟩
  · rw [slot?_bindSlot, ty?_bindSlot]
    split
    · rfl
    · exact hl.agrees other
  · intro other before hbefore
    rw [slot?_bindSlot] at hbefore
    split at hbefore
    · cases hbefore
      exact hslot
    · exact hl.slots_below hbefore
  · intro first second before hfirst hsecond
    rw [slot?_bindSlot] at hfirst hsecond
    split at hfirst <;> split at hsecond
    · next heq heq' => exact heq.trans heq'.symm
    · cases hfirst
      exact absurd hsecond hfree
    · cases hsecond
      exact absurd hfirst hfree
    · exact hl.slots_distinct hfirst hsecond

theorem hide_of_unbound (h : l.binds name = false) : l.hide name = l := by
  unfold hide
  rw [slot?_eq_none_iff.mpr h]

/-- A hidden variable has its slot under the hidden name. -/
theorem slot?_hide (hslot : l.slot? name = some slot) (other : Ident) :
    (l.hide name).slot? other = if other = hiddenName name slot then some slot
      else if other = name then none else l.slot? other := by
  have hmoved := slot?_rename l name (hiddenName name slot) other
  rw [if_pos (binds_iff.mpr ⟨slot, hslot⟩), hslot] at hmoved
  rw [← hmoved, hide, hslot]
  rfl

theorem ty?_hide (hslot : l.slot? name = some slot) (hty : l.ty? name = some ty) (other : Ident) :
    (l.hide name).ty? other = if other = hiddenName name slot then some ty
      else if other = name then none else l.ty? other := by
  have hmoved := get?_move l.types name (hiddenName name slot) other
  have htyped : (l.types.get? name).isSome = true := Option.isSome_iff_exists.mpr ⟨ty, hty⟩
  rw [if_pos htyped] at hmoved
  rw [← hty, ty?, hide, hslot]
  exact hmoved

/-- A hidden binding keeps its cell under the hidden name. -/
theorem cell?_hide (hc : l.cell? name = some c) (other : Ident) :
    (l.hide name).cell? other = if other = hiddenName name c.slot then some c
      else if other = name then none else l.cell? other := by
  rw [cell?, slot?_hide (slot?_of_cell? hc), ty?_hide (slot?_of_cell? hc) (ty?_of_cell? hc), cell?]
  split
  · rfl
  · split <;> rfl

/-- Hiding a binding adds no cell. -/
theorem cell?_hide_eq_some (hl : l.WellFormed) (h : (l.hide name).cell? other = some d) :
    ∃ before, l.cell? before = some d := by
  cases hbound : l.binds name with
  | false =>
    rw [hide_of_unbound hbound] at h
    exact ⟨other, h⟩
  | true =>
    obtain ⟨c, hc⟩ := hl.cell?_of_binds hbound
    rw [cell?_hide hc] at h
    grind

/-- A cell on top that has no name can be named. -/
theorem WellFormed.bind (hl : l.WellFormed) (htop : l.TopFree) (h : l.bind name ty = .ok l') :
    l'.WellFormed := by
  obtain ⟨hpos, rfl⟩ := bind_eq_ok_iff.mp h
  refine (hl.hide name).bindSlot (by rw [depth_hide]; omega) ?_ name
  -- the hidden variables are the old ones, and none of these was on top
  intro other hother
  obtain ⟨ty, hhidden⟩ := (hl.hide name).cell?_of_slot? hother
  obtain ⟨before, hbefore⟩ := cell?_hide_eq_some hl hhidden
  have hslot := htop (slot?_of_cell? hbefore)
  simp only at hslot
  omega

theorem WellFormed.topFree_push (hl : l.WellFormed) : (l.push 1).TopFree :=
  fun _ _ hslot => Nat.succ_lt_succ (hl.slots_below hslot)

/-- A cell that has just been pushed may get any name. -/
theorem WellFormed.bind_push (hl : l.WellFormed) (h : (l.push 1).bind name ty = .ok l') :
    l'.WellFormed :=
  (hl.atDepth (Nat.le_succ _)).bind hl.topFree_push h

theorem cell?_of_bind (h : l.bind name ty = .ok l') : l'.cell? name = some ⟨l.depth - 1, ty⟩ := by
  obtain ⟨-, rfl⟩ := bind_eq_ok_iff.mp h
  simp

/-! ## Plain names -/

/-- A hidden name has a sign that plain names do not have. -/
theorem hiddenName_ne (hother : '@' ∉ other.toList) : hiddenName name slot ≠ other := by
  rintro rfl
  simp [hiddenName] at hother

/-- A move does not touch other names. -/
theorem get?_move_of_ne {α : Type} (t : Table α) {source target : Ident} (hsource : other ≠ source)
    (htarget : other ≠ target) : (move t source target).get? other = t.get? other := by
  rw [get?_move, if_neg htarget, if_neg hsource, ite_self]

/-- Hiding one name leaves the others alone. -/
theorem hide_of_ne (hother : '@' ∉ other.toList) (hne : other ≠ name) :
    (l.hide name).slot? other = l.slot? other ∧ (l.hide name).ty? other = l.ty? other := by
  unfold hide
  split
  · have hhidden {slot : Nat} : other ≠ hiddenName name slot := (hiddenName_ne hother).symm
    exact ⟨get?_move_of_ne l.vars hne hhidden, get?_move_of_ne l.types hne hhidden⟩
  · exact ⟨rfl, rfl⟩

section

variable (h : l.bind name ty = .ok l') (hother : '@' ∉ other.toList)
include h hother

theorem slot?_bind :
    l'.slot? other = if other = name then some (l.depth - 1) else l.slot? other := by
  obtain ⟨-, rfl⟩ := bind_eq_ok_iff.mp h
  rw [slot?_bindSlot]
  split
  · rfl
  · next hne => exact (hide_of_ne hother hne).1

/-- After a binding of one name the other plain names have the cells that they had. -/
theorem cell?_bind :
    l'.cell? other = if other = name then some ⟨l.depth - 1, ty⟩ else l.cell? other := by
  obtain ⟨-, rfl⟩ := bind_eq_ok_iff.mp h
  rw [cell?_bindSlot]
  split
  · rfl
  · next hne => rw [cell?, cell?, (hide_of_ne hother hne).1, (hide_of_ne hother hne).2]

/-- A cell after a binding is the new one or one that was there. -/
theorem cell?_of_bind_plain (hd : l'.cell? other = some d) :
    (other = name ∧ d = ⟨l.depth - 1, ty⟩) ∨ (other ≠ name ∧ l.cell? other = some d) := by
  rw [cell?_bind h hother] at hd
  split at hd
  · next heq => exact .inl ⟨heq, (Option.some.inj hd).symm⟩
  · next hne => exact .inr ⟨hne, hd⟩

/-- A new binding leaves the plain names bound that were. -/
theorem binds_of_bind (hbound : l.binds other = true) : l'.binds other = true := by
  rw [binds_eq_isSome, slot?_bind h hother]
  split
  · rfl
  · exact hbound

/-- A binding makes no other plain name. -/
theorem unbound_of_bind (hne : other ≠ name) (hfree : l.binds other = false) :
    l'.binds other = false := by
  rw [binds_eq_isSome, slot?_bind h hother, if_neg hne]
  exact hfree

/-- A cell with a plain name has a name after every binding, and the same one unless this is what is
bound. -/
theorem exists_name_of_bind (hc : l.cell? other = some c) :
    ∃ after, l'.cell? after = some c ∧ (other ≠ name → after = other) := by
  -- the variable that is bound anew keeps its cell under its hidden name
  by_cases heq : other = name
  · obtain ⟨-, rfl⟩ := bind_eq_ok_iff.mp h
    refine ⟨hiddenName name c.slot, ?_, fun hne => absurd heq hne⟩
    rw [cell?_bindSlot, if_neg (heq ▸ hiddenName_ne hother), cell?_hide (heq ▸ hc), if_pos rfl]
  · exact ⟨other, by rw [cell?_bind h hother, if_neg heq, hc], fun _ => rfl⟩

end

/-! ## Cells on top of a layout -/

/-- The same named cells, with exactly so many more cells on top. -/
structure After (l : Layout) (n : Nat) (l' : Layout) : Prop where
  keeps : l.Keeps l'
  depth : l'.depth = l.depth + n

namespace After

variable {l l' : Layout} {n : Nat}

theorem refl (l : Layout) : l.After 0 l := ⟨.refl l, rfl⟩

theorem trans {l'' : Layout} {m : Nat} (h : l.After n l') (h' : l'.After m l'') :
    l.After (m + n) l'' := by
  refine ⟨h.keeps.trans h'.keeps, ?_⟩
  rw [h'.depth, h.depth]
  omega

theorem atDepth (h : l.After n l') {d m : Nat} (hd : d = l.depth + m) : l.After m (l'.atDepth d) :=
  ⟨h.keeps.withDepth (by omega), hd⟩

theorem wellFormed (h : l.After n l') (hl : l.WellFormed) : l'.WellFormed := hl.of_keeps h.keeps

theorem topFree (h : l.After (n + 1) l') (hl : l.WellFormed) : l'.TopFree :=
  h.keeps.topFree hl (by have := h.depth; omega)

/-- A variable with a new value: one cell fewer on top. -/
theorem settled (h : l.After (n + 1) l') (hl : l.WellFormed) {name : Ident} {c : Cell}
    (hc : l'.cell? name = some c) : l.After n (l'.settled name c) := by
  have hdepth := h.depth
  have hkeeps := keeps_settled (h.wellFormed hl) hc (d := l.depth + n) (by omega)
  refine ⟨(h.keeps.withDepth (Nat.le_add_right _ n)).trans hkeeps, ?_⟩
  rw [depth_settled]
  omega

end After

/-! ## Room underneath -/

theorem slot?_shift (l : Layout) (n : Nat) (other : Ident) :
    (l.shift n).slot? other = (l.slot? other).map (· + n) :=
  get?_mapValues _ l.vars other

theorem cell?_shift (l : Layout) (n : Nat) (other : Ident) :
    (l.shift n).cell? other = (l.cell? other).map fun c => { c with slot := c.slot + n } := by
  have hty : (l.shift n).ty? other = l.ty? other := rfl
  rw [cell?, cell?, slot?_shift, hty]
  cases l.slot? other <;> cases l.ty? other <;> rfl

/-- Room underneath moves all cells alike. -/
theorem WellFormed.shift (hl : l.WellFormed) (n : Nat) : (l.shift n).WellFormed := by
  refine ⟨?_, fun other => ?_, ?_, ?_⟩
  · rw [names, Layout.shift, names_mapValues]
    exact hl.nodup
  · rw [slot?_shift, Option.isSome_map, hl.agrees]
    rfl
  · intro other _ hslot
    rw [slot?_shift] at hslot
    obtain ⟨slot, hbefore, rfl⟩ := Option.map_eq_some_iff.mp hslot
    exact Nat.add_lt_add_right (hl.slots_below hbefore) n
  · intro first second _ hfirst hsecond
    rw [slot?_shift] at hfirst hsecond
    obtain ⟨slot, hslot, rfl⟩ := Option.map_eq_some_iff.mp hfirst
    obtain ⟨slot', hslot', heq⟩ := Option.map_eq_some_iff.mp hsecond
    exact hl.slots_distinct hslot (Nat.add_right_cancel heq ▸ hslot')

/-! ## Layouts with further named cells -/

/-- The old named cells are the same; new ones sit above the old top. -/
structure Extends (outer l : Layout) : Prop where
  slots : ∀ {name : Ident} {slot : Nat}, outer.slot? name = some slot → l.slot? name = some slot
  types : ∀ {name : Ident}, outer.binds name = true → l.ty? name = outer.ty? name
  above : ∀ {name : Ident} {slot : Nat}, l.slot? name = some slot → outer.binds name = false →
    outer.depth ≤ slot
  depth_le : outer.depth ≤ l.depth
  shadowed : l.shadowed = outer.shadowed
  context : l.context = outer.context

variable {outer : Layout}

/-- Layouts with the same named cells have no further ones. -/
theorem Keeps.extends (h : outer.Keeps l) : outer.Extends l where
  slots hslot := (h.slots _).trans hslot
  types _ := h.types _
  above hslot hnew := by
    rw [h.slots, slot?_eq_none_iff.mpr hnew] at hslot
    cases hslot
  depth_le := h.depth_le
  shadowed := h.shadowed
  context := h.context

namespace Extends

theorem refl (l : Layout) : l.Extends l := (Keeps.refl l).extends

theorem binds (h : outer.Extends l) (hname : outer.binds name = true) : l.binds name = true := by
  obtain ⟨slot, hslot⟩ := binds_iff.mp hname
  exact binds_iff.mpr ⟨slot, h.slots hslot⟩

/-- A cell of the outer layout is still there. -/
theorem kept (h : outer.Extends l) (hc : outer.cell? name = some c) : l.cell? name = some c :=
  cell?_eq_some_iff.mpr ⟨h.slots (slot?_of_cell? hc),
    (h.types (binds_of_cell? hc)).trans (ty?_of_cell? hc)⟩

/-- What is new in the middle is new at the end, or has been there from the start. -/
theorem trans (h : outer.Extends l) (h' : l.Extends l') : outer.Extends l' where
  slots hslot := h'.slots (h.slots hslot)
  types hbound := (h'.types (h.binds hbound)).trans (h.types hbound)
  above := by
    intro name slot hslot hnew
    cases hmid : l.slot? name with
    | none => exact Nat.le_trans h.depth_le (h'.above hslot (slot?_eq_none_iff.mp hmid))
    | some before =>
      -- the slot in the middle is still the one at the end
      cases (h'.slots hmid).symm.trans hslot
      exact h.above hmid hnew
  depth_le := Nat.le_trans h.depth_le h'.depth_le
  shadowed := h'.shadowed.trans h.shadowed
  context := h'.context.trans h.context

theorem withDepth (h : outer.Extends l) {d : Nat} (hd : outer.depth ≤ d) :
    outer.Extends (l.atDepth d) :=
  ⟨h.slots, h.types, h.above, hd, h.shadowed, h.context⟩

theorem setFormals (h : outer.Extends l) (function : Ident) (formals : List Ident) :
    outer.Extends (l.setFormals function formals) :=
  ⟨h.slots, h.types, h.above, h.depth_le, h.shadowed, h.context⟩

/-- A new variable on top of the stack. -/
theorem bind (h : outer.Extends l) (hroom : outer.depth < l.depth)
    (hfresh : l.binds name = false) (hbind : l.bind name ty = .ok l') : outer.Extends l' := by
  obtain ⟨-, rfl⟩ := bind_eq_ok_iff.mp hbind
  rw [hide_of_unbound hfresh]
  -- the outer variables have other names
  have hne {other : Ident} (hother : outer.binds other = true) : other ≠ name := by
    rintro rfl
    exact absurd (hfresh.symm.trans (h.binds hother)) (by simp)
  refine ⟨fun hslot => ?_, fun hbound => ?_, ?_, h.depth_le, h.shadowed, h.context⟩
  · rw [slot?_bindSlot, if_neg (hne (binds_iff.mpr ⟨_, hslot⟩)), h.slots hslot]
  · rw [ty?_bindSlot, if_neg (hne hbound), h.types hbound]
  · intro other slot hslot hnew
    rw [slot?_bindSlot] at hslot
    split at hslot
    · cases hslot
      omega
    · exact h.above hslot hnew

/-- Dropping a variable that the outer layout does not have leaves the outer variables alone. -/
theorem without (h : outer.Extends l) (houter : outer.WellFormed)
    (hslot : l.slot? name = some slot) (hbelow : slot < l.depth) (hnew : outer.binds name = false) :
    outer.Extends (l.without name slot) := by
  have habove := h.above hslot hnew
  have hne {other : Ident} (hother : outer.binds other = true) : other ≠ name := by
    rintro rfl
    exact absurd (hnew.symm.trans hother) (by simp)
  refine ⟨fun hother => ?_, fun hbound => ?_, ?_, ?_, h.shadowed, h.context⟩
  · have hlt := houter.slots_below hother
    rw [slot?_without, if_neg (hne (binds_iff.mpr ⟨_, hother⟩)), h.slots hother, Option.map_some,
      lowered, if_neg (by omega)]
  · rw [ty?_without, if_neg (hne hbound), h.types hbound]
  · intro other _ hlowered hnone
    -- a slot above the outer top can only come down to the outer top
    obtain ⟨-, before, hbefore, rfl⟩ := slot?_without_eq_some hlowered
    have hbefore := h.above hbefore hnone
    unfold lowered
    split <;> omega
  · rw [depth_without]
    omega

end Extends

/-! ## Dropping several cells -/

/-- What dropping a variable keeps, dropping several of them keeps. -/
theorem dropNames_induction {P : Layout → Prop} {code : Code}
    (hstep : ∀ {l : Layout} {name : Ident} {slot : Nat}, P l → name ∈ names →
      l.slot? name = some slot → slot < l.depth → P (l.without name slot))
    (hstart : P l) (h : l.dropNames names = .ok (code, l')) : P l' := by
  induction names generalizing l code with
  | nil =>
    cases h
    exact hstart
  | cons name rest ih =>
    obtain ⟨slot, tail, hslot, hbelow, hrest, rfl⟩ := dropNames_cons_eq_ok_iff.mp h
    refine ih (fun hP hmem => hstep hP (List.mem_cons_of_mem name hmem)) ?_ hrest
    exact hstep hstart List.mem_cons_self hslot hbelow

/-- The variables that are still to be dropped are bound. -/
theorem binds_without_of_mem {slot : Nat} (hfresh : name ∉ names)
    (hbound : ∀ other ∈ name :: names, l.binds other = true) :
    ∀ other ∈ names, (l.without name slot).binds other = true := by
  intro other hother
  rw [binds_without (by rintro rfl; exact hfresh hother)]
  exact hbound other (List.mem_cons_of_mem name hother)

/-- Different bound variables of a well-formed layout can all be dropped. -/
theorem WellFormed.dropNames (hl : l.WellFormed) (hnodup : names.Nodup)
    (hbound : ∀ name ∈ names, l.binds name = true) :
    ∃ code l', l.dropNames names = .ok (code, l') := by
  induction names generalizing l with
  | nil => exact ⟨[], l, rfl⟩
  | cons name rest ih =>
    obtain ⟨hfresh, hnodup⟩ := List.nodup_cons.mp hnodup
    obtain ⟨slot, hslot⟩ := binds_iff.mp (hbound name List.mem_cons_self)
    obtain ⟨code, l', hdrop⟩ := ih (hl.without hslot) hnodup (binds_without_of_mem hfresh hbound)
    exact ⟨_, l',
      dropNames_cons_eq_ok_iff.mpr ⟨slot, code, hslot, hl.slots_below hslot, hdrop, rfl⟩⟩

/-- Different bound variables can be freed, as this is a drop in some order. -/
theorem WellFormed.freeAll (hl : l.WellFormed) (hnodup : names.Nodup)
    (hbound : ∀ name ∈ names, l.binds name = true) :
    ∃ code l', l.freeAll names = .ok (code, l') := by
  obtain ⟨cells, hcells⟩ := slots_of_bound hbound
  have hperm : ((cells.mergeSort fun a b => b.1 ≤ a.1).map (·.2)).Perm names := by
    rw [← slots_eq_ok hcells]
    exact (List.mergeSort_perm _ _).map _
  obtain ⟨code, l', hdrop⟩ := hl.dropNames (hperm.nodup_iff.mpr hnodup)
    fun name hmem => hbound name (hperm.mem_iff.mp hmem)
  exact ⟨code, l', Except.bind_eq_ok_iff.mpr ⟨cells, hcells, hdrop⟩⟩

end Layout

end Covenant
