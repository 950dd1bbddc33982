import Covenant.Proofs.EntryStack

/-!
# Covenant — named cells on a real stack

A layout and a stack of the same depth say together what each cell of the stack is: the value in it, and
the variable whose value that is, if any (`Layout.view`). The operations of a layout return code. Run on
the stack, it copies, drops or replaces the cell in question and nothing else, and the layout after the
operation has the names where their values are now (`operations_move_named_cells`).

Dropping a cell moves the cells above it down by one slot. A slot of the stack after it is a slot of the
stack before it, `lifted` over the gap. Dropping several cells is dropping them one by one, in any
order.
-/

namespace Covenant

open Ending Stack Machine

variable {α β γ : Type} {M : Machine α} {l l' : Layout} {s : List α} {name other : Ident}
  {names : List Ident} {f g : Nat → β} {slot i : Nat}

/-! ## Labels of slots -/

namespace Stack

/-- The cells of a stack with the labels that their slots have. -/
def label (f : Nat → β) : List α → List (β × α)
  | [] => []
  | a :: s => (f s.length, a) :: label f s

theorem label_append (f : Nat → β) (t s : List α) :
    label f (t ++ s) = label (fun i => f (i + s.length)) t ++ label f s := by
  induction t with
  | nil => rfl
  | cons a t ih => rw [List.cons_append, label, label, ih, List.length_append, List.cons_append]

theorem label_congr (h : ∀ i < s.length, f i = g i) : label f s = label g s := by
  induction s with
  | nil => rfl
  | cons a s ih =>
    rw [label, label, h _ (Nat.lt_succ_self _), ih fun i hi => h i (Nat.lt_succ_of_lt hi)]

theorem label_map (r : β → γ) (f : Nat → β) (s : List α) :
    label (fun i => r (f i)) s = (label f s).map (Prod.map r id) := by
  induction s with
  | nil => rfl
  | cons a s ih => rw [label, label, ih, List.map_cons, Prod.map_apply, id]

theorem exists_of_mem_label {x : β × α} (h : x ∈ label f s) : ∃ i, f i = x.1 := by
  induction s with
  | nil => simp [label] at h
  | cons a s ih =>
    rcases List.mem_cons.mp h with rfl | h
    · exact ⟨_, rfl⟩
    · exact ih h

/-- A stack is made of the cells above a slot, the cell in it and the cells below. -/
theorem exists_split (h : slot < s.length) :
    ∃ up v down, s = up ++ v :: down ∧ down.length = slot ∧ s.length - 1 - slot = up.length := by
  have hlt : s.length - 1 - slot < s.length := by omega
  refine ⟨s.take (s.length - 1 - slot), s[s.length - 1 - slot], s.drop (s.length - 1 - slot + 1),
    ?_, ?_, ?_⟩
  · rw [List.getElem_cons_drop, List.take_append_drop]
  · rw [List.length_drop]
    omega
  · rw [List.length_take]
    omega

/-- Where a slot was before the one below it was dropped. -/
def lifted (slot i : Nat) : Nat := if i < slot then i else i + 1

theorem lifted_ne : lifted slot i ≠ slot := by
  unfold lifted
  split <;> omega

end Stack

namespace Layout

/-! ## Names and values of cells -/

/-- A well-formed layout of a stack with as many cells. -/
structure Fits (l : Layout) (s : List α) : Prop where
  wellFormed : l.WellFormed
  length : s.length = l.depth

/-- The name of the cell in a slot. -/
def nameAt? (l : Layout) (slot : Nat) : Option Ident :=
  l.names.find? fun name => l.slot? name == some slot

/-- The cells of the stack, each with the name it has. -/
def view (l : Layout) (s : List α) : List (Option Ident × α) := label l.nameAt? s

/-- The code ends with a stack that is laid out so, with these cells. -/
def Leads (M : Machine α) (code : Code) (s : List α) (l : Layout)
    (cells : List (Option Ident × α)) : Prop :=
  ∃ t, M.run code s = ends t ∧ l.Fits t ∧ l.view t = cells

theorem WellFormed.nameAt?_eq_some_iff (hl : l.WellFormed) :
    l.nameAt? slot = some name ↔ l.slot? name = some slot := by
  refine ⟨fun h => by simpa using List.find?_some h, fun h => ?_⟩
  cases hfound : l.nameAt? slot with
  | none =>
    have hmem : name ∈ l.names := mem_names_iff.mpr (binds_iff.mpr ⟨slot, h⟩)
    exact absurd h (by simpa using List.find?_eq_none.mp hfound name hmem)
  | some other =>
    have hother : l.slot? other = some slot := by simpa using List.find?_some hfound
    rw [hl.slots_distinct hother h]

/-- No name is up there. -/
theorem WellFormed.nameAt?_of_le (hl : l.WellFormed) (h : l.depth ≤ slot) : l.nameAt? slot = none := by
  refine Option.eq_none_iff_forall_ne_some.mpr fun name hname => ?_
  exact Nat.not_lt.mpr h (hl.slots_below (hl.nameAt?_eq_some_iff.mp hname))

theorem WellFormed.view_append_cons {up down : List α} (hl : l.WellFormed)
    (hslot : l.slot? name = some slot) (hdown : down.length = slot) (v : α) :
    l.view (up ++ v :: down) =
      label (fun i => l.nameAt? (i + (slot + 1))) up ++ (some name, v) :: l.view down := by
  rw [view, label_append, List.length_cons, label, hdown, hl.nameAt?_eq_some_iff.mpr hslot, view]

/-! ## Copying a cell -/

theorem Fits.fetch (hfits : l.Fits s) (M : Machine α) (hname : l.binds name = true) :
    ∃ a i l', (some name, a) ∈ l.view s ∧ l.fetch name = .ok (i, l') ∧
      Leads M [i] s l' ((none, a) :: l.view s) := by
  obtain ⟨slot, hslot⟩ := binds_iff.mp hname
  have hbelow := hfits.wellFormed.slots_below hslot
  obtain ⟨up, a, down, rfl, hdown, hup⟩ := exists_split (hfits.length ▸ hbelow)
  refine ⟨a, _, _, ?_, (fetch_eq_ok_iff l).mpr ⟨_, hslot, hbelow, rfl, rfl⟩,
    a :: (up ++ a :: down), ?_, ⟨hfits.wellFormed.atDepth (Nat.le_succ _), ?_⟩, ?_⟩
  · rw [hfits.wellFormed.view_append_cons hslot hdown]
    simp
  · have hjump : l.depth - slot = up.length + 1 := by
      rw [← hup, hfits.length]
      omega
    simp [run_singleton, step, hjump]
  · rw [List.length_cons, hfits.length]
    rfl
  · refine congrArg (fun n => (n, a) :: l.view (up ++ a :: down)) ?_
    exact hfits.wellFormed.nameAt?_of_le (Nat.le_of_eq hfits.length.symm)

/-! ## Dropping cells -/

theorem slot?_without_iff (hl : l.WellFormed) (hslot : l.slot? name = some slot) :
    (l.without name slot).slot? other = some i ↔ l.slot? other = some (lifted slot i) := by
  rw [slot?_without]
  split
  · next heq => simp [heq, hslot, lifted_ne.symm]
  · next hne =>
    cases hother : l.slot? other with
    | none => simp
    | some found =>
      have hslots : found ≠ slot := fun heq => hne (hl.slots_distinct hother (heq ▸ hslot))
      simp only [Option.map_some, Option.some.injEq, lifted, lowered]
      grind

theorem Fits.drop (hfits : l.Fits s) (M : Machine α) (hslot : l.slot? name = some slot) :
    ∃ above v below, l.view s = above ++ (some name, v) :: below ∧
      Leads M [dropAt (l.depth - 1 - slot)] s (l.without name slot) (above ++ below) := by
  have hl := hfits.wellFormed
  obtain ⟨up, v, down, rfl, hdown, hup⟩ := exists_split (hfits.length ▸ hl.slots_below hslot)
  have hnames : ∀ i, (l.without name slot).nameAt? i = l.nameAt? (lifted slot i) := fun i =>
    Option.ext fun other => by
      rw [(hl.without hslot).nameAt?_eq_some_iff, hl.nameAt?_eq_some_iff, slot?_without_iff hl hslot]
  have hlength := hfits.length
  rw [List.length_append, List.length_cons] at hlength
  refine ⟨_, v, _, hl.view_append_cons hslot hdown v, up ++ down, ?_, ⟨hl.without hslot, ?_⟩, ?_⟩
  · rw [run_singleton, ← hfits.length, hup, step_dropAt (by simp)]
    simp [List.eraseIdx_append_of_length_le]
  · rw [List.length_append, depth_without]
    omega
  · rw [view, label_append]
    refine congrArg₂ (· ++ ·) (label_congr fun i _ => ?_) (label_congr fun i hi => ?_)
    · rw [hnames, hdown, lifted, if_neg (by omega), Nat.add_assoc]
    · rw [hnames, lifted, if_pos (hdown ▸ hi)]

/-- Different variables are dropped one by one. -/
theorem Fits.dropNames (hfits : l.Fits s) (M : Machine α) (hnodup : names.Nodup)
    (hbound : ∀ name ∈ names, l.binds name = true) :
    ∃ code l', l.dropNames names = .ok (code, l') ∧
      Leads M code s l' ((l.view s).filter fun x => ∀ name ∈ names, x.1 ≠ some name) := by
  induction names generalizing l s with
  | nil => exact ⟨[], l, rfl, s, run_nil s, hfits, by simp⟩
  | cons name rest ih =>
    obtain ⟨hfresh, hnodup⟩ := List.nodup_cons.mp hnodup
    obtain ⟨slot, hslot⟩ := binds_iff.mp (hbound name List.mem_cons_self)
    obtain ⟨above, v, below, hview, t, hrun, hfits', hview'⟩ := hfits.drop M hslot
    obtain ⟨code, l', hdrop, u, hrun', hfits'', hview''⟩ :=
      ih hfits' hnodup (binds_without_of_mem hfresh hbound)
    refine ⟨_, l', dropNames_cons_eq_ok_iff.mpr ⟨slot, code, hslot,
      hfits.wellFormed.slots_below hslot, hdrop, rfl⟩, u, ?_, hfits'', ?_⟩
    · rw [run_cons, ← run_singleton, hrun, ends_andThen, hrun']
    -- the name is gone, so that nothing else has it
    · have hgone : ∀ x ∈ above ++ below, x.1 ≠ some name := fun x hx heq => by
        obtain ⟨i, hi⟩ := exists_of_mem_label (hview' ▸ hx)
        simpa [slot?_without] using hfits'.wellFormed.nameAt?_eq_some_iff.mp (hi.trans heq)
      rw [hview'', hview', hview, List.filter_append, List.filter_append,
        List.filter_cons_of_neg (by simp), ← List.filter_append, ← List.filter_append]
      refine List.filter_congr fun x hx => ?_
      simp [hgone x hx]

/-! ## Variables that are shadowed -/

/-- The binding that comes back when the name is freed. -/
def covered (l : Layout) (name : Ident) : Option Ident :=
  match l.shadowed.get? name with
  | some (hidden :: _) => if hidden ≠ name ∧ l.binds hidden = true then some hidden else none
  | _ => none

/-- The names of cells after the name has been freed. -/
def restored (l : Layout) (name other : Ident) : Ident :=
  if l.covered name = some other then name else other

theorem covered_without : (l.without name slot).covered name = l.covered name := by
  have hshadowed : (l.without name slot).shadowed = l.shadowed := rfl
  unfold covered
  rw [hshadowed]
  split
  · next hidden _ _ =>
    by_cases hne : hidden = name
    · simp [hne]
    · rw [binds_without hne]
  · rfl

/-- A table of what the bound names have, after the name has been freed. -/
def uncover (l : Layout) (t : Table β) (name : Ident) : Table β :=
  match l.shadowed.get? name with
  | some (hidden :: _) => move t hidden name
  | _ => t

/-- A name that is not bound gets what the binding that comes back has. -/
theorem get?_uncover {t : Table β} (ht : ∀ other, (t.get? other).isSome = l.binds other)
    (hname : l.binds name = false) (other : Ident) :
    (l.uncover t name).get? other =
      if other = name then (l.covered name).bind t.get?
      else if l.covered name = some other then none else t.get? other := by
  have hnone : t.get? name = none := by simpa [hname] using ht name
  have hkept : t.get? other = if other = name then none else t.get? other := by
    split
    · next heq => rw [heq, hnone]
    · rfl
  rcases hshadowed : l.shadowed.get? name with _ | _ | ⟨hidden, stack⟩
  case some.cons =>
    have hhidden := ht hidden
    simp only [uncover, covered, hshadowed, get?_move]
    cases hcell : t.get? hidden with
    | none =>
      rw [hcell, Option.isSome_none] at hhidden
      simpa [← hhidden] using hkept
    | some found =>
      have hne : hidden ≠ name := by
        rintro rfl
        simp [hnone] at hcell
      rw [hcell, Option.isSome_some] at hhidden
      simp [← hhidden, hcell, hne, @eq_comm _ other hidden]
  all_goals simpa [uncover, covered, hshadowed] using hkept

theorem tables_unhide (l : Layout) (name : Ident) :
    (l.unhide name).vars = l.uncover l.vars name ∧
      (l.unhide name).types = l.uncover l.types name := by
  rcases hshadowed : l.shadowed.get? name with _ | _ | ⟨hidden, stack⟩ <;>
    simp only [unhide, uncover, hshadowed, rename, and_self]

theorem slot?_unhide (hname : l.binds name = false) (other : Ident) :
    (l.unhide name).slot? other =
      if other = name then (l.covered name).bind l.slot?
      else if l.covered name = some other then none else l.slot? other := by
  rw [slot?, (l.tables_unhide name).1]
  exact get?_uncover (fun _ => rfl) hname other

theorem ty?_unhide (hagrees : ∀ other, (l.slot? other).isSome = (l.ty? other).isSome)
    (hname : l.binds name = false) (other : Ident) :
    (l.unhide name).ty? other =
      if other = name then (l.covered name).bind l.ty?
      else if l.covered name = some other then none else l.ty? other := by
  rw [ty?, (l.tables_unhide name).2]
  exact get?_uncover (fun other => (hagrees other).symm) hname other

theorem unbound_without : (l.without name slot).binds name = false :=
  slot?_eq_none_iff.mp (by rw [slot?_without, if_pos rfl])

/-- Freeing a variable drops its cell. What it shadowed last has the name again. -/
theorem Fits.free (hfits : l.Fits s) (M : Machine α) (hname : l.binds name = true) :
    ∃ above v below i l', l.view s = above ++ (some name, v) :: below ∧
      l.free name = .ok (i, l') ∧
      Leads M [i] s l' ((above ++ below).map (Prod.map (Option.map (l.restored name)) id)) := by
  obtain ⟨slot, hslot⟩ := binds_iff.mp hname
  obtain ⟨above, v, below, hview, t, hrun, hfits', hview'⟩ := hfits.drop M hslot
  have hl := hfits'.wellFormed.unhide name
  refine ⟨above, v, below, _, _, hview,
    free_eq_ok_iff.mpr ⟨slot, hslot, hfits.wellFormed.slots_below hslot, rfl, rfl⟩, t, hrun,
    ⟨hl, by rw [depth_unhide, hfits'.length]⟩, ?_⟩
  rw [← hview', view, view, ← label_map]
  refine label_congr fun i _ => Option.ext fun other => ?_
  have hgone : (l.without name slot).slot? name = none := slot?_eq_none_iff.mpr unbound_without
  rw [hl.nameAt?_eq_some_iff, slot?_unhide unbound_without, covered_without]
  simp only [Option.map_eq_some_iff, hfits'.wellFormed.nameAt?_eq_some_iff, restored]
  cases hcovered : l.covered name with
  | none | some => grind

/-- A binding that was hidden has its slot and its type again once the name is freed. -/
theorem WellFormed.free_bind {ty : Ty} (hl : l.WellFormed) (hslot : l.slot? name = some slot)
    (hhidden : l.binds (hiddenName name slot) = false) :
    ∃ l₁ l₂, l.bind name ty = .ok l₁ ∧ l₁.free name = .ok (.drop, l₂) ∧
      ∀ other, l₂.slot? other = l.slot? other ∧ l₂.ty? other = l.ty? other := by
  have hbelow := hl.slots_below hslot
  have hbound : l.binds name = true := binds_iff.mpr ⟨slot, hslot⟩
  have hne : hiddenName name slot ≠ name := fun heq => by
    rw [heq, hbound] at hhidden
    cases hhidden
  obtain ⟨⟨_, before⟩, hc⟩ := hl.cell?_of_binds hbound
  have hty : l.ty? name = some before := ty?_of_cell? hc
  let l₁ := (l.hide name).bindSlot name (l.depth - 1) ty
  have hnew : l₁.slot? name = some (l.depth - 1) := by simp [l₁, slot?_bindSlot]
  have hdepth : l₁.depth = l.depth := by simp [l₁]
  have hdrop : Instr.drop = dropAt (l₁.depth - 1 - (l.depth - 1)) := by
    rw [hdepth, Nat.sub_self]
    rfl
  refine ⟨l₁, _, bind_eq_ok_iff.mpr ⟨by omega, rfl⟩,
    free_eq_ok_iff.mpr ⟨_, hnew, by rw [hdepth]; show l.depth - 1 < l.depth; omega, hdrop, rfl⟩, ?_⟩
  -- nothing was above the cell that is dropped
  have hslots (other : Ident) : (l₁.without name (l.depth - 1)).slot? other =
      if other = hiddenName name slot then some slot
      else if other = name then none else l.slot? other := by
    have hsame : ∀ {before at'}, l.slot? before = some at' → lowered (l.depth - 1) at' = at' :=
      fun hat => if_neg (by have hbelow' := hl.slots_below hat; omega)
    simp only [l₁, slot?_without, slot?_bindSlot, slot?_hide hslot]
    cases hother : l.slot? other with
    | none | some => grind
  have htypes (other : Ident) : (l₁.without name (l.depth - 1)).ty? other =
      if other = hiddenName name slot then some before
      else if other = name then none else l.ty? other := by
    simp only [l₁, ty?_without, ty?_bindSlot, ty?_hide hslot hty]
    grind
  have hcovered : (l₁.without name (l.depth - 1)).covered name = some (hiddenName name slot) := by
    have hshadowed : (l₁.without name (l.depth - 1)).shadowed.get? name =
        some (hiddenName name slot :: (l.shadowed.get? name).getD []) := by
      show (l.hide name).shadowed.get? name = _
      rw [Layout.hide, hslot]
      simp [Table.get?_insert]
    simp [covered, hshadowed, hne, binds_iff, hslots]
  have hagrees (other : Ident) : ((l₁.without name (l.depth - 1)).slot? other).isSome =
      ((l₁.without name (l.depth - 1)).ty? other).isSome := by
    have hother := hl.agrees other
    grind
  have hnone := slot?_eq_none_iff.mpr hhidden
  have hnone' := hl.ty?_eq_none_iff.mpr hhidden
  intro other
  rw [slot?_unhide unbound_without, ty?_unhide hagrees unbound_without, hcovered]
  simp only [hslots, htypes, Option.bind_some, Option.some.injEq, if_true]
  grind

/-! ## A new value in an old slot -/

/-- The top cell becomes the value of a variable, in the slot that the variable has. -/
theorem Fits.replace {a : α} {cells : List (Option Ident × α)} (hfits : l.Fits s) (M : Machine α)
    (htop : l.view s = (none, a) :: cells) (hname : l.binds name = true) :
    ∃ above v below code l', cells = above ++ (some name, v) :: below ∧
      l.replace name = .ok (code, l') ∧ Leads M code s l' (above ++ (some name, a) :: below) := by
  obtain ⟨c, hc⟩ := hfits.wellFormed.cell?_of_binds hname
  have hl := hfits.wellFormed
  obtain _ | ⟨b, s⟩ := s
  · simp [view, label] at htop
  simp only [view, label, List.cons.injEq, Prod.mk.injEq] at htop
  obtain ⟨⟨hnone, rfl⟩, rfl⟩ := htop
  have hlength : s.length + 1 = l.depth := hfits.length
  have hfree : ∀ {other slot}, l.slot? other = some slot → slot < s.length :=
    fun {other slot} hother => by
      have hne : slot ≠ s.length := fun heq => by
        simp [← heq, hl.nameAt?_eq_some_iff.mpr hother] at hnone
      have hbelow := hl.slots_below hother
      omega
  have hslot := slot?_of_cell? hc
  have hlt := hfree hslot
  have hkeeps := keeps_settled hl hc hlength
  have hroom : (l.atDepth s.length).WellFormed := ⟨hl.nodup, hl.agrees, hfree, hl.slots_distinct⟩
  have hsettled := hroom.of_keeps hkeeps
  have hnames : (l.settled name c).nameAt? = l.nameAt? := funext fun i => Option.ext fun other => by
    rw [hsettled.nameAt?_eq_some_iff, hl.nameAt?_eq_some_iff, hkeeps.slots]
    rfl
  obtain ⟨up, v, down, rfl, hdown, hup⟩ := exists_split hlt
  refine ⟨_, v, _, _, _, hl.view_append_cons hslot hdown v,
    replace_eq_ok_iff.mpr ⟨c, hc, by omega, rfl, rfl⟩, up ++ b :: down, ?_, ⟨hsettled, ?_⟩, ?_⟩
  · rw [run_settleCode (by omega), ← hlength, Nat.add_sub_add_right _ 1 1, hup]
    simp
  · rw [depth_settled, ← hlength]
    simp
  · rw [view, hnames]
    exact hl.view_append_cons hslot hdown b

/-! ## Dropping several cells in any order -/

theorem slots_eq_map (hbound : ∀ name ∈ names, l.binds name = true) :
    l.slots names = .ok (names.map fun name => ((l.slot? name).getD 0, name)) := by
  induction names with
  | nil => rfl
  | cons name rest ih =>
    obtain ⟨slot, hslot⟩ := binds_iff.mp (hbound name List.mem_cons_self)
    rw [slots, hslot, List.map_cons, hslot, ih fun other hother => hbound other (.tail _ hother)]
    rfl

/-- No two variables have one slot, so there is only one way to sort them. -/
theorem WellFormed.freeAll_perm (hl : l.WellFormed) (hbound : ∀ name ∈ names, l.binds name = true)
    {names' : List Ident} (hperm : names'.Perm names) : l.freeAll names' = l.freeAll names := by
  rw [Layout.freeAll, Layout.freeAll, slots_eq_map hbound,
    slots_eq_map fun name hname => hbound name (hperm.mem_iff.mp hname)]
  refine congrArg (fun cells : List (Nat × Ident) => l.dropNames (cells.map (·.2))) ?_
  have hsorted := @List.pairwise_mergeSort _ (fun a b : Nat × Ident => b.1 ≤ a.1)
    (by grind) (by grind)
  refine List.Perm.eq_of_pairwise ?_ (hsorted _) (hsorted _) ?_
  · intro a b ha hb hab hba
    obtain ⟨first, hfirst, rfl⟩ := List.mem_map.mp (List.mem_mergeSort.mp ha)
    obtain ⟨second, hsecond, rfl⟩ := List.mem_map.mp (List.mem_mergeSort.mp hb)
    obtain ⟨slot, hslot⟩ := binds_iff.mp (hbound first (hperm.mem_iff.mp hfirst))
    obtain ⟨slot', hslot'⟩ := binds_iff.mp (hbound second hsecond)
    simp only [hslot, hslot', Option.getD_some, decide_eq_true_eq] at hab hba
    rw [hl.slots_distinct hslot (Nat.le_antisymm hab hba ▸ hslot')]
  · exact (List.mergeSort_perm ..).trans ((hperm.map _).trans (List.mergeSort_perm ..).symm)

theorem Fits.freeAll (hfits : l.Fits s) (M : Machine α) (hnodup : names.Nodup)
    (hbound : ∀ name ∈ names, l.binds name = true) :
    ∃ code l', l.freeAll names = .ok (code, l') ∧
      Leads M code s l' ((l.view s).filter fun x => ∀ name ∈ names, x.1 ≠ some name) := by
  obtain ⟨code, l', hfree⟩ := hfits.wellFormed.freeAll hnodup hbound
  obtain ⟨order, hperm, hdrop⟩ := freeAll_eq_ok hfree
  obtain ⟨code', m, hdrop', hleads⟩ := hfits.dropNames M (hperm.nodup_iff.mpr hnodup)
    fun name hname => hbound name (hperm.mem_iff.mp hname)
  obtain ⟨rfl, rfl⟩ : code' = code ∧ m = l' := by simpa using hdrop'.symm.trans hdrop
  simp only [hperm.mem_iff] at hleads
  exact ⟨code', m, hfree, hleads⟩

end Layout

/-! ## The operations of a layout -/

open Layout in
/-- The operations of a layout act on named cells of the stack. Copying a variable pushes its value.
Freeing it takes its cell away, and what it shadowed last is visible again. Replacing it takes away the
top cell, which has no name, and puts its value into the variable's cell. Freeing several variables
takes away their cells, whatever the order in which they are given. All other cells keep their names,
their values and their order. A variable that was shadowed for a while has the slot and the type that
it had, and so have all others. -/
theorem operations_move_named_cells (M : Machine α) (hfits : l.Fits s) :
    (∀ name, l.binds name = true → ∃ a i l', (some name, a) ∈ l.view s ∧
      l.fetch name = .ok (i, l') ∧ Leads M [i] s l' ((none, a) :: l.view s)) ∧
    (∀ name, l.binds name = true → ∃ above v below i l',
      l.view s = above ++ (some name, v) :: below ∧ l.free name = .ok (i, l') ∧
        Leads M [i] s l' ((above ++ below).map (Prod.map (Option.map (l.restored name)) id))) ∧
    (∀ name a cells, l.binds name = true → l.view s = (none, a) :: cells →
      ∃ above v below code l', cells = above ++ (some name, v) :: below ∧
        l.replace name = .ok (code, l') ∧ Leads M code s l' (above ++ (some name, a) :: below)) ∧
    (∀ names : List Ident, names.Nodup → (∀ name ∈ names, l.binds name = true) →
      ∃ code l', (∀ order, order.Perm names → l.freeAll order = .ok (code, l')) ∧
        Leads M code s l' ((l.view s).filter fun x => ∀ name ∈ names, x.1 ≠ some name)) ∧
    ∀ name slot ty, l.slot? name = some slot → l.binds (hiddenName name slot) = false →
      ∃ l₁ l₂, l.bind name ty = .ok l₁ ∧ l₁.free name = .ok (.drop, l₂) ∧
        ∀ other, l₂.slot? other = l.slot? other ∧ l₂.ty? other = l.ty? other := by
  refine ⟨fun name => hfits.fetch M, fun name => hfits.free M,
    fun name a cells hname htop => hfits.replace M htop hname, ?_, ?_⟩
  · intro names hnodup hbound
    obtain ⟨code, l', hfree, hleads⟩ := hfits.freeAll M hnodup hbound
    exact ⟨code, l', fun order hperm => (hfits.wellFormed.freeAll_perm hbound hperm).trans hfree,
      hleads⟩
  · exact fun name slot ty hslot hhidden => hfits.wellFormed.free_bind hslot hhidden

/-- A variable that shadows another one, with a third between them. The second cell and the top cell
have no name. -/
def Layout.shaded : Layout :=
  ⟨⟨[("x", 3), ("y", 2), ("x@0", 0)]⟩, ⟨[("x", .int), ("y", .nat), ("x@0", .int)]⟩, 5, .empty,
    ⟨[("x", ["x@0"])]⟩, .module⟩

open Layout in
theorem operations_move_named_cells_shaded :
    shaded.view ([50, 40, 30, 20, 10] : List Int) =
      [(none, 50), (some "x", 40), (some "y", 30), (none, 20), (some "x@0", 10)] ∧
    (∃ i l', shaded.free "x" = .ok (i, l') ∧ Leads sums [i] [50, 40, 30, 20, 10] l'
      [(none, 50), (some "y", 30), (none, 20), (some "x", 10)]) ∧
    (∃ code l', shaded.replace "y" = .ok (code, l') ∧
      Leads sums code [50, 40, 30, 20, 10] l'
        [(some "x", 40), (some "y", 50), (none, 20), (some "x@0", 10)]) ∧
    (∃ code l', shaded.freeAll ["x@0", "x", "y"] = .ok (code, l') ∧
      shaded.freeAll ["y", "x@0", "x"] = .ok (code, l') ∧
      Leads sums code [50, 40, 30, 20, 10] l' [(none, 50), (none, 20)]) ∧
    ∃ l₁ l₂, shaded.bind "x" .bool = .ok l₁ ∧ l₁.free "x" = .ok (.drop, l₂) ∧
      l₂.slot? "x" = some 3 ∧ l₂.ty? "x" = some .int := by
  have hslots : ∀ {name slot}, shaded.slot? name = some slot →
      (name, slot) ∈ [("x", 3), ("y", 2), ("x@0", 0)] := by
    intro name slot hslot
    simp only [slot?, shaded, Table.get?, Table.lookup_cons] at hslot
    grind
  have hfits : shaded.Fits ([50, 40, 30, 20, 10] : List Int) := by
    refine ⟨⟨by decide, fun name => ?_, fun hslot => ?_, fun hslot hslot' => ?_⟩, rfl⟩
    · simp only [slot?, ty?, shaded, Table.get?, Table.lookup_cons]
      grind
    · have hmem := hslots hslot
      grind [shaded]
    · have hmem := hslots hslot
      have hmem' := hslots hslot'
      grind
  have hview : shaded.view ([50, 40, 30, 20, 10] : List Int) =
      [(none, 50), (some "x", 40), (some "y", 30), (none, 20), (some "x@0", 10)] := by decide
  obtain ⟨-, hfree, hreplace, hfreeAll, hbind⟩ := operations_move_named_cells sums hfits
  refine ⟨hview, ?_, ?_, ?_, ?_⟩
  · obtain ⟨above, v, below, i, l', hsplit, hok, hleads⟩ := hfree "x" (by decide)
    obtain ⟨rfl, rfl, rfl⟩ : above = [(none, 50)] ∧ v = 40 ∧
        below = [(some "y", 30), (none, 20), (some "x@0", 10)] := by
      simpa [hview, List.cons_eq_append_iff] using hsplit
    exact ⟨i, l', hok, hleads⟩
  · obtain ⟨above, v, below, code, l', hsplit, hok, hleads⟩ := hreplace "y" _ _ (by decide) hview
    obtain ⟨rfl, rfl, rfl⟩ : above = [(some "x", 40)] ∧ v = 30 ∧
        below = [(none, 20), (some "x@0", 10)] := by
      simpa [List.cons_eq_append_iff] using hsplit
    exact ⟨code, l', hok, hleads⟩
  · obtain ⟨code, l', hok, hleads⟩ := hfreeAll ["x@0", "x", "y"] (by decide) (by decide)
    exact ⟨code, l', hok _ (.refl _), hok _ (by decide), hleads⟩
  · obtain ⟨l₁, l₂, hok, hfree', hsame⟩ := hbind "x" 3 .bool (by decide) (by decide)
    exact ⟨l₁, l₂, hok, hfree', hsame "x"⟩

end Covenant
