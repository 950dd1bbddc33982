import Covenant.Proofs.Renaming.Syntax
import Covenant.TypeExpr
import Covenant.Builtin
import Covenant.Layout

/-!
# Covenant — renamed layouts

A `Renaming` gives variables other names, without making two names one, and leaves alone every name
that means something to the compiler (`isReserved`): built-ins, types, and the names under which the
compiler keeps cells of its own. A shadowed binding keeps its cell under a name made of its own, so a
renaming also has to carry such a name along.

Every operation of a layout does the same to a renamed layout, slot for slot and instruction for
instruction: see `bind_mapNames`, `free_mapNames`, `freeAll_mapNames` and `replace_mapNames`.
-/

namespace Covenant

open Layout Table

/-- The name means something to the compiler. -/
def isReserved (name : Ident) : Bool :=
  Builtin.isName name || (TypeExpr.base? name).isSome || (TypeExpr.former? name).isSome ||
    [storageName, operationsName, parameterName, "self", "dataclass"].contains name

/-- Other names for variables. -/
structure Renaming where
  map : Ident → Ident
  injective : Function.Injective map
  /-- What hides a variable hides the renamed one. -/
  hidden : ∀ name slot, map (hiddenName name slot) = hiddenName (map name) slot
  reserved : ∀ name, isReserved name = true → map name = name

namespace Renaming

variable {name : Ident}

instance : CoeFun Renaming fun _ => Ident → Ident := ⟨map⟩

/-- No variable gets another name. -/
def refl : Renaming := ⟨id, fun _ _ => id, fun _ _ => rfl, fun _ _ => rfl⟩

variable (ρ : Renaming)

theorem spares (h : ρ name = name) : Spares ρ name := fun _ =>
  ⟨fun hid => ρ.injective (hid.trans h.symm), fun hid => hid ▸ h⟩

/-- A name that is not renamed is told apart from the others as before. -/
theorem bne_eq (h : ρ name = name) (id : Ident) : (ρ id != name) = (id != name) := by
  rw [Bool.eq_iff_iff, bne_iff_ne, bne_iff_ne]
  exact not_congr (ρ.spares h id)

theorem spares_reserved (h : isReserved name = true) : Spares ρ name :=
  ρ.spares (ρ.reserved name h)

/-- A look-up that knows fixed names only gives the same for the renamed name. -/
theorem lookup_eq {α : Type} {find : Ident → Option α}
    (h : ∀ name, (find name).isSome = true → ρ name = name) (id : Ident) : find (ρ id) = find id := by
  cases hfind : find id with
  | some a => rw [h id (by rw [hfind]; rfl), hfind]
  | none =>
    cases hmapped : find (ρ id) with
    | none => rfl
    | some a =>
      -- the renamed name would be fixed, so it would be the name itself
      have hfixed := ρ.injective (h (ρ id) (by rw [hmapped]; rfl))
      rw [hfixed, hfind] at hmapped
      cases hmapped

theorem constant?_eq (id : Ident) : Builtin.constant? (ρ id) = Builtin.constant? id :=
  ρ.lookup_eq (fun name h => ρ.reserved name (by simp [isReserved, Builtin.isName, h])) id

theorem function?_eq (id : Ident) : Builtin.function? (ρ id) = Builtin.function? id :=
  ρ.lookup_eq (fun name h => ρ.reserved name (by simp [isReserved, Builtin.isName, h])) id

theorem ofName?_eq (id : Ident) : BuiltinClass.ofName? (ρ id) = BuiltinClass.ofName? id :=
  ρ.lookup_eq (fun name h => ρ.reserved name (by simp [isReserved, Builtin.isName, h])) id

theorem base?_eq (id : Ident) : TypeExpr.base? (ρ id) = TypeExpr.base? id :=
  ρ.lookup_eq (fun name h => ρ.reserved name (by simp [isReserved, h])) id

theorem former?_eq (id : Ident) : TypeExpr.former? (ρ id) = TypeExpr.former? id :=
  ρ.lookup_eq (fun name h => ρ.reserved name (by simp [isReserved, h])) id

theorem isName_eq (id : Ident) : Builtin.isName (ρ id) = Builtin.isName id := by
  rw [Builtin.isName, Builtin.isName, constant?_eq, function?_eq, ofName?_eq]

theorem storageName_eq : ρ storageName = storageName := ρ.reserved _ (by decide)

theorem operationsName_eq : ρ operationsName = operationsName := ρ.reserved _ (by decide)

theorem eq_of_isName {id : Ident} (h : Builtin.isName id = true) : ρ id = id :=
  ρ.reserved id (by simp [isReserved, h])

/-- The record types in force have names that are not renamed. -/
def FixesRecords (records : Records) : Prop := ∀ name, records.contains name = true → ρ name = name

variable {ρ} {records : Records}

theorem FixesRecords.get? (h : ρ.FixesRecords records) (id : Ident) :
    records.get? (ρ id) = records.get? id :=
  ρ.lookup_eq h id

theorem FixesRecords.contains (h : ρ.FixesRecords records) (id : Ident) :
    records.contains (ρ id) = records.contains id := by
  rw [Table.contains, Table.contains, h.get?]

/-- A record may be declared under a name that is not renamed. -/
theorem FixesRecords.insert (h : ρ.FixesRecords records) (hname : ρ name = name) (fields : Fields) :
    ρ.FixesRecords (records.insert name fields) := by
  intro other hother
  by_cases heq : other = name
  · rw [heq, hname]
  · rw [Table.contains, Table.get?_insert, if_neg heq] at hother
    exact h other hother

end Renaming

/-! ## Tables -/

namespace Table

variable {α β : Type} {f : Ident → Ident} {g : α → β}

/-- The table with other names and values. -/
def mapEntries (f : Ident → Ident) (g : α → β) (t : Table α) : Table β :=
  ⟨t.entries.map fun e => (f e.1, g e.2)⟩

@[simp] theorem mapEntries_id (t : Table α) : t.mapEntries id id = t :=
  congrArg mk (List.map_id _)

theorem names_mapEntries (t : Table α) : (t.mapEntries f g).names = t.names.map f := by
  simp only [names, mapEntries, List.map_map]
  rfl

theorem mapValues_mapEntries (h : α → α) (t : Table α) :
    (t.mapEntries f id).mapValues h = (t.mapValues h).mapEntries f id := by
  simp only [mapValues, mapEntries, List.map_map]
  rfl

variable (hf : Function.Injective f) (t : Table α)
include hf

/-- A renamed entry is found under the renamed name. -/
theorem get?_mapEntries (name : Ident) :
    (t.mapEntries f g).get? (f name) = (t.get? name).map g := by
  obtain ⟨entries⟩ := t
  simp only [get?, mapEntries]
  induction entries with
  | nil => rfl
  | cons e rest ih =>
    obtain ⟨key, value⟩ := e
    rw [List.map_cons, lookup_cons, lookup_cons, ih]
    by_cases hkey : name = key
    · rw [if_pos hkey, if_pos (congrArg f hkey), Option.map_some]
    · rw [if_neg hkey, if_neg fun h => hkey (hf h)]

/-- No other entry is erased, since no two names become one. -/
theorem erase_mapEntries (name : Ident) :
    (t.mapEntries f g).erase (f name) = (t.erase name).mapEntries f g := by
  have hkey : ∀ e : Ident × α, (f e.1 != f name) = (e.1 != name) := by
    intro e
    by_cases h : e.1 = name
    · rw [h, bne_self_eq_false, bne_self_eq_false]
    · rw [bne_iff_ne.mpr h, bne_iff_ne.mpr fun hmapped => h (hf hmapped)]
  simp only [erase, mapEntries, List.filter_map]
  congr 3
  funext e
  exact hkey e

theorem insert_mapEntries (name : Ident) (value : α) :
    (t.mapEntries f g).insert (f name) (g value) = (t.insert name value).mapEntries f g := by
  rw [insert, erase_mapEntries hf]
  rfl

theorem move_mapEntries (source target : Ident) :
    move (t.mapEntries f g) (f source) (f target) = (move t source target).mapEntries f g := by
  rw [move, move, get?_mapEntries hf]
  cases t.get? source with
  | none => rfl
  | some value =>
    simp only [Option.map_some]
    rw [erase_mapEntries hf, insert_mapEntries hf]

end Table

/-! ## Layouts -/

/-- Functions are named by the program, entrypoints by their methods. -/
def Context.mapNames (f : Ident → Ident) : Context → Context
  | .function name returns => .function (f name) returns
  | context => context

@[simp] theorem Context.mapNames_id (context : Context) : context.mapNames id = context := by
  cases context <;> rfl

namespace Layout

/-- The layout with other names, slots and types as they are. -/
def mapNames (f : Ident → Ident) (l : Layout) : Layout where
  vars := l.vars.mapEntries f id
  types := l.types.mapEntries f id
  depth := l.depth
  formals := l.formals.mapEntries f (List.map f)
  shadowed := l.shadowed.mapEntries f (List.map f)
  context := l.context.mapNames f

theorem mapNames_id (l : Layout) : l.mapNames id = l := by
  simp [mapNames]

section

variable (f : Ident → Ident) (l : Layout)

@[simp] theorem depth_mapNames : (l.mapNames f).depth = l.depth := rfl

@[simp] theorem context_mapNames : (l.mapNames f).context = l.context.mapNames f := rfl

@[simp] theorem names_mapNames : (l.mapNames f).names = l.names.map f :=
  names_mapEntries _

@[simp] theorem distance_mapNames (slot : Nat) : (l.mapNames f).distance slot = l.distance slot :=
  rfl

theorem pop_mapNames (n : Nat) : (l.mapNames f).pop n = (l.pop n).map (mapNames f) := by
  rw [pop, pop]
  by_cases h : n ≤ l.depth
  · rw [if_pos h, if_pos (by exact h)]
    rfl
  · rw [if_neg h, if_neg (by exact h)]
    rfl

/-- Changing the slots goes together with renaming the cells. -/
theorem mapValues_mapNames (h : Nat → Nat) :
    { l.mapNames f with vars := (l.mapNames f).vars.mapValues h } =
      ({ l with vars := l.vars.mapValues h } : Layout).mapNames f :=
  congrArg (fun vars => mk vars _ _ _ _ _) (mapValues_mapEntries h l.vars)

end

variable (ρ : Renaming) (l : Layout)

@[simp] theorem slot?_mapNames (name : Ident) : (l.mapNames ρ).slot? (ρ name) = l.slot? name :=
  (get?_mapEntries ρ.injective l.vars name).trans Option.map_id_apply

@[simp] theorem ty?_mapNames (name : Ident) : (l.mapNames ρ).ty? (ρ name) = l.ty? name :=
  (get?_mapEntries ρ.injective l.types name).trans Option.map_id_apply

@[simp] theorem binds_mapNames (name : Ident) : (l.mapNames ρ).binds (ρ name) = l.binds name :=
  congrArg Option.isSome (slot?_mapNames ρ l name)

theorem formals_mapNames (name : Ident) :
    (l.mapNames ρ).formals.get? (ρ name) = (l.formals.get? name).map (List.map ρ) :=
  get?_mapEntries ρ.injective _ _

theorem shadowed_mapNames (name : Ident) :
    (l.mapNames ρ).shadowed.get? (ρ name) = (l.shadowed.get? name).map (List.map ρ) :=
  get?_mapEntries ρ.injective _ _

/-- What is declared inside a block is declared there after renaming. -/
theorem declaredSince_mapNames (outer : Layout) :
    (l.mapNames ρ).declaredSince (outer.mapNames ρ) = (l.declaredSince outer).map ρ := by
  rw [declaredSince, declaredSince, names_mapNames, List.filter_map]
  congr 2
  funext name
  exact congrArg not (binds_mapNames ρ outer name)

/-! ### Binding -/

theorem bindSlot_mapNames (name : Ident) (slot : Nat) (ty : Ty) :
    (l.mapNames ρ).bindSlot (ρ name) slot ty = (l.bindSlot name slot ty).mapNames ρ := by
  unfold bindSlot mapNames
  congr 1
  · exact insert_mapEntries ρ.injective l.vars name slot
  · exact insert_mapEntries ρ.injective l.types name ty

theorem setFormals_mapNames (function : Ident) (formals : List Ident) :
    (l.mapNames ρ).setFormals (ρ function) (formals.map ρ) =
      (l.setFormals function formals).mapNames ρ := by
  have hformals := insert_mapEntries (g := List.map ρ) ρ.injective l.formals function formals
  exact congrArg (fun formals => mk _ _ _ formals _ _) hformals

/-- A binding moves between renamed names. -/
theorem rename_mapNames (source target : Ident) :
    (l.mapNames ρ).rename (ρ source) (ρ target) = (l.rename source target).mapNames ρ := by
  have hvars := move_mapEntries (g := id) ρ.injective l.vars source target
  have htypes := move_mapEntries (g := id) ρ.injective l.types source target
  have hformals := move_mapEntries (g := List.map ρ) ρ.injective l.formals source target
  simp only [rename, mapNames, hvars, htypes, hformals]

/-- The hidden binding goes to the name that hides the renamed variable. -/
theorem hide_mapNames (name : Ident) : (l.mapNames ρ).hide (ρ name) = (l.hide name).mapNames ρ := by
  rw [hide, hide, slot?_mapNames]
  cases l.slot? name with
  | none => rfl
  | some slot =>
    have hrename := rename_mapNames ρ l name (hiddenName name slot)
    have hshadowed := insert_mapEntries (g := List.map ρ) ρ.injective l.shadowed name
      (hiddenName name slot :: (l.shadowed.get? name).getD [])
    have hstack : ((l.mapNames ρ).shadowed.get? (ρ name)).getD [] =
        ((l.shadowed.get? name).getD []).map ρ := by
      rw [shadowed_mapNames]
      cases l.shadowed.get? name <;> rfl
    rw [List.map_cons, ρ.hidden] at hshadowed
    rw [ρ.hidden] at hrename
    simp only [hrename, hstack]
    exact congrArg (fun shadowed => mk _ _ _ _ shadowed _) hshadowed

/-- The binding that comes back is the one hidden last. -/
theorem unhide_mapNames (name : Ident) :
    (l.mapNames ρ).unhide (ρ name) = (l.unhide name).mapNames ρ := by
  have hstack := shadowed_mapNames ρ l name
  rw [unhide, unhide, hstack]
  match l.shadowed.get? name with
  | none => rfl
  | some [] => rfl
  | some (hidden :: stack) =>
    have hrename := rename_mapNames ρ l hidden name
    have hshadowed := insert_mapEntries (g := List.map ρ) ρ.injective l.shadowed name stack
    simp only [Option.map_some, List.map_cons, hrename]
    exact congrArg (fun shadowed => mk _ _ _ _ shadowed _) hshadowed

/-- A renamed variable takes the same cell. -/
theorem bind_mapNames (name : Ident) (ty : Ty) :
    (l.mapNames ρ).bind (ρ name) ty = (l.bind name ty).map (mapNames ρ) := by
  rw [bind, bind, depth_mapNames]
  by_cases h : l.depth = 0
  · rw [if_pos h, if_pos h]
    rfl
  · rw [if_neg h, if_neg h, hide_mapNames, bindSlot_mapNames]
    rfl

/-! ### Named cells on the machine -/

/-- The cell to drop is found at the same slot, and the slots above it move down alike. -/
theorem dropName_mapNames (name : Ident) :
    (l.mapNames ρ).dropName (ρ name) = (l.dropName name).map (Prod.map id (mapNames ρ)) := by
  rw [dropName, dropName, slot?_mapNames]
  cases l.slot? name with
  | none => rfl
  | some slot =>
    have hvars := erase_mapEntries (g := id) ρ.injective l.vars name
    have htypes := erase_mapEntries (g := id) ρ.injective l.types name
    have hformals := erase_mapEntries (g := List.map ρ) ρ.injective l.formals name
    simp only [distance_mapNames, pop_mapNames, traverse_of_ok (lower_eq slot)]
    cases l.distance slot with
    | error d => rfl
    | ok jump =>
      unfold pop
      split
      · simp only [mapNames, Bind.bind, Except.bind, pure, Except.pure, Except.map, Prod.map, id,
          hformals, hvars, htypes, mapValues_mapEntries]
      · rfl

theorem free_mapNames (name : Ident) :
    (l.mapNames ρ).free (ρ name) = (l.free name).map (Prod.map id (mapNames ρ)) := by
  rw [free, free, dropName_mapNames]
  cases l.dropName name with
  | error d => rfl
  | ok dropped =>
    obtain ⟨i, l'⟩ := dropped
    have hunhide := unhide_mapNames ρ l' name
    exact congrArg (fun l => Except.ok (i, l)) hunhide

/-- One name after the other is dropped. -/
theorem dropNames_mapNames (names : List Ident) : ∀ l : Layout,
    (l.mapNames ρ).dropNames (names.map ρ) = (l.dropNames names).map (Prod.map id (mapNames ρ)) := by
  induction names with
  | nil => exact fun _ => rfl
  | cons name rest ih =>
    intro l
    rw [List.map_cons, dropNames, dropNames, dropName_mapNames]
    cases l.dropName name with
    | error d => rfl
    | ok dropped =>
      obtain ⟨i, l'⟩ := dropped
      have hrest := ih l'
      simp only [Except.map, Prod.map, Bind.bind, Except.bind, id]
      rw [hrest]
      cases l'.dropNames rest <;> rfl

theorem slots_mapNames (names : List Ident) :
    (l.mapNames ρ).slots (names.map ρ) = (l.slots names).map (List.map (Prod.map id ρ)) := by
  induction names with
  | nil => rfl
  | cons name rest ih =>
    rw [List.map_cons, slots, slots, slot?_mapNames, ih]
    cases l.slot? name with
    | none => rfl
    | some slot => cases l.slots rest <;> rfl

/-- The variables of a block are freed from the top down, which is the same order. -/
theorem freeAll_mapNames (names : List Ident) :
    (l.mapNames ρ).freeAll (names.map ρ) = (l.freeAll names).map (Prod.map id (mapNames ρ)) := by
  rw [freeAll, freeAll, slots_mapNames]
  cases l.slots names with
  | error d => rfl
  | ok cells =>
    -- cells are sorted by their slots, which are the same
    have hsort : (cells.mergeSort fun a b => b.1 ≤ a.1).map (Prod.map id ρ) =
        (cells.map (Prod.map id ρ)).mergeSort fun a b => b.1 ≤ a.1 :=
      List.map_mergeSort (f := Prod.map id ρ) fun _ _ _ _ => rfl
    have hdrop := dropNames_mapNames ρ ((cells.mergeSort fun a b => b.1 ≤ a.1).map (·.2)) l
    simp only [Except.map, Bind.bind, Except.bind]
    rw [← hsort, List.map_map]
    rw [List.map_map] at hdrop
    exact hdrop

/-- The new value goes to the slot of the old one, and a function keeps its formals. -/
theorem replace_mapNames (name : Ident) :
    (l.mapNames ρ).replace (ρ name) = (l.replace name).map (Prod.map id (mapNames ρ)) := by
  rw [replace, replace, slot?_mapNames, ty?_mapNames]
  match l.slot? name, l.ty? name with
  | none, _ | some _, none => rfl
  | some slot, some ty =>
    have hformals := formals_mapNames ρ l name
    simp only [dropName_mapNames]
    cases l.dropName name with
    | error d => rfl
    | ok dropped =>
      obtain ⟨i, l'⟩ := dropped
      simp only [Except.map, Prod.map, Bind.bind, Except.bind, id, distance_mapNames]
      cases l'.distance slot with
      | error d => rfl
      | ok jump =>
        simp only [hformals, mapValues_mapNames, bindSlot_mapNames]
        cases l.formals.get? name with
        | none => rfl
        | some formals =>
          simp only [Option.map_some, setFormals_mapNames]
          rfl

end Layout

end Covenant
