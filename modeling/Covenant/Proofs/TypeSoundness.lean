import Covenant.Proofs.DepthAccounting
import Covenant.Proofs.TypeSoundness.Stmt

/-!
# Covenant — compiled contracts are well typed

A contract that the compiler accepts is one that the machine on types accepts
(`compiled_contract_is_typed`): its storage initializer leaves a value of the storage type, every
closure takes its argument to its result, the preamble leaves the parameter above the module-level
variables and the storage, and from there every entrypoint leaves a pair of operations and storage.

Programs have to keep off the compiler's own names (`Layout.isOrdinary`), and must not call `now` on
a value as a statement (`Module.asksClass`).

The argument for entrypoints is about names. Unless the preamble aborts, all cells that it leaves are
named, and naming the parameter hides at most one of them under a name that no variable has. So when
the epilogue has freed everything but the storage and the operations, no other cell is left.
-/

namespace Covenant

open Gen StackTy Stack Layout

/-! ## What programs have to promise -/

/-- A name that a program may give to a variable: none of the compiler's own names, and no name that
a hidden binding could have. -/
def Layout.isOrdinary (name : Ident) : Bool :=
  !name.toList.contains '@' && name != storageName && name != operationsName &&
    name != parameterName

/-- The names that the module gives to variables, functions and parameters. -/
def Module.binders (m : Module) : List Ident := Stmt.allBinders m.body

namespace Stmt

/-- The methods of a class call `now` on the class `Timestamp` only. They see the module-level
variables. -/
def methodsAskClass (shadowed : Bool) : Stmt → Bool
  | classDef _ _ _ _ members => members.all fun
    | function _ _ params _ body =>
      allAskClass (shadowed || params.any (·.name == clockName)) body
    | _ => true
  | _ => true

end Stmt

/-- Statements of the module call `now` on the class `Timestamp` only, and not on a value. -/
def Module.asksClass (m : Module) : Bool :=
  Stmt.allAskClass false m.body &&
    m.body.all (·.methodsAskClass (m.body.any (·.declared.contains clockName)))

/-! ## Desugared programs promise the same -/

namespace Stmt

@[simp] theorem declared_desugar (s : Stmt) : s.desugar.declared = s.declared := by
  cases s <;> simp [desugar, declared]

theorem binders_desugar : (∀ s : Stmt, s.desugar.binders = s.binders) ∧
    ∀ body, allBinders (desugarAll body) = allBinders body := by
  apply desugar.mutual_induct <;> intros <;> simp_all [desugar, desugarAll, binders, allBinders]

theorem asksClass_desugar :
    (∀ (s : Stmt) shadowed, s.desugar.asksClass shadowed = s.asksClass shadowed) ∧
    ∀ body shadowed, allAskClass shadowed (desugarAll body) = allAskClass shadowed body := by
  apply desugar.mutual_induct <;> intros <;>
    simp_all only [desugar, desugarAll, asksClass, allAskClass, declared_desugar]

theorem allAskClass_desugarAll (shadowed : Bool) (body : List Stmt) :
    allAskClass shadowed (desugarAll body) = allAskClass shadowed body :=
  asksClass_desugar.2 body shadowed

/-- Desugaring keeps the methods of a class. -/
theorem methodsAskClass_desugar (shadowed : Bool) (s : Stmt) :
    s.desugar.methodsAskClass shadowed = s.methodsAskClass shadowed := by
  cases s with
  | classDef line name bases decorators members =>
    simp only [desugar, methodsAskClass, desugarAll_eq_map, List.all_map]
    congr 1
    funext member
    cases member <;> simp [desugar, allAskClass_desugarAll]
  | _ => simp [desugar, methodsAskClass]

end Stmt

namespace Module

variable {m : Module}

theorem binders_desugar : m.desugar.binders = m.binders := Stmt.binders_desugar.2 m.body

theorem asksClass_desugar : m.desugar.asksClass = m.asksClass := by
  simp only [asksClass, desugar]
  rw [Stmt.allAskClass_desugarAll, Stmt.desugarAll_eq_map]
  simp only [List.all_map, List.any_map, Function.comp_def, Stmt.declared_desugar,
    Stmt.methodsAskClass_desugar]

end Module

/-! ## Names in programs -/

namespace Layout

variable {name : Ident}

theorem isOrdinary_iff : isOrdinary name = true ↔
    '@' ∉ name.toList ∧ name ≠ storageName ∧ name ≠ operationsName ∧ name ≠ parameterName := by
  simp [isOrdinary, and_assoc]

end Layout

namespace Stmt

theorem binders_subset_allBinders {s : Stmt} {body : List Stmt} (h : s ∈ body) :
    s.binders ⊆ allBinders body := by
  induction body with
  | nil => simp at h
  | cons first rest ih =>
    rw [allBinders]
    rcases List.mem_cons.mp h with rfl | h
    · exact List.subset_append_left _ _
    · exact List.Subset.trans (ih h) (List.subset_append_right _ _)

/-- What the module-level statements declare is among the names of the module. -/
theorem declared_subset_allBinders (body : List Stmt) :
    body.flatMap declared ⊆ allBinders body := by
  intro name hname
  obtain ⟨s, hs, hname⟩ := List.mem_flatMap.mp hname
  have hsubset : s.declared ⊆ s.binders := by cases s <;> simp [declared, binders]
  exact binders_subset_allBinders hs (hsubset hname)

end Stmt

namespace Gen

variable {config : Config} {state : State} {l : Layout} {shadowed : Bool} {code : Code}

/-! ## Module-level statements -/

/-- The module-level statements move typed stacks along and declare what they say. -/
theorem advances_prologue {contract : Option (List Stmt)} {body : List Stmt}
    {done : Step (Option (List Stmt))} (hnames : operationsName ∉ Stmt.allBinders body)
    (hclock : Stmt.allAskClass shadowed body = true) (hready : Ready config shadowed state.layout)
    (hdone : prologue contract body config state = .ok done) :
    state.layout.Advances done.code done.state.layout ∧
      state.layout.AddsOnly done.state.layout (body.flatMap Stmt.declared) := by
  induction body generalizing contract shadowed state done with
  | nil =>
    cases hdone
    exact ⟨.refl hready.typed, fun _ h => Or.inl h⟩
  | cons s rest ih =>
    rw [Stmt.allBinders, List.mem_append, not_or] at hnames
    rw [Stmt.allAskClass, Bool.and_eq_true] at hclock
    have hlayout := state.layout_seeing s.line
    -- a statement that is not compiled here hides the clock for nobody
    have hlater : Ready config (shadowed || s.declared.contains clockName)
        (state.seeing s.line).layout := by
      rw [hlayout]
      exact hready.advances (.refl hready.typed) fun _ h => Or.inl h
    rcases prologue_cons_eq_ok hdone with ⟨-, -, hrest⟩ | ⟨first, last, -, -, hfirst, hrest, rfl⟩
    · obtain ⟨hadvances, hadds⟩ := ih hnames.2 hclock.2 hlater hrest
      rw [hlayout] at hadvances hadds
      exact ⟨hadvances, AddsOnly.trans (fun _ h => .inl h) hadds⟩
    · obtain ⟨hadvances, hadds⟩ :=
        wellTyped_compileStmt hnames.1 hclock.1 (hlayout ▸ hready) hfirst
      rw [hlayout] at hadvances hadds
      obtain ⟨hadvances', hadds'⟩ := ih hnames.2 hclock.2 (hready.advances hadvances hadds) hrest
      exact ⟨hadvances.trans hadvances', hadds.trans hadds'⟩

/-- The preamble puts the parameter above the cells that the module-level statements leave, and the
storage underneath. -/
theorem run_preamble {t : List StackTy} (h : StackTy.run code [] = some (.ends t))
    (param storage : StackTy) :
    StackTy.run (preamble code t.length) [.pair param storage] =
      some (.ends (param :: t ++ [storage])) := by
  have hunpair : step .unpair [.pair param storage] = some (.ends [param, storage]) := rfl
  have hcode : StackTy.run code [param, storage] = some (.ends (t ++ [param, storage])) :=
    run_underneath [param, storage] code h
  rw [preamble, List.cons_append, run_cons_ends hunpair, run_append_ends hcode]
  cases t with
  | nil => rfl
  | cons x rest =>
    have hdig : step (.dig (x :: rest).length) (x :: rest ++ [param, storage]) =
        some (.ends (param :: (x :: rest) ++ [storage])) := by
      rw [step, List.getElem?_append_right (Nat.le_refl _),
        List.eraseIdx_append_of_length_le (Nat.le_refl _), Nat.sub_self]
      rfl
    have hpos : 0 < (x :: rest).length := Nat.zero_lt_succ _
    rw [if_pos hpos, run_singleton, hdig]

/-- The preamble aborts if the module-level statements do. -/
theorem run_preamble_aborts (h : StackTy.run code [] = some .aborts) (depth : Nat)
    (param storage : StackTy) :
    StackTy.run (preamble code depth) [.pair param storage] = some .aborts := by
  have hunpair : StackTy.step .unpair [.pair param storage] = some (.ends [param, storage]) := rfl
  have hcode : StackTy.run code [param, storage] = some .aborts :=
    run_underneath [param, storage] code h
  rw [preamble, List.cons_append, run_cons_ends hunpair, run_append_aborts hcode]

end Gen

/-! ## The layout of entrypoints -/

namespace Layout

variable {l : Layout} {storage : Ty}

/-- The storage alone at the bottom of the stack. -/
def bottom (l : Layout) (storage : Ty) : Layout :=
  ({ l with vars := .empty, types := .empty, depth := 1 } : Layout).bindSlot storageName 0 storage

theorem cell?_bottom (l : Layout) (storage : Ty) :
    (l.bottom storage).cell? storageName = some ⟨0, storage⟩ := by
  rw [bottom, cell?_bindSlot, if_pos rfl]

theorem binds_bottom_of_ne (l : Layout) (storage : Ty) {other : Ident} (hne : other ≠ storageName) :
    (l.bottom storage).binds other = false := by
  rw [binds_eq_isSome, bottom, slot?_bindSlot, if_neg hne]
  rfl

theorem wellFormed_bottom (l : Layout) (storage : Ty) : (l.bottom storage).WellFormed := by
  have hempty : ({ l with vars := .empty, types := .empty, depth := 1 } : Layout).WellFormed :=
    ⟨List.nodup_nil, fun _ => rfl, (fun h => by cases h), (fun h => by cases h)⟩
  exact hempty.bindSlot Nat.zero_lt_one (fun h => by cases h) storageName

/-- Where the storage is at the bottom, everything else is above it. -/
theorem extends_bottom (hl : l.WellFormed) (hstorage : l.cell? storageName = some ⟨0, storage⟩) :
    (l.bottom storage).Extends l where
  slots := by
    intro other slot hslot
    rw [bottom, slot?_bindSlot] at hslot
    split at hslot
    · next heq =>
      cases hslot
      rw [heq, slot?_of_cell? hstorage]
    · cases hslot
  types := by
    intro other hbound
    by_cases heq : other = storageName
    · subst heq
      rw [ty?_of_cell? hstorage, ty?_of_cell? (cell?_bottom l storage)]
    · exact absurd (hbound.symm.trans (binds_bottom_of_ne l storage heq)) (by simp)
  above := by
    intro other slot hslot hnew
    refine Nat.pos_of_ne_zero fun hzero => ?_
    obtain rfl := hl.slots_distinct (hzero ▸ hslot) (slot?_of_cell? hstorage)
    exact absurd (hnew.symm.trans (binds_of_cell? (cell?_bottom l storage))) (by simp)
  depth_le := Nat.succ_le_of_lt (hl.below hstorage)
  shadowed := rfl
  context := rfl

end Layout

namespace Gen

variable {config : Config} {state : State} {module start : Layout} {shadowed : Bool}
  {storage ty : Ty} {param method : Ident} {t : List StackTy} {done : Step Unit}

/-- The layout beneath the name of the parameter. -/
def roomLayout (module : Layout) (storage : Ty) (method : Ident) : Layout :=
  ({ entryLayout module storage with context := .entrypoint method } : Layout).push 1

theorem cell?_roomLayout (other : Ident) :
    (roomLayout module storage method).cell? other =
      if other = storageName then some ⟨0, storage⟩
      else (module.cell? other).map fun c => { c with slot := c.slot + 1 } := by
  show (entryLayout module storage).cell? other = _
  rw [entryLayout, cell?_bindSlot, cell?_shift]

theorem slot?_roomLayout (other : Ident) :
    (roomLayout module storage method).slot? other =
      if other = storageName then some 0 else (module.slot? other).map (· + 1) := by
  show (entryLayout module storage).slot? other = _
  rw [entryLayout, slot?_bindSlot, slot?_shift]

/-- Apart from the storage there are the variables of the module. -/
theorem binds_roomLayout_of_ne {other : Ident} (hne : other ≠ storageName) :
    (roomLayout module storage method).binds other = module.binds other := by
  show ((roomLayout module storage method).slot? other).isSome = _
  rw [slot?_roomLayout, if_neg hne, Option.isSome_map]
  rfl

theorem wellFormed_roomLayout (hmodule : module.WellFormed) :
    (roomLayout module storage method).WellFormed := by
  have hentry := (stored_entryLayout hmodule storage).1
  exact (hentry.withContext (.entrypoint method)).atDepth (Nat.le_succ _)

theorem topFree_roomLayout (hmodule : module.WellFormed) :
    (roomLayout module storage method).TopFree :=
  (stored_entryLayout hmodule storage).1.topFree_push

/-- The room between the storage and the parameter is that of the module-level variables. -/
theorem matches_roomLayout (hmodule : module.WellFormed) (ht : module.Matches t) (x : StackTy) :
    (roomLayout module storage method).Matches (x :: t ++ [storage.stack]) where
  length := by
    show (x :: t ++ [storage.stack]).length = module.depth + 1 + 1
    rw [← ht.length, List.length_append]
    rfl
  cells := by
    intro other d hd
    rw [cell?_roomLayout] at hd
    split at hd
    · cases hd
      exact ⟨storage.stack, by simp [atSlot], rfl⟩
    · obtain ⟨c, hc, rfl⟩ := Option.map_eq_some_iff.mp hd
      obtain ⟨y, hy, hty⟩ := ht.cells hc
      have hslot : c.slot < t.length := by
        rw [ht.length]
        exact hmodule.below hc
      refine ⟨y, ?_, hty⟩
      show atSlot (x :: t ++ [storage.stack]) (c.slot + 1) = some y
      rw [Nat.add_comm, show (1 : Nat) = [storage.stack].length from rfl, atSlot_length_add,
        atSlot_cons_of_lt x hslot, hy]

/-- What the code of an entrypoint starts from. The cells above the storage are those of the
module-level variables and of the parameter, and none of them is without a name. -/
structure Entered (config : Config) (shadowed : Bool) (storage : Ty) (start : Layout) : Prop where
  ready : Ready config shadowed start
  storage : start.cell? storageName = some ⟨0, storage⟩
  operations : start.binds operationsName = false

/-- The parameter hides neither the storage nor the pending operations. -/
theorem entered_of_bind (hready : Ready config shadowed module)
    (hnames : ∀ {name : Ident}, module.binds name = true → isOrdinary name = true)
    (hstorage : storage.hasUnknown = false) (hty : ty.hasUnknown = false)
    (hparam : param ≠ storageName ∧ param ≠ operationsName)
    (hbind : (roomLayout module storage method).bind param ty = .ok start) :
    Entered config (shadowed || param == clockName) storage start := by
  have hwf := hready.typed.wellFormed
  have hoperations : (roomLayout module storage method).binds operationsName = false := by
    rw [binds_roomLayout_of_ne (by decide)]
    exact Bool.eq_false_iff.mpr fun hbound => absurd (hnames hbound) (by decide)
  have hroom : (roomLayout module storage method).Typed := by
    refine ⟨wellFormed_roomLayout hwf, ?_, ?_⟩
    · intro name d hd
      rw [cell?_roomLayout] at hd
      split at hd
      · cases hd
        exact hstorage
      · obtain ⟨c, hc, rfl⟩ := Option.map_eq_some_iff.mp hd
        have hknown := hready.typed.settled.known hc
        exact hknown
    · intro d hd
      exact absurd (hoperations.symm.trans (binds_of_cell? hd)) (by simp)
  refine ⟨⟨hready.records, ?_, ?_⟩, ?_, ?_⟩
  · exact hroom.bind (topFree_roomLayout hwf) hty (fun heq => absurd heq hparam.2) hbind
  · intro hfree
    rw [Bool.or_eq_false_iff] at hfree
    refine unbound_of_bind hbind (by decide) ?_ ?_
    · rintro rfl
      exact absurd hfree.2 (by simp)
    · rw [binds_roomLayout_of_ne (by decide), hready.clock hfree.1]
  · have hbottom : (roomLayout module storage method).cell? storageName =
        some ⟨0, storage⟩ := by rw [cell?_roomLayout, if_pos rfl]
    obtain ⟨after, hafter, hsame⟩ := exists_name_of_bind hbind (by decide) hbottom
    rw [← hsame (Ne.symm hparam.1), hafter]
  · exact unbound_of_bind hbind (by decide) hparam.2.symm hoperations

/-- Naming the parameter hides at most one variable, whose cell is still named then. -/
theorem covered_of_entered (hmodule : module.WellFormed)
    (hnames : ∀ {name : Ident}, module.binds name = true → isOrdinary name = true)
    (ht : module.Matches t) (hcovered : Covered (.empty .module) module t)
    (hbind : (roomLayout module storage method).bind param ty = .ok start) :
    Covered (start.bottom storage) start (ty.stack :: t) := by
  intro i x hx
  refine Or.inl ?_
  show ∃ name, start.slot? name = some (1 + i)
  by_cases hi : i < t.length
  · rw [atSlot_cons_of_lt _ hi] at hx
    -- no cell is spare outside functions
    obtain ⟨name, hslot⟩ := (hcovered hx).resolve_right fun ⟨_, _, heq, _⟩ =>
      absurd heq (by simp [empty])
    obtain ⟨innerTy, hc⟩ := hmodule.cell?_of_slot? hslot
    have hordinary := hnames (binds_of_cell? hc)
    obtain ⟨hplain, hstorage, -⟩ := isOrdinary_iff.mp hordinary
    have hroom : (roomLayout module storage method).cell? name = some ⟨1 + i, innerTy⟩ := by
      rw [cell?_roomLayout, if_neg hstorage, hc, Option.map_some]
      show some (Cell.mk (0 + i + 1) innerTy) = _
      rw [Nat.zero_add, Nat.add_comm]
    obtain ⟨after, hafter, -⟩ := exists_name_of_bind hbind hplain hroom
    exact ⟨after, slot?_of_cell? hafter⟩
  · have hlt := (List.getElem?_eq_some_iff.mp hx).1
    rw [List.length_reverse, List.length_cons] at hlt
    refine ⟨param, (slot?_of_cell? (cell?_of_bind hbind)).trans (congrArg some ?_)⟩
    show module.depth + 1 + 1 - 1 = 1 + i
    have hlength := ht.length
    omega

/-! ## Entrypoints -/

/-- The list of pending operations is a new variable. -/
theorem advances_pending (hready : Ready config shadowed state.layout)
    (hfresh : state.layout.binds operationsName = false) (hdone : (do
      apply (.nil .operation)
      bindTop operationsName (.list .operation) : Gen Unit) config state = .ok done) :
    state.layout.Advances done.code done.state.layout ∧
      state.layout.AddsOnly done.state.layout [operationsName] := by
  refine advances_of_declares (fun _ => .list .operation) hready (fun _ => ?_) (fun _ h => h) hfresh
    (fun _ _ => rfl) hdone
  exact Leaves.mono (leaves_apply [] rfl rfl) fun _ u hu => ⟨rfl, hu⟩

/-- Up to the epilogue, an entrypoint moves typed stacks along. -/
theorem advances_entered {body : List Stmt}
    (hentered : Entered config shadowed storage state.layout) (hbody : AllWellTyped shadowed body)
    {name : Ident} (hdone : (do
      annotate (.entered name)
      if Stmt.anyCallsTransaction body then
        apply (.nil .operation)
        bindTop operationsName (.list .operation)
      compileBlock body : Gen Unit) config state = .ok done) :
    state.layout.Advances done.code done.state.layout := by
  obtain ⟨rest, hrest, rfl⟩ := annotate_bind_eq_ok_iff.mp hdone
  refine (advances_notes hentered.ready.typed config _).trans ?_
  split at hrest
  · rw [← bind_assoc] at hrest
    obtain ⟨first, last, hfirst, hlast, rfl⟩ := bind_eq_ok_iff.mp hrest
    obtain ⟨hadvances, hadds⟩ := advances_pending hentered.ready hentered.operations hfirst
    have hready : Ready config shadowed first.state.layout := by
      have hready := hentered.ready.advances hadvances hadds
      rwa [show [operationsName].contains clockName = false by decide, Bool.or_false] at hready
    exact hadvances.trans (wellTypedBlock_compileBody hbody hready hlast).1
  · exact (wellTypedBlock_compileBody hbody hentered.ready hrest).1

/-- What is left above the storage once all other variables are gone. -/
theorem leftover_cells {l : Layout} (hl : l.Typed)
    (hstorage : l.cell? storageName = some ⟨0, storage⟩)
    (hcontext : ∀ name want, start.context ≠ .function name want)
    (hnames : ∀ name, l.binds name = true → name = storageName ∨ name = operationsName)
    {x : StackTy}
    (hmatches : l.Matches (t ++ [x])) (hcovered : Covered (start.bottom storage) l t) :
    t = if l.binds operationsName then [.list (.base .operation)] else [] := by
  have hlength := hmatches.length
  rw [List.length_append, List.length_singleton] at hlength
  -- every cell above the storage is the one of the pending operations
  have hcell {i : Nat} (hi : i < t.length) : l.slot? operationsName = some (1 + i) := by
    obtain ⟨y, hy⟩ : ∃ y, atSlot t i = some y :=
      Option.isSome_iff_exists.mp (by simp [atSlot, hi])
    rcases hcovered hy with ⟨name, hslot⟩ | ⟨name, want, hfunction, -⟩
    · have hslot : l.slot? name = some (1 + i) := hslot
      rcases hnames name (binds_iff.mpr ⟨_, hslot⟩) with rfl | rfl
      · have hzero : 0 = 1 + i := Option.some.inj ((slot?_of_cell? hstorage).symm.trans hslot)
        omega
      · exact hslot
    · exact absurd hfunction (hcontext name want)
  split
  · next hbound =>
    obtain ⟨d, hd⟩ := hl.wellFormed.cell?_of_binds hbound
    have hbelow := hl.wellFormed.below hd
    have habove : d.slot ≠ 0 := fun hzero =>
      absurd (hl.wellFormed.distinct hd hstorage hzero) (by decide)
    -- two cells would both be the one of the pending operations
    have hone : t.length = 1 := by
      have hlast := hcell (i := t.length - 1) (by omega)
      have hfirst := hcell (i := 0) (by omega)
      have hsame := Option.some.inj (hlast.symm.trans hfirst)
      omega
    obtain ⟨y, rfl⟩ := List.length_eq_one_iff.mp hone
    have hslot := Option.some.inj ((slot?_of_cell? hd).symm.trans (hcell (i := 0) (by simp)))
    obtain ⟨z, hz, rfl⟩ := hmatches.cells hd
    rw [hslot] at hz
    rw [hl.settled.operations hd] at hz
    have hy : y = Ty.stack (.list .operation) := by simpa [atSlot] using hz
    rw [hy]
    rfl
  · next hfree =>
    cases t with
    | nil => rfl
    | cons y rest =>
      exact absurd (binds_iff.mpr ⟨_, hcell (i := 0) (by simp)⟩) hfree

/-- The epilogue leaves just the pair of pending operations and storage. -/
theorem run_epilogue (hl : state.layout.Typed)
    (hextends : (start.bottom storage).Extends state.layout)
    (hcontext : ∀ name want, start.context ≠ .function name want)
    (hmatches : state.layout.Matches (t ++ [storage.stack]))
    (hcovered : Covered (start.bottom storage) state.layout t)
    (hdone : epilogue config state = .ok done) :
    StackTy.run done.code (t ++ [storage.stack]) =
      some (.ends [.pair (.list (.base .operation)) storage.stack]) := by
  obtain ⟨order, code, l, horder, hleft, hdrop, hcode, -⟩ := epilogue_eq_ok hdone
  have hbottom := wellFormed_bottom start storage
  have hnew : ∀ name ∈ order, (start.bottom storage).binds name = false :=
    fun name hname => binds_bottom_of_ne start storage (horder name hname).1
  obtain ⟨htyped, hextends'⟩ : l.Typed ∧ (start.bottom storage).Extends l := by
    refine dropNames_induction
      (P := fun l => l.Typed ∧ (start.bottom storage).Extends l) ?_ ⟨hl, hextends⟩ hdrop
    intro l name slot hl hname hslot hbelow
    exact ⟨hl.1.without hslot, hl.2.without hbottom hslot hbelow (hnew name hname)⟩
  -- what is dropped lies above the storage
  obtain ⟨u, hrun, hmatches', hcovered'⟩ := runs_dropNames hbottom hl.wellFormed hextends hnew
    hmatches rfl hcovered hdrop
  have hstorage : l.cell? storageName = some ⟨0, storage⟩ :=
    hextends'.kept (cell?_bottom start storage)
  have hu := leftover_cells htyped hstorage hcontext hleft hmatches' hcovered'
  rw [hcode, run_append_ends hrun, hu]
  split <;> rfl

theorem allClosuresTyped_epilogue (hdone : epilogue config state = .ok done) :
    AllClosuresTyped done.code := by
  obtain ⟨order, code, l, -, -, hdrop, hcode, -⟩ := epilogue_eq_ok hdone
  rw [hcode]
  refine allClosuresTyped_append.mpr ⟨allClosuresTyped_dropNames hdrop, ?_⟩
  split <;> simp [AllClosuresTyped, ClosuresTyped]

/-- The code aborts, or leaves just the pair of pending operations and storage. -/
abbrev Delivers (code : Code) (s : List StackTy) (storage : Ty) : Prop :=
  StackTy.run code s = some .aborts ∨
    StackTy.run code s = some (.ends [.pair (.list (.base .operation)) storage.stack])

/-- From the parameter, the module-level variables and the storage, the code of an entrypoint makes
a pair of pending operations and storage. -/
theorem typed_entrypointCode {method : Method} {line : Nat}
    (hentered : Entered config shadowed storage start)
    (hcontext : ∀ name want, start.context ≠ .function name want)
    (hbody : AllWellTyped shadowed method.body)
    (hdone : entrypointCode method config ⟨start, line⟩ = .ok done) :
    AllClosuresTyped done.code ∧ ∀ {t : List StackTy}, start.Matches (t ++ [storage.stack]) →
      Covered (start.bottom storage) start t → Delivers done.code (t ++ [storage.stack]) storage := by
  obtain ⟨inner, hinner, hends⟩ := unlessDiverges_eq_ok hdone
  have hadvances := advances_entered hentered hbody hinner
  have hbottom := extends_bottom hentered.ready.typed.wellFormed hentered.storage
  rcases hends with ⟨hdiv, rfl⟩ | ⟨-, last, hlast, rfl⟩
  · exact ⟨hadvances.closures, fun hmatches _ => Or.inl (aborts_of_diverges hadvances hdiv hmatches)⟩
  · refine ⟨allClosuresTyped_append.mpr
      ⟨hadvances.closures, allClosuresTyped_epilogue hlast⟩, fun {t} hmatches hcovered => ?_⟩
    rcases hadvances.runs hmatches with haborts | ⟨u, hrun, hmatches', hcovered'⟩
    · exact Or.inl (run_append_aborts haborts)
    · refine Or.inr ?_
      have hdepth : start.depth = t.length + (start.bottom storage).depth := by
        rw [← hmatches.length, List.length_append]
        rfl
      rw [run_append_ends hrun, ← List.append_assoc]
      rw [← List.append_assoc] at hmatches'
      exact run_epilogue hadvances.typed (hbottom.trans hadvances.extending) hcontext hmatches'
        (hcovered.append hcovered' hadvances.extending rfl hdepth) hlast

/-- The entrypoint fits the storage and the cells that the module-level statements leave. -/
def EntryTyped (module : Layout) (storage : Ty) (e : Entrypoint) : Prop :=
  AllClosuresTyped e.code ∧ e.storage = storage ∧ ∀ {t : List StackTy},
    module.Matches t → Covered (.empty .module) module t →
    Delivers e.code (e.param.stack :: t ++ [storage.stack]) storage

/-- Every method of the contract class makes an entrypoint that fits. -/
theorem typed_entrypoint {method : Method} {done : Step Entrypoint}
    (hready : Ready config shadowed module)
    (hnames : ∀ {name : Ident}, module.binds name = true → isOrdinary name = true)
    (hstorage : storage.hasUnknown = false)
    (hparams : ∀ p ∈ method.params, isOrdinary p.name = true)
    (hbinders : operationsName ∉ Stmt.allBinders method.body)
    (hclock : Stmt.allAskClass (shadowed || method.params.any (·.name == clockName)) method.body =
      true)
    (hdone : entrypoint method (entryLayout module storage) storage config state = .ok done) :
    EntryTyped module storage done.result := by
  obtain ⟨named, start, inner, hnamed, hbind, hinner, hresult⟩ := entrypoint_eq_ok hdone
  obtain ⟨⟨param, ty⟩, _, _⟩ := named
  have hbind : (roomLayout module storage method.name).bind param ty = .ok start := hbind
  -- the parameter has an ordinary name, or one that no variable has
  obtain ⟨hty, hparam, hhides⟩ : ty.hasUnknown = false ∧
      (param ≠ storageName ∧ param ≠ operationsName) ∧
      ((param == clockName) = true → method.params.any (·.name == clockName) = true) := by
    rcases (entrypointParam_eq_ok hnamed).2 with heq | ⟨p, hp, e, he, rfl⟩
    · obtain ⟨rfl, rfl⟩ := Prod.mk.inj heq
      exact ⟨rfl, by decide, fun hclock => absurd hclock (by decide)⟩
    · obtain ⟨-, hstorage, hoperations, -⟩ := isOrdinary_iff.mp (hparams p hp)
      refine ⟨TypeExpr.known_of_type hready.records he, ⟨hstorage, hoperations⟩, fun hclock => ?_⟩
      exact List.any_eq_true.mpr ⟨p, hp, hclock⟩
  have hentered := entered_of_bind hready hnames hstorage hty hparam hbind
  have hready' : Ready config (shadowed || method.params.any (·.name == clockName)) start := by
    refine hentered.ready.mono fun hfree => ?_
    rw [Bool.or_eq_false_iff] at hfree ⊢
    refine ⟨hfree.1, Bool.eq_false_iff.mpr fun hclock => ?_⟩
    rw [hhides hclock] at hfree
    exact absurd hfree.2 (by simp)
  have hcontext : start.context = .entrypoint method.name := context_of_bind hbind
  obtain ⟨hclosures, hruns⟩ := typed_entrypointCode
    ⟨hready', hentered.storage, hentered.operations⟩ (fun name want => by rw [hcontext]; simp)
    (allWellTyped_compileStmt hbinders hclock) hinner
  rw [hresult]
  refine ⟨hclosures, rfl, fun {t} ht hcovered => ?_⟩
  have hmatches : start.Matches (ty.stack :: (t ++ [storage.stack])) :=
    (matches_roomLayout hready.typed.wellFormed ht ty.stack).bind
      (wellFormed_roomLayout hready.typed.wellFormed) rfl hbind
  exact hruns hmatches (covered_of_entered hready.typed.wellFormed hnames ht hcovered hbind)

/-! ## The storage initializer -/

/-- The storage initializer leaves a value of the storage type. -/
theorem typed_deploy (hrecords : config.records.Settled) {method : Method} {done : Step (Ty × Code)}
    (hdone : deploy method config state = .ok done) :
    done.result.1.hasUnknown = false ∧ AllClosuresTyped done.result.2 ∧
      StackTy.run done.result.2 [] = some (.ends [done.result.1.stack]) := by
  obtain ⟨line, init, declared, inner, -, -, hfits, hinner, -, hresult⟩ := deploy_eq_ok hdone
  have hground : Ground config (.empty .deploy) [] :=
    ⟨hrecords, .empty .deploy, ⟨(fun h => by cases h), (fun h => by cases h)⟩,
      ⟨rfl, (fun h => by cases h)⟩⟩
  obtain ⟨_, ⟨hty, hknown, rfl⟩, -, hrun, hclosures⟩ :=
    init.sound_operand.value hground (t := []) (.refl _) hinner
  -- a declared type is the one that the value has
  have hsame : declared.getD inner.result = inner.result := by
    cases declared with
    | none => rfl
    | some want =>
      obtain ⟨found, hfound, hwant⟩ := hfits want rfl
      rw [typeOf_eq_of_fits hfound hwant] at hfound
      exact Except.ok.inj (hfound.symm.trans hty)
  rw [hresult]
  dsimp only
  rw [hsame]
  exact ⟨hknown, hclosures, hrun⟩

end Gen

/-! ## The whole contract -/

/-- The machine on types accepts the contract. The storage initializer leaves a value of the storage
type. Every closure takes its argument to its result or aborts. The preamble aborts, or it takes
parameter and storage apart and leaves further cells between them, from which every entrypoint aborts
or makes the pair of pending operations and storage. -/
structure Contract.WellTyped (c : Contract) : Prop where
  storageInit : run c.storageInit [] = some (.ends [c.storageTy.stack])
  closures : AllClosuresTyped c.storageInit ∧ AllClosuresTyped c.preamble ∧
    ∀ entry ∈ c.entrypoints, AllClosuresTyped entry.2.code
  calls : (∀ param, run c.preamble [.pair param c.storageTy.stack] = some .aborts) ∨
    ∃ globals,
      (∀ param, run c.preamble [.pair param c.storageTy.stack] =
        some (.ends (param :: globals ++ [c.storageTy.stack]))) ∧
      ∀ entry ∈ c.entrypoints,
        run entry.2.code (entry.2.param.stack :: globals ++ [c.storageTy.stack]) =
            some .aborts ∨
          run entry.2.code (entry.2.param.stack :: globals ++ [c.storageTy.stack]) =
            some (.ends [.pair (.list (.base .operation)) c.storageTy.stack])
  storage : ∀ entry ∈ c.entrypoints, entry.2.storage = c.storageTy

namespace Stmt

/-- What the module promises it promises of every method of a class. -/
theorem method_of_binders {body members : List Stmt} {line : Nat} {name : Ident}
    {bases decorators : List Expr} (hclass : classDef line name bases decorators members ∈ body)
    {m : Method} (hm : m.stmt ∈ members) :
    m.params.map (·.name) ⊆ allBinders body ∧ allBinders m.body ⊆ allBinders body := by
  have hmethod : m.stmt.binders ⊆ allBinders body := by
    have hmember := binders_subset_allBinders hm
    have hmembers := binders_subset_allBinders hclass
    rw [binders] at hmembers
    exact List.Subset.trans hmember hmembers
  rw [Method.stmt, binders] at hmethod
  refine ⟨fun other hother => hmethod ?_, fun other hother => hmethod ?_⟩
  · exact List.mem_append_left _ (List.mem_cons_of_mem _ hother)
  · exact List.mem_append_right _ hother

end Stmt

/-- Every contract that the compiler accepts is accepted by the machine on types, if the program gives
no variable a name of the compiler's own and calls `now` as a statement on the class only. -/
theorem compiled_contract_is_typed {m : Module} {traced : Bool} {c : Contract}
    (h : m.compile traced = .ok c) (hnames : ∀ name ∈ m.binders, Layout.isOrdinary name = true)
    (hclock : m.asksClass = true) : c.WellTyped := by
  obtain ⟨config, module, init, methods, hrecords, -, hassembled⟩ := Module.compile_eq_ok h
  rw [← Module.binders_desugar] at hnames
  rw [← Module.asksClass_desugar, Module.asksClass, Bool.and_eq_true] at hclock
  -- no variable has the name of the pending operations
  have hoperations : Layout.operationsName ∉ Stmt.allBinders m.desugar.body :=
    fun hmem => absurd (hnames _ hmem) (by decide)
  -- the storage initializer
  obtain ⟨_, deployed, hdeployed, hdeploy⟩ := hassembled.deploy
  obtain ⟨hstorage, hinitClosures, hinit⟩ := typed_deploy hrecords hdeployed
  rw [hdeploy] at hstorage hinitClosures hinit
  -- the module-level statements
  obtain ⟨_, hprologue⟩ := hassembled.prologue
  have hstart : Ready config false (.empty .module) := by
    refine ⟨hrecords, ⟨.empty _, ?_, ?_⟩, fun _ => rfl⟩
    · exact fun hc => by cases hc
    · exact fun hc => by cases hc
  obtain ⟨hadvances, hadds⟩ := advances_prologue hoperations hclock.1 hstart hprologue
  have hready := hstart.advances hadvances hadds
  have hdeclared : (m.desugar.body.flatMap Stmt.declared).contains clockName =
      m.desugar.body.any (·.declared.contains clockName) := by
    rw [Bool.eq_iff_iff]
    simp
  rw [Bool.false_or, hdeclared] at hready
  have hordinary : ∀ {name : Ident}, module.state.layout.binds name = true →
      Layout.isOrdinary name = true := by
    intro name hname
    rcases hadds hname with hold | hnew
    · cases hold
    · exact hnames name (Stmt.declared_subset_allBinders _ hnew)
  -- the entrypoints
  have hentry : ∀ entry ∈ c.entrypoints, EntryTyped module.state.layout c.storageTy entry.2 := by
    rintro ⟨name, e⟩ hmem
    obtain ⟨method, hmethod, -, _, done, hdone, rfl⟩ := hassembled.entrypoints name e hmem
    obtain ⟨line, className, bases, decorators, members, hclass, hmembers⟩ :=
      hassembled.exists_class
    have hmember := hmembers method hmethod
    obtain ⟨hparams, hbody⟩ := Stmt.method_of_binders hclass hmember
    have hasks := List.all_eq_true.mp hclock.2 _ hclass
    rw [Stmt.methodsAskClass] at hasks
    exact typed_entrypoint hready hordinary hstorage
      (fun p hp => hnames _ (hparams (List.mem_map_of_mem hp))) (fun hmem => hoperations (hbody hmem))
      (List.all_eq_true.mp hasks _ hmember) hdone
  refine ⟨hinit, ⟨hinitClosures, ?_, fun entry hmem => (hentry entry hmem).1⟩, ?_,
    fun entry hmem => (hentry entry hmem).2.1⟩
  · rw [hassembled.preamble]
    refine ⟨trivial, allClosuresTyped_append.mpr ⟨hadvances.closures, ?_⟩⟩
    split
    · exact ⟨trivial, trivial⟩
    · trivial
  rw [hassembled.preamble]
  have hnone : (Layout.empty .module).Matches [] := ⟨rfl, fun hc => by cases hc⟩
  rcases hadvances.runs hnone with haborts | ⟨t, hrun, hmatches, hcovered⟩
  · exact Or.inl fun param => run_preamble_aborts haborts _ param _
  · rw [List.append_nil] at hrun hmatches
    refine Or.inr ⟨t, fun param => ?_, fun entry hmem => (hentry entry hmem).2.2 hmatches hcovered⟩
    rw [← hmatches.length]
    exact run_preamble hrun param _

theorem compiled_contract_is_typed_counter :
    (∀ name ∈ Module.counter.binders, Layout.isOrdinary name = true) ∧
      Module.counter.asksClass = true ∧
      ∃ c, Module.counter.compile false = .ok c ∧ c.entrypoints.map (·.1) = ["add"] ∧
        c.WellTyped := by
  have hnames : ∀ name ∈ Module.counter.binders, Layout.isOrdinary name = true := by decide +kernel
  have hclock : Module.counter.asksClass = true := by decide +kernel
  refine ⟨hnames, hclock, ?_⟩
  have hadd : (Module.counter.compile false).toOption.map (fun c => c.entrypoints.map (·.1)) =
      some ["add"] := by decide +kernel
  obtain ⟨c, hc, hentries⟩ := Except.exists_ok_of_map hadd
  exact ⟨c, hc, hentries, compiled_contract_is_typed hc hnames hclock⟩

end Covenant
