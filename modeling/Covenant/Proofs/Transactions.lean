import Covenant.Proofs.Aborts.Stmt
import Covenant.Proofs.EntryStack
import Covenant.Proofs.Transactions.Stmt

/-!
# Covenant — the pending operations of an entrypoint

An entrypoint has a list of pending operations just if the scan finds a call of `transaction` in its
body. `scan_agrees_with_transfers` says that the scan finds what the generator comes upon: no call in
an entrypoint without nested functions is refused for want of the list, and where tokens are
transferred, the list is the first thing that the entrypoint pushes. The body may hide it, but it
gives it back at its slot, so that the epilogue finds that list and does not push another one.

Whether the epilogue pairs it with the storage is a matter of what else is left. It drops the cells
of all other variables, and cells without a name stay where they are. So the pair is that of list and
storage just if every cell has a name where the body ends (`Layout.Named`). A call of `now` on a value
leaves a cell without a name (`leftover_is_paired_with_pending_operations`).
-/

namespace Covenant

open Gen Ending Stack Layout

/-! ## Failure -/

namespace Gen

variable {config : Config} {state : State} {method : Method}

theorem foretold_epilogue : Foretold False epilogue := by
  refine heeds_layout.bind_foretold fun l => (foretold_freeAll _).bind fun _ =>
    heeds_layout.bind_foretold fun l => ?_
  have hpair : Heeds False (apply (.pair 2)) := heeds_apply (by simp)
  split
  · exact hpair.foretold
  · exact (heeds_apply (by simp)).bind_foretold fun _ => hpair.foretold

/-- The list is there for every call that the scan finds. -/
theorem foretoldAt_entrypointCode (hnested : Stmt.anyDefinesFunction method.body = false)
    (config : Config) (state : State) (l : Layout) :
    ForetoldAt (Stmt.anyCallsTransaction method.body = true) l
      (entrypointCode method config state) := by
  have hblock := foretold_compileBlock hnested config
  rw [entrypointCode]
  refine ForetoldAt.bind (ForetoldAt.listen ?_) fun result _ => ?_
  · refine ForetoldAt.bind ((heeds_annotate _).foretold config state).of_false fun entered _ => ?_
    split
    · refine ForetoldAt.bind ((heeds_apply (by simp)).foretold config _).of_false fun pushed _ => ?_
      refine ForetoldAt.bind ((heeds_bindTop _ _).foretold config _).of_false fun bound hbound => ?_
      obtain ⟨l', hbind, rfl⟩ := bindTop_eq_ok_iff.mp hbound
      exact (hblock _).mono id fun _ => binds_of_cell? (cell?_of_bind hbind)
    · next hnone => exact ((hblock _).mono (fun hcalls => hnone hcalls) id).of_false
  · dsimp only
    split
    · exact ((heeds_pure _).foretold config _).of_false
    · exact (foretold_epilogue config _).of_false

theorem heeds_entrypointParam (method : Method) : Heeds False (entrypointParam method) := by
  have hparam (param : Param) : Heeds False (paramType param) := by
    unfold paramType
    split
    · exact heeds_denoted _
    · exact heeds_failAt rfl
  unfold entrypointParam
  dsimp only
  split
  · exact heeds_pure _
  · exact (hparam _).bind fun _ => heeds_pure _
  · exact heeds_fail rfl

theorem foretoldAt_entrypoint (hnested : Stmt.anyDefinesFunction method.body = false)
    (base : Layout) (storage : Ty) (config : Config) (state : State) (l : Layout) :
    ForetoldAt (Stmt.anyCallsTransaction method.body = true) l
      (entrypoint method base storage config state) := by
  refine ForetoldAt.bind ((heeds_entrypointParam method).foretold config state).of_false
    fun named _ => ?_
  refine ForetoldAt.bind ((heeds_sound _).foretold config _).of_false fun start _ => ?_
  refine (foretoldAt_entrypointCode hnested config _ l).block fun inner _ => ?_
  show transfers [] = true → _
  simp

/-! ## The code of an entrypoint -/

/-- If there is a list of pending operations, it is pushed and named before the body. -/
theorem entrypointCode_eq_ok_of_calls (hcalls : Stmt.anyCallsTransaction method.body = true)
    {done : Step Unit} (h : entrypointCode method config state = .ok done) :
    ∃ (l : Layout) (body : Step Unit) (tail : Code),
      (state.layout.push 1).bind operationsName (.list .operation) = .ok l ∧
      compileBlock method.body config { state with layout := l } = .ok body ∧
      done.code = config.notes (.entered method.name) ++ .prim (.nil .operation) ::
        (config.notes (.bound operationsName) ++ body.code ++ tail) ∧
      ((diverges body.code = true ∧ tail = []) ∨ (diverges body.code = false ∧
        ∃ last, epilogue config body.state = .ok last ∧ tail = last.code)) := by
  obtain ⟨inner, hinner, hends⟩ := unlessDiverges_eq_ok h
  obtain ⟨rest, hrest, rfl⟩ := annotate_bind_eq_ok_iff.mp hinner
  rw [if_pos hcalls] at hrest
  obtain ⟨-, named, hnamed, rfl⟩ := apply_bind_eq_ok_iff.mp hrest
  obtain ⟨bound, body, hbound, hbody, rfl⟩ := bind_eq_ok_iff.mp hnamed
  obtain ⟨l, hbind, rfl⟩ := bindTop_eq_ok_iff.mp hbound
  -- what comes before the body goes on, so it is the body that decides
  have hstraight : (config.notes (.entered method.name) ++ .prim (.nil .operation) ::
      config.notes (.bound operationsName)).all Instr.straight = true := by
    rw [List.all_append, List.all_cons, straight_notes, straight_notes]
    rfl
  have hsame : diverges (config.notes (.entered method.name) ++ .prim (.nil .operation) ::
      (config.notes (.bound operationsName) ++ body.code)) = diverges body.code := by
    simpa using diverges_append_of_straight hstraight body.code
  rw [hsame] at hends
  rcases hends with ⟨hdiv, rfl⟩ | ⟨hdiv, last, hlast, rfl⟩
  · exact ⟨l, body, [], hbind, hbody, by simp, .inl ⟨hdiv, rfl⟩⟩
  · exact ⟨l, body, last.code, hbind, hbody, by simp, .inr ⟨hdiv, last, hlast, rfl⟩⟩

end Gen

/-! ## Cells with names -/

namespace Layout

variable {l l' : Layout} {name : Ident}

/-- Every cell has a name: there are as many names as cells, and no two names share one. -/
def Named (l : Layout) : Prop := l.depth = l.names.length

theorem SameUnnamed.named_iff (h : l.SameUnnamed l') : l'.Named ↔ l.Named := by
  unfold SameUnnamed Named at *
  omega

/-- A hidden name tells the slot it was made for. -/
theorem slot_of_hiddenName (hname : '@' ∉ name.toList) {other : Ident} {slot slot' : Nat}
    (h : hiddenName name slot = hiddenName other slot') : slot = slot' := by
  have hdigits : '@' ∉ Nat.toDigits 10 slot := fun hmem =>
    absurd (Nat.isDigit_of_mem_toDigits (by decide) (by decide) hmem) (by decide)
  have hchars : name.toList ++ '@' :: Nat.toDigits 10 slot =
      other.toList ++ '@' :: Nat.toDigits 10 slot' := by
    simpa [hiddenName, Nat.toString_eq_ofList_toDigits] using congrArg String.toList h
  obtain ⟨-, -, hslots⟩ := (List.append_cons_inj_of_notMem hname hdigits).mp hchars
  -- the number can be read off its digits
  have hread := congrArg (Nat.ofDigitChars 10 · 0) hslots
  rwa [Nat.ofDigitChars_toDigits (by decide) (by decide),
    Nat.ofDigitChars_toDigits (by decide) (by decide)] at hread

/-- Variables that are called like hidden ones are at the slots that their names tell. -/
def HiddenInPlace (l : Layout) : Prop :=
  ∀ ⦃name : Ident⦄ ⦃slot found : Nat⦄, l.slot? (hiddenName name slot) = some found → found = slot

theorem HiddenInPlace.bind (hl : l.HiddenInPlace) (hname : '@' ∉ name.toList) {ty : Ty}
    (h : l.bind name ty = .ok l') : l'.HiddenInPlace := by
  obtain ⟨-, rfl⟩ := bind_eq_ok_iff.mp h
  intro other slot found hfound
  rw [slot?_bindSlot, if_neg (hiddenName_ne hname)] at hfound
  cases houter : l.slot? name with
  | none =>
    rw [hide_of_unbound (slot?_eq_none_iff.mp houter)] at hfound
    exact hl hfound
  | some outer =>
    rw [slot?_hide houter, if_neg (hiddenName_ne hname)] at hfound
    split at hfound
    · next heq =>
      obtain rfl := Option.some.inj hfound
      exact slot_of_hiddenName hname heq.symm
    · exact hl hfound

/-- Hiding a variable gives it another name and frees the one it had. -/
theorem names_hide (hl : l.WellFormed) (hhidden : l.HiddenInPlace) (hname : '@' ∉ name.toList) :
    name ∉ (l.hide name).names ∧ (l.hide name).names.length = l.names.length := by
  cases hslot : l.slot? name with
  | none =>
    have hfree := slot?_eq_none_iff.mp hslot
    rw [hide_of_unbound hfree, mem_names_iff, hfree]
    exact ⟨Bool.false_ne_true, rfl⟩
  | some slot =>
    have hfresh : hiddenName name slot ∉ l.names := by
      rw [mem_names_iff, binds_iff]
      rintro ⟨found, hfound⟩
      exact hiddenName_ne hname (hl.slots_distinct hfound (hhidden hfound ▸ hslot))
    have hnames : (l.hide name).names = hiddenName name slot :: l.names.erase name := by
      have hget : l.vars.get? name = some slot := hslot
      rw [hide, hslot]
      show (move l.vars name (hiddenName name slot)).names = _
      rw [move, hget, Table.names_insert, Table.names_erase, Table.names_erase,
        hl.nodup.erase_eq_filter, List.filter_eq_self.mpr]
      · rfl
      · intro other hother
        have hne : other ≠ hiddenName name slot :=
          fun heq => hfresh (heq ▸ List.mem_of_mem_filter hother)
        simpa using hne
    have hmem : name ∈ l.names := mem_names_iff.mpr (binds_iff.mpr ⟨slot, hslot⟩)
    have hpos : 0 < l.names.length := List.length_pos_of_mem hmem
    rw [hnames, List.mem_cons, not_or, List.length_cons, List.length_erase_of_mem hmem]
    exact ⟨⟨(hiddenName_ne hname).symm, hl.nodup.not_mem_erase⟩, by omega⟩

/-- A binding names the one cell that has no name. -/
theorem named_of_bind (hdepth : l.depth = l.names.length + 1) (hl : l.WellFormed)
    (hhidden : l.HiddenInPlace) (hname : '@' ∉ name.toList) {ty : Ty}
    (h : l.bind name ty = .ok l') : l'.Named := by
  obtain ⟨hnew, hlength⟩ := names_hide hl hhidden hname
  obtain ⟨-, rfl⟩ := bind_eq_ok_iff.mp h
  rw [Named, depth_bindSlot, depth_hide, length_names_bindSlot hnew, hlength, hdepth]

end Layout

namespace Gen

variable {module : Layout} {storage : Ty}

/-- Storage and module-level variables have names, unless one of these had the storage's. -/
theorem named_entryLayout (hnamed : module.Named) (hstorage : module.binds storageName = false) :
    (entryLayout module storage).Named := by
  have hnames : (module.shift 1).names = module.names := Table.names_mapValues _ _
  have hnew : storageName ∉ (module.shift 1).names := by
    rw [hnames, mem_names_iff, hstorage]
    simp
  show module.depth + 1 = _
  rw [entryLayout, length_names_bindSlot hnew, hnames, hnamed]

/-- The cells that the body of an entrypoint starts from have names if the module-level variables
do and no name looks like a hidden one. -/
theorem named_of_binds {method param : Ident} {ty : Ty} {start l : Layout}
    (hmodule : module.WellFormed) (hnamed : module.Named)
    (hplain : ∀ name, module.binds name = true → name ≠ storageName ∧ '@' ∉ name.toList)
    (hparam : '@' ∉ param.toList)
    (hbound : (roomLayout module storage method).bind param ty = .ok start)
    (hbind : (start.push 1).bind operationsName (.list .operation) = .ok l) : l.Named := by
  have hroom : (roomLayout module storage method).WellFormed := wellFormed_roomLayout hmodule
  have hhidden : (roomLayout module storage method).HiddenInPlace := by
    intro name slot found hfound
    by_cases hstorage : hiddenName name slot = storageName
    · exact absurd hstorage (hiddenName_ne (by decide))
    · have hbound := binds_iff.mpr ⟨found, hfound⟩
      rw [binds_roomLayout_of_ne hstorage] at hbound
      exact absurd rfl (hiddenName_ne (hplain _ hbound).2)
  have hbase : (entryLayout module storage).Named := by
    refine named_entryLayout hnamed ?_
    by_contra hbinds
    exact (hplain storageName (by simpa using hbinds)).1 rfl
  have hentered : start.Named :=
    named_of_bind (congrArg Nat.succ hbase) hroom hhidden hparam hbound
  have hstart : start.WellFormed := hroom.bind (topFree_roomLayout hmodule) hbound
  have hplace : start.HiddenInPlace := hhidden.bind hparam hbound
  exact named_of_bind (congrArg Nat.succ hentered) (hstart.atDepth (Nat.le_succ _)) hplace
    (by decide) hbind

end Gen

/-! ## Dropping all but two variables -/

namespace Layout

variable {l l' : Layout} {names : List Ident} {code : Code}

/-- Dropping variables leaves a well-formed layout with as many cells without a name. -/
theorem wellFormed_of_dropNames (hl : l.WellFormed) (h : l.dropNames names = .ok (code, l')) :
    l'.WellFormed ∧ l.SameUnnamed l' := by
  refine dropNames_induction (P := fun m => m.WellFormed ∧ l.SameUnnamed m) ?_ ⟨hl, .refl l⟩ h
  intro m name c hm _ hc _
  exact ⟨hm.1.without hc, hm.2.trans (sameUnnamed_without hm.1 hc)⟩

/-- Variables that are not dropped stay above each other. -/
theorem slots_of_dropNames (hl : l.WellFormed) {lower upper : Ident} {c d : Cell}
    (hc : l.cell? lower = some c) (hd : l.cell? upper = some d) (hlt : c.slot < d.slot)
    (hlower : lower ∉ names) (hupper : upper ∉ names) (h : l.dropNames names = .ok (code, l')) :
    ∃ c' d', l'.cell? lower = some c' ∧ l'.cell? upper = some d' ∧ c'.slot < d'.slot := by
  refine (dropNames_induction (P := fun m => m.WellFormed ∧ ∃ c' d', m.cell? lower = some c' ∧
    m.cell? upper = some d' ∧ c'.slot < d'.slot) ?_ ⟨hl, c, d, hc, hd, hlt⟩ h).2
  rintro m name slot ⟨hm, c', d', hc', hd', hlt'⟩ hname hslot -
  have hcname : lower ≠ name := fun heq => hlower (heq ▸ hname)
  have hdname : upper ≠ name := fun heq => hupper (heq ▸ hname)
  refine ⟨hm.without hslot, Cell.lowered slot c', Cell.lowered slot d', ?_, ?_, ?_⟩
  · rw [cell?_without, if_neg hcname, hc']
    rfl
  · rw [cell?_without, if_neg hdname, hd']
    rfl
  · have hcslot : c'.slot ≠ slot :=
      fun heq => hcname (hm.slots_distinct (heq ▸ slot?_of_cell? hc') hslot)
    have hdslot : d'.slot ≠ slot :=
      fun heq => hdname (hm.slots_distinct (heq ▸ slot?_of_cell? hd') hslot)
    grind [lowered, Cell.lowered]

end Layout

/-- The variables that are left keep their cells. -/
theorem Machine.run_dropNames {α : Type} {M : Machine α} {l l' : Layout} {names : List Ident}
    {code : Code} {P : Ident → Ty → α → Prop} {s : List α} (hl : l.WellFormed) (hs : l.Holds P s)
    (h : l.dropNames names = .ok (code, l')) : ∃ t, M.run code s = ends t ∧ l'.Holds P t := by
  induction names generalizing l s code with
  | nil =>
    cases h
    exact ⟨s, run_nil s, hs⟩
  | cons name rest ih =>
    obtain ⟨slot, tail, hslot, hbelow, htail, rfl⟩ := dropNames_cons_eq_ok_iff.mp h
    obtain ⟨t, hrun, ht⟩ := ih (hl.without hslot) (hs.without hl hslot) htail
    refine ⟨t, ?_, ht⟩
    have hlength := hs.length
    rw [run_cons, step_dropAt (by omega), ends_andThen, hrun]

namespace Gen

variable {config : Config} {state : State}

/-- From the pending operations and, further down, the storage, the epilogue makes its pair just if
every cell has a name. -/
theorem epilogue_pairs {done : Step Unit} (hl : state.layout.WellFormed) {o c : Cell}
    (hoperations : state.layout.cell? operationsName = some o)
    (hstorage : state.layout.cell? storageName = some c) (hslots : c.slot < o.slot)
    (hdone : epilogue config state = .ok done) :
    ∃ drops, done.code = drops ++ [.prim (.pair 2)] ∧ (∀ i ∈ drops, ∃ n, i = dropAt n) ∧
      ∀ ⦃α : Type⦄ (M : Machine α) ⦃t : List α⦄, t.length = state.layout.depth →
        ∃ x y, atSlot t o.slot = some x ∧ atSlot t c.slot = some y ∧
          (M.run drops t = ends [x, y] ↔ state.layout.Named) := by
  obtain ⟨order, drops, l, horder, hleft, hdrop, hcode, -⟩ := epilogue_eq_ok hdone
  have hnotOperations : operationsName ∉ order := fun hmem => (horder _ hmem).2 rfl
  have hnotStorage : storageName ∉ order := fun hmem => (horder _ hmem).1 rfl
  obtain ⟨hend, hsame⟩ := wellFormed_of_dropNames hl hdrop
  obtain ⟨c', o', hc', ho', hlt⟩ :=
    slots_of_dropNames hl hstorage hoperations hslots hnotStorage hnotOperations hdrop
  rw [if_pos (binds_of_cell? ho'), List.nil_append] at hcode
  have hdrops := code_of_dropNames (P := fun code => ∀ i ∈ code, ∃ n, i = dropAt n) (by simp)
    (fun n rest hrest => List.forall_mem_cons.mpr ⟨⟨n, rfl⟩, hrest⟩) hdrop
  refine ⟨drops, hcode, hdrops, ?_⟩
  -- two names are left
  have hnames : l.names.Perm [operationsName, storageName] := by
    refine (List.perm_ext_iff_of_nodup hend.nodup (by decide)).mpr fun name => ?_
    rw [mem_names_iff, List.mem_pair]
    constructor
    · exact fun hname => (hleft name hname).symm
    · rintro (rfl | rfl)
      · exact binds_of_cell? ho'
      · exact binds_of_cell? hc'
  have hdepth : l.depth = 2 ↔ state.layout.Named := by
    rw [← hsame.named_iff, Named, hnames.length_eq]
    rfl
  intro α M t ht
  have hcell {name : Ident} {d : Cell} (hd : state.layout.cell? name = some d) :
      ∃ a, atSlot t d.slot = some a := by
    have hbelow := hl.below hd
    exact Option.isSome_iff_exists.mp (by simp [atSlot, ht, hbelow])
  obtain ⟨x, hx⟩ := hcell hoperations
  obtain ⟨y, hy⟩ := hcell hstorage
  have hholds : state.layout.Holds (fun name _ a => ∀ d, state.layout.cell? name = some d →
      atSlot t d.slot = some a) t := by
    refine ⟨ht, fun {name d} hd => ?_⟩
    obtain ⟨a, ha⟩ := hcell hd
    exact ⟨a, ha, fun e he => Option.some.inj (hd.symm.trans he) ▸ ha⟩
  obtain ⟨u, hrun, hu⟩ := M.run_dropNames hl hholds hdrop
  refine ⟨x, y, hx, hy, ?_⟩
  rw [hrun, Ending.ends.injEq, ← hdepth, ← hu.length]
  constructor
  · rintro rfl
    rfl
  · intro htwo
    obtain ⟨a, b, rfl⟩ := List.length_eq_two.mp htwo
    have hbelow := hend.below ho'
    rw [← hu.length, htwo] at hbelow
    obtain ⟨v, hv, hvx⟩ := hu.cells ho'
    obtain ⟨w, hw, hwy⟩ := hu.cells hc'
    rw [show o'.slot = 1 by omega] at hv
    rw [show c'.slot = 0 by omega] at hw
    cases hv.trans ((hvx o hoperations).symm.trans hx)
    cases hw.trans ((hwy c hstorage).symm.trans hy)
    rfl

/-! ## Entrypoints -/

/-- How an entrypoint with transactions keeps its list of pending operations: `start` is the layout
with the parameter on top, `l` the one that its body starts from, and `tail` is the code behind that
of the body. -/
structure Pending (config : Config) (method : Method) (start l : Layout) (body : Step Unit)
    (tail : Code) : Prop where
  /-- The list is pushed on top of the cells that the entrypoint starts with. -/
  named : (start.push 1).bind operationsName (.list .operation) = .ok l
  compiled : ∃ line, compileBlock method.body config ⟨l, line⟩ = .ok body
  /-- Its name denotes the same cell where the body ends. -/
  kept : body.state.layout.cell? operationsName = some ⟨start.depth, .list .operation⟩
  aborts : diverges body.code = true → tail = []
  /-- The epilogue pairs what is left when it has dropped some cells. This is the list and the cell
  with the storage's name just if every cell has a name. -/
  pairs : diverges body.code = false → ∃ drops, tail = drops ++ [.prim (.pair 2)] ∧
    (∀ i ∈ drops, ∃ n, i = dropAt n) ∧
    ∀ ⦃α : Type⦄ (M : Machine α) ⦃t : List α⦄, t.length = body.state.layout.depth →
      ∃ o s, atSlot t start.depth = some o ∧ body.state.layout.find? t storageName = some s ∧
        (M.run drops t = ends [o, s] ↔ body.state.layout.Named)
  /-- The body leaves no cell without a name, if there is none where it starts and its expression
  statements call `now` on the class only. -/
  leaves : diverges body.code = false → l.Named →
    Stmt.allAskClass (l.binds clockName) method.body = true → body.state.layout.Named

/-- With a transaction in it, the code makes the list first and pairs it last. -/
theorem pending_of_entrypointCode {method : Method} {done : Step Unit} (hl : state.layout.WellFormed)
    (hcontext : ∀ name want, state.layout.context ≠ .function name want) {c : Cell}
    (hstorage : state.layout.cell? storageName = some c)
    (hcalls : Stmt.anyCallsTransaction method.body = true)
    (hdone : entrypointCode method config state = .ok done) :
    ∃ l body tail, Pending config method state.layout l body tail ∧
      done.code = config.notes (.entered method.name) ++ .prim (.nil .operation) ::
        (config.notes (.bound operationsName) ++ body.code ++ tail) ∧
      body.state.layout.cell? storageName = some c := by
  obtain ⟨l, body, tail, hbind, hbody, hcode, htail⟩ := entrypointCode_eq_ok_of_calls hcalls hdone
  have hstart : l.WellFormed := hl.bind_push hbind
  obtain ⟨hgrows, -⟩ := restores_block (declares_all method.body) hstart hbody
  have hkept := hgrows.extending.kept (cell?_of_bind hbind)
  have hstore : body.state.layout.cell? storageName = some c := by
    obtain ⟨after, hafter, hsame⟩ := exists_name_of_bind hbind (by decide) hstorage
    obtain rfl := hsame (by decide)
    exact hgrows.extending.kept hafter
  refine ⟨l, body, tail, ⟨hbind, ⟨state.line, hbody⟩, hkept, ?_, ?_, ?_⟩, hcode, hstore⟩
  · intro hdiv
    rcases htail with ⟨-, htail⟩ | ⟨hgoes, -⟩
    · exact htail
    · rw [hdiv] at hgoes
      cases hgoes
  · intro hgoes
    rcases htail with ⟨hdiv, -⟩ | ⟨-, last, hlast, rfl⟩
    · rw [hgoes] at hdiv
      cases hdiv
    · obtain ⟨drops, htail, hdrops, hruns⟩ :=
        epilogue_pairs hgrows.wellFormed hkept hstore (hl.below hstorage) hlast
      refine ⟨drops, htail, hdrops, fun α M t ht => ?_⟩
      rw [find?_of_slot t (slot?_of_cell? hstore)]
      exact hruns M ht
  · intro hgoes hnamed hclock
    have hunreturning : Unreturning (l.binds clockName) l := by
      refine ⟨hstart, fun name want => ?_, id⟩
      rw [context_of_bind hbind]
      exact hcontext name want
    rw [compileBlock, fromHere, layout_bind] at hbody
    have hsame := sameUnnamed_compileBody hstart (allBalance hclock) hunreturning (.refl hstart)
      (.refl l) hbody hgoes
    exact hsame.named_iff.mpr hnamed

/-- The storage's name is for the bottom cell, or else for the parameter's. -/
theorem Enters.cell?_storage {module start : Layout} {method : Method} {e : Entrypoint}
    {param : Ident} (h : Enters config module method e param start) :
    ∃ c, start.cell? storageName = some c ∧ (param ≠ storageName → c = ⟨0, e.storage⟩) := by
  by_cases hparam : param = storageName
  · exact ⟨_, hparam ▸ cell?_of_bind h.bound, fun hne => absurd hparam hne⟩
  · have hroom : (roomLayout module e.storage method.name).cell? storageName =
        some ⟨0, e.storage⟩ := by rw [cell?_roomLayout, if_pos rfl]
    obtain ⟨after, hafter, hsame⟩ := exists_name_of_bind h.bound (by decide) hroom
    obtain rfl := hsame (Ne.symm hparam)
    exact ⟨_, hafter, fun _ => rfl⟩

end Gen

/-- Let no function be defined in the body of an entrypoint. Then it is never refused because of a
transaction outside of an entrypoint. And if its code transfers tokens anywhere, it starts with an
empty list of operations, notes apart, and this list is what it keeps as pending operations up to the
pair that it ends with. The storage has the bottom cell, unless the parameter takes its name. -/
theorem scan_agrees_with_transfers {method : Method}
    (hnested : Stmt.anyDefinesFunction method.body = false) (module : Layout) (storage : Ty)
    (config : Config) (state : State) :
    (∀ e, entrypoint method (entryLayout module storage) storage config state = .error e →
      e.cause ≠ .unsupported .strayTransaction) ∧
    ∀ done, module.WellFormed →
      entrypoint method (entryLayout module storage) storage config state = .ok done →
      transfers done.result.code = true →
      ∃ param start l body tail, Enters config module method done.result param start ∧
        Pending config method start l body tail ∧
        done.result.code = config.notes (.entered method.name) ++ .prim (.nil .operation) ::
          (config.notes (.bound operationsName) ++ body.code ++ tail) ∧
        (param ≠ storageName → body.state.layout.cell? storageName = some ⟨0, storage⟩) ∧
        (module.Named →
          (∀ name, module.binds name = true → name ≠ storageName ∧ '@' ∉ name.toList) →
          '@' ∉ param.toList → l.Named) := by
  constructor
  · intro e herror hcause
    -- seen from a layout with the list, it would have to be missing from that
    have hforetold := foretoldAt_entrypoint hnested (entryLayout module storage) storage config
      state ((Layout.empty .module).bindSlot operationsName 0 .unit)
    rw [herror] at hforetold
    have hnone := (hforetold (by rw [CompileError.isStray, hcause]; rfl)).2
    exact absurd hnone (by decide)
  · intro done hmodule hdone htransfers
    obtain ⟨param, start, henters⟩ := enters_of_entrypoint hdone
    obtain ⟨line, inner, hinner, hcode⟩ := henters.code
    have hcalls : Stmt.anyCallsTransaction method.body = true := by
      have hforetold := foretoldAt_entrypointCode hnested config ⟨start, line⟩ start
      rw [hinner] at hforetold
      exact hforetold (hcode ▸ htransfers)
    have hstart : start.WellFormed :=
      (wellFormed_roomLayout hmodule).bind (topFree_roomLayout hmodule) henters.bound
    have hcontext : start.context = .entrypoint method.name := Layout.context_of_bind henters.bound
    have hfunction (name : Ident) (want : Ty) : start.context ≠ .function name want := by
      rw [hcontext]
      nofun
    have hstorage : done.result.storage = storage := by
      obtain ⟨_, _, _, -, -, -, hresult⟩ := entrypoint_eq_ok hdone
      rw [hresult]
    obtain ⟨c, hc, hbottom⟩ := henters.cell?_storage
    obtain ⟨l, body, tail, hpending, hinside, hkept⟩ :=
      pending_of_entrypointCode hstart hfunction hc hcalls hinner
    refine ⟨param, start, l, body, tail, henters, hpending, hcode ▸ hinside, fun hparam => ?_,
      fun hnamed hplain hparam => ?_⟩
    · rw [hkept, hbottom hparam, hstorage]
    · exact named_of_binds hmodule hnamed hplain hparam henters.bound hpending.named

/-- A machine whose values say what they are made of: lists of numbers of starting cells. -/
def Machine.origins : Machine (List Nat) where
  prim _ args := some args.flatten
  bool? _ := some true
  option? a := some (some a)
  list? a := some [a]
  pair? a := some (a, a)
  closure _ _ _ := []
  call arg closure := some (arg ++ closure)

/-- Transfers to the sender, who is not given more than what came along. -/
def Method.refund : Method :=
  ⟨4, "refund", [⟨"n", some (.name 4 "Mutez"), 4⟩], none,
    [.ifElse 5 (.compare 5 (.name 5 "n") [(.ltE, .name 5 "AMOUNT")])
      [.expr 6 (.call 6 (.name 6 "transaction")
        [.call 6 (.name 6 "Contract") [.name 6 "SENDER"] [], .name 6 "n", .name 6 "Unit"] [])]
      []]⟩

theorem scan_agrees_with_transfers_refund :
    Stmt.anyDefinesFunction Method.refund.body = false ∧ (Layout.empty .module).WellFormed ∧
    ∃ done start l body tail,
      entrypoint Method.refund (entryLayout (.empty .module) .int) .int ⟨.empty, false⟩
        ⟨.empty .module, 4⟩ = .ok done ∧
      transfers done.result.code = true ∧
      Pending ⟨.empty, false⟩ Method.refund start l body tail ∧
      done.result.code = .prim (.nil .operation) :: (body.code ++ tail) ∧
      body.state.layout.cell? storageName = some ⟨0, .int⟩ ∧ l.Named ∧
      Machine.origins.run done.result.code [[1], [0]] = ends [[1, 0]] := by
  have hrun : (entrypoint Method.refund (entryLayout (.empty .module) .int) .int ⟨.empty, false⟩
      ⟨.empty .module, 4⟩).toOption.map (fun done => (transfers done.result.code,
        Machine.origins.run done.result.code [[1], [0]])) = some (true, ends [[1, 0]]) := by
    decide +kernel
  have hnested : Stmt.anyDefinesFunction Method.refund.body = false := by decide
  refine ⟨hnested, .empty .module, ?_⟩
  obtain ⟨done, hdone, hboth⟩ := Except.exists_ok_of_map hrun
  obtain ⟨htransfers, hends⟩ := Prod.mk.inj hboth
  obtain ⟨param, start, l, body, tail, henters, hpending, hcode, hstorage, hnamed⟩ :=
    (scan_agrees_with_transfers hnested (.empty .module) .int _ _).2 done (.empty .module) hdone
      htransfers
  have hparam : param ≠ storageName ∧ '@' ∉ param.toList := by
    rcases henters.param_mem with rfl | hmem
    · decide
    · obtain rfl : param = "n" := by simpa [Method.refund] using hmem
      decide
  refine ⟨done, start, l, body, tail, hdone, htransfers, hpending, hcode, hstorage hparam.1,
    hnamed rfl (fun name hname => ?_) hparam.2, hends⟩
  cases hname

/-- The value that `now` is called on stays on top of the storage, and it is this value that the
pending operations are paired with. -/
theorem leftover_is_paired_with_pending_operations : ∃ (method : Method) (done : Step Entrypoint),
    Stmt.anyDefinesFunction method.body = false ∧
      entrypoint method (entryLayout (.empty .module) .int) .int ⟨.empty, false⟩
        ⟨.empty .module, 4⟩ = .ok done ∧
      transfers done.result.code = true ∧
      Machine.origins.run done.result.code [[1], [0]] = ends [[1], [0]] := by
  let method : Method :=
    ⟨4, "pay", [⟨"t", some (.name 4 "Timestamp"), 4⟩], none,
      [.expr 5 (.call 5 (.attr 5 (.name 5 "t") "now") [] []),
        .expr 6 (.call 6 (.name 6 "transaction")
          [.call 6 (.name 6 "Contract") [.name 6 "SENDER"] [], .literal 6 (.int 5),
            .name 6 "Unit"] [])]⟩
  have hrun : (entrypoint method (entryLayout (.empty .module) .int) .int ⟨.empty, false⟩
      ⟨.empty .module, 4⟩).toOption.map (fun done => (transfers done.result.code,
        Machine.origins.run done.result.code [[1], [0]])) = some (true, ends [[1], [0]]) := by
    decide +kernel
  obtain ⟨done, hdone, hboth⟩ := Except.exists_ok_of_map hrun
  obtain ⟨htransfers, hends⟩ := Prod.mk.inj hboth
  exact ⟨method, done, by decide, hdone, htransfers, hends⟩

end Covenant
