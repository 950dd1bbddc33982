import Covenant.Proofs.DepthAccounting
import Covenant.Proofs.Machine.Cells
import Covenant.Proofs.StackBalance
import Covenant.Proofs.TypeSoundness
import Mathlib.Algebra.Ring.Int.Defs

/-!
# Covenant — what entrypoints find on the stack

The preamble and the entrypoints of a contract are compiled apart, from layouts of their own, and
run one after the other. `preamble_and_entrypoints_agree` says that they fit together. A call starts
from a pair of parameter and storage; unless the preamble aborts it leaves the storage at the
bottom, on it the cells that the module-level statements leave on an empty stack, and the parameter
on top. And this is where the layout that an entrypoint starts from has the storage, the
module-level variables and the parameter.

The first half is that code does not notice what is underneath the stack it was compiled for
(`Machine.run_underneath`). For the second half the names matter: the parameter may hide a
module-level variable, but under a name that no other variable has (`Layout.exists_name_of_bind`),
and the storage has a name that no module-level variable may have.
-/

namespace Covenant

open Gen Ending Stack

/-! ## The preamble on the machine -/

namespace Machine

variable {α : Type} {M : Machine α}

/-- The cell beneath `s` moves on top of it. -/
theorem step_dig_length (s : List α) (a : α) (rest : List α) :
    M.step (.dig s.length) (s ++ a :: rest) = ends (a :: s ++ rest) := by
  simp only [step]
  rw [List.getElem?_append_right (Nat.le_refl _), List.eraseIdx_append_of_length_le (Nat.le_refl _),
    Nat.sub_self]
  rfl

/-- The preamble takes parameter and storage apart, runs the module-level statements on top of both
and gets the parameter back. -/
theorem run_preamble {code : Code} {k : Nat} (hcode : Depth.Balanced code 0 k) {v p s : α}
    (hpair : M.pair? v = some (p, s)) :
    (M.run code [] = aborts ∧ M.run (preamble code k) [v] = aborts) ∨
      ∃ globals, M.run code [] = ends globals ∧ globals.length = k ∧
        M.run (preamble code k) [v] = ends (p :: globals ++ [s]) := by
  have hunpair : M.step .unpair [v] = ends [p, s] := by simp [step, hpair, ofOption]
  have hstart : M.run (preamble code k) [v] =
      (M.run code [p, s]).andThen (M.run (if 0 < k then [.dig k] else [])) := by
    rw [preamble, List.cons_append, run_cons, hunpair, ends_andThen, run_append]
  rcases run_of_balanced (M := M) (s := []) hcode rfl with habort | ⟨globals, hends, hlength⟩
  · refine .inl ⟨habort, ?_⟩
    have habove : M.run code [p, s] = aborts := by
      have hbelow := run_underneath (M := M) [p, s] code [] (by simp [habort])
      rwa [habort] at hbelow
    rw [hstart, habove, aborts_andThen]
  · refine .inr ⟨globals, hends, hlength, ?_⟩
    have habove : M.run code [p, s] = ends (globals ++ [p, s]) := by
      have hbelow := run_underneath (M := M) [p, s] code [] (by simp [hends])
      rwa [hends] at hbelow
    rw [hstart, habove, ends_andThen, ← hlength]
    split
    · rw [run_singleton, step_dig_length]
    · next hnone =>
      -- without module-level variables the parameter is on top already
      obtain rfl : globals = [] := List.eq_nil_of_length_eq_zero (by omega)
      rw [run_nil]
      rfl

end Machine

/-! ## Module-level variables -/

/-- The cell of a variable on a stack that is laid out so. -/
def Layout.find? {α : Type} (l : Layout) (s : List α) (name : Ident) : Option α :=
  (l.slot? name).bind (atSlot s)

theorem Layout.find?_of_slot {α : Type} {l : Layout} (s : List α) {name : Ident} {slot : Nat}
    (hslot : l.slot? name = some slot) : l.find? s name = atSlot s slot := by
  rw [find?, hslot, Option.bind_some]

namespace Stmt

/-- The parameters of the methods of a class. -/
def paramNames : Stmt → List Ident
  | classDef _ _ _ _ members => members.flatMap fun
    | function _ _ params _ _ => params.map (·.name)
    | _ => []
  | _ => []

theorem paramNames_desugar (s : Stmt) : s.desugar.paramNames = s.paramNames := by
  cases s with
  | classDef line name bases decorators members =>
    simp only [desugar, paramNames, desugarAll_eq_map, List.flatMap_map]
    congr 1
    funext member
    cases member <;> simp [desugar]
  | _ => simp [desugar, paramNames]

end Stmt

/-- The names that are seen from outside of methods: those of module-level variables and functions,
and those of the parameters of entrypoints. -/
def Module.outerNames (m : Module) : List Ident :=
  m.body.flatMap fun s => s.declared ++ s.paramNames

theorem Module.outerNames_desugar (m : Module) : m.desugar.outerNames = m.outerNames := by
  simp only [outerNames, desugar, Stmt.desugarAll_eq_map, List.flatMap_map, Stmt.declared_desugar,
    Stmt.paramNames_desugar]

namespace Gen

variable {config : Config} {state : State}

/-- The module-level statements declare what they say. -/
theorem declares_prologue {contract : Option (List Stmt)} {body : List Stmt}
    {done : Step (Option (List Stmt))} (hl : state.layout.WellFormed)
    (hdone : prologue contract body config state = .ok done) :
    state.layout.Grows done.state.layout ∧
      state.layout.AddsOnly done.state.layout (body.flatMap Stmt.declared) := by
  induction body generalizing contract state done with
  | nil =>
    cases hdone
    exact ⟨.refl hl, fun _ h => .inl h⟩
  | cons s rest ih =>
    have hlayout := state.layout_seeing s.line
    rcases prologue_cons_eq_ok hdone with ⟨-, -, hrest⟩ | ⟨first, last, -, -, hfirst, hrest, rfl⟩
    · -- a statement that is not compiled here leaves the rest to declare
      obtain ⟨hgrows, hadds⟩ := ih (hlayout ▸ hl) hrest
      rw [hlayout] at hgrows hadds
      exact ⟨hgrows, Layout.AddsOnly.trans (fun _ h => .inl h) hadds⟩
    · obtain ⟨hgrows, hadds⟩ := declares_compileStmt s (hlayout ▸ hl) hfirst
      rw [hlayout] at hgrows hadds
      obtain ⟨hgrows', hadds'⟩ := ih hgrows.wellFormed hrest
      exact ⟨hgrows.trans hgrows', hadds.trans hadds'⟩

/-! ## The layout of an entrypoint -/

/-- An entrypoint is compiled from a method: `param` is what the method calls its parameter, and
`start` the layout that its body starts from, before there is room for pending operations. -/
structure Enters (config : Config) (module : Layout) (method : Method) (e : Entrypoint)
    (param : Ident) (start : Layout) : Prop where
  named : ∃ (state : State) (done : Step (Ident × Ty)),
    entrypointParam method config state = .ok done ∧ done.result = (param, e.param)
  bound : (roomLayout module e.storage method.name).bind param e.param = .ok start
  code : ∃ (line : Nat) (done : Step Unit),
    entrypointCode method config ⟨start, line⟩ = .ok done ∧ done.code = e.code

/-- Every entrypoint that is compiled is entered from some layout. -/
theorem enters_of_entrypoint {method : Method} {module : Layout} {storage : Ty}
    {done : Step Entrypoint}
    (h : entrypoint method (entryLayout module storage) storage config state = .ok done) :
    ∃ param start, Enters config module method done.result param start := by
  obtain ⟨named, start, inner, hnamed, hbound, hinner, hresult⟩ := entrypoint_eq_ok h
  rw [hresult]
  exact ⟨named.result.1, start, ⟨state, named, hnamed, rfl⟩, hbound, ⟨_, inner, hinner, rfl⟩⟩

variable {module start : Layout} {method : Method} {e : Entrypoint} {param : Ident}

/-- The parameter has the name that the method gives it, or one of the compiler. -/
theorem Enters.param_mem (h : Enters config module method e param start) :
    param = Layout.parameterName ∨ param ∈ method.params.map (·.name) := by
  obtain ⟨_, done, hnamed, hresult⟩ := h.named
  rcases (entrypointParam_eq_ok hnamed).2 with heq | ⟨p, hp, _, -, heq⟩
  · exact .inl (Prod.mk.inj (hresult.symm.trans heq)).1
  · rw [show param = p.name from (congrArg Prod.fst hresult).symm.trans heq]
    exact .inr (List.mem_map_of_mem hp)

theorem Enters.depth (h : Enters config module method e param start) :
    start.depth = module.depth + 2 :=
  Layout.depth_of_bind h.bound

variable {α : Type} {globals : List α} {p s : α}

/-- The bottom cell is the storage's. -/
theorem Enters.find?_storage (h : Enters config module method e param start)
    (hparam : param ≠ Layout.storageName) (globals : List α) (p s : α) :
    start.find? (p :: globals ++ [s]) Layout.storageName = some s := by
  have hslot : start.slot? Layout.storageName = some 0 := by
    rw [Layout.slot?_bind h.bound (by decide), if_neg (Ne.symm hparam), slot?_roomLayout, if_pos rfl]
  rw [Layout.find?_of_slot _ hslot]
  simp [atSlot]

/-- The top cell is the parameter's. -/
theorem Enters.find?_param (h : Enters config module method e param start)
    (hglobals : globals.length = module.depth) (p s : α) :
    start.find? (p :: globals ++ [s]) param = some p := by
  have hslot : (roomLayout module e.storage method.name).depth - 1 = (globals ++ [s]).length := by
    rw [List.length_append, hglobals]
    rfl
  rw [Layout.find?_of_slot _ (Layout.slot?_of_cell? (Layout.cell?_of_bind h.bound))]
  show atSlot (p :: (globals ++ [s])) ((roomLayout module e.storage method.name).depth - 1) = some p
  rw [hslot, atSlot_cons_length]

/-- A module-level variable that the parameter does not hide is one slot further up than it was, and
so is its cell, since the storage is underneath. -/
theorem Enters.find?_global (h : Enters config module method e param start)
    (hmodule : module.WellFormed) (hglobals : globals.length = module.depth) (p s : α)
    {name : Ident} (hstorage : name ≠ Layout.storageName) (hplain : '@' ∉ name.toList)
    (hname : name ≠ param) {slot : Nat} (hslot : module.slot? name = some slot) :
    start.find? (p :: globals ++ [s]) name = module.find? globals name := by
  have hstart : start.slot? name = some (slot + 1) := by
    rw [Layout.slot?_bind h.bound hplain, if_neg hname, slot?_roomLayout, if_neg hstorage, hslot,
      Option.map_some]
  have hbelow : slot < globals.length := hglobals ▸ hmodule.slots_below hslot
  rw [Layout.find?_of_slot _ hstart, Layout.find?_of_slot _ hslot, Nat.add_comm,
    show (1 : Nat) = [s].length from rfl, atSlot_length_add, atSlot_cons_of_lt p hbelow]

end Gen

/-! ## Contracts -/

namespace Module

/-- A module-level variable is one of the names seen from outside, and so is every parameter of a
method of the contract class. -/
theorem declared_subset_outerNames (m : Module) : m.body.flatMap Stmt.declared ⊆ m.outerNames := by
  intro name hname
  obtain ⟨s, hs, hmem⟩ := List.mem_flatMap.mp hname
  exact List.mem_flatMap.mpr ⟨s, hs, List.mem_append_left _ hmem⟩

theorem params_subset_outerNames {m : Module} {line : Nat} {name : Ident}
    {bases decorators : List Expr}
    {members : List Stmt} (hclass : Stmt.classDef line name bases decorators members ∈ m.body)
    {method : Method} (hmethod : method.stmt ∈ members) :
    method.params.map (·.name) ⊆ m.outerNames := by
  intro param hparam
  refine List.mem_flatMap.mpr ⟨_, hclass, List.mem_append_right _ ?_⟩
  exact List.mem_flatMap.mpr ⟨_, hmethod, hparam⟩

end Module

/-- The preamble leaves the stack that entrypoints are compiled for. Let no module-level variable
and no parameter have the storage's name or an `@` in it. On a pair of parameter `p` and storage `s`
the preamble aborts just if the module-level statements do on an empty stack; otherwise it leaves
`p` on what these leave, on `s`. Every entrypoint is compiled from a layout of this depth, in which
the storage has the cell of `s`, the parameter that of `p`, and every module-level variable that the
parameter does not hide the cell that it had among what the statements leave. -/
theorem preamble_and_entrypoints_agree {m : Module} {traced : Bool} {c : Contract}
    (h : m.compile traced = .ok c)
    (hnames : ∀ name ∈ m.outerNames, name ≠ Layout.storageName ∧ '@' ∉ name.toList) :
    ∃ (config : Config) (line : Nat) (module : Step (Option (List Stmt))) (members : List Stmt),
      prologue none m.desugar.body config ⟨.empty .module, line⟩ = .ok module ∧
      c.preamble = preamble module.code module.state.layout.depth ∧
      (∀ {α : Type} (M : Machine α) (v p s : α), M.pair? v = some (p, s) →
        (M.run module.code [] = aborts ∧ M.run c.preamble [v] = aborts) ∨
          ∃ globals, M.run module.code [] = ends globals ∧
            globals.length = module.state.layout.depth ∧
            M.run c.preamble [v] = ends (p :: globals ++ [s])) ∧
      m.desugar.body.filterMap Stmt.contract? = [members] ∧
      ∀ name e, (name, e) ∈ c.entrypoints → ∃ method ∈ Stmt.entryMethods members,
        ∃ param start, method.name = name ∧ Enters config module.state.layout method e param start ∧
        start.depth = module.state.layout.depth + 2 ∧
        ∀ {α : Type} (globals : List α) (p s : α), globals.length = module.state.layout.depth →
          start.find? (p :: globals ++ [s]) Layout.storageName = some s ∧
          start.find? (p :: globals ++ [s]) param = some p ∧
          ∀ x, module.state.layout.binds x = true → x ≠ param →
            ∃ a, module.state.layout.find? globals x = some a ∧
              start.find? (p :: globals ++ [s]) x = some a := by
  obtain ⟨config, module, init, methods, -, -, hassembled⟩ := Module.compile_eq_ok h
  obtain ⟨line, hprologue⟩ := hassembled.prologue
  obtain ⟨hgrows, hadds⟩ := declares_prologue (Layout.WellFormed.empty .module) hprologue
  rw [← m.outerNames_desugar] at hnames
  obtain ⟨members, hcontract, -, hmethods⟩ := hassembled.members
  refine ⟨config, line, module, members, hprologue, hassembled.preamble, fun M v p s hpair => ?_,
    hcontract, fun name e hmem => ?_⟩
  · rw [hassembled.preamble]
    exact Machine.run_preamble (accounts_prologue hprologue) hpair
  obtain ⟨method, hmethod, hname, state, done, hdone, rfl⟩ := hassembled.entrypoints name e hmem
  obtain ⟨param, start, henters⟩ := enters_of_entrypoint hdone
  have hparam : param ≠ Layout.storageName := by
    rcases henters.param_mem with rfl | hmem
    · decide
    · obtain ⟨_, _, _, _, members, hclass, hmembers⟩ := hassembled.exists_class
      exact (hnames _ (Module.params_subset_outerNames hclass (hmembers method hmethod) hmem)).1
  refine ⟨method, hmethods ▸ hmethod, param, start, hname, henters, henters.depth,
    fun globals p s hglobals => ?_⟩
  refine ⟨henters.find?_storage hparam globals p s, henters.find?_param hglobals p s,
    fun x hx hne => ?_⟩
  obtain ⟨slot, hslot⟩ := Layout.binds_iff.mp hx
  -- the module starts from an empty stack, so whatever it binds it has declared
  have hdeclared : x ∈ m.desugar.outerNames :=
    Module.declared_subset_outerNames _ ((hadds hx).resolve_left fun hold => by cases hold)
  obtain ⟨hstorage, hplain⟩ := hnames x hdeclared
  have hbelow : slot < globals.length := hglobals ▸ hgrows.wellFormed.slots_below hslot
  obtain ⟨a, ha⟩ : ∃ a, atSlot globals slot = some a :=
    Option.isSome_iff_exists.mp (by simp [atSlot, hbelow])
  have hfind : module.state.layout.find? globals x = some a := by
    rw [Layout.find?_of_slot _ hslot, ha]
  exact ⟨a, hfind, (henters.find?_global hgrows.wellFormed hglobals p s hstorage hplain hne
    hslot).trans hfind⟩

/-- Cells are integers, of which every one is a pair of itself and its successor, and primitives add
up what they are given. -/
def Machine.sums : Machine Int where
  prim p args := match p with
    | .push _ (.int n) => some n.toInt
    | _ => some args.sum
  bool? n := some (n == 0)
  option? n := some (some n)
  list? n := some [n]
  pair? n := some (n, n + 1)
  closure _ _ _ := 0
  call arg closure := some (arg + closure)

/-- Two module-level variables, one of which the parameter hides. Every call is refused, with a
product of both. -/
def Module.refusal : Module :=
  ⟨[.assign 1 (.name 1 "rate") (.literal 1 (.int 2)), .assign 2 (.name 2 "n") (.literal 2 (.int 3)),
    .classDef 3 "Contract" [] []
      [.function 4 "deploy" [] none [.ret 5 (some (.literal 5 (.int 0)))],
        .function 6 "refuse" [⟨"n", some (.name 6 "int"), 6⟩] none
          [.raise 7 (some (.binary 7 (.name 7 "rate") .mult (.name 7 "n")))]]]⟩

theorem preamble_and_entrypoints_agree_refusal :
    ∃ (c : Contract) (e : Entrypoint) (module start : Layout) (param : Ident),
      Module.refusal.compile false = .ok c ∧ ("refuse", e) ∈ c.entrypoints ∧
      Machine.sums.run c.preamble [7] = ends [7, 3, 2, 8] ∧ start.depth = 4 ∧
      start.find? [7, 3, 2, 8] Layout.storageName = some (8 : Int) ∧
      start.find? [7, 3, 2, 8] param = some (7 : Int) ∧
      ∀ x, module.binds x = true → x ≠ param →
        ∃ a : Int, module.find? [3, 2] x = some a ∧ start.find? [7, 3, 2, 8] x = some a := by
  have hnames : ∀ name ∈ Module.refusal.outerNames,
      name ≠ Layout.storageName ∧ '@' ∉ name.toList := by decide +kernel
  have hrun : (Module.refusal.compile false).toOption.map (fun c =>
      (c.entrypoints.map (·.1), Machine.sums.run c.preamble [7])) =
        some (["refuse"], ends [7, 3, 2, 8]) := by decide +kernel
  obtain ⟨c, hc, hends⟩ := Except.exists_ok_of_map hrun
  obtain ⟨hentries, hpreamble⟩ := Prod.mk.inj hends
  obtain ⟨⟨name, e⟩, hmem, rfl⟩ : ∃ entry ∈ c.entrypoints, entry.1 = "refuse" :=
    List.mem_map.mp (by rw [hentries]; exact List.mem_singleton.mpr rfl)
  obtain ⟨config, line, module, members, -, -, hmachine, -, hentrypoints⟩ :=
    preamble_and_entrypoints_agree hc hnames
  obtain ⟨globals, -, hglobals, hends⟩ :=
    (hmachine Machine.sums 7 7 8 rfl).resolve_left (by simp [hpreamble])
  obtain rfl : globals = [3, 2] := by
    have hsame : 7 :: globals ++ [8] = 7 :: [3, 2] ++ [8] :=
      Ending.ends.inj (hends.symm.trans hpreamble)
    exact List.tail_eq_of_cons_eq (List.append_cancel_right hsame)
  obtain ⟨method, -, param, start, -, -, hdepth, hfind⟩ := hentrypoints _ e hmem
  obtain ⟨hstorage, hparam, hmodule⟩ := hfind [3, 2] 7 8 hglobals
  exact ⟨c, e, module.state.layout, start, param, hc, hmem, hpreamble, by
    rw [hdepth, ← hglobals]; rfl, hstorage, hparam, hmodule⟩

end Covenant
