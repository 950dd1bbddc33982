import Mathlib.Data.List.Nodup
import Mathlib.Data.List.Perm.Subperm
import Covenant.Proofs.Gen.Assembly
import Covenant.Proofs.Translation.Module

/-!
# Covenant — entrypoints do not depend on one another

A contract is made of its storage initializer and of its other methods, one at a time
(`Gen.made_of_contract`, `Gen.contract_of_made`). A method leaves the layout as it found it, so that
the line seen last is all that one method hands on to the next, and no code depends on that
(`Gen.Follows.of_state`).

So methods may change places, and all but `deploy` may be left out, without any change to the
entrypoints of the others (`entrypoints_compile_independently`).
-/

namespace Covenant

open Stmt Relabelling

namespace Gen

variable {config : Config} {state : State} {done : Step Entrypoint} {m method : Method}
  {methods : List Method} {l : Layout}

/-! ## Methods one at a time -/

theorem entrypoint_layout {base : Layout} {storage : Ty}
    (h : entrypoint method base storage config state = .ok done) :
    done.state.layout = state.layout := by
  obtain ⟨named, rest, hnamed, hrest, rfl⟩ := bind_eq_ok_iff.mp h
  obtain ⟨start, -, hrest⟩ := sound_bind_eq_ok_iff.mp hrest
  obtain ⟨inner, -, hrest⟩ := block_bind_eq_ok_iff.mp hrest
  cases hrest
  have hlayout := congrArg State.layout (entrypointParam_eq_ok hnamed).1
  exact hlayout

theorem deploy_layout {done : Step (Ty × Code)} (h : deploy method config state = .ok done) :
    done.state.layout = state.layout := by
  obtain ⟨-, -, -, -, -, -, -, -, hlayout, -⟩ := deploy_eq_ok h
  exact hlayout

/-- What a method compiles to does not depend on the line seen last. -/
theorem entrypoint_of_state {base l : Layout} {storage : Ty} {line : Nat}
    (h : entrypoint m base storage config ⟨l, line⟩ = .ok done) (line' : Nat) :
    ∃ done', entrypoint m base storage config ⟨l, line'⟩ = .ok done' ∧
      done'.result = done.result := by
  have hfollows : Follows _ _ (entrypoint m base storage) _ :=
    follows_entrypoint (fixesLabels_translation forget config.traced False _) base storage
  obtain ⟨done', hdone', hresult, -⟩ := hfollows.of_state (fun ha ha' => ha'.symm.trans ha) h line'
  exact ⟨done', hdone', hresult⟩

theorem deploy_of_state {line : Nat} {done : Step (Ty × Code)}
    (h : deploy m config ⟨l, line⟩ = .ok done) (line' : Nat) :
    ∃ done', deploy m config ⟨l, line'⟩ = .ok done' ∧ done'.result = done.result := by
  have hfollows : Follows _ _ (deploy m) _ :=
    follows_deploy (fixesLabels_translation forget config.traced False _)
  obtain ⟨done', hdone', hresult, -⟩ := hfollows.of_state
    (fun ha ha' => Prod.ext (ha'.1.symm.trans ha.1) (ha'.2.symm.trans ha.2)) h line'
  exact ⟨done', hdone', hresult⟩

/-- What a method compiles to, under its name, whatever stands around it in its class. -/
def compiled? (config : Config) (l base : Layout) (storage : Ty) (m : Method) :
    Option (Ident × Entrypoint) :=
  match entrypoint m base storage config ⟨l, 0⟩ with
  | .ok done => some (m.name, done.result)
  | .error _ => none

variable {base : Layout} {storage : Ty}

theorem compiled?_eq_some (h : entrypoint m base storage config state = .ok done) :
    compiled? config state.layout base storage m = some (m.name, done.result) := by
  obtain ⟨done', hdone', hresult⟩ := entrypoint_of_state h 0
  simp only [compiled?, hdone', hresult]

theorem entrypoint_of_compiled? {name : Ident} {e : Entrypoint}
    (h : compiled? config state.layout base storage m = some (name, e)) :
    ∃ done, entrypoint m base storage config state = .ok done ∧ name = m.name ∧
      done.result = e ∧ done.state.layout = state.layout := by
  unfold compiled? at h
  cases hrun : entrypoint m base storage config ⟨state.layout, 0⟩ with
  | error fault =>
    rw [hrun] at h
    cases h
  | ok done =>
    rw [hrun] at h
    cases h
    obtain ⟨done', hdone', hresult⟩ := entrypoint_of_state hrun state.line
    exact ⟨done', hdone', rfl, hresult, entrypoint_layout hdone'⟩

theorem name_of_compiled? {p : Ident × Entrypoint} (h : compiled? config l base storage m = some p) :
    p.1 = m.name := by
  unfold compiled? at h
  split at h
  · cases h
    rfl
  · cases h

/-- Each method is compiled as if it were alone, and no two have the same name. -/
theorem entrypoints_result {start : Contract} {done : Step Contract}
    (h : entrypoints base start methods config state = .ok done)
    (hstart : (start.entrypoints.map Prod.fst).Nodup) :
    (∀ m ∈ methods, (compiled? config state.layout base start.storageTy m).isSome) ∧
      (done.result.entrypoints.map Prod.fst).Nodup ∧
      done.result = { start with
        entrypoints := start.entrypoints ++
          methods.filterMap (compiled? config state.layout base start.storageTy) } := by
  induction methods generalizing start state done with
  | nil =>
    cases h
    exact ⟨by simp, hstart, by simp⟩
  | cons m rest ih =>
    rw [entrypoints, seen_bind] at h
    obtain ⟨compiled, last, hcompiled, hlast, rfl⟩ := bind_eq_ok_iff.mp h
    have hentry := compiled?_eq_some hcompiled
    have hlayout := entrypoint_layout hcompiled
    rw [State.layout_seeing] at hentry hlayout
    cases hadd : start.addEntrypoint m.name compiled.result with
    | error duplicate =>
      rw [hadd] at hlast
      exact absurd hlast failAt_ne_ok
    | ok next =>
      rw [hadd] at hlast
      obtain ⟨hnew, rfl⟩ := addEntrypoint_eq_ok_iff.mp hadd
      have hnodup : ((start.entrypoints ++ [(m.name, compiled.result)]).map Prod.fst).Nodup := by
        rw [List.map_append]
        exact hstart.append (List.nodup_singleton _) (List.disjoint_singleton.mpr hnew)
      obtain ⟨hrest, hnames, hresult⟩ := ih hlast hnodup
      rw [hlayout] at hrest hresult
      refine ⟨List.forall_mem_cons.mpr ⟨by simp [hentry], hrest⟩, hnames, ?_⟩
      rw [hresult, List.filterMap_cons_some hentry]
      simp

theorem entrypoints_of_entries {start : Contract}
    (hmethods : ∀ m ∈ methods, (compiled? config state.layout base start.storageTy m).isSome)
    (hnames : ((start.entrypoints ++
      methods.filterMap (compiled? config state.layout base start.storageTy)).map Prod.fst).Nodup) :
    ∃ done, entrypoints base start methods config state = .ok done ∧
      done.result = { start with
        entrypoints := start.entrypoints ++
          methods.filterMap (compiled? config state.layout base start.storageTy) } := by
  induction methods generalizing start state with
  | nil => exact ⟨_, rfl, by simp⟩
  | cons m rest ih =>
    obtain ⟨hm, hrest⟩ := List.forall_mem_cons.mp hmethods
    obtain ⟨⟨name, e⟩, hentry⟩ := Option.isSome_iff_exists.mp hm
    rw [← State.layout_seeing state m.line] at hentry hrest hnames ⊢
    obtain ⟨compiled, hcompiled, rfl, rfl, hlayout⟩ := entrypoint_of_compiled? hentry
    rw [List.filterMap_cons_some hentry] at hnames ⊢
    let next : Contract :=
      { start with entrypoints := start.entrypoints ++ [(m.name, compiled.result)] }
    have hadd : start.addEntrypoint m.name compiled.result = .ok next := by
      refine addEntrypoint_eq_ok_iff.mpr ⟨fun hmem => ?_, rfl⟩
      rw [List.map_append] at hnames
      exact List.disjoint_of_nodup_append hnames hmem (by simp)
    rw [List.append_cons, ← hlayout] at hnames ⊢
    rw [← hlayout] at hrest
    obtain ⟨done, hdone, hresult⟩ := @ih compiled.state next hrest hnames
    rw [entrypoints, seen_bind, bind_of_ok hcompiled, hadd]
    dsimp only
    rw [hdone]
    exact ⟨_, rfl, hresult⟩

/-! ## The whole class -/

/-- How a contract is made from the members of its class. Nothing here depends on the order of the
members but the order of the entrypoints. -/
structure Made (config : Config) (l : Layout) (code : Code) (module : Layout) (body : List Stmt)
    (c : Contract) : Prop where
  members : ∀ s ∈ body, s.isMember = true
  deploy : ∃ init done, initializers body = [init] ∧ deploy init config ⟨l, 0⟩ = .ok done ∧
    done.result = (c.storageTy, c.storageInit)
  preamble : c.preamble = preamble code module.depth
  methods : ∀ m ∈ entryMethods body,
    (compiled? config l (entryLayout module c.storageTy) c.storageTy m).isSome
  names : (c.entrypoints.map Prod.fst).Nodup
  entrypoints : c.entrypoints =
    (entryMethods body).filterMap (compiled? config l (entryLayout module c.storageTy) c.storageTy)

variable {code : Code} {module : Layout} {body : List Stmt}

theorem made_of_contract {done : Step Contract}
    (h : contract body code module config state = .ok done) :
    Made config state.layout code module body done.result := by
  obtain ⟨found, rest, hfound, hrest, rfl⟩ := bind_eq_ok_iff.mp h
  obtain ⟨hmembers, hinit, hmethods, -, hstate⟩ := members_eq_ok_iff.mp hfound
  have hlayout : found.state.layout = state.layout := by rw [hstate, State.layout_seeingAll]
  obtain ⟨⟨deploys, methods⟩, code', after⟩ := found
  cases deploys with
  | none => exact absurd hrest fail_ne_ok
  | some init =>
    obtain ⟨initial, last, hinitial, hlast, rfl⟩ := bind_eq_ok_iff.mp hrest
    obtain ⟨initial', hinitial', hresult⟩ := deploy_of_state hinitial 0
    have hlayout' := deploy_layout hinitial
    dsimp only at hinit hmethods hlayout hlayout' hinitial'
    subst hmethods
    obtain ⟨hentries, hnames, heq⟩ := entrypoints_result hlast List.nodup_nil
    rw [hlayout', hlayout] at hentries heq
    rw [hlayout] at hinitial'
    dsimp only at heq hnames
    refine ⟨hmembers, ?_, ?_, ?_, hnames, ?_⟩
    · exact ⟨init, initial', hinit.symm, hinitial', by rw [hresult, heq]⟩
    · rw [heq]
    · rw [heq]
      exact hentries
    · rw [heq]
      exact List.nil_append _

/-- A contract that could be made is the one that is made. -/
theorem contract_of_made {c : Contract} (h : Made config state.layout code module body c) :
    ∃ done, contract body code module config state = .ok done ∧ done.result = c := by
  obtain ⟨init, bare, hinit, hbare, hstorage⟩ := h.deploy
  have hmembers : ∃ found, members none body config state = .ok found ∧
      found.result = (some init, entryMethods body) ∧ found.state.layout = state.layout :=
    ⟨⟨(some init, entryMethods body), [], _⟩,
      members_eq_ok_iff.mpr ⟨h.members, hinit.symm, rfl, rfl, rfl⟩, rfl,
      state.layout_seeingAll body⟩
  obtain ⟨⟨found, code', after⟩, hmembers, rfl, hlayout⟩ := hmembers
  dsimp only at hlayout
  rw [← hlayout] at hbare
  obtain ⟨⟨initial, code'', next⟩, hdeploy, hresult⟩ := deploy_of_state hbare after.line
  have hnext : next.layout = state.layout := (deploy_layout hdeploy).trans hlayout
  dsimp only at hresult
  obtain rfl := hresult.trans hstorage
  let start : Contract := ⟨c.storageTy, c.storageInit, preamble code module.depth, []⟩
  have hentries : ∃ done, entrypoints (entryLayout module c.storageTy) start (entryMethods body)
      config next = .ok done ∧ done.result = { start with entrypoints := c.entrypoints } := by
    have hmethods := h.methods
    have hnames := h.names
    rw [h.entrypoints] at hnames ⊢
    rw [← hnext] at hmethods hnames ⊢
    exact entrypoints_of_entries hmethods hnames
  obtain ⟨done, hdone, hdoneResult⟩ := hentries
  rw [contract, bind_of_ok hmembers]
  dsimp only
  rw [bind_of_ok hdeploy]
  dsimp only
  rw [hdone]
  exact ⟨_, rfl, hdoneResult.trans (by simp only [start, ← h.preamble])⟩

theorem map_fst_entries (h : ∀ m ∈ methods, (compiled? config l base storage m).isSome) :
    (methods.filterMap (compiled? config l base storage)).map Prod.fst =
      methods.map Method.name := by
  induction methods with
  | nil => rfl
  | cons m rest ih =>
    obtain ⟨hm, hrest⟩ := List.forall_mem_cons.mp h
    obtain ⟨⟨name, e⟩, hentry⟩ := Option.isSome_iff_exists.mp hm
    obtain rfl : name = m.name := name_of_compiled? hentry
    rw [List.filterMap_cons_some hentry, List.map_cons, List.map_cons, ih hrest]

/-- A class with the same storage initializer, and with no other methods than before, makes a
contract again. -/
theorem Made.change {body' : List Stmt} {c : Contract} (h : Made config l code module body c)
    (hsubset : body' ⊆ body) (hinit : initializers body' = initializers body)
    (hmethods : (entryMethods body').Subperm (entryMethods body)) :
    Made config l code module body' { c with
      entrypoints := (entryMethods body').filterMap
        (compiled? config l (entryLayout module c.storageTy) c.storageTy) } where
  members s hs := h.members s (hsubset hs)
  deploy := by
    rw [hinit]
    exact h.deploy
  preamble := h.preamble
  methods m hm := h.methods m (hmethods.subset hm)
  names := by
    have hnames := h.names
    rw [h.entrypoints] at hnames
    obtain ⟨kept, hperm, hsub⟩ := hmethods
    exact ((hperm.filterMap _).map _).nodup_iff.mp (hnames.sublist ((hsub.filterMap _).map _))
  entrypoints := rfl

end Gen

/-! ## Lookups among entrypoints -/

theorem lookup_eq_of_perm {α : Type} {entries entries' : List (Ident × α)}
    (h : entries.Perm entries') (hnames : (entries.map Prod.fst).Nodup) (name : Ident) :
    entries.lookup name = entries'.lookup name := by
  induction h with
  | nil => rfl
  | cons p _ ih =>
    obtain ⟨key, value⟩ := p
    rw [Table.lookup_cons, Table.lookup_cons, ih (List.nodup_cons.mp hnames).2]
  | swap p q rest =>
    obtain ⟨key, value⟩ := p
    obtain ⟨key', value'⟩ := q
    have hne : key ≠ key' := by
      rintro rfl
      simp at hnames
    simp only [Table.lookup_cons]
    by_cases hname : name = key
    · rw [if_pos hname, if_neg (hname ▸ hne), if_pos hname]
    · rw [if_neg hname, if_neg hname]
  | trans h _ ih ih' => exact (ih hnames).trans (ih' ((h.map _).nodup_iff.mp hnames))

theorem filter_ne_of_nodup {α : Type} {front back : List (Ident × α)} {name : Ident} {value : α}
    (h : ((front ++ (name, value) :: back).map Prod.fst).Nodup) :
    (front ++ (name, value) :: back).filter (·.1 ≠ name) = front ++ back := by
  have hother (entries : List (Ident × α)) (h : name ∉ entries.map Prod.fst) :
      entries.filter (·.1 ≠ name) = entries := by
    refine List.filter_eq_self.mpr fun p hp => decide_eq_true ?_
    rintro rfl
    exact h (List.mem_map_of_mem hp)
  rw [List.map_append, List.map_cons] at h
  have hnotin := (List.nodup_middle.mp h).notMem
  rw [List.mem_append, not_or] at hnotin
  rw [List.filter_append, List.filter_cons_of_neg (by simp), hother front hnotin.1,
    hother back hnotin.2]

/-! ## Around the contract class -/

/-- Two statements that are the same, except for what is in the contract class. -/
inductive SameOutside : Stmt → Stmt → Prop where
  | refl (s : Stmt) : SameOutside s s
  | contract {line : Nat} {name : Ident} {bases decorators : List Expr} (body body' : List Stmt)
      (h : isRecordClass decorators = false) :
      SameOutside (.classDef line name bases decorators body)
        (.classDef line name bases decorators body')

theorem SameOutside.same {s s' : Stmt} (h : SameOutside s s') :
    s'.isCode = s.isCode ∧ s'.line = s.line ∧ (∀ found, s'.refusal? found = s.refusal? found) ∧
      s'.contract?.isSome = s.contract?.isSome ∧ (s.isCode = true → s' = s) := by
  cases h with
  | refl => exact ⟨rfl, rfl, fun _ => rfl, rfl, fun _ => rfl⟩
  | contract => exact ⟨rfl, rfl, fun _ => rfl, by simp [contract?, apply_ite Option.isSome], nofun⟩

namespace Gen

variable {config : Config} {state : State} {stmts stmts' : List Stmt}
  {done : Step (Option (List Stmt))}

/-- The module-level statements are compiled without a look into the contract class. -/
theorem prologue_sameOutside (h : List.Forall₂ SameOutside stmts stmts')
    {contract contract' : Option (List Stmt)} (hfound : contract'.isSome = contract.isSome) :
    Lockstep Eq (fun done done' => done'.code = done.code ∧ done'.state = done.state)
      (prologue contract stmts config state) (prologue contract' stmts' config state) := by
  induction h generalizing contract contract' state with
  | nil => exact .ok ⟨rfl, rfl⟩
  | @cons s s' rest rest' hs _ ih =>
    obtain ⟨hcode, hline, hrefusal, hclass, heq⟩ := hs.same
    rw [prologue_cons, prologue_cons, seen_bind, seen_bind, hcode, hline, hrefusal, hfound]
    split
    · next hcompiled =>
      obtain rfl := heq hcompiled
      split
      · exact .error rfl
      · rw [bind_apply, bind_apply]
        refine (Lockstep.refl Eq.refl Eq.refl _).andThen fun first =>
          (ih hfound).bind fun last last' hlast => ?_
        exact .ok ⟨congrArg (first.code ++ ·) hlast.1, hlast.2⟩
    · cases s.refusal? contract.isSome with
      | some cause => exact .error rfl
      | none => exact ih (by simp [hfound, hclass])

/-- A contract class is the only one. -/
theorem prologue_of_mem {line : Nat} {name : Ident} {bases decorators : List Expr}
    {body : List Stmt} (hmem : .classDef line name bases decorators body ∈ stmts)
    (hrecord : isRecordClass decorators = false) (hcontract : isContractClass name bases = true)
    (h : prologue none stmts config state = .ok done) : done.result = some body := by
  refine Option.mem_toList.mp ?_
  rw [prologue_result h]
  exact List.mem_filterMap.mpr ⟨_, hmem, by simp [contract?, hrecord, hcontract]⟩

theorem withRecordClasses_sameOutside {α : Type} {step step' : Gen α} {Q : α → α → Prop}
    (hstep : ∀ ⦃config : Config⦄ ⦃state : State⦄ ⦃done : Step α⦄, step config state = .ok done →
      ∃ done', step' config state = .ok done' ∧ Q done.result done'.result)
    (h : List.Forall₂ SameOutside stmts stmts') {done : Step α}
    (hrun : withRecordClasses step stmts config state = .ok done) :
    ∃ done', withRecordClasses step' stmts' config state = .ok done' ∧
      Q done.result done'.result := by
  induction h generalizing config state done with
  | nil => exact hstep hrun
  | @cons s s' rest rest' hs _ ih =>
    cases hs with
    | contract body body' hrecord =>
      rw [withRecordClasses, hrecord] at hrun ⊢
      exact ih hrun
    | refl =>
      cases s with
      | classDef line name bases decorators body =>
        rw [withRecordClasses] at hrun ⊢
        split at hrun
        · next hrecord =>
          rw [if_pos hrecord]
          rw [seen_bind] at hrun ⊢
          obtain ⟨fields, last, hfields, hlast, rfl⟩ := bind_eq_ok_iff.mp hrun
          have hrest : withRecordClasses step rest
              { config with records := config.records.insert name fields.result } fields.state =
              .ok last := hlast
          obtain ⟨last', hlast', hQ⟩ := ih hrest
          have hwith : withRecord name fields.result (withRecordClasses step' rest') config
              fields.state = .ok last' := hlast'
          rw [bind_of_ok hfields, hwith]
          exact ⟨_, rfl, hQ⟩
        · next hrecord =>
          rw [if_neg hrecord]
          exact ih hrun
      | _ =>
        rw [withRecordClasses] at hrun ⊢
        · exact ih hrun
        · simp
        · simp

end Gen

/-- The statements of a program around the members of its contract class. -/
structure ContractFrame where
  front : List Stmt
  line : Nat
  name : Ident
  bases : List Expr
  decorators : List Expr
  back : List Stmt
  notRecord : isRecordClass decorators = false
  isContract : isContractClass name bases = true

namespace ContractFrame

/-- The program with the given members in its contract class. -/
def fill (frame : ContractFrame) (body : List Stmt) : Module :=
  ⟨frame.front ++ .classDef frame.line frame.name frame.bases frame.decorators body :: frame.back⟩

/-- The frame of the desugared program. -/
def desugar (frame : ContractFrame) : ContractFrame :=
  { frame with front := desugarAll frame.front, back := desugarAll frame.back }

theorem desugar_fill (frame : ContractFrame) (body : List Stmt) :
    (frame.fill body).desugar = frame.desugar.fill (desugarAll body) := by
  simp [fill, desugar, Module.desugar, desugarAll_eq_map, Stmt.desugar]

theorem mem_fill (frame : ContractFrame) (body : List Stmt) :
    .classDef frame.line frame.name frame.bases frame.decorators body ∈ (frame.fill body).body :=
  List.mem_append_right _ List.mem_cons_self

theorem sameOutside (frame : ContractFrame) (body body' : List Stmt) :
    List.Forall₂ SameOutside (frame.fill body).body (frame.fill body').body := by
  have hsame (stmts : List Stmt) : List.Forall₂ SameOutside stmts stmts :=
    List.forall₂_same.mpr fun s _ => .refl s
  exact List.rel_append (hsame _) (.cons (.contract body body' frame.notRecord) (hsame _))

variable {config : Gen.Config} {state : Gen.State} {frame : ContractFrame} {body body' : List Stmt}

open Gen in
/-- Where every contract made from some members can be made from others, up to some change, the
whole program compiles with the others too, up to that change. -/
theorem contractProgram_change {Q : Contract → Contract → Prop}
    (hmade : ∀ ⦃config : Config⦄ ⦃l : Layout⦄ ⦃code : Code⦄ ⦃module : Layout⦄ ⦃c : Contract⦄,
      Made config l code module body c → ∃ c', Made config l code module body' c' ∧ Q c c')
    {done : Step Contract}
    (h : contractProgram (frame.fill body).body config state = .ok done) :
    ∃ done', contractProgram (frame.fill body').body config state = .ok done' ∧
      Q done.result done'.result := by
  refine withRecordClasses_sameOutside ?_ (frame.sameOutside body body') h
  intro config state done hdone
  obtain ⟨module, hmodule, hdone⟩ := apart_bind_eq_ok_iff.mp hdone
  have hprologue : Lockstep Eq (fun done done' => done'.code = done.code ∧ done'.state = done.state)
      (prologue none (frame.fill body).body config { state with layout := .empty .module })
      (prologue none (frame.fill body').body config { state with layout := .empty .module }) :=
    prologue_sameOutside (frame.sameOutside body body') rfl
  rw [hmodule] at hprologue
  cases hmodule' : prologue none (frame.fill body').body config
      { state with layout := .empty .module } with
  | error e =>
    rw [hmodule'] at hprologue
    cases hprologue
  | ok module' =>
    rw [hmodule'] at hprologue
    obtain ⟨hcode, hstate⟩ : module'.code = module.code ∧ module'.state = module.state := by
      cases hprologue with
      | ok h => exact h
    have hfound : module.result = some body :=
      prologue_of_mem (frame.mem_fill body) frame.notRecord frame.isContract hmodule
    have hfound' : module'.result = some body' :=
      prologue_of_mem (frame.mem_fill body') frame.notRecord frame.isContract hmodule'
    rw [hfound] at hdone
    obtain ⟨c', hmade', hQ⟩ := hmade (made_of_contract hdone)
    obtain ⟨done', hdone', rfl⟩ := contract_of_made hmade'
    refine ⟨done', apart_bind_eq_ok_iff.mpr ⟨module', hmodule', ?_⟩, hQ⟩
    rw [hfound', hcode, hstate]
    exact hdone'

theorem compile_change {Q : Contract → Contract → Prop} {traced : Bool}
    (hmade : ∀ ⦃config : Gen.Config⦄ ⦃l : Layout⦄ ⦃code : Code⦄ ⦃module : Layout⦄ ⦃c : Contract⦄,
      Gen.Made config l code module (desugarAll body) c →
        ∃ c', Gen.Made config l code module (desugarAll body') c' ∧ Q c c')
    {c : Contract} (h : (frame.fill body).compile traced = .ok c) :
    ∃ c', (frame.fill body').compile traced = .ok c' ∧ Q c c' := by
  obtain ⟨done, hdone, rfl⟩ := Except.map_eq_ok_iff.mp h
  rw [desugar_fill] at hdone
  obtain ⟨done', hdone', hQ⟩ := contractProgram_change hmade hdone
  rw [← desugar_fill] at hdone'
  exact ⟨done'.result, Except.map_eq_ok_iff.mpr ⟨done', hdone', rfl⟩, hQ⟩

theorem exists_of_compile {m : Module} {traced : Bool} {c : Contract}
    (h : m.compile traced = .ok c) : ∃ (frame : ContractFrame) (body : List Stmt),
      m = frame.fill body := by
  obtain ⟨done, hdone, rfl⟩ := Except.map_eq_ok_iff.mp h
  obtain ⟨config, state, inner, -, -, hinner, -⟩ :=
    Gen.withRecordClasses_eq_ok Records.settled_empty hdone
  obtain ⟨module, hmodule, hinner⟩ := Gen.apart_bind_eq_ok_iff.mp hinner
  cases hfound : module.result with
  | none =>
    rw [hfound] at hinner
    exact absurd hinner Gen.failNowhere_ne_ok
  | some members =>
    obtain ⟨line, name, bases, decorators, hmem, hrecord, hcontract⟩ :=
      Gen.exists_of_prologue hmodule hfound
    rw [Module.desugar, desugarAll_eq_map] at hmem
    obtain ⟨s, hs, hdesugar⟩ := List.mem_map.mp hmem
    -- only classes become classes
    cases s with
    | classDef line' name' bases' decorators' body' =>
      obtain ⟨rfl, rfl, rfl, rfl, rfl⟩ := Stmt.classDef.inj hdesugar
      obtain ⟨front, back, hbody⟩ := List.append_of_mem hs
      exact ⟨⟨front, line', name', bases', decorators', back, hrecord, hcontract⟩, body',
        congrArg Module.mk hbody⟩
    | _ => cases hdesugar

end ContractFrame

/-! ## Permuting and leaving out methods -/

/-- The contracts differ in their entrypoints only. -/
def Contract.SameBase (c c' : Contract) : Prop :=
  c'.storageTy = c.storageTy ∧ c'.storageInit = c.storageInit ∧ c'.preamble = c.preamble

namespace Stmt

theorem map_name_entryMethods_desugarAll (body : List Stmt) :
    (entryMethods (desugarAll body)).map Method.name = (entryMethods body).map Method.name := by
  induction body with
  | nil => rfl
  | cons s rest ih =>
    rw [desugarAll]
    cases hmethod : s.method? with
    | none =>
      have hdesugar : s.desugar.method? = none := by
        cases s with
        | function => cases hmethod
        | _ => rfl
      rw [entryMethods_cons_of_none hmethod, entryMethods_cons_of_none hdesugar, ih]
    | some m =>
      obtain rfl := eq_stmt_of_method? hmethod
      have hdesugar : m.stmt.desugar = (Method.stmt { m with body := desugarAll m.body }) := rfl
      rw [hdesugar, entryMethods_cons_stmt, entryMethods_cons_stmt]
      dsimp only
      split
      · exact ih
      · rw [List.map_cons, List.map_cons, ih]

theorem initializers_append (body body' : List Stmt) :
    initializers (body ++ body') = initializers body ++ initializers body' := by
  simp [initializers]

theorem entryMethods_append (body body' : List Stmt) :
    entryMethods (body ++ body') = entryMethods body ++ entryMethods body' := by
  simp [entryMethods]

end Stmt

namespace Gen

variable {config : Config} {l : Layout} {code : Code} {module : Layout} {c : Contract}

theorem Made.permute {body body' : List Stmt} (h : Made config l code module body c)
    (hperm : body'.Perm body) :
    ∃ c', Made config l code module body' c' ∧ c.SameBase c' ∧
      (∀ name, c'.entrypoint? name = c.entrypoint? name) ∧
      c'.entrypoints.map Prod.fst = (entryMethods body').map Method.name := by
  have hinit : initializers body' = initializers body := by
    obtain ⟨init, -, hone, -⟩ := h.deploy
    have hinits : (initializers body').Perm (initializers body) := (hperm.filterMap _).filter _
    rw [hone] at hinits ⊢
    exact List.perm_singleton.mp hinits
  have hmethods : (entryMethods body').Perm (entryMethods body) := (hperm.filterMap _).filter _
  have hmade := h.change hperm.subset hinit hmethods.subperm
  refine ⟨_, hmade, ⟨rfl, rfl, rfl⟩, lookup_eq_of_perm ?_ hmade.names,
    map_fst_entries hmade.methods⟩
  rw [h.entrypoints]
  exact hmethods.filterMap _

theorem Made.leaveOut {before after : List Stmt} {m : Method}
    (h : Made config l code module (before ++ m.stmt :: after) c) (hname : m.name ≠ "deploy") :
    ∃ c', Made config l code module (before ++ after) c' ∧ c.SameBase c' ∧
      c'.entrypoints = c.entrypoints.filter (·.1 ≠ m.name) := by
  have hinit : initializers (before ++ after) = initializers (before ++ m.stmt :: after) := by
    rw [initializers_append, initializers_append, initializers_cons_stmt, if_neg hname]
  have hmethods : entryMethods (before ++ m.stmt :: after) =
      entryMethods before ++ m :: entryMethods after := by
    rw [entryMethods_append, entryMethods_cons_stmt, if_neg hname]
  have hsub : (entryMethods (before ++ after)).Sublist
      (entryMethods (before ++ m.stmt :: after)) := by
    rw [hmethods, entryMethods_append]
    exact (List.sublist_cons_self m _).append_left _
  have hsubset : before ++ after ⊆ before ++ m.stmt :: after :=
    ((List.sublist_cons_self m.stmt after).append_left before).subset
  refine ⟨_, h.change hsubset hinit hsub.subperm, ⟨rfl, rfl, rfl⟩, ?_⟩
  obtain ⟨⟨name, e⟩, hentry⟩ := Option.isSome_iff_exists.mp
    (h.methods m (by rw [hmethods]; simp))
  obtain rfl : name = m.name := name_of_compiled? hentry
  have hnames := h.names
  rw [h.entrypoints, hmethods, List.filterMap_append, List.filterMap_cons_some hentry] at hnames ⊢
  rw [entryMethods_append, List.filterMap_append]
  exact (filter_ne_of_nodup hnames).symm

end Gen

open ContractFrame in
/-- The members of the contract class may change places, and methods other than `deploy` may be left
out: the other entrypoints stay as they are, and so do storage and preamble. -/
theorem entrypoints_compile_independently {m : Module} {traced : Bool} {c : Contract}
    (h : m.compile traced = .ok c) :
    (∃ (frame : ContractFrame) (body : List Stmt), m = frame.fill body) ∧
      ∀ (frame : ContractFrame) (body : List Stmt), m = frame.fill body →
        (∀ body', body'.Perm body → ∃ c', (frame.fill body').compile traced = .ok c' ∧
          c.SameBase c' ∧ (∀ name, c'.entrypoint? name = c.entrypoint? name) ∧
          c'.entrypoints.map Prod.fst = (entryMethods body').map Method.name) ∧
        ∀ before (method : Method) after, body = before ++ method.stmt :: after →
          method.name ≠ "deploy" → ∃ c', (frame.fill (before ++ after)).compile traced = .ok c' ∧
            c.SameBase c' ∧ c'.entrypoints = c.entrypoints.filter (·.1 ≠ method.name) := by
  refine ⟨exists_of_compile h, ?_⟩
  rintro frame body rfl
  refine ⟨fun body' hperm => ?_, ?_⟩
  · rw [← map_name_entryMethods_desugarAll]
    refine compile_change (fun _ _ _ _ _ hmade => hmade.permute ?_) h
    rw [desugarAll_eq_map, desugarAll_eq_map]
    exact hperm.map _
  · rintro before method after rfl hname
    refine compile_change (Q := fun c c' => c.SameBase c' ∧
      c'.entrypoints = c.entrypoints.filter (·.1 ≠ method.name)) (fun _ _ _ _ _ hmade => ?_) h
    rw [desugarAll_eq_map, List.map_append, List.map_cons] at hmade
    rw [desugarAll_eq_map, List.map_append]
    exact Gen.Made.leaveOut (m := { method with body := desugarAll method.body }) hmade hname

/-- An otherwise empty program. -/
def ContractFrame.bare : ContractFrame := ⟨[], 1, "Contract", [], [], [], rfl, rfl⟩

/-- A storage initializer. -/
def Method.zero : Method := ⟨2, "deploy", [], none, [.ret 2 (some (.literal 2 (.int 0)))]⟩

/-- A method that combines the storage with its argument. -/
def Method.combine (line : Nat) (name : Ident) (op : BinOp) : Method :=
  let storage : Expr := .attr line (.name line "self") "storage"
  ⟨line, name, [⟨"n", some (.name line "int"), line⟩], none,
    [.assign line storage (.binary line storage op (.name line "n"))]⟩

theorem entrypoints_compile_independently_bare :
    ∃ c c' c'' : Contract,
      (ContractFrame.bare.fill [(Method.combine 3 "add" .add).stmt, Method.zero.stmt,
        (Method.combine 4 "sub" .sub).stmt]).compile false = .ok c ∧
      c.entrypoints.map Prod.fst = ["add", "sub"] ∧
      (ContractFrame.bare.fill [(Method.combine 4 "sub" .sub).stmt,
        (Method.combine 3 "add" .add).stmt, Method.zero.stmt]).compile false = .ok c' ∧
      c'.entrypoints.map Prod.fst = ["sub", "add"] ∧
      (∀ name, c'.entrypoint? name = c.entrypoint? name) ∧
      (ContractFrame.bare.fill [Method.zero.stmt,
        (Method.combine 4 "sub" .sub).stmt]).compile false = .ok c'' ∧
      c''.entrypoints = c.entrypoints.filter (·.1 ≠ "add") := by
  have hnames : ((ContractFrame.bare.fill [(Method.combine 3 "add" .add).stmt, Method.zero.stmt,
      (Method.combine 4 "sub" .sub).stmt]).compile false).toOption.map
        (fun c => c.entrypoints.map Prod.fst) = some ["add", "sub"] := by decide +kernel
  obtain ⟨c, hc, hnames⟩ := Except.exists_ok_of_map hnames
  obtain ⟨hpermute, hleaveOut⟩ := (entrypoints_compile_independently hc).2 _ _ rfl
  have hperm : ([(Method.combine 4 "sub" .sub).stmt] ++ [(Method.combine 3 "add" .add).stmt,
      Method.zero.stmt]).Perm ([(Method.combine 3 "add" .add).stmt, Method.zero.stmt] ++
        [(Method.combine 4 "sub" .sub).stmt]) := List.perm_append_comm
  obtain ⟨c', hc', -, hsame, hnames'⟩ := hpermute _ hperm
  obtain ⟨c'', hc'', -, hothers⟩ := hleaveOut [] (Method.combine 3 "add" .add) _ rfl (by decide)
  exact ⟨c, c', c'', hc, hnames, hc', hnames'.trans (by decide +kernel), hsame, hc'', hothers⟩

end Covenant
