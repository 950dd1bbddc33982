import Covenant.Compile
import Covenant.Proofs.Translation.Stmt

/-!
# Covenant — compiling translated programs

What the compiler makes of a translated program follows what it makes of the program, both for lists
of statements (`agrees_statements`) and for contracts (`follows_contractProgram`). Labels must not be
renamed: classes name record types, methods name entrypoints and attributes name the parts of
records, all of which are part of the contract.
-/

namespace Covenant

open Renaming Stmt

variable {τ : Translation}

/-! ## Contracts without notes -/

def Entrypoint.withoutNotes (e : Entrypoint) : Entrypoint :=
  { e with code := Covenant.withoutNotes e.code }

/-- The contract without the notes in its code. -/
def Contract.withoutNotes (c : Contract) : Contract where
  storageTy := c.storageTy
  storageInit := Covenant.withoutNotes c.storageInit
  preamble := Covenant.withoutNotes c.preamble
  entrypoints := c.entrypoints.map fun (name, e) => (name, e.withoutNotes)

namespace Translation

variable (τ : Translation)

/-- What an entrypoint of the second run is compared by. -/
def eraseEntrypoint (e : Entrypoint) : Entrypoint := if τ.keep then e else e.withoutNotes

/-- What a contract of the second run is compared by. -/
def eraseContract (c : Contract) : Contract := if τ.keep then c else c.withoutNotes

theorem eraseContract_mk (storage : Ty) (init preamble : Code) :
    τ.eraseContract ⟨storage, init, preamble, []⟩ =
      ⟨storage, τ.erase init, τ.erase preamble, []⟩ := by
  unfold eraseContract erase
  cases τ.keep <;> rfl

end Translation

/-! ## Classes -/

theorem isRecordClass_under (τ : Translation) (decorators : List Expr) :
    isRecordClass (decorators.map (Expr.relabel τ id τ.lines)) =
      isRecordClass decorators := by
  have hspares : Spares τ "dataclass" := τ.spares_reserved (by decide)
  rw [isRecordClass, isRecordClass, List.any_map]
  congr 1
  funext e
  cases e with
  | call line func args keywords => exact Expr.name?_beq_relabel id τ.lines hspares func
  | name line name => exact Expr.name?_beq_relabel id τ.lines hspares (.name line name)
  | _ => rfl

theorem isContractClass_under (τ : Translation) (name : Ident) (bases : List Expr) :
    isContractClass name (bases.map (Expr.relabel τ id τ.lines)) =
      isContractClass name bases := by
  have hspares : Spares τ "Contract" := τ.spares_reserved (by decide)
  rw [isContractClass, isContractClass, List.any_map]
  congr 2
  funext base
  exact Expr.name?_beq_relabel id τ.lines hspares base

namespace Stmt

/-- The members of a class with other names and lines. -/
def underMembers (τ : Translation) (body : List Stmt) : List Stmt :=
  relabelMembers τ id τ.lines body

@[simp] theorem isDocstring_under (τ : Translation) (s : Stmt) :
    (s.under τ).isDocstring = s.isDocstring :=
  s.isDocstring_relabel τ id τ.lines

end Stmt

namespace Gen

theorem agrees_recordFields (record : Ident) (body : List Stmt) :
    Agrees τ (recordFields record body)
      (recordFields record (underMembers τ body)) := by
  induction body with
  | nil => exact agrees_pure []
  | cons s rest hrest =>
    cases s with
    | annotated line target ty value =>
      cases value with
      | none =>
        simp only [underMembers, relabelMembers, Option.map_none, recordFields,
          Expr.name?_relabel, Option.map_id, id, Expr.text_relabel]
        cases target.name? with
        | none => exact follows_failAt line .rfl
        | some field => exact (agrees_denoted ty).bind fun _ => hrest.bind fun _ => agrees_pure _
      | some value => exact follows_failAt line .rfl
    | pass line => exact hrest
    | expr line value =>
      have hdoc := isDocstring_under τ (.expr line value)
      change Agrees τ (recordFields record (.expr line value :: rest))
        (recordFields record ((expr line value).under τ :: underMembers τ rest))
      simp only [under, relabel, recordFields] at hdoc ⊢
      rw [hdoc]
      exact .ite hrest (follows_failAt line .rfl)
    | _ => exact follows_failAt _ .rfl

theorem agrees_recordClass (name : Ident) (body : List Stmt) :
    Agrees τ (recordClass name body) (recordClass name (underMembers τ body)) := by
  refine follows_scope_bind fun scope _ => ?_
  refine .ite (follows_fail_bind .rfl) ?_
  refine (agrees_recordFields name body).bind fun fields => ?_
  refine .ite (follows_fail_bind .rfl) ?_
  split
  · exact follows_fail .rfl
  · exact agrees_pure fields

theorem Follows.withRecordClasses {α β : Type} {R : α → β → Prop} {step : Gen α} {step' : Gen β}
    (h : Follows τ R step step') : ∀ body : List Stmt, τ.FixesLabels (allOccurrences body) →
    Follows τ R (withRecordClasses step body)
      (withRecordClasses step' (underAll τ body))
  | [], _ => h
  | s :: rest, hlabels => by
    rw [allOccurrences, fixesLabels_append] at hlabels
    have hrest := h.withRecordClasses rest hlabels.2
    cases s with
    | classDef line name bases decorators body =>
      rw [occurrences, fixesLabels_label_cons] at hlabels
      simp only [underAll, relabelAll, relabel, Gen.withRecordClasses, isRecordClass_under, id]
      refine .ite ?_ hrest
      exact (agrees_seen line).bind fun _ => (agrees_recordClass name body).bind fun fields =>
        hrest.withRecord hlabels.1.1 fields
    | _ => exact hrest

/-! ## Methods -/

end Gen

/-- The method with other names and lines. Its own name is a label. -/
def Method.under (τ : Translation) (m : Method) : Method :=
  ⟨τ.lines m.line, m.name, Param.underAll τ m.params, Expr.underOption τ m.returns,
    underAll τ m.body⟩

namespace Gen

variable {method : Method}

/-- The renamed body of a contract class, whose labels are not renamed. -/
def MembersAgree (τ : Translation) (r r' : Option (List Stmt)) : Prop :=
  r' = r.map (underMembers τ) ∧
    ∀ members ∈ r, τ.FixesLabels (memberOccurrences members)

theorem follows_prologue : ∀ (contract : Option (List Stmt)) (body : List Stmt),
    τ.FixesLabels (allOccurrences body) →
    (∀ members ∈ contract, τ.FixesLabels (memberOccurrences members)) →
    Follows τ (MembersAgree τ) (prologue contract body)
      (prologue (contract.map (underMembers τ)) (underAll τ body))
  | contract, [], _, hcontract => follows_pure ⟨rfl, hcontract⟩
  | contract, s :: rest, hlabels, hcontract => by
    rw [allOccurrences, fixesLabels_append] at hlabels
    have hrest := follows_prologue contract rest hlabels.2 hcontract
    have hsome : (contract.map (underMembers τ)).isSome = contract.isSome :=
      Option.isSome_map
    -- a statement that is neither a class nor an import nor `pass`
    have hother : Follows τ (MembersAgree τ)
        (if s.isDocstring then prologue contract rest
          else if contract.isSome then fail (.unsupported .afterContract)
          else do compileStmt s; prologue contract rest)
        (if (s.under τ).isDocstring then
            prologue (contract.map (underMembers τ)) (underAll τ rest)
          else if (contract.map (underMembers τ)).isSome then
            fail (.unsupported .afterContract)
          else do
            compileStmt (s.under τ)
            prologue (contract.map (underMembers τ)) (underAll τ rest)) := by
      rw [isDocstring_under, hsome]
      exact .ite hrest
        (.ite (follows_fail .rfl) ((agrees_compileStmt s hlabels.1).bind fun _ => hrest))
    cases s with
    | classDef line name bases decorators body =>
      rw [occurrences, fixesLabels_label_cons, fixesLabels_append, fixesLabels_append] at hlabels
      simp only [underAll, relabelAll, relabel, prologue, Stmt.line, isRecordClass_under,
        isContractClass_under, hsome, id]
      refine (agrees_seen line).bind fun _ =>
        .ite hrest (.ite (.ite (follows_fail .rfl) ?_) (follows_fail .rfl))
      refine follows_prologue (some body) rest hlabels.2 fun members hmembers => ?_
      cases hmembers
      exact hlabels.1.2.2.2
    | imports | pass => exact (agrees_seen _).bind fun _ => hrest
    | _ => exact (agrees_seen _).bind fun _ => hother

/-- The members of a renamed class are the renamed members. -/
def MethodsAgree (τ : Translation) (r r' : Option Method × List Method) : Prop :=
  r' = (r.1.map (Method.under τ), r.2.map (Method.under τ)) ∧
    ∀ m, m ∈ r.1 ∨ m ∈ r.2 → τ.FixesLabels (allOccurrences m.body)

theorem follows_members : ∀ (deploy : Option Method) (body : List Stmt),
    τ.FixesLabels (memberOccurrences body) →
    (∀ m ∈ deploy, τ.FixesLabels (allOccurrences m.body)) →
    Follows τ (MethodsAgree τ) (members deploy body)
      (members (deploy.map (Method.under τ)) (underMembers τ body))
  | deploy, [], _, hdeploy => follows_pure ⟨rfl, fun m hm => hm.elim (hdeploy m) nofun⟩
  | deploy, s :: rest, hlabels, hdeploy => by
    have hsome : (deploy.map (Method.under τ)).isSome = deploy.isSome := Option.isSome_map
    cases s with
    | function line name params returns body =>
      rw [memberOccurrences, fixesLabels_label_cons, fixesLabels_append, fixesLabels_append,
        fixesLabels_append] at hlabels
      obtain ⟨-, -, -, hbody, hrest⟩ := hlabels
      simp only [underMembers, relabelMembers, members, Stmt.line, hsome, id]
      refine (agrees_seen line).bind fun _ => .ite (.ite (follows_fail .rfl) ?_) ?_
      · refine follows_members (some ⟨line, name, params, returns, body⟩) rest hrest fun m hm => ?_
        cases hm
        exact hbody
      · refine (follows_members deploy rest hrest hdeploy).bind fun r r' hr => ?_
        obtain ⟨deploy', methods⟩ := r
        obtain ⟨rfl, hmethods⟩ := hr
        refine follows_pure ⟨rfl, fun m hm => ?_⟩
        rcases hm with hm | hm
        · exact hmethods m (.inl hm)
        · rcases List.mem_cons.mp hm with rfl | hm
          · exact hbody
          · exact hmethods m (.inr hm)
    | pass line =>
      rw [memberOccurrences_cons rfl, fixesLabels_append] at hlabels
      exact (agrees_seen line).bind fun _ => follows_members deploy rest hlabels.2 hdeploy
    | expr line value =>
      rw [memberOccurrences_cons rfl, fixesLabels_append] at hlabels
      have hdoc := isDocstring_under τ (.expr line value)
      change Follows τ (MethodsAgree τ) (members deploy (.expr line value :: rest))
        (members (deploy.map (Method.under τ))
          ((expr line value).under τ :: underMembers τ rest))
      simp only [under, relabel, members, Stmt.line] at hdoc ⊢
      rw [hdoc]
      exact (agrees_seen line).bind fun _ =>
        .ite (follows_members deploy rest hlabels.2 hdeploy) (follows_fail .rfl)
    | _ => exact (agrees_seen _).bind fun _ => follows_fail .rfl

/-- The initial storage is computed by the same code. -/
theorem follows_initial {init : Expr} (h : τ.FixesLabels init.occurrences) (returns : Option Expr) :
    Follows τ (fun p p' => p'.1 = p.1 ∧ τ.erase p'.2 = p.2)
      (do let declared ← returns.mapM denoted
          let done ← apart (.empty .deploy) (do
            if let some want := declared then
              checkFits init want
            init.operand.value declared)
          match declared.or (some done.result) with
          | some storage => return (storage, done.code)
          | none => defect .untypedStorage)
      (do let declared ← (Expr.underOption τ returns).mapM denoted
          let done ← apart (.empty .deploy) (do
            if let some want := declared then
              checkFits (init.under τ) want
            (init.under τ).operand.value declared)
          match declared.or (some done.result) with
          | some storage => return (storage, done.code)
          | none => defect .untypedStorage) := by
  have hinit := Expr.agrees_operand h
  refine (agrees_mapM_denoted returns).bind fun declared => ?_
  cases declared with
  | none =>
    refine ((hinit.value none).apart (.empty .deploy)).bind fun done done' hdone => ?_
    exact follows_pure ⟨hdone.result.symm, hdone.code⟩
  | some want =>
    have hchecked := (agrees_checkFits init want).bind fun _ => hinit.value (some want)
    refine (hchecked.apart (.empty .deploy)).bind fun done done' hdone => ?_
    exact follows_pure ⟨rfl, hdone.code⟩

theorem follows_deploy (h : τ.FixesLabels (allOccurrences method.body)) :
    Follows τ (fun p p' => p'.1 = p.1 ∧ τ.erase p'.2 = p.2) (deploy method)
      (deploy (method.under τ)) := by
  have hfilter : (underAll τ method.body).filter (fun s => !s.isDocstring) =
      (method.body.filter fun s => !s.isDocstring).map (under τ) := by
    rw [underAll, relabelAll_eq_map, List.filter_map]
    congr 2
    funext s
    exact congrArg not (isDocstring_under τ s)
  have hlabels : ∀ s ∈ method.body.filter (fun s => !s.isDocstring),
      τ.FixesLabels s.occurrences := fun s hs =>
    h.of_subset (occurrences_subset_of_mem (List.mem_of_mem_filter hs))
  unfold deploy
  rw [Method.under, hfilter]
  generalize (method.body.filter fun s => !s.isDocstring) = body at hlabels ⊢
  cases body with
  | nil => exact follows_fail .rfl
  | cons s rest =>
    have hs := hlabels s List.mem_cons_self
    cases s with
    | ret line value =>
      cases value with
      | none => exact follows_fail .rfl
      | some init =>
        cases rest with
        | nil => exact follows_initial hs method.returns
        | cons _ _ => exact follows_fail .rfl
    | _ => exact follows_fail .rfl

/-! ## Entrypoints -/

theorem follows_entrypointParam (method : Method) :
    Follows τ (fun p p' => p' = (τ p.1, p.2)) (entrypointParam method)
      (entrypointParam (method.under τ)) := by
  obtain ⟨line, name, params, returns, body⟩ := method
  have hparam (params : List Param) : Follows τ (fun p p' => p' = (τ p.1, p.2))
      (soleParam name params) (soleParam name (Param.underAll τ params)) := by
    rcases params with _ | ⟨param, _ | ⟨second, rest⟩⟩
    · exact follows_pure (congrArg (·, Ty.unit) (τ.reserved _ (by decide)).symm)
    · exact (agrees_paramType param).bind fun ty => follows_pure rfl
    · simp only [Param.underAll, List.map_cons, soleParam, List.length_cons, List.length_map]
      exact follows_fail .rfl
  cases params with
  | nil => exact hparam []
  | cons first rest =>
    have hself : Spares τ "self" := τ.spares_reserved (by decide)
    by_cases hfirst : first.name = "self"
    · have hfirst' : (first.under τ).name = "self" :=
        (hself first.name).mpr hfirst
      simp only [entrypointParam, Method.under, Param.underAll, List.map_cons, if_pos hfirst,
        if_pos hfirst']
      exact hparam rest
    · have hfirst' : ¬ (first.under τ).name = "self" :=
        mt (hself first.name).mp hfirst
      simp only [entrypointParam, Method.under, Param.underAll, List.map_cons, if_neg hfirst,
        if_neg hfirst']
      exact hparam (first :: rest)

theorem agrees_epilogue : Agrees τ epilogue epilogue := by
  refine follows_layout_bind fun l => ?_
  have hnames : ((l.mapNames τ).names.filter fun name =>
      name != Layout.storageName && name != Layout.operationsName) =
      (l.names.filter fun name =>
        name != Layout.storageName && name != Layout.operationsName).map τ := by
    rw [Layout.names_mapNames, List.filter_map]
    congr 2
    funext name
    rw [Function.comp_apply, τ.bne_eq τ.storageName_eq, τ.bne_eq τ.operationsName_eq]
  rw [hnames]
  refine (agrees_freeAll _).bind fun _ => follows_layout_bind fun l => ?_
  have hbinds := Layout.binds_mapNames τ l Layout.operationsName
  rw [τ.operationsName_eq] at hbinds
  rw [hbinds]
  exact .ite (agrees_apply _) ((agrees_apply _).bind fun _ => agrees_apply _)

theorem agrees_entrypointCode (h : τ.FixesLabels (allOccurrences method.body)) :
    Agrees τ (entrypointCode method) (entrypointCode (method.under τ)) := by
  have htransaction : Spares τ "transaction" := τ.spares_reserved (by decide)
  have hcalls : anyCallsTransaction (underAll τ method.body) = _ :=
    (callsTransaction_relabel id τ.lines htransaction).2 method.body
  have hbind : Agrees τ _ _ := agrees_bindTop Layout.operationsName (.list .operation)
  rw [τ.operationsName_eq] at hbind
  refine agrees_listen_bind ((agrees_annotate .rfl).bind fun _ => ?_) agrees_epilogue
  rw [Method.under, hcalls]
  exact .ite ((agrees_apply _).bind fun _ => hbind.bind fun _ => agrees_compileBlock h)
    (agrees_compileBlock h)

theorem follows_entrypoint (h : τ.FixesLabels (allOccurrences method.body)) (base : Layout)
    (storage : Ty) :
    Follows τ (fun e e' => τ.eraseEntrypoint e' = e) (entrypoint method base storage)
      (entrypoint (method.under τ) (base.mapNames τ) storage) := by
  refine (follows_entrypointParam method).bind fun p p' hp => ?_
  obtain ⟨param, paramTy⟩ := p
  obtain rfl := hp
  have hstart := Layout.bind_mapNames τ
    (({ base with context := .entrypoint method.name } : Layout).push 1) param paramTy
  change Follows τ _ _ (sound (((({ base with context := .entrypoint method.name } : Layout).push
    1).mapNames τ).bind (τ param) paramTy) >>= _)
  rw [hstart]
  refine follows_sound_bind fun start _ => ?_
  exact .block_bind (agrees_entrypointCode h) start fun code final =>
    follows_pure (by unfold Translation.eraseEntrypoint Translation.erase; cases τ.keep <;> rfl)

end Gen

/-- Notes have no part in which entrypoints a contract has. -/
theorem Contract.addEntrypoint_withoutNotes (c : Contract) (name : Ident) (e : Entrypoint) :
    c.withoutNotes.addEntrypoint name e.withoutNotes =
      (c.addEntrypoint name e).map Contract.withoutNotes := by
  have hlookup : ∀ entries : List (Ident × Entrypoint),
      ((entries.map fun (name, e) => (name, e.withoutNotes)).lookup name).isSome =
        (entries.lookup name).isSome := by
    intro entries
    induction entries with
    | nil => rfl
    | cons entry rest ih =>
      obtain ⟨other, e⟩ := entry
      rw [List.map_cons, Table.lookup_cons, Table.lookup_cons]
      by_cases hname : name = other
      · rw [if_pos hname, if_pos hname]
        rfl
      · rw [if_neg hname, if_neg hname]
        exact ih
  have hsome : (c.withoutNotes.entrypoint? name).isSome = (c.entrypoint? name).isSome :=
    hlookup c.entrypoints
  rw [addEntrypoint, addEntrypoint, hsome]
  by_cases h : (c.entrypoint? name).isSome = true
  · rw [if_pos h, if_pos h]
    rfl
  · rw [if_neg h, if_neg h]
    simp [Except.map, withoutNotes]

namespace Translation

variable (τ)

theorem eraseContract_addEntrypoint (c : Contract) (name : Ident) (e : Entrypoint) :
    (τ.eraseContract c).addEntrypoint name (τ.eraseEntrypoint e) =
      (c.addEntrypoint name e).map τ.eraseContract := by
  unfold eraseContract eraseEntrypoint
  cases τ.keep with
  | true =>
    simp only [if_pos]
    cases c.addEntrypoint name e <;> rfl
  | false => exact c.addEntrypoint_withoutNotes name e

end Translation

namespace Gen

theorem follows_entrypoints (base : Layout) : ∀ {methods : List Method}
    (_ : ∀ m ∈ methods, τ.FixesLabels (allOccurrences m.body)) (c : Contract),
    Follows τ (fun c c' => τ.eraseContract c' = c) (entrypoints base (τ.eraseContract c) methods)
      (entrypoints (base.mapNames τ) c (methods.map (Method.under τ)))
  | [], _, c => follows_pure rfl
  | method :: rest, h, c => by
    have hmethod := h method List.mem_cons_self
    have hrest := fun c => follows_entrypoints base (fun m hm => h m (List.mem_cons_of_mem _ hm)) c
    have hcode := follows_entrypoint hmethod base c.storageTy
    refine (agrees_seen method.line).bind fun _ => ?_
    have hstorage : (τ.eraseContract c).storageTy = c.storageTy := by
      unfold Translation.eraseContract
      cases τ.keep <;> rfl
    rw [hstorage]
    refine hcode.bind fun e e' he => ?_
    subst he
    rw [τ.eraseContract_addEntrypoint]
    cases hadd : c.addEntrypoint method.name e' with
    | error duplicate =>
      simp only [Method.under, hadd]
      exact follows_failAt _ .rfl
    | ok c' =>
      simp only [Method.under, hadd]
      exact hrest c'

theorem erase_preamble (code : Code) (depth : Nat) :
    τ.erase (preamble code depth) = preamble (τ.erase code) depth := by
  have hunpair : τ.erase (.unpair :: code) = .unpair :: τ.erase code := by
    rcases τ.erase_eq with h | h <;> rw [h] <;> rfl
  have hdig : τ.erase (if 0 < depth then [.dig depth] else []) =
      if 0 < depth then [.dig depth] else [] :=
    τ.erase_of_withoutNotes (by split <;> rfl)
  rw [preamble, preamble, τ.erase_append, hunpair, hdig]

theorem entryLayout_mapNames (l : Layout) (storage : Ty) :
    entryLayout (l.mapNames τ) storage = (entryLayout l storage).mapNames τ := by
  have hbind := Layout.bindSlot_mapNames τ (l.shift 1) Layout.storageName 0 storage
  have hshift : (l.mapNames τ).shift 1 = (l.shift 1).mapNames τ :=
    congrArg (fun vars => Layout.mk vars _ _ _ _ _) (Table.mapValues_mapEntries _ l.vars)
  rw [τ.storageName_eq] at hbind
  rw [entryLayout, entryLayout, hshift, hbind]

theorem follows_contract {body : List Stmt} (h : τ.FixesLabels (memberOccurrences body))
    (code : Code) (l : Layout) :
    Follows τ (fun c c' => τ.eraseContract c' = c) (contract body (τ.erase code) l)
      (contract (underMembers τ body) code (l.mapNames τ)) := by
  refine (follows_members none body h nofun).bind fun r r' hr => ?_
  obtain ⟨init, methods⟩ := r
  obtain ⟨rfl, hmethods⟩ := hr
  cases init with
  | none => exact follows_fail .rfl
  | some init =>
    refine (follows_deploy (hmethods init (.inl rfl))).bind fun p p' hp => ?_
    obtain ⟨storage, initCode⟩ := p
    obtain ⟨storage', initCode'⟩ := p'
    obtain ⟨hstorage, hcode⟩ := hp
    dsimp only at hstorage hcode
    subst hstorage hcode
    have hentrypoints := follows_entrypoints (entryLayout l storage')
      (fun m hm => hmethods m (.inr hm)) ⟨storage', initCode', preamble code l.depth, []⟩
    rw [τ.eraseContract_mk, erase_preamble, ← entryLayout_mapNames] at hentrypoints
    exact hentrypoints

/-- Where there is no contract class the error has no line, so this comparison is not strict. -/
theorem follows_contractProgram {body : List Stmt}
    (h : τ.FixesLabels (allOccurrences body)) (hstrict : ¬ τ.strict) :
    Follows τ (fun c c' => τ.eraseContract c' = c) (contractProgram body)
      (contractProgram (underAll τ body)) := by
  refine Follows.withRecordClasses ?_ body h
  refine ((follows_prologue none body h nofun).apart (.empty .module)).bind fun done done' hdone => ?_
  obtain ⟨hresult, hlabels⟩ := hdone.result
  rw [hresult]
  cases hmembers : done.result with
  | none => exact follows_failNowhere fun h => absurd h hstrict
  | some members =>
    have hlayout : done'.state.layout = done.state.layout.mapNames τ :=
      congrArg State.layout hdone.state
    have hcontract := follows_contract (hlabels members hmembers) done'.code done.state.layout
    rw [hdone.code, ← hlayout] at hcontract
    exact hcontract

theorem agrees_statements : ∀ {body : List Stmt}, τ.FixesLabels (allOccurrences body) →
    Agrees τ (statements body) (statements (underAll τ body))
  | [], _ => agrees_pure ()
  | s :: rest, h => by
    rw [allOccurrences, fixesLabels_append] at h
    have hrest := agrees_statements h.2
    have hstmt := (agrees_compileStmt s h.1).bind fun _ => hrest
    cases s with
    | classDef line name bases decorators body =>
      rw [occurrences, fixesLabels_label_cons] at h
      simp only [underAll, relabelAll, relabel, statements, isRecordClass_under, id]
      refine (agrees_seen line).bind fun _ => .ite ?_ (follows_fail .rfl)
      exact (agrees_recordClass name body).bind fun fields => hrest.withRecord h.1.1 fields
    | _ => exact (agrees_seen _).bind fun _ => hstmt

end Gen

end Covenant
