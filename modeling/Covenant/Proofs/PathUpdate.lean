import Covenant.Proofs.PathUpdate.Values
import Covenant.Proofs.Relocation.Expr
import Covenant.Proofs.TypeSoundness.Stmt

/-!
# Covenant — assignment to a path is functional update

The code of an assignment such as `a.b[k].c = v` opens one container after the other, pushes the
value, and rebuilds the containers around it from the inside out. Run on a stack that holds the
variables, it does to the root variable what `Interpretation.write` does to its value, and it aborts
where a key is missing on the way (`path_assignment_is_functional_update`).

Keys are evaluated twice, on the way in and on the way out, each time above other cells. They have
the same value both times, the one that they have on the stack itself
(`Interpretation.Pushes.above`).
-/

namespace Covenant

open Gen Outcome Interpretation

variable {α β γ : Type} {I : Interpretation α} {config : Config} {l : Layout} {s t : List (Datum α)}
  {d d' v : Datum α} {hop : Hop α} {hops : List (Hop α)} {outer inner leaf : Ty}

/-! ## Missing keys -/

namespace Outcome

/-- The value, or the abort for a missing key. -/
def orMissing : Option β → Outcome α β
  | some b => .ends b
  | none => .aborts (.string "Key does not exist")

theorem orMissing_bind (found : Option β) (next : β → Option γ) :
    (orMissing (found.bind next) : Outcome α γ) =
      orMissing found >>= fun b => orMissing (next b) := by
  cases found <;> rfl

theorem orMissing_eq_ends_iff {found : Option β} {b : β} :
    (orMissing found : Outcome α β) = .ends b ↔ found = some b := by
  cases found <;> simp [orMissing]

theorem Concurs.of_orMissing {R : β → γ → Prop} {x : Outcome α β} {found : Option γ}
    (h : Concurs R x (orMissing found)) :
    (found = none ∧ x = .aborts (.string "Key does not exist")) ∨
      ∃ b c, found = some c ∧ x = .ends b ∧ R b c := by
  cases found with
  | none =>
    cases h
    exact Or.inl ⟨rfl, rfl⟩
  | some c =>
    cases h with
    | @ends b _ hR => exact Or.inr ⟨b, c, rfl, rfl, hR⟩

end Outcome

/-! ## Steps of a target -/

namespace PathStep

/-- On the stack of the layout, the step stands for the hop: it names the attribute, or its key
evaluates to the one of the hop. -/
def Selects (I : Interpretation α) (config : Config) (l : Layout) (s : List (Datum α)) :
    PathStep → Hop α → Prop
  | .field _ fields attr, hop =>
    ∃ i ty, Fields.find? attr fields = some (i, ty) ∧ hop = .part fields.length i
  | .key index ty, hop => ∃ k, I.Pushes config l s index ty k ∧ hop = .key k

/-- The step stands for the hop, and it leads from values of the one type to values of the other. -/
inductive Enters (I : Interpretation α) (config : Config) (l : Layout) (s : List (Datum α)) :
    PathStep → Hop α → Ty → Ty → Prop where
  | field {name attr : Ident} {fields : Fields} {i : Nat} {inner : Ty} :
      Fields.find? attr fields = some (i, inner) →
      Enters I config l s (.field name fields attr) (.part fields.length i) (.record name fields)
        inner
  | key {e : Expr} {big : Bool} {key inner : Ty} {k : Datum α} :
      I.Pushes config l s e.operand key k →
      Enters I config l s (.key e.operand key) (.key k) (.map big key inner) inner

/-- The same of steps one after the other. -/
inductive Enter (I : Interpretation α) (config : Config) (l : Layout) (s : List (Datum α)) :
    List PathStep → List (Hop α) → Ty → Ty → Prop where
  | nil (ty : Ty) : Enter I config l s [] [] ty ty
  | cons {step : PathStep} {hop : Hop α} {steps : List PathStep} {hops : List (Hop α)}
      {outer inner leaf : Ty} : Enters I config l s step hop outer inner →
      Enter I config l s steps hops inner leaf →
      Enter I config l s (step :: steps) (hop :: hops) outer leaf

theorem enter_of_pathSteps {scope : Scope} {line : Nat} {places : List Place}
    {steps : List PathStep} (h : pathSteps scope line outer places = .ok (steps, leaf))
    (hselects : List.Forall₂ (Selects I config l s) steps hops) :
    Enter I config l s steps hops outer leaf := by
  induction places generalizing outer steps hops with
  | nil =>
    obtain ⟨rfl, rfl⟩ := Prod.mk.inj (Except.ok.inj h)
    cases hselects
    exact .nil outer
  | cons place rest ih =>
    cases place with
    | field attr =>
      obtain ⟨name, fields, node, inner, tail, rfl, hnode, htail, rfl⟩ :=
        pathSteps_field_eq_ok_iff.mp h
      cases hselects with
      | cons hstep hrest =>
        obtain ⟨i, ty, hfind, rfl⟩ := hstep
        rw [fieldNode_eq, hfind] at hnode
        cases hnode
        exact .cons (.field hfind) (ih htail hrest)
    | key index =>
      obtain ⟨key, inner, tail, hentry, -, htail, rfl⟩ := pathSteps_key_eq_ok_iff.mp h
      obtain ⟨big, rfl⟩ := Ty.keyValue?_eq_some hentry
      cases hselects with
      | cons hstep hrest =>
        obtain ⟨k, hk, rfl⟩ := hstep
        exact .cons (.key hk) (ih htail hrest)

variable {step : PathStep} {steps : List PathStep}

theorem Enters.leads (h : Enters I config l s step hop outer inner) :
    I.Leads outer hop inner := by
  cases h with
  | field hfind => exact .part (Fields.getElem?_of_find? hfind)
  | key hk => exact .key hk.1

theorem Enter.lead (h : Enter I config l s steps hops outer leaf) : I.Lead outer hops leaf := by
  induction h with
  | nil ty => exact .nil ty
  | cons hstep _ ih => exact .cons hstep.leads ih

end PathStep

/-! ## The code of a step -/

namespace Gen

/-- What an expression of the program pushes on the stack, it pushes above other cells too. -/
theorem computes_pushAs (hl : l.WellFormed) (hlength : s.length = l.depth) {e : Expr} {want : Ty}
    (h : I.Pushes config l s e.operand want d) :
    Computes I config l s t (e.operand.pushAs want) (.ends ()) fun _ u _ => u = d :: t := by
  intro state done hafter hdone
  obtain ⟨hrun, hend⟩ := h.above (fun _ => e.shifts_operand) hl hlength hafter hdone
  rw [hrun]
  exact .ends ⟨d :: t, rfl, hend, rfl⟩

theorem computes_copy : Computes I config l s (d :: t) (do emit (.dup 1); push 1) (.ends ())
    fun _ u _ => u = d :: d :: t := by
  intro state done hafter hdone
  obtain ⟨_, hpush, rfl⟩ := emit_bind_eq_ok_iff.mp hdone
  cases hpush
  have hdepth := hafter.depth
  have hrun : I.run [.dup 1] (d :: t ++ s) = .ends (d :: d :: t ++ s) := by
    rw [run_singleton]
    rfl
  show Concurs _ (I.run [.dup 1] (d :: t ++ s)) _
  rw [hrun]
  refine .ends ⟨d :: d :: t, rfl, hafter.atDepth ?_, rfl⟩
  simp only [List.length_cons] at hdepth ⊢
  omega

variable {step : PathStep} {steps : List PathStep}

/-- Opening a container gives what the hop leads to. -/
theorem computes_openStep (hl : l.WellFormed) (hlength : s.length = l.depth)
    (henters : step.Enters I config l s hop outer inner) (hd : I.Has outer d) :
    Computes I config l s (d :: t) (openStep step) (orMissing (I.look hop d)) fun _ u e =>
      u = e :: d :: t := by
  unfold openStep
  rw [← bind_assoc]
  refine computes_copy.prepare fun _ u hu => ?_
  subst hu
  cases henters with
  | @field name attr fields i inner hfind =>
    obtain ⟨part, hpart, hnode, -⟩ := Datum.component_of_areOf
      (has_record_iff.mp hd) (Fields.getElem?_of_find? hfind)
    refine computes_typed_bind fun found hfound => ?_
    rw [fieldNode_eq, hfind] at hfound
    cases hfound
    refine computes_apply [d] rfl ?_
    simp only [prim, look, hpart, hnode, orMissing]
    exact .ends rfl
  | @key e big key inner k hk =>
    refine (computes_pushAs hl hlength hk).prepare fun _ u hu => ?_
    subst hu
    have hget : Computes I config l s (k :: d :: d :: t) (apply .mapGet) (.ends ()) fun _ u _ =>
        u = .ofOption (I.get k d) :: d :: t :=
      computes_apply [k, d] rfl (.ends rfl)
    refine hget.prepare fun _ u hu => ?_
    subst hu
    refine computes_unwrapOr "Key does not exist" ?_
    rw [look]
    cases I.get k d with
    | none => exact .aborts _
    | some found => exact .ends rfl

/-- Closing a container puts a value where the hop leads. -/
theorem computes_closeStep (hupdates : I.Updates) (hl : l.WellFormed)
    (hlength : s.length = l.depth) (henters : step.Enters I config l s hop outer inner)
    (hd : I.Has outer d) (hv : I.Has inner v) :
    Computes I config l s (v :: d :: t) (closeStep step) (orMissing (I.put hop v d)) fun _ u e =>
      u = e :: t := by
  cases henters with
  | @field name attr fields i inner hfind =>
    obtain ⟨d', hput, hnode, -⟩ := Datum.setComponent_of_areOf
      (has_record_iff.mp hd) (Fields.getElem?_of_find? hfind) hv
    refine computes_typed_bind fun found hfound => ?_
    rw [fieldNode_eq, hfind] at hfound
    cases hfound
    refine computes_apply [v, d] rfl ?_
    simp only [prim, put, hput, hupdates.record hnode, orMissing]
    exact .ends rfl
  | @key e big key inner k hk =>
    obtain ⟨d', hother, -⟩ := hupdates.map hk.1 hv hd
    have hsome : Computes I config l s (v :: d :: t) (apply .some) (.ends ()) fun _ u _ =>
        u = .present v :: d :: t :=
      computes_apply [v] rfl (.ends rfl)
    refine hsome.prepare fun _ u hu => ?_
    subst hu
    refine (computes_pushAs hl hlength hk).prepare fun _ u hu => ?_
    subst hu
    refine computes_apply [k, .present v, d] rfl ?_
    simp only [prim, put, hother, orMissing]
    exact .ends rfl

/-! ## The code of a path -/

/-- Writing into the container on top leaves the container with the value written into it. -/
theorem computes_writeSteps (hupdates : I.Updates) (hl : l.WellFormed)
    (hlength : s.length = l.depth) {value : Expr}
    (hvalue : I.Pushes config l s value.operand leaf v)
    (hsteps : PathStep.Enter I config l s steps hops outer leaf) (hne : steps ≠ [])
    (hd : I.Has outer d) :
    Computes I config l s (d :: t) (writeSteps (value.operand.pushAs leaf) steps)
      (orMissing (I.write hops v d)) fun _ u e => u = e :: t := by
  induction hsteps generalizing d t with
  | nil => exact absurd rfl hne
  | @cons step hop steps hops outer inner leaf hstep hrest ih =>
    cases hrest with
    | nil =>
      refine (computes_pushAs hl hlength hvalue).prepare fun _ u hu => ?_
      subst hu
      exact computes_closeStep hupdates hl hlength hstep hd hvalue.1
    | @cons next _ rest _ _ _ _ hnext hmore =>
      -- the container stays beneath while the rest of the path is written into what it opens to
      rw [write_cons (by simp), orMissing_bind]
      refine (computes_openStep hl hlength hstep hd).and_ends.bind fun _ u e hu => ?_
      obtain ⟨rfl, he⟩ := hu
      have hinner := has_look hstep.leads hd (orMissing_eq_ends_iff.mp he)
      rw [orMissing_bind]
      refine (ih hvalue (by simp) hinner).and_ends.bind fun _ u w hu => ?_
      obtain ⟨rfl, hw⟩ := hu
      obtain ⟨htyped, -⟩ := written_of_write hupdates
        (PathStep.Enter.cons hnext hmore).lead hinner hvalue.1 (orMissing_eq_ends_iff.mp hw)
      exact computes_closeStep hupdates hl hlength hstep hd htyped

end Gen

/-! ## Assignments -/

variable {state : State} {done : Step Unit} {target value : Expr} {path : Path}

theorem Gen.assignPath_eq_ok (hpath : Path.resolve ⟨config.records, state.layout⟩ target = .ok path)
    (hdone : assignPath target value config state = .ok done) :
    ∃ filled last : Step Unit,
      (fetch path.root >>= fun _ => writeSteps (value.operand.pushAs path.leaf) path.steps)
        config state = .ok filled ∧
      replace path.root config filled.state = .ok last ∧
      done = ⟨last.result, filled.code ++ last.code, last.state⟩ := by
  rw [assignPath, scope_bind, typed_bind_eq_ok_iff] at hdone
  obtain ⟨_, hpath', hdone⟩ := hdone
  cases hpath.symm.trans hpath'
  obtain ⟨_, -, -, hdone⟩ := checkFits_bind_eq_ok_iff.mp hdone
  rw [← bind_assoc] at hdone
  obtain ⟨filled, last, hfilled, hlast, rfl⟩ := bind_eq_ok_iff.mp hdone
  exact ⟨filled, last, hfilled, hlast, rfl⟩

/-- The root variable gets the value that a write gives. -/
theorem concurs_assignPath (hupdates : I.Updates) (hl : state.layout.WellFormed)
    (hlength : s.length = state.layout.depth)
    (hdone : assignPath target value config state = .ok done)
    (hpath : Path.resolve ⟨config.records, state.layout⟩ target = .ok path) (hne : path.steps ≠ [])
    (hsteps : PathStep.Enter I config state.layout s path.steps hops outer path.leaf)
    (hvalue : I.Pushes config state.layout s value.operand path.leaf v) {c : Cell}
    (hc : state.layout.cell? path.root = some c) (hslot : Stack.atSlot s c.slot = some d)
    (hd : I.Has outer d) :
    Concurs (fun s' d' => s' = s.set (s.length - 1 - c.slot) d' ∧
        state.layout.After 0 done.state.layout)
      (I.run done.code s) (orMissing (I.write hops v d)) := by
  obtain ⟨filled, last, hfilled, hlast, rfl⟩ := assignPath_eq_ok hpath hdone
  have hfetch : Computes I config state.layout s [] (fetch path.root) (.ends ()) fun _ u _ =>
      u = [d] :=
    computes_fetch hl hlength hc hslot rfl
  have hfill : Computes I config state.layout s []
      (fetch path.root >>= fun _ => writeSteps (value.operand.pushAs path.leaf) path.steps)
      (orMissing (I.write hops v d)) fun _ u e => u = [e] :=
    hfetch.prepare fun _ u hu => hu ▸ computes_writeSteps hupdates hl hlength hvalue hsteps hne hd
  show Concurs _ (I.run (filled.code ++ last.code) s) _
  rw [run_append, ← bind_pure (orMissing (I.write hops v d))]
  refine (hfill (.refl _) hfilled).bind fun s' d' hs' => ?_
  obtain ⟨_, rfl, hafter, rfl⟩ := hs'
  obtain ⟨-, hend, hrun⟩ := run_replace hl hlength hc hafter hlast d'
  have hdepth := hafter.depth
  rw [List.singleton_append, hrun]
  refine .ends ⟨congrArg (s.set · d') ?_, hend⟩
  rw [List.length_singleton] at hdepth
  omega

/-- The code of an assignment to a path writes the value into the root variable and changes nothing
else. It aborts if, and only if, a key is missing on the way to the place that is assigned to. -/
theorem path_assignment_is_functional_update (hupdates : I.Updates) (hl : state.layout.WellFormed)
    (hs : state.layout.Holds (fun _ ty d => I.Has ty d) s)
    (hdone : assignPath target value config state = .ok done)
    (hpath : Path.resolve ⟨config.records, state.layout⟩ target = .ok path) (hne : path.steps ≠ [])
    (hkeys : List.Forall₂ (PathStep.Selects I config state.layout s) path.steps hops)
    (hvalue : I.Pushes config state.layout s value.operand path.leaf v) :
    ∃ c d, state.layout.cell? path.root = some c ∧ Stack.atSlot s c.slot = some d ∧
      (I.run done.code s = .aborts (.string "Key does not exist") ↔ I.Misses hops.dropLast d) ∧
      (¬I.Misses hops.dropLast d → ∃ d' s', I.write hops v d = some d' ∧
        I.run done.code s = .ends s' ∧ state.layout.After 0 done.state.layout ∧
        s'.length = s.length ∧ Stack.atSlot s' c.slot = some d' ∧
        (∀ slot, slot ≠ c.slot → Stack.atSlot s' slot = Stack.atSlot s slot) ∧
        I.follow hops d' = some v ∧
        ∀ common hop rest hop' rest', hops = common ++ hop :: rest → hop.Apart hop' →
          I.follow (common ++ hop' :: rest') d' = I.follow (common ++ hop' :: rest') d) := by
  obtain ⟨places, root, -, hroot, hsteps⟩ := Path.resolve_eq_ok hpath
  obtain ⟨slot, hc⟩ := hl.cell?_of_ty? (ty?_of_rootType hroot)
  obtain ⟨d, hslot, hd⟩ := hs.cells hc
  have henter := PathStep.enter_of_pathSteps hsteps hkeys
  have hmisses := Interpretation.write_eq_none_iff hupdates henter.lead hd hvalue.1
  have hrun := concurs_assignPath hupdates hl hs.length hdone hpath hne henter hvalue hc hslot hd
  refine ⟨_, d, hc, hslot, ?_⟩
  rw [← hmisses]
  rcases hrun.of_orMissing with ⟨hnone, habort⟩ | ⟨s', d', hsome, hend, rfl, hafter⟩
  · exact ⟨iff_of_true habort hnone, fun hfound => absurd hnone hfound⟩
  · obtain ⟨-, hwritten⟩ :=
      Interpretation.written_of_write hupdates henter.lead hd hvalue.1 hsome
    have hbelow : slot < s.length := by
      rw [hs.length]
      exact hl.below hc
    refine ⟨iff_of_false (by simp [hend]) (by simp [hsome]), fun _ => ?_⟩
    refine ⟨d', _, hsome, hend, hafter, List.length_set, ?_, ?_, hwritten.here, hwritten.elsewhere⟩
    · rw [Stack.atSlot_set hbelow hbelow, if_pos rfl]
    · intro slot hslot
      by_cases hin : slot < s.length
      · rw [Stack.atSlot_set hbelow hin, if_neg hslot]
      · rw [Stack.atSlot, Stack.atSlot, List.getElem?_eq_none (by simpa using hin),
          List.getElem?_eq_none (by simpa using hin)]

/-! ## Accounts in a map -/

/-- An account has a balance and counts its transactions. -/
def Ty.account : Ty := .record "Account" [("balance", .int), ("count", .int)]

/-- Maps from integers to accounts, as lists of entries, the latest first. No arithmetic is done. -/
def Interpretation.accounts : Interpretation (List (Int × Int × Int)) where
  inhabits ty _ := ty = .map false .int .account
  arithmetic _ _ _ := .error .unit
  concat _ _ := .error .unit
  negate _ := .error .unit
  divide _ _ := none
  compare _ _ := 0
  get key map :=
    match key, map with
    | .int key, .foreign entries =>
      (entries.lookup key).map fun (balance, count) => .pair (.int balance) (.int count)
    | _, _ => none
  contains _ _ := false
  ambient
    | .sender | .source => .string "tz1"
    | _ => .int 0
  other p args :=
    match p, args with
    | .update n, [v, d] =>
      match d.setNode? n v with
      | some d' => .ok d'
      | none => .error .unit
    | .mapUpdate, [.int key, .present (.pair (.int balance) (.int count)), .foreign entries] =>
      .ok (.foreign ((key, balance, count) :: entries))
    | _, _ => .error .unit
  closure _ _ _ := .unit
  call _ _ := .error .unit
  arithmetic_typed := by
    intro op a b t x y z _ _ _ hz
    cases hz
  concat_typed := by
    intro x y z _ _ hz
    cases hz
  negate_typed := by
    intro x z _ hz
    cases hz
  divide_typed := by
    intro a b t x y q r _ _ _ hz
    cases hz
  get_typed := by
    rintro big k v key map found hkey hmap hfound
    rw [Datum.IsOf] at hmap
    obtain ⟨entries, rfl, heq⟩ := hmap
    obtain ⟨rfl, rfl, rfl⟩ := Ty.map.inj heq
    obtain ⟨n, rfl⟩ := hkey
    obtain ⟨⟨balance, count⟩, -, rfl⟩ := Option.map_eq_some_iff.mp hfound
    simp [Ty.account, Datum.IsOf, Datum.AreOf]
  call_typed := by
    intro a r arg closure z _ _ hz
    cases hz
  ambient_typed := by
    intro id ty p h hp
    unfold Builtin.constant? at h
    split at h <;> cases h <;> simp_all [Datum.IsOf]

theorem Interpretation.updates_accounts : accounts.Updates where
  record h := by simp [accounts, h]
  map := by
    intro big key value k v d hk hv hd
    rw [Has, Datum.IsOf] at hd
    obtain ⟨entries, rfl, heq⟩ := hd
    obtain ⟨rfl, rfl, rfl⟩ := Ty.map.inj heq
    obtain ⟨n, rfl⟩ := hk
    obtain ⟨balance, count, rfl⟩ : ∃ balance count, v = .pair (.int balance) (.int count) := by
      simp only [Has, Ty.account, Datum.IsOf, Datum.AreOf] at hv
      obtain ⟨_, _, rfl, ⟨balance, rfl⟩, count, rfl⟩ := hv
      exact ⟨balance, count, rfl⟩
    refine ⟨.foreign ((n, balance, count) :: entries), rfl, ?_, ?_, ?_⟩
    · rw [Has, Datum.IsOf]
      exact ⟨_, rfl, rfl⟩
    · simp [accounts]
    · intro k' hne
      cases k' with
      | int m =>
        have hkey : (m == n) = false := beq_eq_false_iff_ne.mpr fun heq => hne (heq ▸ rfl)
        simp [accounts, List.lookup_cons, hkey]
      | _ => rfl

/-- A ledger holds accounts and says which of them was used last. -/
def Ty.ledger : Ty := .record "Ledger" [("accounts", .map false .int .account), ("last", .int)]

/-- A ledger in the storage, on top of a cell without a name. -/
def Layout.ledger : Layout :=
  ((Layout.empty .module).push 2).bindSlot storageName 1 .ledger

/-- The key `self.storage.last`. -/
def Expr.last : Expr := .attr 1 (.attr 1 (.name 1 "self") "storage") "last"

/-- The place `self.storage.accounts[self.storage.last].count`. -/
def Expr.lastCount : Expr :=
  .attr 1 (.subscript 1 (.attr 1 (.attr 1 (.name 1 "self") "storage") "accounts") .last) "count"

def Path.lastCount : Path where
  root := Layout.storageName
  steps := [.field "Ledger" [("accounts", .map false .int .account), ("last", .int)] "accounts",
    .key Expr.last.operand .int, .field "Account" [("balance", .int), ("count", .int)] "count"]
  leaf := .int

theorem path_assignment_is_functional_update_ledger : ∃ done,
    assignPath .lastCount .last ⟨.empty, false⟩ ⟨.ledger, 0⟩ = .ok done ∧
      (∃ s', Interpretation.accounts.run done.code [.pair (.foreign [(3, 5, 0)]) (.int 3), .unit] =
          .ends s' ∧
        Stack.atSlot s' 0 = some .unit ∧
        Stack.atSlot s' 1 = some (.pair (.foreign [(3, 5, 3), (3, 5, 0)]) (.int 3))) ∧
      Interpretation.accounts.run done.code [.pair (.foreign []) (.int 3), .unit] =
        .aborts (.string "Key does not exist") := by
  have hcells : ∀ name c, Layout.ledger.cell? name = some c →
      name = Layout.storageName ∧ c = ⟨1, .ledger⟩ := by
    intro name c hc
    rw [Layout.ledger, Layout.cell?_bindSlot] at hc
    split at hc
    · next hname => exact ⟨hname, (Option.some.inj hc).symm⟩
    · cases hc
  have hl : Layout.ledger.WellFormed :=
    ((Layout.WellFormed.empty _).atDepth (Nat.zero_le 2)).bindSlot (by decide) (fun h => by cases h) _
  have hs (entries : List (Int × Int × Int)) :
      Layout.ledger.Holds (fun _ ty d => Interpretation.accounts.Has ty d)
        [.pair (.foreign entries) (.int 3), .unit] := by
    refine ⟨rfl, fun hc => ?_⟩
    obtain ⟨-, rfl⟩ := hcells _ _ hc
    refine ⟨.pair (.foreign entries) (.int 3), rfl, ?_⟩
    simp [Interpretation.Has, Ty.ledger, Datum.IsOf, Datum.AreOf, Interpretation.accounts]
  have hlast (entries : List (Int × Int × Int)) : Interpretation.accounts.Pushes ⟨.empty, false⟩
      .ledger [.pair (.foreign entries) (.int 3), .unit] Expr.last.operand .int (.int 3) :=
    ⟨⟨3, rfl⟩, 0, _, rfl, rfl⟩
  have hkeys (entries : List (Int × Int × Int)) :
      List.Forall₂ (PathStep.Selects Interpretation.accounts ⟨.empty, false⟩ .ledger
          [.pair (.foreign entries) (.int 3), .unit])
        Path.lastCount.steps [.part 2 0, .key (.int 3), .part 2 1] :=
    .cons ⟨0, _, rfl, rfl⟩ (.cons ⟨.int 3, hlast entries, rfl⟩ (.cons ⟨1, _, rfl, rfl⟩ .nil))
  have hpath : Path.resolve ⟨.empty, .ledger⟩ .lastCount = .ok .lastCount := rfl
  have hcompiles : (assignPath .lastCount .last ⟨.empty, false⟩
      ⟨.ledger, 0⟩).toOption.isSome = true := by
    decide +kernel
  obtain ⟨done, hdone⟩ := Except.exists_ok_of_isSome hcompiles
  have happly (entries : List (Int × Int × Int)) :=
    path_assignment_is_functional_update Interpretation.updates_accounts hl (hs entries) hdone
      hpath (by simp [Path.lastCount]) (hkeys entries) (hlast entries)
  refine ⟨done, hdone, ?_, ?_⟩
  · obtain ⟨c, d, hc, hd, -, hends⟩ := happly [(3, 5, 0)]
    obtain rfl : c = ⟨1, .ledger⟩ := Option.some.inj (hc.symm.trans rfl)
    obtain rfl : d = .pair (.foreign [(3, 5, 0)]) (.int 3) := Option.some.inj (hd.symm.trans rfl)
    obtain ⟨d', s', hwrite, hrun, -, -, hroot, hother, -⟩ := hends (by
      simp [Interpretation.misses_cons_iff, Interpretation.look, Interpretation.not_misses_nil,
        Datum.component, Interpretation.accounts])
    exact ⟨s', hrun, hother 0 (by decide), hroot.trans (hwrite.symm.trans rfl)⟩
  · obtain ⟨c, d, hc, hd, haborts, -⟩ := happly []
    obtain rfl : c = ⟨1, .ledger⟩ := Option.some.inj (hc.symm.trans rfl)
    obtain rfl : d = .pair (.foreign []) (.int 3) := Option.some.inj (hd.symm.trans rfl)
    exact haborts.mpr ⟨[.part 2 0], .int 3, [], .foreign [], rfl, rfl, rfl⟩

end Covenant
