import Covenant.Gen.Stmt
import Covenant.Proofs.TypeCache.Expr

/-!
# Covenant — code of statements with a memory

`Cached.compileStmt` emits the code of a statement in the way `Covenant.compileStmt` does, with
every question about types put to the memory. It starts by clearing the memory.

Within a statement questions come first. What follows them may give names other types: a variable
may be declared, a branch or a loop or a function may be compiled from another layout. Of the memory
that is left we keep only that it is about expressions of this statement (`Within`). That is enough
for a statement inside, which clears the memory, and for whatever comes after, which does not ask.

Main statement: `starts_compileStmt`. From any memory a statement gives the code that plain
compilation gives, or fails in the same way.
-/

namespace Covenant

namespace Cached

open Gen CachedGen

variable {κ α β : Type} {r : Region κ} {scope : Scope} {target : Expr} {a b : Addresses κ}

/-! ## The ends of statements -/

/-- Every answer that is kept is left over or about an expression that may be asked for. -/
def Within (r : Region κ) : Condition κ := fun _ mem =>
  ∀ entry ∈ mem.entries, r.stale entry.key ∨ ∃ e, r.live entry.key e

/-- An answer that is up to date is about an expression that may be asked for. -/
theorem UpToDate.within {base : Layout} {mem : Memory κ} (h : UpToDate r base scope mem) :
    Within r scope mem :=
  fun entry hentry => (h.2 entry hentry).imp_right fun ⟨e, hlive, _⟩ => ⟨e, hlive⟩

/-- Steps that do not ask: they do what the plain steps do, whatever names mean. -/
def Passes (r : Region κ) (step : CachedGen κ α) (plain : Gen α) : Prop :=
  Mirrors id (Within r) (fun _ => Within r) step plain

/-- The last steps of a statement. They start like steps inside a statement, but names may have
other types after them. -/
def Ends (r : Region κ) (step : CachedGen κ α) (plain : Gen α) : Prop :=
  ∀ base, Mirrors id (UpToDate r base) (fun _ => Within r) step plain

/-- What does what the plain step does from any memory. -/
def Starts (r : Region κ) (step : CachedGen κ α) (plain : Gen α) : Prop :=
  Mirrors id (fun _ _ => True) (fun _ => Within r) step plain

section

variable {step step' : CachedGen κ α} {plain plain' : Gen α} {next : α → CachedGen κ β}
  {next' : α → Gen β}

theorem passes_lift (plain : Gen α) : Passes r (liftM plain) plain :=
  mirrors_lift fun _ _ _ _ _ hmem => hmem

theorem Passes.andThen (h : Passes r step plain) (hnext : ∀ a, Passes r (next a) (next' a)) :
    Passes r (step >>= next) (plain >>= next') :=
  Mirrors.andThen h hnext

theorem Passes.ite {c : Prop} [Decidable c] (h : Passes r step plain) (h' : Passes r step' plain') :
    Passes r (if c then step else step') (if c then plain else plain') :=
  Mirrors.ite h h'

theorem Passes.block {step : CachedGen κ Unit} {plain : Gen Unit} (h : Passes r step plain)
    (start : Layout) : Passes r (CachedGen.block start step) (Gen.block start plain) :=
  Mirrors.block h (fun _ _ hmem => hmem) fun _ _ _ _ _ hmem => hmem

/-- A step that does not ask may come last in a statement. -/
theorem Passes.ends (h : Passes r step plain) : Ends r step plain :=
  fun _ => h.weaken fun _ _ hmem => hmem.within

theorem Copies.ends (h : Copies r step plain) : Ends r step plain :=
  fun base => (h base).mono (fun _ _ hmem => hmem) fun _ _ _ hmem => hmem.within

/-- The questions of a statement come before its last steps. -/
theorem Copies.thenEnds (h : Copies r step plain) (hnext : ∀ a, Ends r (next a) (next' a)) :
    Ends r (step >>= next) (plain >>= next') :=
  fun base => (h base).andThen fun a => hnext a base

theorem Ends.ite {c : Prop} [Decidable c] (h : Ends r step plain) (h' : Ends r step' plain') :
    Ends r (if c then step else step') (if c then plain else plain') :=
  fun base => (h base).ite (h' base)

theorem ends_failAt_bind (line : Nat) (cause : Cause) :
    Ends r (liftM (failAt line cause) >>= next) (failAt line cause >>= next') :=
  fun _ => mirrors_failAt_bind line cause

/-- Any memory will do if it is cleared first: no answer is kept then, so what is kept is up to date
wherever the step starts. -/
theorem Ends.starts {step : CachedGen κ α} {plain : Gen α} (h : Ends r step plain) :
    Starts r (CachedGen.clear >>= fun _ => step) plain := by
  intro config state mem _ hhonest
  have hfresh : UpToDate r state.layout ⟨config.records, state.layout⟩ mem.clear :=
    ⟨.refl _, fun _ hentry => absurd hentry List.not_mem_nil⟩
  have hclear : (CachedGen.clear >>= fun _ => step) config state mem =
      step config state mem.clear := by
    rcases hstep : step config state mem.clear with ⟨e | second, mem'⟩ <;>
      simp [hstep, bind, CachedGen.clear]
  rw [hclear]
  exact h state.layout hfresh hhonest.clear

theorem Starts.passes (h : Starts r step plain) : Passes r step plain :=
  h.weaken fun _ _ _ => trivial

end

variable [DecidableEq κ]

/-! ## Paths -/

/-- A step of an assignment target, as it is written. A key has addresses. -/
inductive Place (κ : Type) where
  | field (attr : Ident)
  | key (index : Expr) (a : Addresses κ)

namespace Place

/-- The step without addresses. -/
def plain : Place κ → Covenant.Place
  | field attr => .field attr
  | key index _ => .key index

/-- A key may be asked for. -/
def Placed (r : Region κ) : Place κ → Prop
  | field _ => True
  | key index a => Cached.Placed r a (.expr index)

end Place

/-- The root variable of an assignment target and the steps from it, outward. -/
def places? : Expr → Addresses κ → Option (Ident × List (Place κ))
  | .name _ id, _ => some (id, [])
  | .attr line value field, a =>
    if (Expr.attr line value field).isStorage then
      some (Layout.storageName, [])
    else
      (places? value (a.part .first)).map fun (root, places) => (root, places ++ [.field field])
  | .subscript _ value index, a =>
    (places? value (a.part .first)).map fun (root, places) =>
      (root, places ++ [.key index (a.part .second)])
  | _, _ => none

omit [DecidableEq κ] in
/-- Addresses do not change the places of a target. -/
theorem plain_places? : ∀ (e : Expr) (a : Addresses κ),
    e.places? = (places? e a).map fun (root, places) => (root, places.map Place.plain)
  | .name _ _, _ => rfl
  | .attr line value field, a => by
    rw [places?, Expr.places?, plain_places? value (a.part .first)]
    split
    · rfl
    · cases places? value (a.part .first) with
      | none => rfl
      | some found => simp [Place.plain]
  | .subscript _ value index, a => by
    rw [places?, Expr.places?, plain_places? value (a.part .first)]
    cases places? value (a.part .first) with
    | none => rfl
    | some found => simp [Place.plain]
  | .literal .., _ | .list .., _ | .tuple .., _ | .dict .., _ | .call .., _ | .compare .., _
  | .binary .., _ | .unary .., _ | .boolean .., _ => rfl

omit [DecidableEq κ] in
/-- The keys of a target are parts of it. -/
theorem placed_places? : ∀ {e : Expr} {a : Addresses κ}, Placed r a (.expr e) →
    ∀ {root : Ident} {places : List (Place κ)}, places? e a = some (root, places) →
      ∀ place ∈ places, place.Placed r
  | .name _ _, _, _, _, _, h => by
    cases h
    exact fun _ hplace => nomatch hplace
  | .attr line value field, a, hplaced, root, places, h => by
    rw [places?] at h
    split at h
    · cases h
      exact fun _ hplace => nomatch hplace
    · obtain ⟨⟨root', places'⟩, hvalue, heq⟩ := Option.map_eq_some_iff.mp h
      cases heq
      exact List.forall_mem_append.mpr ⟨placed_places? (hplaced.part .first rfl) hvalue,
        List.forall_mem_singleton.mpr trivial⟩
  | .subscript _ value index, a, hplaced, root, places, h => by
    rw [places?] at h
    obtain ⟨⟨root', places'⟩, hvalue, heq⟩ := Option.map_eq_some_iff.mp h
    cases heq
    exact List.forall_mem_append.mpr ⟨placed_places? (hplaced.part .first rfl) hvalue,
      List.forall_mem_singleton.mpr (hplaced.part .second rfl)⟩

/-- A step of an assignment target with the type of the container it leads into. -/
inductive PathStep (κ : Type) where
  | field (record : Ident) (fields : Fields) (attr : Ident)
  | key (index : Expr) (a : Addresses κ) (ty : Ty)

namespace PathStep

/-- The step without addresses. -/
def plain : PathStep κ → Covenant.PathStep
  | field record fields attr => .field record fields attr
  | key index _ ty => .key index.operand ty

/-- A key may be asked for. -/
def Placed (r : Region κ) : PathStep κ → Prop
  | field _ _ _ => True
  | key index a _ => Cached.Placed r a (.expr index)

end PathStep

/-- The steps that places stand for, starting in a container of the given type, and the type of the
place they lead to. -/
def pathSteps (scope : Scope) (line : Nat) : Ty → List (Place κ) → Ask κ (List (PathStep κ) × Ty)
  | ty, [] => pure ([], ty)
  | ty, .field attr :: rest =>
    match ty with
    | .record name fields => do
      let (_, inner) ← Ask.plain (fieldNode name fields attr)
      let (steps, leaf) ← pathSteps scope line inner rest
      return (.field name fields attr :: steps, leaf)
    | ty => Ask.plain (faultAt line (.noSuchAttribute ty.text attr))
  | ty, .key index a :: rest =>
    match ty.keyValue? with
    | some (key, inner) => do
      checkElement key (asked scope index a)
      let (steps, leaf) ← pathSteps scope line inner rest
      return (.key index a key :: steps, leaf)
    | none => Ask.plain (faultAt line (.invalidType (.notSubscriptable ty)))

/-- Every key on the way is asked for, in order. -/
theorem answersAs_pathSteps (scope : Scope) (line : Nat) : ∀ (ty : Ty) (places : List (Place κ)),
    (∀ place ∈ places, place.Placed r) →
    AnswersAs r scope (fun p => (p.1.map PathStep.plain, p.2)) (pathSteps scope line ty places)
      (Covenant.pathSteps scope line ty (places.map Place.plain))
  | ty, [], _ => answersAs_pure rfl
  | ty, .field attr :: rest, h => by
    have hrest := (List.forall_mem_cons.mp h).2
    cases ty with
    | record name fields =>
      exact (answers_plain _).bind fun found =>
        (answersAs_pathSteps scope line found.2 rest hrest).bind fun p => answersAs_pure rfl
    | _ => exact answersAs_fault _ line _
  | ty, .key index a :: rest, h => by
    obtain ⟨hindex, hrest⟩ := List.forall_mem_cons.mp h
    cases hkeys : ty.keyValue? with
    | none =>
      simp only [pathSteps, List.map_cons, Place.plain, Covenant.pathSteps, hkeys]
      exact answersAs_fault _ line _
    | some found =>
      simp only [pathSteps, List.map_cons, Place.plain, Covenant.pathSteps, hkeys]
      exact (answers_checkElement found.1 (matches_asked index hindex)).bind fun _ =>
        (answersAs_pathSteps scope line found.2 rest hrest).bind fun p => answersAs_pure rfl

/-- The keys of typed steps are the keys of the places they stand for. -/
theorem placed_pathSteps {line : Nat} : ∀ {ty : Ty} {places : List (Place κ)},
    (∀ place ∈ places, place.Placed r) → ∀ {mem : Memory κ} {p : List (PathStep κ) × Ty},
      (pathSteps scope line ty places mem).1 = .ok p → ∀ step ∈ p.1, step.Placed r
  | ty, [], _, mem, p, h => by
    cases h
    exact fun _ hstep => nomatch hstep
  | ty, .field attr :: rest, hplaces, mem, p, h => by
    have hrest := (List.forall_mem_cons.mp hplaces).2
    cases ty with
    | record name fields =>
      obtain ⟨found, mem', -, hsteps⟩ := Ask.exists_of_bind_eq_ok h
      obtain ⟨inner, mem'', hinner, hp⟩ := Ask.exists_of_bind_eq_ok hsteps
      cases hp
      exact List.forall_mem_cons.mpr
        ⟨trivial, placed_pathSteps hrest (congrArg Prod.fst hinner)⟩
    | _ => cases h
  | ty, .key index a :: rest, hplaces, mem, p, h => by
    obtain ⟨hindex, hrest⟩ := List.forall_mem_cons.mp hplaces
    cases hkeys : ty.keyValue? with
    | none =>
      simp only [pathSteps, hkeys] at h
      cases h
    | some found =>
      simp only [pathSteps, hkeys] at h
      obtain ⟨_, mem', -, hsteps⟩ := Ask.exists_of_bind_eq_ok h
      obtain ⟨inner, mem'', hinner, hp⟩ := Ask.exists_of_bind_eq_ok hsteps
      cases hp
      exact List.forall_mem_cons.mpr
        ⟨hindex, placed_pathSteps hrest (congrArg Prod.fst hinner)⟩

/-- An assignment target whose steps are typed. -/
structure Path (κ : Type) where
  root : Ident
  steps : List (PathStep κ)
  /-- The type of the place the path leads to. -/
  leaf : Ty

namespace Path

/-- The path without addresses. -/
def plain (path : Path κ) : Covenant.Path := ⟨path.root, path.steps.map PathStep.plain, path.leaf⟩

/-- The path that an assignment target stands for. -/
def resolve (scope : Scope) (target : Expr) (a : Addresses κ) : Ask κ (Path κ) :=
  match places? target a with
  | none => Ask.plain (faultAt target.line (.unsupported (.notAssignable target.text)))
  | some (root, places) => do
    let ty ← Ask.plain (rootType scope target.line root)
    let (steps, leaf) ← pathSteps scope target.line ty places
    return ⟨root, steps, leaf⟩

/-- A target leads to the plain place. -/
theorem answersAs_resolve (scope : Scope) (h : Placed r a (.expr target)) :
    AnswersAs r scope plain (resolve scope target a) (Covenant.Path.resolve scope target) := by
  have hplain := plain_places? target a
  cases hfound : places? target a with
  | none =>
    rw [hfound, Option.map_none] at hplain
    simp only [resolve, hfound, Covenant.Path.resolve, hplain]
    exact answersAs_fault _ _ _
  | some found =>
    rw [hfound, Option.map_some] at hplain
    simp only [resolve, hfound, Covenant.Path.resolve, hplain]
    exact (answers_plain _).bind fun ty =>
      (answersAs_pathSteps scope _ ty found.2 (placed_places? h hfound)).bind fun p =>
        answersAs_pure rfl

/-- The keys of a resolved target are parts of it. -/
theorem placed_resolve (h : Placed r a (.expr target)) {mem : Memory κ} {path : Path κ}
    (hpath : (resolve scope target a mem).1 = .ok path) : ∀ step ∈ path.steps, step.Placed r := by
  cases hfound : places? target a with
  | none =>
    simp only [resolve, hfound] at hpath
    cases hpath
  | some found =>
    simp only [resolve, hfound] at hpath
    obtain ⟨ty, mem', -, hsteps⟩ := Ask.exists_of_bind_eq_ok hpath
    obtain ⟨p, mem'', hp, heq⟩ := Ask.exists_of_bind_eq_ok hsteps
    cases heq
    exact placed_pathSteps (placed_places? h hfound) (congrArg Prod.fst hp)

end Path

/-- Opens the container on top of the stack, keeping it beneath. -/
def openStep (step : PathStep κ) : CachedGen κ Unit := do
  Gen.emit (.dup 1)
  push 1
  match step with
  | .field record fields attr => readField record fields attr
  | .key index a ty => lookUp (operand index a) ty

/-- Writes the top cell into the container beneath it. -/
def closeStep : PathStep κ → CachedGen κ Unit
  | .field record fields attr => liftM (writeField record fields attr)
  | .key index a ty => do
    apply .some
    (operand index a).pushAs ty
    apply .mapUpdate

/-- Rebuilds the container on top of the stack with a value written at the end of the steps. -/
def writeSteps (value : CachedGen κ Unit) : List (PathStep κ) → CachedGen κ Unit
  | [] => value
  | [last] => do
    value
    closeStep last
  | step :: rest => do
    openStep step
    writeSteps value rest
    closeStep step

theorem copies_openStep {step : PathStep κ} (h : step.Placed r) :
    Copies r (openStep step) (Gen.openStep step.plain) := by
  refine (copies_lift (steady_emit _)).andThen fun _ =>
    (copies_lift (steady_push 1)).andThen fun _ => ?_
  cases step with
  | field => exact copies_lift ((closed_steady.typed _).bind fun _ => steady_apply _)
  | key index a ty => exact copies_lookUp (tracks_operand h) ty

theorem copies_closeStep {step : PathStep κ} (h : step.Placed r) :
    Copies r (closeStep step) (Gen.closeStep step.plain) := by
  cases step with
  | field => exact copies_lift ((closed_steady.typed _).bind fun _ => steady_apply _)
  | key index a ty =>
    exact (copies_apply .some).andThen fun _ => ((tracks_operand h).pushAs ty).andThen fun _ =>
      copies_apply .mapUpdate

/-- The containers on the way are opened and closed again around the value. -/
theorem copies_writeSteps {value : CachedGen κ Unit} {value' : Gen Unit}
    (hvalue : Copies r value value') :
    ∀ steps : List (PathStep κ), (∀ step ∈ steps, step.Placed r) →
    Copies r (writeSteps value steps) (Gen.writeSteps value' (steps.map PathStep.plain))
  | [], _ => hvalue
  | [last], h =>
    hvalue.andThen fun _ => copies_closeStep (List.forall_mem_singleton.mp h)
  | step :: second :: rest, h => by
    obtain ⟨hstep, hrest⟩ := List.forall_mem_cons.mp h
    exact (copies_openStep hstep).andThen fun _ =>
      (copies_writeSteps hvalue (second :: rest) hrest).andThen fun _ => copies_closeStep hstep

/-! ## Assignment -/

/-- Checks that a value fits a type. -/
def checkFits (value : Operand κ) (want : Ty) : CachedGen κ Unit := do
  let found ← value.typeOf (some want)
  unless found.fits want do
    failAt value.expr.line (.typeMismatch want found)

/-- Assigns a value to a place inside a variable. -/
def assignPath (target : Expr) (a : Addresses κ) (value : Operand κ) : CachedGen κ Unit := do
  let path ← asking fun scope => Path.resolve scope target a
  checkFits value path.leaf
  fetch path.root
  writeSteps (value.pushAs path.leaf) path.steps
  replace path.root

/-- Assigns to a variable, which is declared if it is new. -/
def assignName (target : Expr) (name : Ident) (declared : Option Ty) (value : Operand κ) :
    CachedGen κ Unit := do
  let existing := (← layout).ty? name
  if let some declaredTy := declared then
    if let some existingTy := existing then
      unless declaredTy = existingTy do
        failAt target.line (.typeMismatch existingTy declaredTy)
  match declared.or existing with
  | some want => do
    checkFits value want
    value.pushAs want
    if (← layout).binds name then
      replace name
    else
      bindTop name want
  | none => do
    let ty ← value.value none
    bindTop name ty

/-- Makes a value the new storage. -/
def assignStorage (value : Operand κ) : CachedGen κ Unit := do
  let want ← storageType
  checkFits value want
  value.pushAs want
  replace Layout.storageName

/-- Assigns a value to a target, which may carry an annotation. -/
def assign (target : Expr) (a : Addresses κ) (declared : Option Expr) (value : Operand κ) :
    CachedGen κ Unit := do
  let declared ← liftM (declared.mapM denoted)
  match target with
  | .name _ name => assignName target name declared value
  | .attr .. | .subscript .. =>
    if target.isStorage then
      assignStorage value
    else
      assignPath target a value
  | _ => failAt target.line (.unsupported (.notAssignable target.text))

variable {value : Operand κ} {value' : Covenant.Operand}

theorem copies_checkFits (h : value.Tracks r value') (want : Ty) :
    Copies r (checkFits value want) (Gen.checkFits value'.expr want) := by
  unfold checkFits Gen.checkFits
  rw [h.expr]
  exact (h.typeOf (some want)).andThen fun found => .ite (copies_pure ()) (copies_failAt _ _)

/-- The target is asked for before the value, which comes before the keys. -/
theorem copies_assignPath (htarget : Placed r a (.expr target)) {value : Expr}
    (hvalue : Placed r b (.expr value)) :
    Copies r (assignPath target a (operand value b)) (Gen.assignPath target value) := by
  have htracks := tracks_operand hvalue
  intro base
  -- The steps are the plain ones, and their keys are parts of the target.
  refine mirrors_asking_bind (F := fun path => ∀ step ∈ path.steps, step.Placed r)
    (fun scope => Path.answersAs_resolve scope htarget)
    (fun _ _ _ hpath => Path.placed_resolve htarget hpath) fun path hsteps => ?_
  exact ((copies_checkFits htracks path.leaf).andThen fun _ =>
    (copies_lift (steady_fetch path.root)).andThen fun _ =>
      (copies_writeSteps (htracks.pushAs path.leaf) path.steps hsteps).andThen fun _ =>
        copies_lift (steady_replace path.root)) base

/-- A variable may be declared, or take a value of the type that it has. -/
theorem ends_assignName (target : Expr) (name : Ident) (declared : Option Ty)
    (h : value.Tracks r value') :
    Ends r (assignName target name declared value)
      (Gen.assignName target name declared value') := by
  refine (copies_lift closed_steady.layout).thenEnds fun l => ?_
  -- Only the last step can give the name another type, and nothing is asked after it.
  have hnew : Ends r _ _ := (h.value none).thenEnds fun ty => (passes_lift (bindTop name ty)).ends
  have hold (want : Ty) : Ends r _ _ := (copies_checkFits h want).thenEnds fun _ =>
    (h.pushAs want).thenEnds fun _ => (copies_lift closed_steady.layout).thenEnds fun l =>
      Ends.ite (c := l.binds name = true) (passes_lift (replace name)).ends
        (passes_lift (bindTop name want)).ends
  dsimp only
  cases declared with
  | none =>
    cases l.ty? name with
    | none => exact hnew
    | some existing => exact hold existing
  | some declared =>
    cases l.ty? name with
    | none => exact hold declared
    | some existing => exact .ite (hold declared) (ends_failAt_bind _ _)

theorem copies_assignStorage (h : value.Tracks r value') :
    Copies r (assignStorage value) (Gen.assignStorage value') :=
  (copies_lift closed_steady.storageType).andThen fun want =>
    (copies_checkFits h want).andThen fun _ => (h.pushAs want).andThen fun _ =>
      copies_lift (steady_replace Layout.storageName)

/-- The three kinds of targets. -/
theorem ends_assign (htarget : Placed r a (.expr target)) (declared : Option Expr)
    {value : Expr} (hvalue : Placed r b (.expr value)) :
    Ends r (assign target a declared (operand value b)) (Gen.assign target declared value) := by
  have htracks := tracks_operand hvalue
  refine (copies_lift (closed_steady.mapM_denoted declared)).thenEnds fun declared => ?_
  cases target with
  | name line name => exact ends_assignName _ name declared htracks
  | attr | subscript =>
    exact .ite (copies_assignStorage htracks).ends (copies_assignPath htarget hvalue).ends
  | _ => exact (passes_lift _).ends

/-! ## Simple statements -/

/-- Evaluates an expression for its effect and drops its result, if it leaves one. -/
def evaluate (value : Operand κ) : CachedGen κ Unit := do
  match value.expr with
  | .literal _ (.str _) => pure ()
  | _ =>
    let before ← depth
    let _ ← value.compile none
    if before < (← depth) then
      Gen.emit .drop
      pop 1

/-- A string on its own emits nothing; any other value is dropped. -/
theorem copies_evaluate (h : value.Tracks r value') :
    Copies r (evaluate value) (Gen.evaluate value') := by
  have hdrop : Copies r _ _ :=
    (copies_lift (steady_emit .drop)).andThen fun _ => copies_lift (steady_pop 1)
  have hcode := (copies_lift (r := r) closed_steady.depth).andThen fun before =>
    (h.compile none).andThen fun _ => (copies_lift closed_steady.depth).andThen fun after =>
      Copies.ite (c := before < after) hdrop (copies_pure ())
  unfold evaluate Gen.evaluate
  rw [h.expr]
  cases value'.expr with
  | literal line literal =>
    cases literal with
    | str s => exact copies_pure ()
    | _ => exact hcode
  | _ => exact hcode

/-- What a raised expression aborts with, and its addresses. -/
def raised (scope : Scope) (value : Expr) (a : Addresses κ) : Typed (Expr × Addresses κ) :=
  match value with
  | .call line func args _ =>
    if isException scope func then
      match args with
      | [message] => .ok (message, (a.part .second).part .first)
      | _ => faultAt line (.badArgument (.exceptionArguments func.text))
    else
      .ok (value, a)
  | _ => .ok (value, a)

def raise : Option Expr → Addresses κ → CachedGen κ Unit
  | none, _ => liftM (fail (.unsupported .bareRaise) : Gen Unit)
  | some value, a => do
    let message ← asking fun scope => Ask.plain (raised scope value a)
    let _ ← (operand message.1 message.2).value none
    Gen.emit .failwith
    pop 1

omit [DecidableEq κ] in
theorem fst_raised (scope : Scope) (value : Expr) (a : Addresses κ) :
    (raised scope value a).map Prod.fst = Gen.raised scope value := by
  cases value with
  | call line func args keywords =>
    simp only [raised, Gen.raised]
    split
    · rcases args with _ | ⟨_, _ | _⟩ <;> rfl
    · rfl
  | _ => rfl

omit [DecidableEq κ] in
/-- The message is the raised expression or a part of it. -/
theorem placed_raised {value : Expr} (h : Placed r a (.expr value))
    {message : Expr × Addresses κ} (hmessage : raised scope value a = .ok message) :
    Placed r message.2 (.expr message.1) := by
  cases value with
  | call line func args keywords =>
    simp only [raised] at hmessage
    split at hmessage
    · match args, h with
      | [], _ | _ :: _ :: _, _ => cases hmessage
      | [e], h =>
        cases hmessage
        exact (h.part .second rfl).part .first rfl
    · cases hmessage
      exact h
  | _ =>
    cases hmessage
    exact h

/-- The message is asked for at the address that it has in the raised expression. -/
theorem ends_raise {value : Expr} (h : Placed r a (.expr value)) :
    Ends r (raise (some value) a) (Gen.raise (some value)) := by
  intro base
  refine mirrors_asking_bind (F := fun p => Placed r p.2 (.expr p.1))
    (fun scope _ hsound hhonest => ⟨fst_raised scope value a, hsound, hhonest⟩)
    (fun scope _ _ hp => placed_raised h hp) fun p hp => ?_
  exact (((tracks_operand hp).value none).andThen fun _ =>
    (copies_lift (steady_emit _)).andThen fun _ => copies_lift (steady_pop 1)).ends base

/-- Returns from a function or from an entrypoint. -/
def ret (value : Option (Operand κ)) : CachedGen κ Unit := do
  match (← layout).context, value with
  | .function _ want, some value => do
    let found ← value.typeOf (some want)
    unless found = want do
      failAt value.expr.line (.typeMismatch want found)
    value.pushAs want
  | .function _ want, none =>
    if want = .unit then
      apply .unit
    else
      fail (.typeMismatch want .unit)
  | .entrypoint _, some value => assignStorage value
  | .entrypoint _, none => fail (.unsupported .bareReturn)
  | context, _ => fail (.invalidStatement context)

theorem ends_ret_none : Ends r (ret none : CachedGen κ Unit) (Gen.ret none) := by
  refine (copies_lift closed_steady.layout).thenEnds fun l => ?_
  cases l.context with
  | function name want => exact .ite (copies_apply .unit).ends (passes_lift _).ends
  | _ => exact (passes_lift _).ends

/-- A returned value is asked for in a function, and stored in an entrypoint. -/
theorem ends_ret_some {value : Expr} (h : Placed r a (.expr value)) :
    Ends r (ret (some (operand value a))) (Gen.ret (some value)) := by
  have htracks := tracks_operand h
  refine (copies_lift closed_steady.layout).thenEnds fun l => ?_
  cases l.context with
  | function name want =>
    exact (htracks.typeOf (some want)).thenEnds fun found =>
      .ite (htracks.pushAs want).ends (ends_failAt_bind _ _)
  | entrypoint name => exact (copies_assignStorage htracks).ends
  | _ => exact (passes_lift _).ends

/-! ## Blocks -/

/-- Runs a block that knows the layout it starts from. -/
def fromHere (body : Layout → CachedGen κ Unit) : CachedGen κ Unit := do
  body (← layout)

/-- Runs a body with a variable on top of the stack, which is freed afterwards unless the body
aborts. -/
def freeingAfter (name : Ident) (body : CachedGen κ Unit) : CachedGen κ Unit := do
  let ((), code) ← CachedGen.listen body
  unless diverges code do
    free name

/-- Defines a function: a closure bound to the function's name. -/
def function (name : Ident) (params : List Param) (returns : Option Expr)
    (body : CachedGen κ Unit) : CachedGen κ Unit := do
  if (← layout).binds name then
    fail (.alreadyDefined name)
  match params with
  | [param] => do
    let argTy ← paramType param
    let resultTy ← match returns with
      | some e => liftM (denoted e)
      | none => liftM (fail (.invalidType (.untypedResult name)) : Gen Ty)
    let frame := (← layout).frame (.function name resultTy)
    let start ← sound ((frame.push 1).bind param.name argTy)
    let (code, final) ← CachedGen.block start (freeingAfter param.name body)
    unless diverges code do
      if final.depth = 0 then
        fail .noReturn
      unless final.depth = 1 do
        fail (.unsupported (.extraValues name))
    Gen.emit (.lambda argTy resultTy code)
    push 1
    setLayout ((← layout).setFormals name [param.name])
    bindTop name (.lambda argTy resultTy)
  | params => fail (.badArgument (.functionParams name params.length))

/-- A conditional. -/
def ifElse (test : Operand κ) (body orelse : CachedGen κ Unit) : CachedGen κ Unit := do
  let found ← test.typeOf (some .bool)
  unless found = .bool do
    failAt test.expr.line (.typeMismatch .bool found)
  test.pushAs .bool
  pop 1
  let start ← layout
  let (thenCode, thenEnd) ← CachedGen.block start body
  let (elseCode, elseEnd) ← CachedGen.block start orelse
  let depth ←
    if thenEnd.depth = elseEnd.depth || diverges elseCode then
      pure thenEnd.depth
    else if diverges thenCode then
      pure elseEnd.depth
    else
      liftM (fail (.unsupported .unbalancedBranches) : Gen Nat)
  setLayout { start with depth := depth }
  Gen.emit (.ifElse thenCode elseCode)

/-- A loop over the elements of a list. -/
def forIn (target : Ident) (iter : Operand κ) (body : CachedGen κ Unit) : CachedGen κ Unit := do
  match ← iter.typeOf none with
  | .list element => do
    let _ ← iter.value none
    let start ← layout
    pop 1
    let (code, final) ← CachedGen.block start (freeingAfter target (do
      bindTop target element
      body))
    unless final.depth = (← depth) || diverges code do
      fail (.unsupported .unbalancedLoop)
    Gen.emit (.iter code)
  | other => failAt iter.expr.line (.notIterable other)

section

variable {body orelse : CachedGen κ Unit} {body' orelse' : Gen Unit}

omit [DecidableEq κ] in
/-- What comes after a step unless it aborts. -/
theorem Passes.unlessDiverges {next : CachedGen κ Unit} {next' : Gen Unit}
    (h : Passes r body body') (hnext : Passes r next next') :
    Passes r (do let ((), code) ← CachedGen.listen body; unless diverges code do next)
      (do let ((), code) ← Gen.listen body'; unless diverges code do next') :=
  (Mirrors.listen h).andThen fun _ => .ite (mirrors_pure rfl fun _ _ hmem => hmem) hnext

omit [DecidableEq κ] in
theorem passes_freeingAfter (name : Ident) (h : Passes r body body') :
    Passes r (freeingAfter name body) (Gen.freeingAfter name body') :=
  h.unlessDiverges (passes_lift (free name))

/-- The test is asked for, and then the branches are compiled from the same layout. -/
theorem ends_ifElse {test : Expr} (htest : Placed r a (.expr test))
    (hbody : Passes r body body') (horelse : Passes r orelse orelse') :
    Ends r (ifElse (operand test a) body orelse) (Gen.ifElse test body' orelse') := by
  have htracks := tracks_operand htest
  refine (htracks.typeOf (some .bool)).thenEnds fun found => .ite ?_ (ends_failAt_bind _ _)
  refine (htracks.pushAs .bool).thenEnds fun _ => (copies_lift (steady_pop 1)).thenEnds fun _ =>
    (copies_lift closed_steady.layout).thenEnds fun start => Passes.ends ?_
  -- From here on nothing is asked but in the branches, whose statements clear the memory.
  refine (hbody.block start).andThen fun _ => (horelse.block start).andThen fun _ => ?_
  have hjoin (depth : Nat) (i : Instr) : Passes r _ _ :=
    (passes_lift (setLayout { start with depth := depth })).andThen fun _ =>
      passes_lift (Gen.emit i)
  exact .ite (hjoin _ _) (.ite (hjoin _ _) (mirrors_fail_bind _))

/-- The list is asked for twice: for its element type, and for its value. -/
theorem ends_forIn (target : Ident) {iter : Expr} (hiter : Placed r a (.expr iter))
    (hbody : Passes r body body') :
    Ends r (forIn target (operand iter a) body) (Gen.forIn target iter body') := by
  have htracks := tracks_operand hiter
  refine (htracks.typeOf none).thenEnds fun ty => ?_
  cases ty with
  | list element =>
    refine (htracks.value none).thenEnds fun _ =>
      (copies_lift closed_steady.layout).thenEnds fun start => Passes.ends ?_
    have hloop := passes_freeingAfter target
      ((passes_lift (bindTop target element)).andThen fun _ => hbody)
    exact (passes_lift (pop 1)).andThen fun _ => (hloop.block start).andThen fun _ =>
      (passes_lift depth).andThen fun _ => .ite (passes_lift _) (mirrors_fail_bind _)
  | _ => exact (passes_lift _).ends

omit [DecidableEq κ] in
/-- A function asks nothing itself; its body starts from a layout of its own. -/
theorem passes_function (name : Ident) (params : List Param) (returns : Option Expr)
    (hbody : Passes r body body') :
    Passes r (function name params returns body) (Gen.function name params returns body') := by
  refine (passes_lift layout).andThen fun l => .ite (mirrors_fail_bind _) ?_
  match params with
  | [] | _ :: _ :: _ => exact passes_lift _
  | [param] =>
    refine (passes_lift (paramType param)).andThen fun argTy => ?_
    cases returns with
    | none => exact mirrors_fail_bind _
    | some e =>
      refine (passes_lift (denoted e)).andThen fun resultTy => (passes_lift layout).andThen fun l =>
        (passes_lift (sound _)).andThen fun start => ?_
      refine ((passes_freeingAfter param.name hbody).block start).andThen fun p => ?_
      -- The closure is pushed and bound, whether or not the body aborts.
      have hbind (code : Code) : Passes r _ _ :=
        (passes_lift (Gen.emit (.lambda argTy resultTy code))).andThen fun _ =>
          (passes_lift (push 1)).andThen fun _ => (passes_lift layout).andThen fun l =>
            (passes_lift (setLayout (l.setFormals name [param.name]))).andThen fun _ =>
              passes_lift (bindTop name (.lambda argTy resultTy))
      exact .ite (hbind _) (.ite (mirrors_fail_bind _) (.ite (hbind _) (mirrors_fail_bind _)))

end

/-! ## The recursion over statements -/

/-- Enters a statement: its line is the current one, and no answer is kept. -/
def entering (line : Nat) (step : CachedGen κ Unit) : CachedGen κ Unit := do
  seen line
  clear
  step

mutual

/-- Emits the code of a statement. -/
def compileStmt : Stmt → Addresses κ → CachedGen κ Unit
  | .function line name params returns body, a =>
    entering line (function name params returns (fromHere (compileBody body (a.part .first))))
  | .classDef line _ _ _ _, _ =>
    entering line (do fail (.invalidStatement (← layout).context))
  | .assign line target value, a =>
    entering line (assign target (a.part .first) none (operand value (a.part .second)))
  | .annotated line target declared (some value), a =>
    entering line
      (assign target (a.part .first) (some declared) (operand value (a.part .second)))
  | .annotated line _ _ none, _ =>
    entering line (liftM (fail (.unsupported .declarationWithoutValue) : Gen Unit))
  | .augmented line _ _ _, _ =>
    entering line (liftM (defect .augmentedAssignment : Gen Unit))
  | .expr line value, a => entering line (evaluate (operand value (a.part .first)))
  | .ifElse line test body orelse, a =>
    entering line (ifElse (operand test (a.part .first))
      (fromHere (compileBody body (a.part .second)))
      (fromHere (compileBody orelse (a.part .third))))
  | .forIn line target iter body, a =>
    entering line (forIn target (operand iter (a.part .first))
      (fromHere (compileBody body (a.part .second))))
  | .raise line value, a => entering line (raise value (a.part .first))
  | .ret line value, a =>
    entering line (ret (value.map fun value => operand value (a.part .first)))
  | .imports line _, _ => entering line (pure ())
  | .pass line, _ => entering line (pure ())

/-- Emits the statements of a block and frees what they declared since an outer layout, unless one
of them aborts. -/
def compileBody : List Stmt → Addresses κ → Layout → CachedGen κ Unit
  | [], _, outer => liftM (freeDeclared outer)
  | s :: rest, a, outer => do
    let ((), code) ← CachedGen.listen (compileStmt s (a.part .first))
    unless diverges code do
      compileBody rest (a.part .second) outer

end

/-- Emits the code of a block. -/
def compileBlock (body : List Stmt) (a : Addresses κ) : CachedGen κ Unit :=
  fromHere (compileBody body a)

omit [DecidableEq κ] in
theorem passes_fromHere {body : Layout → CachedGen κ Unit} {body' : Layout → Gen Unit}
    (h : ∀ l, Passes r (body l) (body' l)) : Passes r (fromHere body) (Gen.fromHere body') :=
  (passes_lift layout).andThen h

omit [DecidableEq κ] in
/-- A statement may be entered with any memory. -/
theorem Ends.entering {step : CachedGen κ Unit} {plain : Gen Unit} (h : Ends r step plain)
    (line : Nat) : Starts r (entering line step) (do seen line; plain) :=
  Mirrors.andThen (Q := fun _ _ _ => True) (mirrors_lift fun _ _ _ _ _ _ => trivial) fun _ =>
    h.starts

omit [DecidableEq κ] in
theorem starts_seen (line : Nat) : Starts r (entering line (pure ())) (seen line) := by
  have h := (copies_pure (r := r) ()).ends.entering line
  rwa [bind_pure_unit] at h

mutual

/-- From any memory a statement gives the code that plain compilation gives. -/
theorem starts_compileStmt (s : Stmt) {a : Addresses κ} (h : Placed r a (.stmt s)) :
    Starts r (compileStmt s a) (Covenant.compileStmt s) := by
  cases s
  case annotated target declared value =>
    cases value with
    | none =>
      rw [compileStmt, Covenant.compileStmt]
      exact (passes_lift _).ends.entering _
    | some value =>
      rw [compileStmt, Covenant.compileStmt]
      exact (ends_assign (h.part .first rfl) (some declared) (h.part .second rfl)).entering _
  all_goals rw [compileStmt, Covenant.compileStmt]
  case imports line _ | pass line => exact starts_seen line
  all_goals refine Ends.entering ?_ _
  case function name params returns body =>
    exact (passes_function name params returns (passes_fromHere
      (passes_compileBody body (h.part .first rfl)))).ends
  case classDef => exact ((passes_lift layout).andThen fun _ => passes_lift _).ends
  case assign => exact ends_assign (h.part .first rfl) none (h.part .second rfl)
  case augmented => exact (passes_lift _).ends
  case expr => exact (copies_evaluate (tracks_operand (h.part .first rfl))).ends
  case ifElse test body orelse =>
    exact ends_ifElse (h.part .first rfl)
      (passes_fromHere (passes_compileBody body (h.part .second rfl)))
      (passes_fromHere (passes_compileBody orelse (h.part .third rfl)))
  case forIn target iter body =>
    exact ends_forIn target (h.part .first rfl)
      (passes_fromHere (passes_compileBody body (h.part .second rfl)))
  case raise value =>
    cases value with
    | none => exact (passes_lift _).ends
    | some value => exact ends_raise (h.part .first rfl)
  case ret value =>
    cases value with
    | none => exact ends_ret_none
    | some value => exact ends_ret_some (h.part .first rfl)

/-- Statements of a block leave answers behind, none of which the next one uses. -/
theorem passes_compileBody : ∀ (body : List Stmt) {a : Addresses κ}, Placed r a (.block body) →
    ∀ outer : Layout, Passes r (compileBody body a outer) (Covenant.compileBody body outer)
  | [], a, h, outer => by
    rw [compileBody, Covenant.compileBody]
    exact passes_lift _
  | s :: rest, a, h, outer => by
    rw [compileBody, Covenant.compileBody]
    exact (starts_compileStmt s (h.part .first rfl)).passes.unlessDiverges
      (passes_compileBody rest (h.part .second rfl) outer)

end

end Cached

end Covenant
