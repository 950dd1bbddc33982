import Covenant.Proofs.Gen.Steady
import Covenant.Proofs.TypeCache.Typing

/-!
# Covenant — code generation with a memory

A `CachedGen` is a step of code generation that may ask the memory. The memory is there also after a
failure. Any plain step is one that leaves the memory alone.

`Mirrors` compares such a step to a plain one: from a memory that meets the first condition it does
what the plain step does, be it success or failure, and if it succeeds the memory meets the second
condition. Most steps inside a statement need a sound memory and leave one (`Copies`). A plain step
does so if names keep their types (`Gen.Steady`); the answers in the memory are then as good as
before.
-/

namespace Covenant

/-- A step of code generation that uses the memory. -/
def CachedGen (κ α : Type) : Type :=
  Gen.Config → Gen.State → Memory κ → Except CompileError (Gen.Step α) × Memory κ

namespace CachedGen

open Gen

variable {κ α : Type}

instance : Monad (CachedGen κ) where
  pure a := fun _ state mem => (.ok ⟨a, [], state⟩, mem)
  bind step next := fun config state mem =>
    match step config state mem with
    | (.error e, mem) => (.error e, mem)
    | (.ok first, mem) =>
      match next first.result config first.state mem with
      | (.error e, mem) => (.error e, mem)
      | (.ok second, mem) => (.ok { second with code := first.code ++ second.code }, mem)

instance : MonadLift Gen (CachedGen κ) where
  monadLift step := fun config state mem => (step config state, mem)

/-- Asks a question here and takes its outcome over. -/
def asking (ask : Scope → Ask κ α) : CachedGen κ α := fun config state mem =>
  match ask ⟨config.records, state.layout⟩ mem with
  | (.ok a, mem) => (.ok ⟨a, [], state⟩, mem)
  | (.error e, mem) => (.error (e.orLine state.line), mem)

/-- Clears the memory. -/
def clear : CachedGen κ Unit := fun _ state mem => (.ok ⟨(), [], state⟩, mem.clear)

/-- Runs a step with one more record type in force. -/
def withRecord (name : Ident) (fields : Fields) (step : CachedGen κ α) : CachedGen κ α :=
  fun config state mem =>
    step { config with records := config.records.insert name fields } state mem

/-- Runs a step and also gives the code it emitted. -/
def listen (step : CachedGen κ α) : CachedGen κ (α × Code) := fun config state mem =>
  match step config state mem with
  | (.error e, mem) => (.error e, mem)
  | (.ok done, mem) => (.ok ⟨(done.result, done.code), done.code, done.state⟩, mem)

/-- Runs a step apart, from the given layout. -/
def apart (start : Layout) (step : CachedGen κ α) : CachedGen κ (Step α) := fun config state mem =>
  match step config { state with layout := start } mem with
  | (.error e, mem) => (.error e, mem)
  | (.ok done, mem) => (.ok ⟨done, [], { done.state with layout := state.layout }⟩, mem)

/-- Runs a step as a block of its own, from the given layout. -/
def block (start : Layout) (step : CachedGen κ Unit) : CachedGen κ (Code × Layout) := do
  let done ← apart start step
  return (done.code, done.state.layout)

end CachedGen

namespace Gen

/-- What a step yields, with another result. -/
def Step.map {α β : Type} (f : α → β) (done : Step α) : Step β :=
  ⟨f done.result, done.code, done.state⟩

end Gen

namespace Cached

open Gen

variable {κ α β γ δ : Type} {c : Prop}

/-- A condition on the memory at a point of the program. -/
abbrev Condition (κ : Type) : Type := Scope → Memory κ → Prop

/-- From a memory that meets the first condition the step does what the plain step does; what it
yields is related to the plain result by a function. If it succeeds, the memory meets the second
condition. -/
def Mirrors (f : α → β) (P : Condition κ) (Q : α → Condition κ) (step : CachedGen κ α)
    (plain : Gen β) : Prop :=
  ∀ ⦃config : Config⦄ ⦃state : State⦄ ⦃mem : Memory κ⦄,
    P ⟨config.records, state.layout⟩ mem → mem.Honest →
      (step config state mem).1.map (Step.map f) = plain config state ∧
      (step config state mem).2.Honest ∧
      ∀ done, (step config state mem).1 = .ok done →
        Q done.result ⟨config.records, done.state.layout⟩ (step config state mem).2

variable {f : α → β} {P P' : Condition κ} {Q Q' : α → Condition κ} {step : CachedGen κ α}
  {plain : Gen β} {next : α → CachedGen κ γ} {R : γ → Condition κ} {g : γ → δ} {next' : α → Gen δ}
  {ask : Scope → Ask κ α}

/-! ## Sequences -/

theorem Mirrors.mono (h : Mirrors f P' Q step plain)
    (hpre : ∀ scope mem, P scope mem → P' scope mem)
    (hpost : ∀ a scope mem, Q a scope mem → Q' a scope mem) : Mirrors f P Q' step plain := by
  intro config state mem hP hhonest
  obtain ⟨hout, hhonest', hQ⟩ := h (hpre _ _ hP) hhonest
  exact ⟨hout, hhonest', fun done hdone => hpost _ _ _ (hQ done hdone)⟩

theorem Mirrors.weaken (h : Mirrors f P' Q step plain)
    (hpre : ∀ scope mem, P scope mem → P' scope mem) : Mirrors f P Q step plain :=
  h.mono hpre fun _ _ _ hmem => hmem

/-- A fact that follows from what holds of the memory may be used. -/
theorem Mirrors.assuming (hc : ∀ scope mem, P scope mem → c) (h : c → Mirrors f P Q step plain) :
    Mirrors f P Q step plain :=
  fun _ _ _ hmem hhonest => h (hc _ _ hmem) hmem hhonest

/-- A fact that comes with the memory may be used. -/
theorem Mirrors.given (h : c → Mirrors f P Q step plain) :
    Mirrors f (fun scope mem => P scope mem ∧ c) Q step plain :=
  fun _ _ _ hmem hhonest => h hmem.2 hmem.1 hhonest

theorem Mirrors.bind (h : Mirrors f P Q step plain) {next' : β → Gen δ}
    (hnext : ∀ a, Mirrors g (Q a) R (next a) (next' (f a))) :
    Mirrors g P R (step >>= next) (plain >>= next') := by
  intro config state mem hP hhonest
  obtain ⟨hout, hhonest', hQ⟩ := h hP hhonest
  have hbind : (step >>= next) config state mem = match step config state mem with
    | (.error e, mem) => (.error e, mem)
    | (.ok first, mem) =>
      match next first.result config first.state mem with
      | (.error e, mem) => (.error e, mem)
      | (.ok second, mem) => (.ok { second with code := first.code ++ second.code }, mem) := rfl
  rw [hbind]
  rcases hstep : step config state mem with ⟨e | first, mem'⟩ <;>
    rw [hstep] at hout hhonest' hQ
  · -- What was asked up to the failure is in the log nonetheless.
    rw [bind_of_error hout.symm]
    exact ⟨rfl, hhonest', fun _ hdone => nomatch hdone⟩
  · obtain ⟨hout', hhonest'', hR⟩ := hnext first.result (hQ first rfl) hhonest'
    rw [bind_of_ok hout.symm]
    dsimp only [Step.map]
    rw [← hout']
    rcases hsecond : next first.result config first.state mem' with ⟨e | second, mem''⟩ <;>
      rw [hsecond] at hhonest'' hR
    · exact ⟨rfl, hhonest'', fun _ hdone => nomatch hdone⟩
    · refine ⟨rfl, hhonest'', fun done hdone => ?_⟩
      cases hdone
      exact hR second rfl

/-- A sequence whose first step yields the plain result. -/
theorem Mirrors.andThen {plain : Gen α} (h : Mirrors id P Q step plain)
    (hnext : ∀ a, Mirrors g (Q a) R (next a) (next' a)) :
    Mirrors g P R (step >>= next) (plain >>= next') :=
  h.bind hnext

theorem mirrors_pure {a : α} {b : β} (h : f a = b)
    (hpost : ∀ scope mem, P scope mem → Q a scope mem) : Mirrors f P Q (pure a) (pure b) := by
  intro config state mem hP hhonest
  refine ⟨?_, hhonest, fun done hdone => ?_⟩
  · subst h
    rfl
  · cases hdone
    exact hpost _ _ hP

theorem Mirrors.ite [Decidable c] {step' : CachedGen κ α} {plain' : Gen β}
    (h : Mirrors f P Q step plain) (h' : Mirrors f P Q step' plain') :
    Mirrors f P Q (if c then step else step') (if c then plain else plain') := by
  split
  · exact h
  · exact h'

/-! ## Plain steps -/

/-- A plain step does what it does. The memory stays as it is, but the point may be another one. -/
theorem mirrors_lift {plain : Gen α} (h : ∀ config state done mem, plain config state = .ok done →
      P ⟨config.records, state.layout⟩ mem →
      Q done.result ⟨config.records, done.state.layout⟩ mem) :
    Mirrors id P Q (liftM plain) plain := by
  intro config state mem hP hhonest
  have hlift : (liftM plain : CachedGen κ α) config state mem = (plain config state, mem) := rfl
  rw [hlift]
  refine ⟨?_, hhonest, fun done hdone => h _ _ done _ hdone hP⟩
  cases plain config state <;> rfl

/-- Nothing is done after a failure. -/
theorem mirrors_lift_error {error : Gen α}
    (h : ∀ config state, ∃ e, error config state = .error e) :
    Mirrors g P R (liftM error >>= next) (error >>= next') := by
  refine Mirrors.andThen (Q := fun _ _ _ => False)
    (mirrors_lift fun config state done mem hdone _ => ?_) fun a => ?_
  · obtain ⟨e, he⟩ := h config state
    rw [he] at hdone
    cases hdone
  · exact fun _ _ _ hfalse => hfalse.elim

theorem mirrors_failAt_bind (line : Nat) (cause : Cause) :
    Mirrors g P R (liftM (failAt line cause) >>= next) (failAt line cause >>= next') :=
  mirrors_lift_error fun _ _ => ⟨_, rfl⟩

theorem mirrors_fail_bind (cause : Cause) :
    Mirrors g P R (liftM (fail cause) >>= next) (fail cause >>= next') :=
  mirrors_failAt_bind 0 cause

/-- A failure is the same whatever the step is to yield. -/
theorem mirrors_failAt (line : Nat) (cause : Cause) :
    Mirrors f P Q (liftM (failAt line cause : Gen α)) (failAt line cause) :=
  fun _ _ _ _ hhonest => ⟨rfl, hhonest, fun _ hdone => nomatch hdone⟩

theorem mirrors_fail (cause : Cause) :
    Mirrors f P Q (liftM (fail cause : Gen α)) (fail cause) := mirrors_failAt 0 cause

theorem mirrors_failNowhere (cause : Cause) :
    Mirrors f P Q (liftM (failNowhere cause : Gen α)) (failNowhere cause) :=
  fun _ _ _ _ hhonest => ⟨rfl, hhonest, fun _ hdone => nomatch hdone⟩

/-! ## Parts that run apart -/

theorem Mirrors.listen (h : Mirrors f P Q step plain) :
    Mirrors (fun p => (f p.1, p.2)) P (fun p => Q p.1) (CachedGen.listen step)
      (Gen.listen plain) := by
  intro config state mem hP hhonest
  obtain ⟨hout, hhonest', hQ⟩ := h hP hhonest
  unfold CachedGen.listen Gen.listen
  rw [← hout]
  rcases hstep : step config state mem with ⟨e | done, mem'⟩ <;> rw [hstep] at hhonest' hQ
  · exact ⟨rfl, hhonest', fun _ hdone => nomatch hdone⟩
  · refine ⟨rfl, hhonest', fun inner hinner => ?_⟩
    cases hinner
    exact hQ done rfl

/-- A step may run apart from another layout if the memory is fit for it there, and what it leaves
is fit for going on here. -/
theorem Mirrors.apart {start : Layout} (h : Mirrors f P' Q' step plain)
    {R : Step α → Condition κ}
    (hpre : ∀ scope mem, P scope mem → P' ⟨scope.records, start⟩ mem)
    (hpost : ∀ scope mem done mem', P scope mem →
      Q' done.result ⟨scope.records, done.state.layout⟩ mem' → R done scope mem') :
    Mirrors (Step.map f) P R (CachedGen.apart start step) (Gen.apart start plain) := by
  intro config state mem hP hhonest
  obtain ⟨hout, hhonest', hQ⟩ :=
    @h config { state with layout := start } mem (hpre _ _ hP) hhonest
  unfold CachedGen.apart Gen.apart
  rw [← hout]
  rcases hstep : step config { state with layout := start } mem with ⟨e | done, mem'⟩ <;>
    rw [hstep] at hhonest' hQ
  · exact ⟨rfl, hhonest', fun _ hdone => nomatch hdone⟩
  · refine ⟨rfl, hhonest', fun inner hinner => ?_⟩
    cases hinner
    exact hpost ⟨config.records, state.layout⟩ mem done mem' hP (hQ done rfl)

theorem Mirrors.block {start : Layout} {step : CachedGen κ Unit} {plain : Gen Unit}
    {Q' : Unit → Condition κ} (h : Mirrors id P' Q' step plain) {R : Condition κ}
    (hpre : ∀ scope mem, P scope mem → P' ⟨scope.records, start⟩ mem)
    (hpost : ∀ scope mem l mem', P scope mem → Q' () ⟨scope.records, l⟩ mem' → R scope mem') :
    Mirrors id P (fun _ => R) (CachedGen.block start step) (Gen.block start plain) :=
  (h.apart (R := fun _ => R) hpre fun scope mem _ mem' => hpost scope mem _ mem').bind
    fun _ => mirrors_pure rfl fun _ _ h => h

/-! ## Steps inside a statement -/

variable {r : Region κ}

/-- Names have the types they have in a given layout, and the memory is sound. -/
def UpToDate (r : Region κ) (base : Layout) : Condition κ := fun scope mem =>
  base.Alike scope.layout ∧ mem.Sound r scope

/-- As long as names keep their types, the step does what the plain step does. -/
def Copies (r : Region κ) (step : CachedGen κ α) (plain : Gen α) : Prop :=
  ∀ base, Mirrors id (UpToDate r base) (fun _ => UpToDate r base) step plain

theorem Copies.andThen {plain : Gen α} (h : Copies r step plain) {next' : α → Gen γ}
    (hnext : ∀ a, Copies r (next a) (next' a)) : Copies r (step >>= next) (plain >>= next') :=
  fun base => (h base).andThen fun a => hnext a base

theorem Copies.ite [Decidable c] {step' : CachedGen κ α} {plain plain' : Gen α}
    (h : Copies r step plain) (h' : Copies r step' plain') :
    Copies r (if c then step else step') (if c then plain else plain') :=
  fun base => (h base).ite (h' base)

theorem copies_pure (a : α) : Copies r (pure a) (pure a) :=
  fun _ => mirrors_pure rfl fun _ _ h => h

theorem copies_failAt (line : Nat) (cause : Cause) :
    Copies r (liftM (failAt line cause : Gen α)) (failAt line cause) :=
  fun _ => mirrors_failAt line cause

theorem copies_failAt_bind (line : Nat) (cause : Cause) {next' : α → Gen γ} :
    Copies r (liftM (failAt line cause) >>= next) (failAt line cause >>= next') :=
  fun _ => mirrors_failAt_bind line cause

theorem copies_defect (d : Defect) : Copies r (liftM (defect d : Gen α)) (defect d) :=
  fun _ => mirrors_failNowhere _

/-- A question that gets the plain answer at every point can be asked in a step. -/
theorem mirrors_asking {outcome : Scope → Typed β} {F : α → Prop} (base : Layout)
    (h : ∀ scope, AnswersAs r scope f (ask scope) (outcome scope))
    (hfact : ∀ scope mem a, (ask scope mem).1 = .ok a → F a) :
    Mirrors f (UpToDate r base) (fun a scope mem => UpToDate r base scope mem ∧ F a)
      (CachedGen.asking ask) (scope >>= fun scope => typed (outcome scope)) := by
  intro config state mem hmem hhonest
  obtain ⟨hout, hsound, hhonest'⟩ := h ⟨config.records, state.layout⟩ hmem.2 hhonest
  have hscope : (scope >>= fun scope => typed (outcome scope)) config state =
      typed (outcome ⟨config.records, state.layout⟩) config state := by simp
  have ha := hfact ⟨config.records, state.layout⟩ mem
  rw [hscope, ← hout]
  unfold CachedGen.asking
  rcases hask : ask ⟨config.records, state.layout⟩ mem with ⟨e | a, mem'⟩ <;>
    rw [hask] at hsound hhonest' ha
  · exact ⟨rfl, hhonest', fun _ hdone => nomatch hdone⟩
  · refine ⟨rfl, hhonest', fun done hdone => ?_⟩
    cases hdone
    exact ⟨⟨hmem.1, hsound⟩, ha a rfl⟩

theorem copies_asking {outcome : Scope → Typed α}
    (h : ∀ scope, Answers r scope (ask scope) (outcome scope)) :
    Copies r (CachedGen.asking ask) (scope >>= fun scope => typed (outcome scope)) :=
  fun base => (mirrors_asking (F := fun _ => True) base h fun _ _ _ _ => trivial).mono
    (fun _ _ h => h) fun _ _ _ h => h.1

/-- What is asked first is taken over before the plain step goes on. -/
theorem mirrors_asking_bind {outcome : Scope → Typed β} {F : α → Prop} {base : Layout}
    (h : ∀ scope, AnswersAs r scope f (ask scope) (outcome scope))
    (hfact : ∀ scope mem a, (ask scope mem).1 = .ok a → F a) {next' : β → Gen δ}
    (hnext : ∀ a, F a → Mirrors g (UpToDate r base) R (next a) (next' (f a))) :
    Mirrors g (UpToDate r base) R (CachedGen.asking ask >>= next)
      (scope >>= fun scope => typed (outcome scope) >>= next') := by
  rw [← bind_assoc]
  exact (mirrors_asking base h hfact).bind fun a => .given (hnext a)

theorem copies_asking_bind {outcome : Scope → Typed α}
    (h : ∀ scope, Answers r scope (ask scope) (outcome scope)) {next' : α → Gen γ}
    (hnext : ∀ a, Copies r (next a) (next' a)) :
    Copies r (CachedGen.asking ask >>= next)
      (scope >>= fun scope => typed (outcome scope) >>= next') :=
  fun base => mirrors_asking_bind (F := fun _ => True) h (fun _ _ _ _ => trivial) fun a _ =>
    hnext a base

/-- A block inside a statement, from a layout in which names have the same types. -/
theorem Copies.block {step : CachedGen κ Unit} {plain : Gen Unit} (h : Copies r step plain)
    {base start : Layout} (halike : base.Alike start) :
    Mirrors id (UpToDate r base) (fun _ => UpToDate r base) (CachedGen.block start step)
      (Gen.block start plain) := by
  refine (h base).block (fun scope mem hmem => ⟨halike, ?_⟩) fun scope mem l mem' hmem hmem' => ?_
  · exact (hmem.2.of_alike hmem.1.symm).of_alike halike
  · exact ⟨hmem.1, (hmem'.2.of_alike hmem'.1.symm).of_alike hmem.1⟩

/-! ## Steps that keep the types of names -/

/-- A step that keeps the types of names copies itself. -/
theorem copies_lift {plain : Gen α} (h : Steady plain) : Copies r (liftM plain) plain :=
  fun _ => mirrors_lift fun _ _ _ _ hdone hmem =>
    ⟨hmem.1.trans (h hdone), hmem.2.of_alike (h hdone)⟩

theorem copies_apply (p : Prim) : Copies r (liftM (apply p)) (apply p) :=
  copies_lift (steady_apply p)

end Cached

end Covenant
