import Covenant.Gen.Basic

/-!
# Covenant — what a step of code generation does when it succeeds

Every theorem about the generator starts from a run that succeeded. The lemmas of this module take
such a run apart: for each basic step they say exactly when it succeeds, what it emits and what it
does to the layout. Together with `Gen.bind_eq_ok_iff` they open a sequence of steps from left to
right, so that no later proof unfolds a step.

A step that emits nothing can be cut off the front of a sequence. The lemmas named `_bind` do this
for the steps that only look something up, count cells or check a type.

Counting cells is the only thing most steps do to the layout. `Layout.atDepth` is the layout with
another number of cells and nothing else changed.
-/

namespace Except

variable {ε ε' α β : Type} {x : Except ε α}

/-- A sequence succeeds exactly if its first part does and then its second. -/
theorem bind_eq_ok_iff {f : α → Except ε β} {b : β} :
    x >>= f = .ok b ↔ ∃ a, x = .ok a ∧ f a = .ok b := by
  cases x with
  | error | ok => simp [Bind.bind, Except.bind]

/-- A function applied to an outcome decides neither success nor failure. -/
theorem map_eq_ok_iff {f : α → β} {b : β} : f <$> x = .ok b ↔ ∃ a, x = .ok a ∧ f a = b := by
  cases x with
  | error | ok => simp [Functor.map, Except.map]

theorem toOption_eq_some_iff {a : α} : x.toOption = some a ↔ x = .ok a := by
  cases x <;> simp [Except.toOption]

/-- What is read off the outcome of a run is read off its result. -/
theorem exists_ok_of_map {f : α → β} {b : β} (h : x.toOption.map f = some b) :
    ∃ a, x = .ok a ∧ f a = b := by
  simpa only [Option.map_eq_some_iff, toOption_eq_some_iff] using h

theorem exists_ok_of_isSome (h : x.toOption.isSome = true) : ∃ a, x = .ok a := by
  simpa only [Option.isSome_iff_exists, toOption_eq_some_iff] using h

/-- Success does not depend on how errors are worded. -/
theorem mapError_eq_ok_iff {f : ε → ε'} {a : α} : x.mapError f = .ok a ↔ x = .ok a := by
  cases x with
  | error e =>
    show Except.error (f e) = .ok a ↔ Except.error e = .ok a
    simp
  | ok b =>
    show Except.ok b = .ok a ↔ Except.ok b = .ok a
    simp

@[simp] theorem pure_eq_ok_iff {a b : α} : (pure a : Except ε α) = .ok b ↔ a = b := by
  simp [pure, Except.pure]

end Except

namespace Covenant

namespace Layout

/-- The layout with another number of cells. -/
def atDepth (l : Layout) (depth : Nat) : Layout := { l with depth := depth }

variable (l : Layout) (d e : Nat)

@[simp] theorem depth_atDepth : (l.atDepth d).depth = d := rfl
@[simp] theorem formals_atDepth : (l.atDepth d).formals = l.formals := rfl
@[simp] theorem slot?_atDepth : (l.atDepth d).slot? = l.slot? := rfl
@[simp] theorem ty?_atDepth : (l.atDepth d).ty? = l.ty? := rfl
@[simp] theorem atDepth_depth : l.atDepth l.depth = l := rfl

theorem push_eq_atDepth (n : Nat) : l.push n = l.atDepth (l.depth + n) := rfl

/-- Cells can be taken off exactly as long as there are enough of them. -/
theorem pop_eq_ok_iff {n : Nat} {l' : Layout} :
    l.pop n = .ok l' ↔ n ≤ l.depth ∧ l' = l.atDepth (l.depth - n) := by
  unfold pop
  split
  · simp [atDepth, *, eq_comm]
  · simp [*]

/-- A slot has a distance from the top exactly if it is on the stack. -/
theorem distance_eq_ok_iff {slot jump : Nat} :
    l.distance slot = .ok jump ↔ slot < l.depth ∧ jump = l.depth - 1 - slot := by
  unfold distance
  split
  · simp [*, eq_comm]
  · simp [*]

/-- A variable can be copied to the top exactly if it has a cell on the stack. -/
theorem fetch_eq_ok_iff {name : Ident} {i : Instr} {l' : Layout} :
    l.fetch name = .ok (i, l') ↔
      ∃ slot, l.slot? name = some slot ∧ slot < l.depth ∧
        i = .dup (l.depth - slot) ∧ l' = l.atDepth (l.depth + 1) := by
  unfold fetch
  cases l.slot? name with
  | none => simp
  | some slot =>
    by_cases hlt : slot < l.depth
    · have hjump : l.depth - 1 - slot + 1 = l.depth - slot := by omega
      simp [distance, hlt, hjump, push_eq_atDepth, eq_comm]
    · simp [distance, hlt]

end Layout

namespace Gen

variable {name : Ident} {n : Nat}

/-- A sequence fails exactly if one of its steps does, the second only after the first. -/
theorem bind_eq_error_iff {α β : Type} {step : Gen α} {next : α → Gen β} {config : Config}
    {state : State} {e : CompileError} :
    (step >>= next) config state = .error e ↔ step config state = .error e ∨
      ∃ first, step config state = .ok first ∧
        next first.result config first.state = .error e := by
  cases hstep : step config state with
  | error e' => simp [bind_of_error hstep]
  | ok first =>
    rw [bind_of_ok hstep]
    cases hnext : next first.result config first.state <;> simp [Except.map, hnext]

/-- The state with another number of cells on the stack. -/
def State.atDepth (s : State) (depth : Nat) : State := { s with layout := s.layout.atDepth depth }

@[simp] theorem State.layout_atDepth (s : State) (d : Nat) :
    (s.atDepth d).layout = s.layout.atDepth d := rfl

@[simp] theorem State.atDepth_atDepth (s : State) (d e : Nat) :
    (s.atDepth d).atDepth e = s.atDepth e := rfl

@[simp] theorem State.atDepth_depth (s : State) : s.atDepth s.layout.depth = s := rfl

/-- The state after a source line has been seen. -/
def State.seeing (s : State) (line : Nat) : State := if line = 0 then s else { s with line := line }

@[simp] theorem State.layout_seeing (s : State) (line : Nat) :
    (s.seeing line).layout = s.layout := by
  unfold State.seeing
  split <;> rfl

/-- The notes that a configuration lets through: all of them or none. -/
def Config.notes (config : Config) (n : Note) : Code := if config.traced then [.note n] else []

variable {α β : Type} {config : Config} {state : State} {next : α → Gen β} {line : Nat}
  {done : Step β} {cause : Cause}

/-! ## Steps that emit nothing -/

/-- A step that succeeds without emitting anything can be cut off. -/
theorem bind_of_silent {step : Gen α} {a : α} {state' : State}
    (h : step config state = .ok ⟨a, [], state'⟩) :
    (step >>= next) config state = next a config state' := by
  rw [bind_of_ok h]
  cases next a config state' <;> rfl

@[simp] theorem pure_apply (a : α) : (pure a : Gen α) config state = .ok ⟨a, [], state⟩ := rfl

@[simp] theorem layout_bind {next : Layout → Gen β} :
    (layout >>= next) config state = next state.layout config state :=
  bind_of_silent rfl

@[simp] theorem setLayout_bind {l : Layout} {next : Unit → Gen β} :
    (setLayout l >>= next) config state = next () config { state with layout := l } :=
  bind_of_silent rfl

@[simp] theorem setLayout_apply (l : Layout) :
    setLayout l config state = .ok ⟨(), [], { state with layout := l }⟩ := rfl

@[simp] theorem depth_bind {next : Nat → Gen β} :
    (depth >>= next) config state = next state.layout.depth config state :=
  bind_of_silent rfl

@[simp] theorem scope_bind {next : Scope → Gen β} :
    (scope >>= next) config state = next ⟨config.records, state.layout⟩ config state :=
  bind_of_silent rfl

@[simp] theorem seen_apply (line : Nat) :
    seen line config state = .ok ⟨(), [], state.seeing line⟩ := rfl

@[simp] theorem seen_bind {next : Unit → Gen β} :
    (seen line >>= next) config state = next () config (state.seeing line) :=
  bind_of_silent rfl

@[simp] theorem push_apply (n : Nat) :
    push n config state = .ok ⟨(), [], state.atDepth (state.layout.depth + n)⟩ := rfl

@[simp] theorem push_bind {next : Unit → Gen β} :
    (push n >>= next) config state =
      next () config (state.atDepth (state.layout.depth + n)) :=
  bind_of_silent rfl

/-! ## Failure -/

@[simp] theorem typed_ok (a : α) : typed (.ok a) config state = .ok ⟨a, [], state⟩ := rfl

/-- A question about types is a step that emits nothing and keeps the state. -/
@[simp] theorem typed_eq_ok_iff {outcome : Typed α} {done : Step α} :
    typed outcome config state = .ok done ↔ ∃ a, outcome = .ok a ∧ done = ⟨a, [], state⟩ := by
  cases outcome with
  | error e => simp [typed]
  | ok a => simp [eq_comm]

/-- A question about types in front of a sequence is answered if the sequence succeeds. -/
@[simp] theorem typed_bind_eq_ok_iff {outcome : Typed α} :
    (typed outcome >>= next) config state = .ok done ↔
      ∃ a, outcome = .ok a ∧ next a config state = .ok done := by
  cases outcome with
  | error e => simp [bind_eq_ok_iff]
  | ok a => simp [bind_of_silent (typed_ok a)]

/-- A failure is never a success, whatever follows it. -/
@[simp] theorem failAt_ne_ok {done : Step α} : failAt line cause config state ≠ .ok done := by
  simp [failAt, faultAt]

@[simp] theorem failAt_bind_ne_ok : (failAt line cause >>= next) config state ≠ .ok done := by
  simp [bind_eq_ok_iff]

@[simp] theorem fail_ne_ok {done : Step α} : fail cause config state ≠ .ok done :=
  failAt_ne_ok

@[simp] theorem fail_bind_ne_ok : (fail cause >>= next) config state ≠ .ok done :=
  failAt_bind_ne_ok

/-- A requirement in front of a sequence is met if the sequence succeeds. -/
theorem unless_failAt_eq_ok_iff {c : Prop} [Decidable c] {next : Unit → Gen β} :
    (if c then next () else failAt line cause >>= next) config state = .ok done ↔
      c ∧ next () config state = .ok done := by
  by_cases hc : c
  · simp [hc]
  · simp [hc]

/-- A condition that a sequence refuses in front does not hold if the sequence succeeds. -/
theorem when_failAt_eq_ok_iff {c : Prop} [Decidable c] {next : Unit → Gen β} :
    (if c then failAt line cause >>= next else next ()) config state = .ok done ↔
      ¬c ∧ next () config state = .ok done := by
  by_cases hc : c
  · simp [hc]
  · simp [hc]

@[simp] theorem failNowhere_ne_ok {done : Step α} : failNowhere cause config state ≠ .ok done := by
  simp [failNowhere]

@[simp] theorem defect_ne_ok {d : Defect} {done : Step α} : defect d config state ≠ .ok done :=
  failNowhere_ne_ok

/-- An outcome that only a defect can spoil is there if the sequence succeeds. -/
@[simp] theorem sound_bind_eq_ok_iff {outcome : Except Defect α} :
    (sound outcome >>= next) config state = .ok done ↔
      ∃ a, outcome = .ok a ∧ next a config state = .ok done := by
  cases outcome with
  | error d => simp [sound, bind_eq_ok_iff]
  | ok a => simp [sound]

/-- Cells are taken off exactly if they are there. -/
@[simp] theorem pop_eq_ok_iff {done : Step Unit} :
    pop n config state = .ok done ↔
      n ≤ state.layout.depth ∧ done = ⟨(), [], state.atDepth (state.layout.depth - n)⟩ := by
  rw [pop, layout_bind, sound_bind_eq_ok_iff]
  simp only [Layout.pop_eq_ok_iff, setLayout_apply, Except.ok.injEq, and_assoc, exists_and_left,
    exists_eq_left]
  exact and_congr_right fun _ => eq_comm

@[simp] theorem pop_bind_eq_ok_iff {next : Unit → Gen β} :
    (pop n >>= next) config state = .ok done ↔
      n ≤ state.layout.depth ∧
        next () config (state.atDepth (state.layout.depth - n)) = .ok done := by
  by_cases hn : n ≤ state.layout.depth
  · rw [bind_of_silent (pop_eq_ok_iff.mpr ⟨hn, rfl⟩)]
    simp [hn]
  · simp [bind_eq_ok_iff, hn]

/-! ## Code -/

@[simp] theorem emit_eq_ok_iff {i : Instr} {done : Step Unit} :
    emit i config state = .ok done ↔ done = ⟨(), [i], state⟩ := by
  simp [emit, eq_comm]

@[simp] theorem emitAll_eq_ok_iff {code : Code} {done : Step Unit} :
    emitAll code config state = .ok done ↔ done = ⟨(), code, state⟩ := by
  simp [emitAll, eq_comm]

/-- A note is emitted only where notes are asked for. -/
@[simp] theorem annotate_eq_ok_iff {n : Note} {done : Step Unit} :
    annotate n config state = .ok done ↔ done = ⟨(), config.notes n, state⟩ := by
  rw [eq_comm]
  simp [annotate, Config.notes]

@[simp] theorem emit_bind_eq_ok_iff {i : Instr} {next : Unit → Gen β} :
    (emit i >>= next) config state = .ok done ↔
      ∃ rest, next () config state = .ok rest ∧ done = { rest with code := i :: rest.code } := by
  simp [bind_eq_ok_iff]

/-- One instruction that consumes cells, as the ends of most statements are. -/
theorem emit_pop_eq_ok_iff {i : Instr} {done : Step Unit} :
    (do emit i; pop n) config state = .ok done ↔
      n ≤ state.layout.depth ∧ done = ⟨(), [i], state.atDepth (state.layout.depth - n)⟩ := by
  simp [and_assoc]

@[simp] theorem emitAll_bind_eq_ok_iff {code : Code} {next : Unit → Gen β} :
    (emitAll code >>= next) config state = .ok done ↔
      ∃ rest, next () config state = .ok rest ∧
        done = { rest with code := code ++ rest.code } := by
  simp [bind_eq_ok_iff]

@[simp] theorem annotate_bind_eq_ok_iff {n : Note} {next : Unit → Gen β} :
    (annotate n >>= next) config state = .ok done ↔
      ∃ rest, next () config state = .ok rest ∧
        done = { rest with code := config.notes n ++ rest.code } := by
  simp [bind_eq_ok_iff]

/-- A primitive is emitted exactly if the cells it consumes are there. -/
@[simp] theorem apply_eq_ok_iff {p : Prim} {done : Step Unit} :
    apply p config state = .ok done ↔
      p.arity ≤ state.layout.depth ∧
        done = ⟨(), [.prim p], state.atDepth (state.layout.depth - p.arity + 1)⟩ := by
  simp only [apply, emit_bind_eq_ok_iff, pop_bind_eq_ok_iff, push_apply]
  constructor
  · rintro ⟨_, ⟨harity, hrest⟩, rfl⟩
    cases hrest
    exact ⟨harity, rfl⟩
  · rintro ⟨harity, rfl⟩
    exact ⟨_, ⟨harity, rfl⟩, rfl⟩

@[simp] theorem apply_bind_eq_ok_iff {p : Prim} {next : Unit → Gen β} :
    (apply p >>= next) config state = .ok done ↔
      p.arity ≤ state.layout.depth ∧ ∃ rest,
        next () config (state.atDepth (state.layout.depth - p.arity + 1)) = .ok rest ∧
          done = { rest with code := .prim p :: rest.code } := by
  simp only [bind_eq_ok_iff, apply_eq_ok_iff]
  constructor
  · rintro ⟨_, rest, ⟨harity, rfl⟩, hrest, rfl⟩
    exact ⟨harity, rest, hrest, rfl⟩
  · rintro ⟨harity, rest, hrest, rfl⟩
    exact ⟨_, rest, ⟨harity, rfl⟩, hrest, rfl⟩

/-- Listening to a step hands its code on and emits it all the same. -/
theorem listen_eq_ok_iff {step : Gen α} {done : Step (α × Code)} :
    listen step config state = .ok done ↔
      ∃ inner, step config state = .ok inner ∧
        done = ⟨(inner.result, inner.code), inner.code, inner.state⟩ := by
  unfold listen
  cases step config state with
  | error e => simp
  | ok inner => simp [eq_comm]

/-- A run apart starts at a layout of its own and gives the present one back, with the last line it
saw. -/
theorem apart_bind_eq_ok_iff {start : Layout} {step : Gen α} {next : Step α → Gen β} :
    (apart start step >>= next) config state = .ok done ↔
      ∃ inner, step config { state with layout := start } = .ok inner ∧
        next inner config { inner.state with layout := state.layout } = .ok done := by
  cases hstep : step config { state with layout := start } with
  | error e => simp [bind_eq_ok_iff, apart, hstep]
  | ok inner =>
    -- the run emits into a step of its own, so nothing of it is left in front of `next`
    have hapart : apart start step config state =
        .ok ⟨inner, [], { inner.state with layout := state.layout }⟩ := by simp [apart, hstep]
    simp [bind_of_silent hapart]

/-- A block is a run of its own: it emits nothing here and leaves the layout alone. -/
theorem block_bind_eq_ok_iff {start : Layout} {step : Gen Unit} {next : Code × Layout → Gen β} :
    (block start step >>= next) config state = .ok done ↔
      ∃ inner, step config { state with layout := start } = .ok inner ∧
        next (inner.code, inner.state.layout) config
          { inner.state with layout := state.layout } = .ok done := by
  simp [block, apart_bind_eq_ok_iff]

/-! ## Typing -/

/-- The type of an expression is asked for in the layout of the moment. -/
@[simp] theorem typeOf_bind_eq_ok_iff {e : Expr} {expected : Option Ty} {next : Ty → Gen β} :
    (typeOf e expected >>= next) config state = .ok done ↔
      ∃ ty, Covenant.typeOf ⟨config.records, state.layout⟩ e expected = .ok ty ∧
        next ty config state = .ok done := by
  simp [typeOf]

/-- A value passes the check exactly if its type fits the one that is wanted. -/
@[simp] theorem checkFits_bind_eq_ok_iff {value : Expr} {want : Ty} {next : Unit → Gen β} :
    (checkFits value want >>= next) config state = .ok done ↔
      ∃ found, Covenant.typeOf ⟨config.records, state.layout⟩ value (some want) = .ok found ∧
        found.fits want = true ∧ next () config state = .ok done := by
  simp only [checkFits, bind_assoc, typeOf_bind_eq_ok_iff]
  refine exists_congr fun found => and_congr_right fun _ => ?_
  by_cases hfits : found.fits want = true
  · simp [hfits]
  · simp [hfits]

/-- A type expression is read by the records alone, so it means the same in every layout. -/
@[simp] theorem denoted_bind_eq_ok_iff {e : Expr} {next : Ty → Gen β} :
    (denoted e >>= next) config state = .ok done ↔
      ∃ ty, TypeExpr.type config.records e = .ok ty ∧ next ty config state = .ok done := by
  simp [denoted]

/-! ## Named cells -/

/-- A variable is copied to the top exactly if it has a cell on the stack. -/
theorem fetch_eq_ok_iff {done : Step Unit} :
    fetch name config state = .ok done ↔
      ∃ slot, state.layout.slot? name = some slot ∧ slot < state.layout.depth ∧
        done = ⟨(), config.notes (.fetched name) ++ [.dup (state.layout.depth - slot)],
          state.atDepth (state.layout.depth + 1)⟩ := by
  simp only [fetch, layout_bind]
  cases hfetch : state.layout.fetch name with
  | error cause =>
    -- the layout refused, so there is no cell to copy
    simp only [fail_ne_ok, false_iff]
    rintro ⟨slot, hslot, hlt, -⟩
    have hok := (Layout.fetch_eq_ok_iff state.layout).mpr ⟨slot, hslot, hlt, rfl, rfl⟩
    simp [hok] at hfetch
  | ok result =>
    obtain ⟨i, l⟩ := result
    obtain ⟨slot, hslot, hlt, rfl, rfl⟩ := (Layout.fetch_eq_ok_iff state.layout).mp hfetch
    simp [bind_eq_ok_iff, hslot, hlt, State.atDepth]

/-- Naming the top cell changes the layout and leaves nothing but a note. -/
theorem bindTop_eq_ok_iff {ty : Ty} {done : Step Unit} :
    bindTop name ty config state = .ok done ↔
      ∃ l, state.layout.bind name ty = .ok l ∧
        done = ⟨(), config.notes (.bound name), { state with layout := l }⟩ := by
  simp only [bindTop, annotate_bind_eq_ok_iff, layout_bind, sound_bind_eq_ok_iff]
  cases state.layout.bind name ty with
  | error d => simp
  | ok l => simp [eq_comm]

/-- Freeing cells emits what the layout says. -/
theorem freeAll_eq_ok_iff {names : List Ident} {done : Step Unit} :
    freeAll names config state = .ok done ↔
      ∃ code l, state.layout.freeAll names = .ok (code, l) ∧
        done = ⟨(), code, { state with layout := l }⟩ := by
  simp only [freeAll, layout_bind, sound_bind_eq_ok_iff]
  cases state.layout.freeAll names with
  | error d => simp
  | ok result => simp [Prod.ext_iff]

end Gen

end Covenant
