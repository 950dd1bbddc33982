import Covenant.Proofs.Machine.Depth
import Covenant.Proofs.Machine.Stack

/-!
# Covenant — the machine on arbitrary cells

What code does to cells that it does not compute with has nothing to do with what it computes. So
here nothing at all is assumed of values: a `Machine` is any choice of what primitives and closures
give and of which values are booleans, options, lists and pairs. An operation that has no answer for
a value aborts the run, as `FAILWITH` does. A run that reaches for a cell that is not there ends in
`underflow`, which is kept apart: it is the one outcome that the depth of the stack decides.

* `Machine.run_append` — a block followed by another one;
* `Machine.run_underneath` — cells underneath the whole run come out of it as they went in;
* `Machine.run_of_depth` — code whose cells are accounted for does not underflow, and ends as deep
  as the account says;
* `Machine.run_ne_ends` — code that diverges does not end with a stack.
-/

namespace Covenant

open Depth

/-- How a run comes out. -/
inductive Ending (α : Type) where
  /-- An instruction reached for a cell that was not there. -/
  | underflow
  | aborts
  | ends (s : List α)
  deriving DecidableEq

namespace Ending

variable {α : Type}

/-- Goes on from the stack that a run ends with. -/
def andThen (x : Ending α) (next : List α → Ending α) : Ending α :=
  match x with
  | underflow => underflow
  | aborts => aborts
  | ends s => next s

/-- The outcome with more cells underneath. -/
def atop (bottom : List α) : Ending α → Ending α
  | underflow => underflow
  | aborts => aborts
  | ends s => ends (s ++ bottom)

/-- The outcome with cells put back on top. -/
def beneath (top : List α) : Ending α → Ending α
  | underflow => underflow
  | aborts => aborts
  | ends s => ends (top ++ s)

/-- The end of an operation that may have no answer. -/
def ofOption : Option (List α) → Ending α
  | none => aborts
  | some s => ends s

variable {x : Ending α} {next next' : List α → Ending α} {s t : List α}

@[simp] theorem ends_andThen : (ends s).andThen next = next s := rfl
@[simp] theorem aborts_andThen : aborts.andThen next = aborts := rfl

theorem andThen_assoc (x : Ending α) (next next' : List α → Ending α) :
    (x.andThen next).andThen next' = x.andThen fun s => (next s).andThen next' := by
  cases x <;> rfl

theorem ends_of_andThen (h : x.andThen next = ends t) : ∃ s, x = ends s ∧ next s = ends t := by
  cases x with
  | ends s => exact ⟨s, rfl, h⟩
  | _ => cases h

/-- More cells underneath do not matter to what follows, if they do not matter to either part. -/
theorem andThen_atop {u : List α} (h : x.andThen next ≠ underflow)
    (hnext : ∀ s, x = ends s → next s ≠ underflow → next' (s ++ u) = (next s).atop u) :
    (x.atop u).andThen next' = (x.andThen next).atop u := by
  cases x with
  | underflow => exact absurd rfl h
  | aborts => rfl
  | ends s => exact hnext s rfl h

end Ending

open Ending Stack

/-- What a machine makes of the values in its cells. -/
structure Machine (α : Type) where
  /-- What a primitive makes of the values that it consumes, topmost first. -/
  prim : Prim → List α → Option α
  /-- Which values are booleans, and which ones. -/
  bool? : α → Option Bool
  /-- Which values are options, and what is in them. -/
  option? : α → Option (Option α)
  list? : α → Option (List α)
  pair? : α → Option (α × α)
  closure : Ty → Ty → Code → α
  /-- Applies a closure, given second, to an argument. -/
  call : α → α → Option α

namespace Machine

variable {α : Type} (M : Machine α)

/-- Runs one round for each value of a list. -/
def rounds (round : α → List α → Ending α) : List α → List α → Ending α
  | [], s => ends s
  | a :: rest, s => (round a s).andThen (rounds round rest)

mutual

/-- What one instruction does to a stack. -/
def step : Instr → List α → Ending α
  | .prim p, s =>
    if p.arity ≤ s.length then
      ofOption ((M.prim p (s.take p.arity)).map (· :: s.drop p.arity))
    else
      underflow
  | .dup n, s =>
    if n = 0 then
      underflow
    else
      match s[n - 1]? with
      | some a => ends (a :: s)
      | none => underflow
  | .dig n, s =>
    match s[n]? with
    | some a => ends (a :: s.eraseIdx n)
    | none => underflow
  | .dug n, s =>
    match s with
    | a :: rest => if n ≤ rest.length then ends (rest.insertIdx n a) else underflow
    | [] => underflow
  | .dip n body, s =>
    if n ≤ s.length then (run body (s.drop n)).beneath (s.take n) else underflow
  | .drop, s =>
    match s with
    | _ :: rest => ends rest
    | [] => underflow
  | .swap, s =>
    match s with
    | a :: b :: rest => ends (b :: a :: rest)
    | _ => underflow
  | .unpair, s =>
    match s with
    | a :: rest => ofOption ((M.pair? a).map fun (b, c) => b :: c :: rest)
    | [] => underflow
  | .ifElse onTrue onFalse, s =>
    match s with
    | a :: rest =>
      match M.bool? a with
      | some true => run onTrue rest
      | some false => run onFalse rest
      | none => aborts
    | [] => underflow
  | .ifNone onNone onSome, s =>
    match s with
    | a :: rest =>
      match M.option? a with
      | some none => run onNone rest
      | some (some b) => run onSome (b :: rest)
      | none => aborts
    | [] => underflow
  | .iter body, s =>
    match s with
    | a :: rest =>
      match M.list? a with
      | some items => rounds (fun b t => run body (b :: t)) items rest
      | none => aborts
    | [] => underflow
  | .lambda arg result body, s => ends (M.closure arg result body :: s)
  | .exec, s =>
    match s with
    | arg :: closure :: rest => ofOption ((M.call arg closure).map (· :: rest))
    | _ => underflow
  | .failwith, s =>
    match s with
    | _ :: _ => aborts
    | [] => underflow
  | .note _, s => ends s

/-- What a block does to a stack. -/
def run : Code → List α → Ending α
  | [], s => ends s
  | i :: rest, s => (step i s).andThen (run rest)

end

/-! ## Blocks in sequence -/

variable {M} {s t : List α}

@[simp] theorem run_nil (s : List α) : M.run [] s = ends s := by rw [run]

theorem run_cons (i : Instr) (rest : Code) (s : List α) :
    M.run (i :: rest) s = (M.step i s).andThen (M.run rest) := by
  rw [run]

theorem run_singleton (i : Instr) (s : List α) : M.run [i] s = M.step i s := by
  rw [run_cons]
  cases M.step i s with
  | ends t => rw [ends_andThen, run_nil]
  | _ => rfl

theorem run_append (a b : Code) (s : List α) :
    M.run (a ++ b) s = (M.run a s).andThen (M.run b) := by
  induction a generalizing s with
  | nil => rw [List.nil_append, run_nil, ends_andThen]
  | cons i rest ih =>
    rw [List.cons_append, run_cons, run_cons, andThen_assoc]
    exact congrArg _ (funext ih)

/-- A primitive that has an answer replaces the cells that it reads by one. -/
theorem ends_of_prim {p : Prim} (h : M.step (.prim p) s = ends t) :
    p.arity ≤ s.length ∧ ∃ a, t = a :: s.drop p.arity := by
  rw [step] at h
  split at h
  · next hle =>
    cases hprim : M.prim p (s.take p.arity) with
    | none =>
      rw [hprim] at h
      cases h
    | some a =>
      rw [hprim] at h
      exact ⟨hle, a, (ends.inj h).symm⟩
  · cases h

/-! ## More cells underneath -/

theorem rounds_atop {round : α → List α → Ending α} (u : List α)
    (hround : ∀ a s, round a s ≠ underflow → round a (s ++ u) = (round a s).atop u) :
    ∀ (items s : List α), rounds round items s ≠ underflow →
      rounds round items (s ++ u) = (rounds round items s).atop u
  | [], _, _ => rfl
  | a :: rest, s, h => by
    rw [rounds] at h ⊢
    have hfirst : round a s ≠ underflow := fun hunder => h (by rw [hunder]; rfl)
    rw [rounds, hround a s hfirst]
    exact andThen_atop h fun t _ => rounds_atop u hround rest t

mutual

theorem step_underneath (u : List α) : ∀ (i : Instr) (s : List α), M.step i s ≠ underflow →
    M.step i (s ++ u) = (M.step i s).atop u
  | .prim p, s, h => by
    simp only [step] at h ⊢
    split at h
    · next hle =>
      rw [if_pos hle, if_pos (by rw [List.length_append]; omega),
        List.take_append_of_le_length hle, List.drop_append_of_le_length hle]
      cases M.prim p (s.take p.arity) <;> rfl
    · exact absurd rfl h
  | .dup n, s, h | .dig n, s, h => by
    simp only [step] at h ⊢
    grind [atop]
  | .dug n, a :: rest, h => by
    simp only [step, List.cons_append] at h ⊢
    grind [atop, Stack.insertIdx_append]
  | .dip n body, s, h => by
    simp only [step] at h ⊢
    split at h
    · next hle =>
      -- The cells that are set aside come from the top, so the body has the same ones underneath.
      have hbody : M.run body (s.drop n) ≠ underflow := fun hunder => h (by rw [hunder]; rfl)
      rw [if_pos hle, if_pos (by rw [List.length_append]; omega),
        List.take_append_of_le_length hle, List.drop_append_of_le_length hle,
        run_underneath u body _ hbody]
      cases M.run body (s.drop n) with
      | ends t => simp [atop, beneath]
      | _ => rfl
    · exact absurd rfl h
  | .ifElse onTrue onFalse, a :: rest, h => by
    simp only [step, List.cons_append] at h ⊢
    split at h
    · exact run_underneath u onTrue rest h
    · exact run_underneath u onFalse rest h
    · rfl
  | .ifNone onNone onSome, a :: rest, h => by
    simp only [step, List.cons_append] at h ⊢
    split at h
    · exact run_underneath u onNone rest h
    · next b _ => exact run_underneath u onSome (b :: rest) h
    · rfl
  | .iter body, a :: rest, h => by
    simp only [step, List.cons_append] at h ⊢
    split at h
    · next items _ =>
      exact rounds_atop u (fun b t => run_underneath u body (b :: t)) items rest h
    · rfl
  | .unpair, a :: rest, _ => by
    simp only [step, List.cons_append]
    cases M.pair? a <;> rfl
  | .exec, arg :: closure :: rest, _ => by
    simp only [step, List.cons_append]
    cases M.call arg closure <;> rfl
  | .drop, _ :: _, _ | .swap, _ :: _ :: _, _ | .lambda .., _, _ | .failwith, _ :: _, _
  | .note _, _, _ => by
    simp [step, atop]
  | .dug _, [], h | .drop, [], h | .swap, [], h | .swap, [_], h | .unpair, [], h
  | .ifElse .., [], h | .ifNone .., [], h | .iter _, [], h | .exec, [], h | .exec, [_], h
  | .failwith, [], h => by
    simp [step] at h

/-- A run that does not reach for missing cells leaves the cells underneath as they are. -/
theorem run_underneath (u : List α) : ∀ (code : Code) (s : List α), M.run code s ≠ underflow →
    M.run code (s ++ u) = (M.run code s).atop u
  | [], s, _ => by simp [atop]
  | i :: rest, s, h => by
    rw [run_cons] at h ⊢
    have hfirst : M.step i s ≠ underflow := fun hunder => h (by rw [hunder]; rfl)
    rw [run_cons, step_underneath u i s hfirst]
    exact andThen_atop h fun t _ => run_underneath u rest t

end

/-! ## Code whose cells are accounted for -/

/-- The run aborts, or it ends with a stack that the account of depths foresees. -/
def Follows (x : Ending α) (flow : Flow) : Prop :=
  x = aborts ∨ ∃ t, x = ends t ∧ flow = .ends t.length

/-- An operation that has an answer leaves as many cells whatever the answer is. -/
theorem Follows.ofOption {β : Type} {x : Option β} {f : β → List α} {flow : Flow}
    (h : ∀ b, flow = .ends (f b).length) : Follows (Ending.ofOption (x.map f)) flow := by
  cases x with
  | none => exact .inl rfl
  | some b => exact .inr ⟨f b, rfl, h b⟩

theorem Follows.of_join {x : Ending α} {a b flow : Flow} (hjoin : a.join b = some flow)
    (h : Follows x a ∨ Follows x b) : Follows x flow := by
  obtain ⟨ha, hb, -⟩ := Depth.of_join hjoin
  rcases h with (h | ⟨t, rfl, rfl⟩) | (h | ⟨t, rfl, rfl⟩)
  · exact .inl h
  · exact .inr ⟨t, rfl, (ha.resolve_left nofun).symm⟩
  · exact .inl h
  · exact .inr ⟨t, rfl, (hb.resolve_left nofun).symm⟩

theorem follows_rounds {round : α → List α → Ending α} {d : Nat}
    (hround : ∀ a s, s.length = d → Follows (round a s) (.ends d)) :
    ∀ (items : List α) {s : List α}, s.length = d → Follows (rounds round items s) (.ends d)
  | [], s, hs => .inr ⟨s, rfl, by rw [hs]⟩
  | a :: rest, s, hs => by
    rw [rounds]
    rcases hround a s hs with habort | ⟨t, hends, hlength⟩
    · exact .inl (by rw [habort]; rfl)
    · rw [hends]
      exact follows_rounds hround rest (Flow.ends.inj hlength).symm

mutual

theorem step_of_depth : ∀ (i : Instr) {s : List α} {flow : Flow},
    Depth.step i s.length = some flow → Follows (M.step i s) flow
  | .prim p, s, flow, h => by
    simp only [Depth.step] at h
    split at h
    · cases h
    · obtain ⟨hle, rfl⟩ := Depth.needing_eq_some h
      rw [step, if_pos hle]
      exact .ofOption fun a => by simp
  | .dip n body, s, flow, h => by
    simp only [Depth.step] at h
    split at h
    · next hle =>
      obtain ⟨inner, hinner, rfl⟩ := Option.map_eq_some_iff.mp h
      rw [step, if_pos hle]
      have hlength : (s.drop n).length = s.length - n := List.length_drop
      rcases run_of_depth body (hlength ▸ hinner) with habort | ⟨t, hends, rfl⟩
      · exact .inl (by rw [habort]; rfl)
      · refine .inr ⟨s.take n ++ t, by rw [hends]; rfl, ?_⟩
        rw [List.length_append, List.length_take, Nat.min_eq_left hle, Flow.raise,
          Nat.add_comm]
    · cases h
  | .ifElse onTrue onFalse, a :: rest, flow, h => by
    simp only [List.length_cons, Depth.step, Option.bind_eq_some_iff] at h
    obtain ⟨x, hx, y, hy, hjoin⟩ := h
    simp only [step]
    split
    · exact .of_join hjoin (.inl (run_of_depth onTrue hx))
    · exact .of_join hjoin (.inr (run_of_depth onFalse hy))
    · exact .inl rfl
  | .ifNone onNone onSome, a :: rest, flow, h => by
    simp only [List.length_cons, Depth.step, Option.bind_eq_some_iff] at h
    obtain ⟨x, hx, y, hy, hjoin⟩ := h
    simp only [step]
    split
    · exact .of_join hjoin (.inl (run_of_depth onNone hx))
    · next b _ => exact .of_join hjoin (.inr (run_of_depth (s := b :: rest) onSome hy))
    · exact .inl rfl
  | .iter body, a :: rest, flow, h => by
    simp only [List.length_cons, Depth.step, Option.bind_eq_some_iff] at h
    obtain ⟨x, hx, hjoin⟩ := h
    -- a body that goes on has to come back to the depth beneath its element
    obtain rfl : .ends rest.length = flow := (Depth.of_join hjoin).2.1.resolve_left nofun
    simp only [step]
    split
    · next items _ =>
      refine follows_rounds (fun b t ht => ?_) items rfl
      refine .of_join hjoin (.inl (run_of_depth (s := b :: t) body ?_))
      rw [List.length_cons, ht]
      exact hx
    · exact .inl rfl
  | .lambda _ _ body, s, flow, h => by
    simp only [Depth.step, Option.bind_eq_some_iff, Option.map_eq_some_iff] at h
    obtain ⟨_, _, _, _, rfl⟩ := h
    exact .inr ⟨_, by rw [step], by simp⟩
  | .unpair, a :: rest, flow, h | .exec, a :: _ :: rest, flow, h => by
    obtain ⟨-, rfl⟩ := needing_eq_some h
    exact .ofOption fun _ => by simp
  | .dup _, s, flow, h | .dig _, s, flow, h | .dug _, _ :: _, flow, h | .drop, _ :: _, flow, h
  | .swap, _ :: _ :: _, flow, h | .failwith, _ :: _, flow, h | .note _, s, flow, h => by
    simp only [Depth.step, Depth.needing, step] at h ⊢
    grind [Follows]
  | .dug _, [], _, h | .drop, [], _, h | .swap, [], _, h | .swap, [_], _, h | .unpair, [], _, h
  | .ifElse .., [], _, h | .ifNone .., [], _, h | .iter _, [], _, h | .exec, [], _, h
  | .exec, [_], _, h | .failwith, [], _, h => by
    simp [Depth.step, Depth.needing] at h

/-- Code whose cells are accounted for finds all the cells it reaches for. -/
theorem run_of_depth : ∀ (code : Code) {s : List α} {flow : Flow},
    Depth.run code s.length = some flow → Follows (M.run code s) flow
  | [], s, flow, h => by
    rw [Depth.run_nil, Option.some.injEq] at h
    exact .inr ⟨s, run_nil s, h.symm⟩
  | i :: rest, s, flow, h => by
    rw [Depth.run] at h
    rw [run_cons]
    split at h
    · next e hstep =>
      rcases step_of_depth i hstep with habort | ⟨t, hends, hlength⟩
      · exact .inl (by rw [habort]; rfl)
      · obtain rfl := Flow.ends.inj hlength
        rw [hends]
        exact run_of_depth rest h
    · next hother =>
      -- The account of a step that does not end is that of the whole code: the step aborts.
      rcases step_of_depth i h with habort | ⟨t, -, rfl⟩
      · exact .inl (by rw [habort]; rfl)
      · exact absurd h (hother t.length)

end

/-- Balanced code aborts or ends at the depth that it is balanced for. -/
theorem run_of_balanced {code : Code} {d e : Nat} (h : Depth.Balanced code d e)
    (hs : s.length = d) : M.run code s = aborts ∨ ∃ t, M.run code s = ends t ∧ t.length = e := by
  subst hs
  rcases h with h | h
  · rcases run_of_depth (M := M) code h with habort | ⟨t, -, hlength⟩
    · exact .inl habort
    · cases hlength
  · rcases run_of_depth (M := M) code h with habort | ⟨t, hends, hlength⟩
    · exact .inl habort
    · exact .inr ⟨t, hends, (Depth.Flow.ends.inj hlength).symm⟩

theorem length_of_balanced {code : Code} {d e : Nat} (h : Balanced code d e)
    (hs : s.length = d) (hrun : M.run code s = ends t) : t.length = e := by
  rcases run_of_balanced (M := M) h hs with habort | ⟨u, hends, hlength⟩
  · rw [habort] at hrun
    cases hrun
  · obtain rfl := ends.inj (hends.symm.trans hrun)
    exact hlength

/-! ## Code that diverges -/

/-- Where a run ends with a stack, and how cells are moved. -/
def mover : Mover α where
  step i s t := M.step i s = ends t
  run code s t := M.run code s = ends t
  run_cons {i rest s t} h := by
    rw [run_cons] at h
    exact ends_of_andThen h
  failwith {s t} h := by
    cases s with
    | nil => simp [step] at h
    | cons a rest => simp [step] at h
  ifElse {onTrue onFalse s t} h := by
    cases s with
    | nil => simp [step] at h
    | cons a rest =>
      simp only [step] at h
      split at h
      · exact ⟨rest, t, .inl h⟩
      · exact ⟨rest, t, .inr h⟩
      · cases h
  ifNone {onNone onSome s t} h := by
    cases s with
    | nil => simp [step] at h
    | cons a rest =>
      simp only [step] at h
      split at h
      · exact ⟨rest, t, .inl h⟩
      · exact ⟨_, t, .inr h⟩
      · cases h
  nil := run_nil
  cons hstep hrest := by rw [run_cons, hstep, ends_andThen, hrest]
  drop a s := by rw [step]
  dip top h := by simp [step, h, beneath]
  dug a h := by simp [step, h]

/-- Code that diverges does not end with a stack. -/
theorem run_ne_ends {M : Machine α} (code : Code) (s : List α) {t : List α}
    (hdiv : diverges code = true) : M.run code s ≠ ends t :=
  M.mover.not_run code hdiv

/-! ## Named cells on the machine -/

theorem step_dropAt {n : Nat} (h : n < s.length) :
    M.step (Layout.dropAt n) s = ends (s.eraseIdx n) :=
  M.mover.dropAt h

/-- The top cell takes the place of the cell `jump` below it, which is dropped. -/
theorem run_settleCode {a : α} {jump : Nat} (h : jump < s.length) :
    M.run (Layout.settleCode jump) (a :: s) = ends (s.set jump a) :=
  M.mover.settle a h

end Machine

end Covenant
