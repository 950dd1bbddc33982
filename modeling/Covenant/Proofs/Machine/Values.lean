import Covenant.Proofs.Machine.Stack
import Covenant.Typing.Basic
import Covenant.Gen.Record

/-!
# Covenant — the machine on values

The machine that runs contracts: its cells are values (`Datum`). What moves cells, takes records
apart or branches is fixed. What arithmetic, comparisons and maps compute is left to an
`Interpretation`, which can be any that keeps to the types of the language; values that only it can
look into, such as maps, are foreign values to the machine.

`Interpretation.run` runs a block from a stack. The run ends with a stack, aborts with a value, or is
stuck: code that was not compiled from a program might look for a cell that is not there.

* `run_append` — a block followed by another one;
* `run_ne_ends` — code that diverges does not end with a stack;
* `step_dup_atSlot`, `step_dropAt`, `run_settleCode` — how variables are copied, dropped and
  replaced.
-/

namespace Covenant

/-! ## Outcomes -/

/-- The value in a cell. Numbers and points in time are integers, addresses are text. -/
inductive Datum (α : Type) where
  | int (n : Int)
  | string (text : String)
  | bool (b : Bool)
  | unit
  /-- An option with nothing in it. -/
  | absent
  | present (inner : Datum α)
  | pair (first second : Datum α)
  | list (items : List (Datum α))
  /-- A value that only primitives look into: a map, a closure, a handle, bytes. -/
  | foreign (a : α)

/-- How a computation comes out. -/
inductive Outcome (α β : Type) where
  | stuck
  | aborts (value : Datum α)
  | ends (result : β)

namespace Outcome

variable {α β γ δ ε : Type}

instance : Monad (Outcome α) where
  pure := ends
  bind x next := match x with
    | stuck => stuck
    | aborts v => aborts v
    | ends b => next b

@[simp] theorem stuck_bind (next : β → Outcome α γ) : (stuck >>= next) = stuck := rfl
@[simp] theorem aborts_bind (v : Datum α) (next : β → Outcome α γ) :
    (aborts v >>= next) = aborts v := rfl
@[simp] theorem ends_bind (b : β) (next : β → Outcome α γ) : (ends b >>= next) = next b := rfl
@[simp] theorem pure_eq_ends (b : β) : (pure b : Outcome α β) = ends b := rfl

instance : LawfulMonad (Outcome α) := LawfulMonad.mk' (Outcome α)
  (fun x => by cases x <;> rfl) (fun _ _ => rfl) (fun x _ _ => by cases x <;> rfl)

/-- The outcome of an operation that may abort. -/
def ofExcept : Except (Datum α) β → Outcome α β
  | .error v => aborts v
  | .ok b => ends b

theorem ends_of_bind {x : Outcome α β} {next : β → Outcome α γ} {c : γ}
    (h : (x >>= next) = ends c) : ∃ b, x = ends b ∧ next b = ends c := by
  cases x with
  | ends b => exact ⟨b, rfl, h⟩
  | _ => cases h

/-- Two computations that are not stuck abort with the same value or end with related results. -/
inductive Concurs (R : β → γ → Prop) : Outcome α β → Outcome α γ → Prop where
  | aborts (v : Datum α) : Concurs R (aborts v) (aborts v)
  | ends {b : β} {c : γ} : R b c → Concurs R (ends b) (ends c)

variable {R R' : β → γ → Prop} {S : δ → ε → Prop} {x : Outcome α β} {y : Outcome α γ}

theorem Concurs.bind (h : Concurs R x y) {f : β → Outcome α δ} {g : γ → Outcome α ε}
    (hnext : ∀ b c, R b c → Concurs S (f b) (g c)) : Concurs S (x >>= f) (y >>= g) := by
  cases h with
  | aborts v => exact .aborts v
  | ends h => exact hnext _ _ h

theorem Concurs.mono (h : Concurs R x y) (hR : ∀ b c, R b c → R' b c) : Concurs R' x y := by
  cases h with
  | aborts v => exact .aborts v
  | ends h => exact .ends (hR _ _ h)

/-- What may abort agrees with itself. -/
theorem concurs_ofExcept {R : β → β → Prop} (r : Except (Datum α) β) (h : ∀ b, r = .ok b → R b b) :
    Concurs R (ofExcept r) (ofExcept r) := by
  cases r with
  | error v => exact .aborts v
  | ok b => exact .ends (h b rfl)

end Outcome

/-! ## Values -/

namespace Datum

variable {α : Type}

/-- The right comb of values. -/
def comb : List (Datum α) → Datum α
  | [] => unit
  | [a] => a
  | a :: b :: rest => pair a (comb (b :: rest))

/-- Node `n` of a right comb. -/
def node? : Nat → Datum α → Option (Datum α)
  | 0, d => some d
  | 1, pair a _ => some a
  | n + 2, pair _ b => node? n b
  | _, _ => none

/-- The value of a literal. -/
def ofValue : Value → Datum α
  | .int n => int n.toInt
  | .string text => string text
  | .bool b => bool b
  | .unit => unit

def ofOption : Option (Datum α) → Datum α
  | some d => present d
  | none => absent

mutual

/-- The value is one of the type. Of foreign values `inhabits` says what type they have. -/
def IsOf (inhabits : Ty → α → Prop) : Ty → Datum α → Prop
  | .base b, d =>
    match b with
    | .int | .nat | .mutez | .timestamp => ∃ n, d = int n
    | .string | .address => ∃ text, d = string text
    | .bool => ∃ b, d = bool b
    | .unit => d = unit
    | .bytes | .operation => ∃ a, d = foreign a ∧ inhabits (.base b) a
  | .option t, d => d = absent ∨ ∃ inner, d = present inner ∧ IsOf inhabits t inner
  | .list t, d => ∃ items, d = list items ∧ ∀ item ∈ items, IsOf inhabits t item
  | .record _ fields, d => AreOf inhabits fields d
  | .map big k v, d => ∃ a, d = foreign a ∧ inhabits (.map big k v) a
  | .contract t, d => ∃ a, d = foreign a ∧ inhabits (.contract t) a
  | .lambda t r, d => ∃ a, d = foreign a ∧ inhabits (.lambda t r) a
  | .function ts r, d => ∃ a, d = foreign a ∧ inhabits (.function ts r) a
  | .unknown, d => ∃ a, d = foreign a ∧ inhabits .unknown a

/-- The value is the right comb of values of the attributes' types. -/
def AreOf (inhabits : Ty → α → Prop) : Fields → Datum α → Prop
  | [], d => d = unit
  | (_, t) :: rest, d =>
    match rest with
    | [] => IsOf inhabits t d
    | _ :: _ => ∃ a b, d = pair a b ∧ IsOf inhabits t a ∧ AreOf inhabits rest b

end

end Datum

/-! ## Interpretations -/

/-- What the primitives of the machine compute, in accordance with the types of the language. -/
structure Interpretation (α : Type) where
  /-- The foreign values of a type. -/
  inhabits : Ty → α → Prop
  /-- Addition, subtraction and multiplication. -/
  arithmetic : BinOp → Datum α → Datum α → Except (Datum α) (Datum α)
  concat : Datum α → Datum α → Except (Datum α) (Datum α)
  negate : Datum α → Except (Datum α) (Datum α)
  /-- Quotient and remainder, if there are any. -/
  divide : Datum α → Datum α → Option (Datum α × Datum α)
  /-- Less than, equal to or greater than zero as the first value is to the second. -/
  compare : Datum α → Datum α → Int
  /-- The value under a key of a map. -/
  get : Datum α → Datum α → Option (Datum α)
  /-- Whether a key is in a map. -/
  contains : Datum α → Datum α → Bool
  /-- What the surroundings of a call are. -/
  ambient : Prim → Datum α
  /-- All the other primitives. -/
  other : Prim → List (Datum α) → Except (Datum α) (Datum α)
  closure : Ty → Ty → Code → Datum α
  /-- Applies a closure, given second, to an argument. -/
  call : Datum α → Datum α → Except (Datum α) (Datum α)
  arithmetic_typed : ∀ {op : BinOp} {a b t : Ty} {x y z : Datum α},
    arithmeticResult? op a b = some t → x.IsOf inhabits a → y.IsOf inhabits b →
      arithmetic op x y = .ok z → z.IsOf inhabits t
  concat_typed : ∀ {x y z : Datum α}, x.IsOf inhabits .string → y.IsOf inhabits .string →
    concat x y = .ok z → z.IsOf inhabits .string
  negate_typed : ∀ {x z : Datum α}, x.IsOf inhabits .int → negate x = .ok z → z.IsOf inhabits .int
  divide_typed : ∀ {a b t : Ty} {x y q r : Datum α}, arithmeticResult? .floorDiv a b = some t →
    x.IsOf inhabits a → y.IsOf inhabits b → divide x y = some (q, r) →
      q.IsOf inhabits t ∧ r.IsOf inhabits t
  get_typed : ∀ {big : Bool} {k v : Ty} {key map found : Datum α}, key.IsOf inhabits k →
    map.IsOf inhabits (.map big k v) → get key map = some found → found.IsOf inhabits v
  call_typed : ∀ {a r : Ty} {arg closure z : Datum α}, arg.IsOf inhabits a →
    closure.IsOf inhabits (.lambda a r) → call arg closure = .ok z → z.IsOf inhabits r
  ambient_typed : ∀ {id : Ident} {ty : Ty} {p : Prim}, Builtin.constant? id = some (ty, p) →
    p ≠ .unit → (ambient p).IsOf inhabits ty

namespace Interpretation

variable {α : Type} (I : Interpretation α)

/-- The value is one of the type. -/
def Has (ty : Ty) (d : Datum α) : Prop := d.IsOf I.inhabits ty

/-- A test of the outcome of a comparison. -/
def test (holds : Int → Bool) : List (Datum α) → Outcome α (Datum α)
  | [.int n] => .ends (.bool (holds n))
  | _ => .stuck

/-- What a primitive makes of the values on top of the stack. -/
def prim (p : Prim) (args : List (Datum α)) : Outcome α (Datum α) :=
  match p with
  | .push _ value => .ends (.ofValue value)
  | .pair _ => .ends (.comb args)
  | .get n =>
    match args with
    | [d] => match d.node? n with
      | some part => .ends part
      | none => .stuck
    | _ => .stuck
  | .car => match args with
    | [.pair a _] => .ends a
    | _ => .stuck
  | .cdr => match args with
    | [.pair _ b] => .ends b
    | _ => .stuck
  | .nil _ => .ends (.list [])
  | .cons => match args with
    | [d, .list items] => .ends (.list (d :: items))
    | _ => .stuck
  | .some => match args with
    | [d] => .ends (.present d)
    | _ => .stuck
  | .unit => .ends .unit
  | .not => match args with
    | [.bool b] => .ends (.bool !b)
    | _ => .stuck
  | .and => match args with
    | [.bool a, .bool b] => .ends (.bool (a && b))
    | _ => .stuck
  | .or => match args with
    | [.bool a, .bool b] => .ends (.bool (a || b))
    | _ => .stuck
  | .compare => match args with
    | [a, b] => .ends (.int (I.compare a b))
    | _ => .stuck
  | .eq => test (· == 0) args
  | .neq => test (· != 0) args
  | .lt => test (· < 0) args
  | .gt => test (0 < ·) args
  | .le => test (· ≤ 0) args
  | .ge => test (0 ≤ ·) args
  | .add => match args with
    | [a, b] => .ofExcept (I.arithmetic .add a b)
    | _ => .stuck
  | .sub => match args with
    | [a, b] => .ofExcept (I.arithmetic .sub a b)
    | _ => .stuck
  | .mul => match args with
    | [a, b] => .ofExcept (I.arithmetic .mult a b)
    | _ => .stuck
  | .concat => match args with
    | [a, b] => .ofExcept (I.concat a b)
    | _ => .stuck
  | .neg => match args with
    | [d] => .ofExcept (I.negate d)
    | _ => .stuck
  | .ediv => match args with
    | [a, b] => .ends (.ofOption ((I.divide a b).map fun (q, r) => .pair q r))
    | _ => .stuck
  | .mapGet => match args with
    | [key, map] => .ends (.ofOption (I.get key map))
    | _ => .stuck
  | .mem => match args with
    | [key, map] => .ends (.bool (I.contains key map))
    | _ => .stuck
  | .sender | .source | .amount | .balance | .now => .ends (I.ambient p)
  | p => .ofExcept (I.other p args)

/-! ## Runs -/

/-- Runs one round for each value of a list. -/
def rounds (round : Datum α → List (Datum α) → Outcome α (List (Datum α))) :
    List (Datum α) → List (Datum α) → Outcome α (List (Datum α))
  | [], s => .ends s
  | d :: rest, s => do rounds round rest (← round d s)

mutual

/-- What one instruction does to a stack. -/
def step : Instr → List (Datum α) → Outcome α (List (Datum α))
  | .prim p, s =>
    if p.arity ≤ s.length then do
      let d ← I.prim p (s.take p.arity)
      return d :: s.drop p.arity
    else
      .stuck
  | .dup n, s =>
    if n = 0 then
      .stuck
    else
      match s[n - 1]? with
      | some d => .ends (d :: s)
      | none => .stuck
  | .dig n, s =>
    match s[n]? with
    | some d => .ends (d :: s.eraseIdx n)
    | none => .stuck
  | .dug n, s =>
    match s with
    | d :: rest => if n ≤ rest.length then .ends (rest.insertIdx n d) else .stuck
    | [] => .stuck
  | .dip n body, s =>
    if n ≤ s.length then do
      let rest ← run body (s.drop n)
      return s.take n ++ rest
    else
      .stuck
  | .drop, s =>
    match s with
    | _ :: rest => .ends rest
    | [] => .stuck
  | .swap, s =>
    match s with
    | a :: b :: rest => .ends (b :: a :: rest)
    | _ => .stuck
  | .unpair, s =>
    match s with
    | .pair a b :: rest => .ends (a :: b :: rest)
    | _ => .stuck
  | .ifElse onTrue onFalse, s =>
    match s with
    | .bool true :: rest => run onTrue rest
    | .bool false :: rest => run onFalse rest
    | _ => .stuck
  | .ifNone onNone onSome, s =>
    match s with
    | .absent :: rest => run onNone rest
    | .present d :: rest => run onSome (d :: rest)
    | _ => .stuck
  | .iter body, s =>
    match s with
    | .list items :: rest => rounds (fun d t => run body (d :: t)) items rest
    | _ => .stuck
  | .lambda arg result body, s => .ends (I.closure arg result body :: s)
  | .exec, s =>
    match s with
    | arg :: closure :: rest => do
      let d ← .ofExcept (I.call arg closure)
      return d :: rest
    | _ => .stuck
  | .failwith, s =>
    match s with
    | d :: _ => .aborts d
    | [] => .stuck
  | .note _, s => .ends s

/-- What a block does to a stack. -/
def run : Code → List (Datum α) → Outcome α (List (Datum α))
  | [], s => .ends s
  | i :: rest, s => do run rest (← step i s)

end

variable {I} {s t : List (Datum α)} {d : Datum α}

@[simp] theorem run_nil (s : List (Datum α)) : I.run [] s = .ends s := by simp [run]

theorem run_cons (i : Instr) (rest : Code) (s : List (Datum α)) :
    I.run (i :: rest) s = I.step i s >>= I.run rest := by
  rw [run]

theorem run_singleton (i : Instr) (s : List (Datum α)) : I.run [i] s = I.step i s := by
  rw [run_cons]
  cases I.step i s with
  | ends t => exact run_nil t
  | _ => rfl

theorem run_append (a b : Code) (s : List (Datum α)) :
    I.run (a ++ b) s = I.run a s >>= I.run b := by
  induction a generalizing s with
  | nil => rw [List.nil_append, run_nil, Outcome.ends_bind]
  | cons i rest ih =>
    rw [List.cons_append, run_cons, run_cons, bind_assoc]
    exact bind_congr fun t => ih t

/-- A primitive replaces the cells that it reads by its result. -/
theorem step_prim {p : Prim} (args : List (Datum α)) (hargs : args.length = p.arity)
    (s : List (Datum α)) :
    I.step (.prim p) (args ++ s) = I.prim p args >>= fun d => .ends (d :: s) := by
  rw [step, ← hargs, List.take_left, List.drop_left, if_pos (by simp)]
  rfl

/-! ## Code that diverges -/

/-- Where a run ends with a stack, and how cells are moved. -/
def mover : Mover (Datum α) where
  step i s t := I.step i s = .ends t
  run code s t := I.run code s = .ends t
  run_cons {i rest s t} h := by
    rw [run_cons] at h
    exact Outcome.ends_of_bind h
  failwith {s t} h := by
    cases s with
    | nil => simp [step] at h
    | cons d rest => simp [step] at h
  ifElse {a b s t} h := by
    simp only [step] at h
    split at h
    · exact ⟨_, t, .inl h⟩
    · exact ⟨_, t, .inr h⟩
    · cases h
  ifNone {a b s t} h := by
    simp only [step] at h
    split at h
    · exact ⟨_, t, .inl h⟩
    · exact ⟨_, t, .inr h⟩
    · cases h
  nil := run_nil
  cons hstep hrest := by rw [run_cons, hstep, Outcome.ends_bind, hrest]
  drop a s := by rw [step]
  dip top h := by simp [step, h]
  dug a h := by simp [step, h]

/-- Code that diverges does not end with a stack. -/
theorem run_ne_ends {I : Interpretation α} (code : Code) (s : List (Datum α))
    {t : List (Datum α)} (hdiv : diverges code = true) : I.run code s ≠ .ends t :=
  I.mover.not_run code hdiv

/-! ## Named cells on the machine -/

/-- The cell at a slot is copied from underneath whatever has been put on top. -/
theorem step_dup_atSlot {slot : Nat} (hd : Stack.atSlot s slot = some d) (hslot : slot < s.length)
    (t : List (Datum α)) :
    I.step (.dup (s.length + t.length - slot)) (t ++ s) = .ends (d :: (t ++ s)) := by
  have hget : (t ++ s)[s.length + t.length - slot - 1]? = some d := by
    rw [← Stack.atSlot_append t hslot, Stack.atSlot_eq_getElem? (by simp; omega)] at hd
    rw [← hd, List.length_append]
    exact congrArg ((t ++ s)[·]?) (by omega)
  simp only [step]
  rw [if_neg (by omega), hget]

theorem step_dropAt {n : Nat} (h : n < s.length) :
    I.step (Layout.dropAt n) s = .ends (s.eraseIdx n) :=
  I.mover.dropAt h

/-- The top cell takes the place of the cell `jump` below it, which is dropped. -/
theorem run_settleCode {jump : Nat} (h : jump < s.length) :
    I.run (Layout.settleCode jump) (d :: s) = .ends (s.set jump d) :=
  I.mover.settle d h

/-- The value of an option, or an abort with a message. -/
theorem step_unwrapOr (message : String) (found : Option (Datum α)) (s : List (Datum α)) :
    I.step (unwrapOr message) (.ofOption found :: s) =
      match found with
      | some d => .ends (d :: s)
      | none => .aborts (.string message) := by
  cases found with
  | some d => simp [unwrapOr, step, Datum.ofOption]
  | none =>
    simp only [unwrapOr, failWith, step, Datum.ofOption, run_cons, prim, Prim.arity]
    rfl

end Interpretation

end Covenant
