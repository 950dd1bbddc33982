import Covenant.Proofs.Machine.Stack
import Covenant.Typing.Basic
import Covenant.Gen.Record

/-!
# Covenant — the machine on types

The machine that a chain runs before it accepts a contract: its cells are types. A type of the
language is a type of the machine once records are read as right combs of their attributes
(`Ty.stack`). `StackTy.run` follows a block from a stack of types and answers with the stack at its
end, or says that the block aborts. It has no answer for code that is not typed.

Arithmetic is typed by the table of the language (`arithmeticResult?`). Map keys may be of any type.
A branch that aborts has no say in the stack after the branch, and what stands behind an abort is not
looked at.

* `StackTy.run_append` — a block followed by another one;
* `StackTy.run_underneath` — cells underneath the whole run do not matter;
* `StackTy.run_of_diverges` — code that diverges does not end with a stack.
-/

namespace Covenant

/-- The type of a cell. -/
inductive StackTy where
  | base (b : Base)
  | option (inner : StackTy)
  | list (element : StackTy)
  | map (big : Bool) (key value : StackTy)
  | contract (param : StackTy)
  | pair (first second : StackTy)
  | lambda (arg result : StackTy)
  /-- What stands for types that no cell has. -/
  | nothing
  deriving DecidableEq

namespace StackTy

/-- The right comb of types. -/
def comb : List StackTy → StackTy
  | [] => base .unit
  | [a] => a
  | a :: b :: rest => pair a (comb (b :: rest))

/-- Node `n` of a right comb. -/
def node? : Nat → StackTy → Option StackTy
  | 0, t => some t
  | 1, pair a _ => some a
  | n + 2, pair _ b => node? n b
  | _, _ => none

/-- The right comb with another type at node `n`. -/
def updateNode? (new : StackTy) : Nat → StackTy → Option StackTy
  | 0, _ => some new
  | 1, pair _ b => some (pair new b)
  | n + 2, pair a b => (updateNode? new n b).map (pair a)
  | _, _ => none

/-- Values of the type can be put in order. -/
def isComparable : StackTy → Bool
  | base b => b ≠ .operation
  | option t => isComparable t
  | pair a b => isComparable a && isComparable b
  | _ => false

end StackTy

mutual

/-- The type of the cells that hold values of a type. -/
def Ty.stack : Ty → StackTy
  | .base b => .base b
  | .option t => .option t.stack
  | .list t => .list t.stack
  | .map big k v => .map big k.stack v.stack
  | .contract t => .contract t.stack
  | .record _ fields => .comb (Ty.stacks fields)
  | .lambda a r => .lambda a.stack r.stack
  | .function _ _ | .unknown => .nothing

/-- The types of the cells that hold the attributes of a record. -/
def Ty.stacks : Fields → List StackTy
  | [] => []
  | (_, t) :: rest => t.stack :: Ty.stacks rest

end

theorem Ty.stacks_eq_map (fields : Fields) : Ty.stacks fields = fields.types.map Ty.stack := by
  induction fields with
  | nil => rfl
  | cons f rest ih => rw [Ty.stacks, ih]; rfl

/-! ## Records as right combs -/

namespace StackTy

variable {ts : List StackTy}

/-- Attribute `i` of a comb is at the node where the generator looks for it. -/
theorem node?_comb {i : Nat} {t : StackTy} (h : ts[i]? = some t) :
    node? (combIndex ts.length i) (comb ts) = some t := by
  induction ts generalizing i with
  | nil => simp at h
  | cons a rest ih =>
    cases rest with
    | nil =>
      obtain ⟨rfl, rfl⟩ : i = 0 ∧ a = t := by
        cases i with
        | zero => simpa using h
        | succ i => simp at h
      rfl
    | cons b rest =>
      cases i with
      | zero =>
        obtain rfl : a = t := by simpa using h
        simp [combIndex, comb, node?]
      | succ i =>
        have hinner := ih (by simpa using h)
        have hindex : combIndex (a :: b :: rest).length (i + 1) =
            combIndex (b :: rest).length i + 2 := by
          simp only [combIndex, List.length_cons]
          split <;> split <;> omega
        rw [hindex, comb, node?, hinner]

theorem updateNode?_self {n : Nat} {c t : StackTy} (h : node? n c = some t) :
    updateNode? t n c = some c := by
  fun_induction node? n c <;> simp_all [updateNode?]

theorem isComparable_comb (h : ∀ t ∈ ts, t.isComparable = true) :
    (comb ts).isComparable = true := by
  induction ts with
  | nil => rfl
  | cons a rest ih =>
    cases rest with
    | nil => exact h a (by simp)
    | cons b rest =>
      obtain ⟨ha, hrest⟩ := List.forall_mem_cons.mp h
      rw [comb, isComparable, ha, ih hrest]
      rfl

end StackTy

theorem Fields.getElem?_of_find? {fields : Fields} {attr : Ident} {i : Nat} {ty : Ty}
    (h : Fields.find? attr fields = some (i, ty)) : fields[i]? = some (attr, ty) := by
  induction fields generalizing i with
  | nil => simp [Fields.find?] at h
  | cons f rest ih =>
    obtain ⟨name, t⟩ := f
    rw [Fields.find?] at h
    split at h
    · next heq =>
      cases h
      simp [heq]
    · obtain ⟨⟨j, u⟩, hfound, h⟩ := Option.map_eq_some_iff.mp h
      obtain ⟨rfl, rfl⟩ := Prod.mk.inj h
      simpa using ih hfound

theorem Ty.getElem?_stacks {fields : Fields} {attr : Ident} {i : Nat} {ty : Ty}
    (h : fields[i]? = some (attr, ty)) : (Ty.stacks fields)[i]? = some ty.stack := by
  simp [Ty.stacks_eq_map, Fields.types, h]

@[simp] theorem Ty.length_stacks (fields : Fields) : (Ty.stacks fields).length = fields.length := by
  simp [Ty.stacks_eq_map, Fields.types]

mutual

theorem Ty.isComparable_stack : ∀ {ty : Ty}, ty.isComparable = true → ty.stack.isComparable = true
  | .base b, h => by
    cases b <;> first | rfl | simp [Ty.isComparable] at h
  | .option t, h => by
    rw [Ty.stack, StackTy.isComparable]
    exact Ty.isComparable_stack (by simpa [Ty.isComparable] using h)
  | .record _ fields, h => by
    rw [Ty.stack]
    exact StackTy.isComparable_comb (Ty.isComparable_stacks (by simpa [Ty.isComparable] using h))
  | .list _, h | .map _ _ _, h | .contract _, h | .lambda _ _, h | .function _ _, h | .unknown, h =>
    by simp [Ty.isComparable] at h

theorem Ty.isComparable_stacks : ∀ {fields : Fields}, Ty.areComparable fields = true →
    ∀ t ∈ Ty.stacks fields, t.isComparable = true
  | [], _ => by simp [Ty.stacks]
  | (_, ty) :: rest, h => by
    rw [Ty.areComparable, Bool.and_eq_true] at h
    rw [Ty.stacks]
    exact List.forall_mem_cons.mpr ⟨Ty.isComparable_stack h.1, Ty.isComparable_stacks h.2⟩

end

/-! ## Typed runs -/

/-- The literal can be read as a value of the type. -/
def Value.isOf (ty : Ty) : Value → Bool
  | .int n => ty = .int || ty = .timestamp || ((ty = .nat || ty = .mutez) && 0 ≤ n)
  | .string _ => ty = .string || ty = .address
  | .bool _ => ty = .bool
  | .unit => ty = .unit

namespace StackTy

/-- Types whose values can be divided. -/
def isNumeric : Base → Bool
  | .int | .nat | .mutez => true
  | _ => false

/-- The result of an arithmetic operator, by the table of the language. -/
def arithmetic? (op : BinOp) (left right : Base) : Option StackTy :=
  (arithmeticResult? op (.base left) (.base right)).map Ty.stack

/-- The type that a primitive makes of the types on top of the stack. -/
def result? : Prim → List StackTy → Option StackTy
  | .push ty value, [] => if value.isOf ty then some ty.stack else none
  | .pair n, args => if 2 ≤ n then some (comb args) else none
  | .get n, [t] => node? n t
  | .update n, [new, t] => updateNode? new n t
  | .car, [pair a _] => some a
  | .cdr, [pair _ b] => some b
  | .nil element, [] => some (list element.stack)
  | .cons, [a, list b] => if a = b then some (list b) else none
  | .emptyMap big k v, [] => some (map big k.stack v.stack)
  | .mapGet, [a, map _ k v] => if a = k then some (option v) else none
  | .mapUpdate, [a, option b, map big k v] =>
    if a = k ∧ b = v then some (map big k v) else none
  | .mem, [a, map _ k _] => if a = k then some (base .bool) else none
  | .some, [a] => some (option a)
  | .compare, [a, b] => if a = b ∧ a.isComparable then some (base .int) else none
  | .eq, [base .int] | .neq, [base .int] | .lt, [base .int] | .gt, [base .int]
  | .le, [base .int] | .ge, [base .int] => some (base .bool)
  | .add, [base a, base b] => if a = .string then none else arithmetic? .add a b
  | .sub, [base a, base b] => arithmetic? .sub a b
  | .mul, [base a, base b] => arithmetic? .mult a b
  | .ediv, [base a, base b] =>
    if a = b ∧ isNumeric a then some (option (pair (base a) (base a))) else none
  | .abs, [base .int] => some (base .nat)
  | .neg, [base .int] | .neg, [base .nat] => some (base .int)
  | .not, [base .bool] => some (base .bool)
  | .and, [base .bool, base .bool] | .or, [base .bool, base .bool] => some (base .bool)
  | .concat, [base .string, base .string] => some (base .string)
  | .sender, [] | .source, [] => some (base .address)
  | .amount, [] | .balance, [] => some (base .mutez)
  | .now, [] => some (base .timestamp)
  | .unit, [] => some (base .unit)
  | .pack, [_] => some (base .bytes)
  | .unpack ty, [base .bytes] => some (option ty.stack)
  | .blake2b, [base .bytes] => some (base .bytes)
  | .contract param, [base .address] => some (option (contract param.stack))
  | .transferTokens, [p, base .mutez, contract q] => if p = q then some (base .operation) else none
  | _, _ => none

/-- How a block ends: it aborts, or control goes on with a stack. -/
inductive Flow where
  | aborts
  | ends (s : List StackTy)
  deriving DecidableEq

namespace Flow

/-- The end of a branch. Blocks that abort have no say; those that go on have to agree. -/
def join : Flow → Flow → Option Flow
  | aborts, flow => some flow
  | ends s, aborts => some (ends s)
  | ends s, ends t => if s = t then some (ends s) else none

/-- The same end with cells put back on top. -/
def beneath (top : List StackTy) : Flow → Flow
  | aborts => aborts
  | ends s => ends (top ++ s)

/-- The same end with more cells underneath. -/
def atop (bottom : List StackTy) : Flow → Flow
  | aborts => aborts
  | ends s => ends (s ++ bottom)

end Flow

mutual

/-- What one instruction does to a stack of types. -/
def step : Instr → List StackTy → Option Flow
  | .prim p, s =>
    if p.arity ≤ s.length then
      (result? p (s.take p.arity)).map fun t => .ends (t :: s.drop p.arity)
    else
      none
  | .dup n, s => if n = 0 then none else s[n - 1]?.map fun t => .ends (t :: s)
  | .dig n, s => s[n]?.map fun t => .ends (t :: s.eraseIdx n)
  | .dug n, s =>
    match s with
    | t :: rest => if n ≤ rest.length then some (.ends (rest.insertIdx n t)) else none
    | [] => none
  | .dip n body, s =>
    if n ≤ s.length then (run body (s.drop n)).map (Flow.beneath (s.take n)) else none
  | .drop, s =>
    match s with
    | _ :: rest => some (.ends rest)
    | [] => none
  | .swap, s =>
    match s with
    | t :: u :: rest => some (.ends (u :: t :: rest))
    | _ => none
  | .unpair, s =>
    match s with
    | pair a b :: rest => some (.ends (a :: b :: rest))
    | _ => none
  | .ifElse onTrue onFalse, s =>
    match s with
    | base .bool :: rest =>
      (run onTrue rest).bind fun a => (run onFalse rest).bind fun b => a.join b
    | _ => none
  | .ifNone onNone onSome, s =>
    match s with
    | option t :: rest =>
      (run onNone rest).bind fun a => (run onSome (t :: rest)).bind fun b => a.join b
    | _ => none
  | .iter body, s =>
    match s with
    | list t :: rest => (run body (t :: rest)).bind fun a => a.join (.ends rest)
    | _ => none
  | .lambda arg result _, s => some (.ends (lambda arg.stack result.stack :: s))
  | .exec, s =>
    match s with
    | t :: lambda a r :: rest => if t = a then some (.ends (r :: rest)) else none
    | _ => none
  | .failwith, s =>
    match s with
    | _ :: _ => some .aborts
    | [] => none
  | .note _, s => some (.ends s)

/-- What a block does to a stack of types. What stands behind an abort is not looked at. -/
def run : Code → List StackTy → Option Flow
  | [], s => some (.ends s)
  | i :: rest, s =>
    match step i s with
    | some (.ends t) => run rest t
    | other => other

end

mutual

/-- Every closure in the instruction takes its argument to its result or aborts, and so does every
closure inside it. -/
def ClosuresTyped : Instr → Prop
  | .lambda arg result body =>
    (run body [arg.stack] = some .aborts ∨ run body [arg.stack] = some (.ends [result.stack])) ∧
      AllClosuresTyped body
  | .dip _ body | .iter body => AllClosuresTyped body
  | .ifElse a b | .ifNone a b => AllClosuresTyped a ∧ AllClosuresTyped b
  | _ => True

/-- Every closure in the block takes its argument to its result or aborts. -/
def AllClosuresTyped : Code → Prop
  | [] => True
  | i :: rest => ClosuresTyped i ∧ AllClosuresTyped rest

end

theorem allClosuresTyped_append {a b : Code} :
    AllClosuresTyped (a ++ b) ↔ AllClosuresTyped a ∧ AllClosuresTyped b := by
  induction a with
  | nil => simp [AllClosuresTyped]
  | cons i rest ih => simp [AllClosuresTyped, ih, and_assoc]

/-! ## Blocks in sequence -/

variable {s t : List StackTy} {i : Instr} {a b code rest : Code}

@[simp] theorem run_nil (s : List StackTy) : run [] s = some (.ends s) := rfl

theorem run_cons_ends (h : step i s = some (.ends t)) : run (i :: rest) s = run rest t := by
  show (match step i s with | some (.ends t) => run rest t | other => other) = _
  rw [h]

theorem run_cons_aborts (h : step i s = some .aborts) : run (i :: rest) s = some .aborts := by
  show (match step i s with | some (.ends t) => run rest t | other => other) = _
  rw [h]

theorem run_singleton (i : Instr) (s : List StackTy) : run [i] s = step i s := by
  show (match step i s with | some (.ends t) => run [] t | other => other) = _
  rcases step i s with _ | _ | _ <;> rfl

theorem run_append_ends (h : run a s = some (.ends t)) : run (a ++ b) s = run b t := by
  induction a generalizing s with
  | nil =>
    obtain rfl := Flow.ends.inj (Option.some.inj (run_nil s ▸ h))
    rfl
  | cons i rest ih =>
    rw [run] at h
    split at h
    · next u hstep => rw [List.cons_append, run_cons_ends hstep, ih h]
    · next hother => exact absurd h (hother t)

theorem run_append_aborts (h : run a s = some .aborts) : run (a ++ b) s = some .aborts := by
  induction a generalizing s with
  | nil => simp at h
  | cons i rest ih =>
    rw [run] at h
    split at h
    · next u hstep => rw [List.cons_append, run_cons_ends hstep, ih h]
    · next hother => exact run_cons_aborts h

/-- A primitive replaces the cells that it reads by its result. -/
theorem step_prim {p : Prim} (args : List StackTy) {t : StackTy} (hargs : args.length = p.arity)
    (h : result? p args = some t) (s : List StackTy) :
    step (.prim p) (args ++ s) = some (.ends (t :: s)) := by
  rw [step, ← hargs, List.take_left, List.drop_left, h, if_pos (by simp)]
  rfl

/-! ## More cells underneath -/

theorem join_atop {x y flow : Flow} (u : List StackTy) (h : x.join y = some flow) :
    (x.atop u).join (y.atop u) = some (flow.atop u) := by
  cases x <;> cases y <;> grind [Flow.join, Flow.atop]

mutual

theorem step_underneath (u : List StackTy) : ∀ (i : Instr) {s : List StackTy} {flow : Flow},
    step i s = some flow → step i (s ++ u) = some (flow.atop u)
  | .prim p, s, flow, h => by
    simp only [step] at h ⊢
    split at h
    · next hle =>
      obtain ⟨t, ht, rfl⟩ := Option.map_eq_some_iff.mp h
      rw [if_pos (by simp; omega), List.take_append_of_le_length hle,
        List.drop_append_of_le_length hle, ht]
      rfl
    · simp at h
  | .dip n body, s, flow, h => by
    simp only [step] at h ⊢
    split at h
    · next hle =>
      obtain ⟨inner, hinner, rfl⟩ := Option.map_eq_some_iff.mp h
      have hbody := run_underneath u body hinner
      rw [if_pos (by simp; omega), List.take_append_of_le_length hle,
        List.drop_append_of_le_length hle, hbody]
      cases inner with
      | aborts => rfl
      | ends t => simp [Flow.atop, Flow.beneath]
    · simp at h
  | .ifElse onTrue onFalse, s, flow, h => by
    simp only [step] at h ⊢
    split at h
    · next rest =>
      simp only [Option.bind_eq_some_iff] at h
      obtain ⟨x, hx, y, hy, hjoin⟩ := h
      simp only [List.cons_append, run_underneath u onTrue hx, run_underneath u onFalse hy,
        Option.bind_some]
      exact join_atop u hjoin
    · simp at h
  | .ifNone onNone onSome, s, flow, h => by
    simp only [step] at h ⊢
    split at h
    · next t rest =>
      simp only [Option.bind_eq_some_iff] at h
      obtain ⟨x, hx, y, hy, hjoin⟩ := h
      have hsome := run_underneath u onSome hy
      rw [List.cons_append] at hsome
      simp only [List.cons_append, run_underneath u onNone hx, hsome, Option.bind_some]
      exact join_atop u hjoin
    · simp at h
  | .iter body, s, flow, h => by
    simp only [step] at h ⊢
    split at h
    · next t rest =>
      simp only [Option.bind_eq_some_iff] at h
      obtain ⟨x, hx, hjoin⟩ := h
      have hbody := run_underneath u body hx
      rw [List.cons_append] at hbody
      simp only [List.cons_append, hbody, Option.bind_some]
      exact join_atop u hjoin
    · simp at h
  | .dup _, s, flow, h | .dig _, s, flow, h => by
    simp only [step] at h ⊢
    grind [Flow.atop, Option.map_eq_some_iff]
  | .dug _, s, flow, h | .drop, s, flow, h | .swap, s, flow, h | .unpair, s, flow, h
  | .lambda .., s, flow, h | .exec, s, flow, h | .failwith, s, flow, h | .note _, s, flow, h => by
    simp only [step] at h ⊢
    grind [Flow.atop, Stack.insertIdx_append]

/-- A run does not notice cells underneath the ones it starts from. -/
theorem run_underneath (u : List StackTy) : ∀ (code : Code) {s : List StackTy} {flow : Flow},
    run code s = some flow → run code (s ++ u) = some (flow.atop u)
  | [], s, flow, h => by
    cases run_nil s ▸ h
    simp [Flow.atop]
  | i :: rest, s, flow, h => by
    rw [run] at h
    split at h
    · next t hstep =>
      rw [run_cons_ends (step_underneath u i hstep)]
      exact run_underneath u rest h
    · next hother =>
      cases hflow : flow with
      | ends t => exact absurd (hflow ▸ h) (hother t)
      | aborts => exact run_cons_aborts (step_underneath u i (hflow ▸ h))

end

/-! ## Code that diverges -/

/-- Where two branches end, one of them does. -/
theorem exists_ends_of_branches {x y : Option Flow}
    (h : (x.bind fun a => y.bind fun b => a.join b) = some (.ends s)) :
    ∃ t, x = some (.ends t) ∨ y = some (.ends t) := by
  simp only [Option.bind_eq_some_iff] at h
  obtain ⟨a, rfl, b, rfl, hjoin⟩ := h
  cases a with
  | aborts => exact ⟨s, .inr hjoin⟩
  | ends t => exact ⟨t, .inl rfl⟩

/-- Where a run ends with a stack, and how cells are moved. -/
def mover : Mover StackTy where
  step i s t := step i s = some (.ends t)
  run code s t := run code s = some (.ends t)
  run_cons {i rest s t} h := by
    rw [run] at h
    split at h
    · next u hstep => exact ⟨u, hstep, h⟩
    · next hother => exact absurd h (hother t)
  failwith {s t} h := by cases s <;> simp [step] at h
  ifElse {a b s t} h := by
    simp only [step] at h
    split at h
    · exact ⟨_, exists_ends_of_branches h⟩
    · simp at h
  ifNone {a b s t} h := by
    simp only [step] at h
    split at h
    · obtain ⟨v, hx | hy⟩ := exists_ends_of_branches h
      · exact ⟨_, v, .inl hx⟩
      · exact ⟨_, v, .inr hy⟩
    · simp at h
  nil := run_nil
  cons hstep hrest := by rw [run_cons_ends hstep, hrest]
  drop a s := by rw [step]
  dip top h := by simp [step, h, Flow.beneath]
  dug a h := by simp [step, h]

/-- If code diverges and its run has an answer, the answer is that it aborts. -/
theorem run_of_diverges (code : Code) {s : List StackTy} {flow : Flow}
    (hdiv : diverges code = true) (h : run code s = some flow) : flow = .aborts := by
  cases flow with
  | aborts => rfl
  | ends t => exact absurd h (mover.not_run code hdiv)

/-! ## Named cells on the machine -/

theorem step_dropAt {n : Nat} (h : n < s.length) :
    step (Layout.dropAt n) s = some (.ends (s.eraseIdx n)) :=
  mover.dropAt h

/-- The top cell takes the place of the cell `jump` below it, which is dropped. -/
theorem run_settleCode {t : StackTy} {jump : Nat} (h : jump < s.length) :
    run (Layout.settleCode jump) (t :: s) = some (.ends (s.set jump t)) :=
  mover.settle t h

end StackTy

end Covenant
