import Covenant.Proofs.SemanticPreservation.Stmt

/-!
# Covenant — blocks mean what they say

Compiled blocks of the core language do what evaluation of the blocks does
(`block_code_agrees_with_evaluation`). Start the code of a block from any stack that has values of the
right types in the slots of the variables, and evaluation from the store that reads the variables off
this stack. Neither gets stuck. Either both abort, with the same value, or both end, the stack is as
deep as it was, and every variable has the same value in its slot as in the store.

This holds for every interpretation of arithmetic, comparisons, maps and closures that keeps to the
types. `Interpretation.integers` is one, with integers that do not overflow and maps from integers to
integers.
-/

namespace Covenant

open Gen Outcome Stack

variable {α : Type} {I : Interpretation α} {l : Layout} {s : List (Datum α)} {config : Config}

/-- The store that reads every variable from its slot. -/
def Layout.store (l : Layout) (s : List (Datum α)) : Store α := fun name => do
  let c ← l.cell? name
  let d ← atSlot s c.slot
  return ⟨c.ty, d⟩

theorem Layout.store_eq_some {name : Ident} {c : Cell} (hc : l.cell? name = some c) {d : Datum α}
    (hd : atSlot s c.slot = some d) : l.store s name = some ⟨c.ty, d⟩ := by
  simp [Layout.store, hc, hd]

/-- A stack with values of the right types has the variables of the store that is read off it. -/
theorem reads_store (hrecords : config.records.Settled) (hl : l.WellFormed)
    (hknown : ∀ name c, l.cell? name = some c → c.ty.hasUnknown = false)
    (hs : l.Holds (fun _ ty d => I.Has ty d) s) : Reads I config.records l s (l.store s) where
  records := hrecords
  wellFormed := hl
  known hc := hknown _ _ hc
  holds := by
    refine ⟨hs.length, fun hc => ?_⟩
    obtain ⟨d, hd, htyped⟩ := hs.cells hc
    exact ⟨d, hd, htyped, fun _ => ⟨⟨_, d⟩, Layout.store_eq_some hc hd, rfl, .inr rfl⟩⟩
  unbound _ hc := by simp [Layout.store, hc]

/-- Outside of functions, a compiled block of the core language does to a stack what its evaluation
does to the variables on it. -/
theorem block_code_agrees_with_evaluation (I : Interpretation α) {body : List Stmt} {state : State}
    {done : Step Unit} (hcore : Stmt.areCore config.records body = true)
    (hrecords : config.records.Settled) (hl : state.layout.WellFormed)
    (hknown : ∀ name c, state.layout.cell? name = some c → c.ty.hasUnknown = false)
    (hcontext : ∀ name want, state.layout.context ≠ .function name want)
    (hs : state.layout.Holds (fun _ ty d => I.Has ty d) s)
    (hdone : compileBlock body config state = .ok done) :
    Concurs (fun s' σ => s'.length = s.length ∧ ∀ name c, state.layout.cell? name = some c →
        ∃ v, σ name = some v ∧ atSlot s' c.slot = some v.datum)
      (I.run done.code s) (I.execBlock config.records body (state.layout.store s)) := by
  have hreads := reads_store hrecords hl hknown hs
  have hbalance := allBalance (Stmt.allAskClass_of_areCore config.records hcore)
  refine (concurs_block (Stmt.allSimulate I config hcore) hbalance ⟨hl, hcontext, by simp⟩ hreads
    hdone).mono fun s' σ h => ⟨h.reads.holds.length.trans hs.length.symm, fun name c hc => ?_⟩
  cases hplain : Ident.isPlain name with
  | true =>
    obtain ⟨v, hv, hslot, -⟩ := h.reads.exists_val hplain hc
    exact ⟨v, hv, hslot⟩
  | false =>
    -- the cell of a shadowed variable has not been touched
    obtain ⟨d, hd, -⟩ := hs.cells hc
    refine ⟨⟨c.ty, d⟩, (h.hidden name hplain).trans (Layout.store_eq_some hc hd), ?_⟩
    refine (h.frame c.slot (hl.below hc) fun other hother hthere => ?_).trans hd
    rw [hl.slots_distinct hthere (Layout.slot?_of_cell? hc), hplain] at hother
    contradiction

/-! ## Integers and maps of them -/

/-- Arithmetic that starts from an integer gives a type of integers. -/
theorem isOf_of_arithmeticResult? {inhabits : Ty → α → Prop} {op : BinOp} {a b t : Ty} {m : Int}
    (h : arithmeticResult? op a b = some t) (hm : (Datum.int m : Datum α).IsOf inhabits a) (n : Int) :
    (Datum.int n : Datum α).IsOf inhabits t := by
  unfold arithmeticResult? at h
  split at h
  · obtain ⟨text, htext⟩ := hm
    contradiction
  all_goals
    first
    | cases h
      exact ⟨n, rfl⟩
    | contradiction

/-- Integers without bounds, and maps from integers to integers as lists of entries. -/
def Interpretation.integers : Interpretation (List (Int × Int)) where
  inhabits ty _ := ty = .map false .int .int
  arithmetic op a b :=
    match op, a, b with
    | .add, .int a, .int b => .ok (.int (a + b))
    | .sub, .int a, .int b => .ok (.int (a - b))
    | .mult, .int a, .int b => .ok (.int (a * b))
    | _, _, _ => .error .unit
  concat a b :=
    match a, b with
    | .string a, .string b => .ok (.string (a ++ b))
    | _, _ => .error .unit
  negate
    | .int a => .ok (.int (-a))
    | _ => .error .unit
  divide a b :=
    match a, b with
    | .int a, .int b => if b = 0 then none else some (.int (a / b), .int (a % b))
    | _, _ => none
  compare a b :=
    match a, b with
    | .int a, .int b => a - b
    | _, _ => 0
  get key map :=
    match key, map with
    | .int key, .foreign entries => (entries.lookup key).map .int
    | _, _ => none
  contains key map :=
    match key, map with
    | .int key, .foreign entries => (entries.lookup key).isSome
    | _, _ => false
  ambient
    | .sender | .source => .string "tz1"
    | _ => .int 0
  other _ _ := .error .unit
  closure _ _ _ := .unit
  call _ _ := .error .unit
  arithmetic_typed := by
    intro op a b t x y z ht hx hy hz
    obtain ⟨m, n, rfl, rfl⟩ : ∃ m n, x = .int m ∧ z = .int n := by
      split at hz
      · exact ⟨_, _, rfl, (Except.ok.inj hz).symm⟩
      · exact ⟨_, _, rfl, (Except.ok.inj hz).symm⟩
      · exact ⟨_, _, rfl, (Except.ok.inj hz).symm⟩
      · contradiction
    exact isOf_of_arithmeticResult? ht hx n
  concat_typed := by
    rintro _ _ z ⟨a, rfl⟩ ⟨b, rfl⟩ hz
    exact ⟨a ++ b, (Except.ok.inj hz).symm⟩
  negate_typed := by
    rintro _ z ⟨a, rfl⟩ hz
    exact ⟨-a, (Except.ok.inj hz).symm⟩
  divide_typed := by
    intro a b t x y q r ht hx hy hparts
    split at hparts
    · split at hparts
      · contradiction
      · cases hparts
        exact ⟨isOf_of_arithmeticResult? ht hx _, isOf_of_arithmeticResult? ht hx _⟩
    · contradiction
  get_typed := by
    rintro big k v key map found hkey hmap hfound
    rw [Datum.IsOf] at hmap
    obtain ⟨entries, rfl, heq⟩ := hmap
    obtain ⟨rfl, rfl, rfl⟩ := Ty.map.inj heq
    obtain ⟨n, rfl⟩ := hkey
    obtain ⟨m, -, rfl⟩ := Option.map_eq_some_iff.mp hfound
    exact ⟨m, rfl⟩
  call_typed := by
    intro a r arg closure z _ _ hz
    simp at hz
  ambient_typed := by
    intro id ty p h hp
    unfold Builtin.constant? at h
    split at h <;> cases h <;> simp_all [Datum.IsOf]

/-- A loop whose variable shadows a variable of the block, and a branch that aborts. -/
def Stmt.sums : List Stmt :=
  [.assign 1 (.name 1 "total") (.literal 1 (.int 0)),
    .forIn 2 "x" (.list 2 [.name 2 "x", .literal 2 (.int 2)])
      [.assign 3 (.name 3 "total")
        (.binary 3 (.name 3 "total") .add (.subscript 3 (.name 3 "m") (.name 3 "x")))],
    .ifElse 4 (.compare 4 (.name 4 "total") [(.lt, .literal 4 (.int 10))])
      [.assign 5 (.name 5 "x") (.name 5 "total")]
      [.raise 6 (some (.literal 6 (.str "too large")))]]

/-- Two variables: an integer, and a map on top of it. -/
def Layout.tally : Layout :=
  (((Layout.empty .module).push 2).bindSlot "x" 0 .int).bindSlot "m" 1 (.map false .int .int)

theorem Layout.wellFormed_tally : Layout.tally.WellFormed := by
  have hroom := (WellFormed.empty .module).atDepth (Nat.zero_le 2)
  refine (hroom.bindSlot (by decide) (fun h => ?_) "x").bindSlot (by decide) (fun h => ?_) "m"
  · cases h
  · rw [slot?_bindSlot] at h
    split at h <;> cases h

/-- The integer that a variable holds at the end. -/
def Outcome.integer? {α : Type} (name : Ident) : Outcome α (Store α) → Option Int
  | .ends σ => (σ name).bind fun v => match v.datum with
    | .int n => some n
    | _ => none
  | _ => none

theorem Outcome.datum_of_integer? {α : Type} {name : Ident} {σ : Store α} {v : Val α} {n : Int}
    (hv : σ name = some v) (h : (Outcome.ends σ).integer? name = some n) : v.datum = .int n := by
  rw [integer?, hv, Option.bind_some] at h
  split at h
  · next m hm => rw [hm, Option.some.inj h]
  · simp at h

theorem block_code_agrees_with_evaluation_sums : ∃ done s',
    compileBlock Stmt.sums ⟨.empty, false⟩ ⟨.tally, 0⟩ = .ok done ∧
      Interpretation.integers.run done.code [.foreign [(1, 3), (2, 4)], .int 1] = .ends s' ∧
      s'.length = 2 ∧ atSlot s' 0 = some (.int 7) := by
  have hcells : ∀ name c, Layout.tally.cell? name = some c →
      (name = "x" ∧ c = ⟨0, .int⟩) ∨ (name = "m" ∧ c = ⟨1, .map false .int .int⟩) := by
    intro name c hc
    rw [Layout.tally, Layout.cell?_bindSlot, Layout.cell?_bindSlot] at hc
    split at hc
    · next hname => exact .inr ⟨hname, (Option.some.inj hc).symm⟩
    · split at hc
      · next hname => exact .inl ⟨hname, (Option.some.inj hc).symm⟩
      · cases hc
  have hs : Layout.tally.Holds (fun _ ty d => Interpretation.integers.Has ty d)
      [.foreign [(1, 3), (2, 4)], .int 1] := by
    refine ⟨rfl, fun hc => ?_⟩
    rcases hcells _ _ hc with ⟨-, rfl⟩ | ⟨-, rfl⟩
    · exact ⟨.int 1, rfl, 1, rfl⟩
    · refine ⟨.foreign [(1, 3), (2, 4)], rfl, ?_⟩
      rw [Interpretation.Has, Datum.IsOf]
      exact ⟨_, rfl, rfl⟩
  have hcompiles : (compileBlock Stmt.sums ⟨.empty, false⟩ ⟨.tally, 0⟩).toOption.isSome = true := by
    decide +kernel
  have hvalue : (Interpretation.integers.execBlock .empty Stmt.sums
      (Layout.tally.store [.foreign [(1, 3), (2, 4)], .int 1])).integer? "x" = some 7 := by
    decide +kernel
  obtain ⟨done, hdone⟩ := Except.exists_ok_of_isSome hcompiles
  have hconcurs := block_code_agrees_with_evaluation Interpretation.integers
    (by decide +kernel : Stmt.areCore .empty Stmt.sums = true) (by intro _ _ h; simp at h)
    Layout.wellFormed_tally
    (fun name c hc => by rcases hcells name c hc with ⟨-, rfl⟩ | ⟨-, rfl⟩ <;> rfl)
    (fun _ _ => by simp [Layout.tally, Layout.empty, Layout.push, Layout.bindSlot]) hs hdone
  generalize Interpretation.integers.execBlock .empty Stmt.sums _ = x at hconcurs hvalue
  generalize hrun : Interpretation.integers.run done.code _ = y at hconcurs
  cases hconcurs with
  | aborts v => simp [Outcome.integer?] at hvalue
  | @ends s' σ hends =>
    obtain ⟨v, hv, hslot⟩ := hends.2 "x" ⟨0, .int⟩ rfl
    exact ⟨done, s', hdone, hrun, hends.1,
      hslot.trans (congrArg some (Outcome.datum_of_integer? hv hvalue))⟩

end Covenant
