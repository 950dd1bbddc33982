import Covenant.Proofs.Gen.Rules
import Mathlib.Algebra.Ring.Int.Defs
import Mathlib.Data.List.Forall2

/-!
# Covenant — spans of time add up exactly

A call of `timedelta` is worked out at compile time, in 64-bit numbers. `Timedelta.Folds` says when it
stands for a number of seconds without reference to how that is done: its units are known ones, its
values are literals, and neither a value, a product nor a partial sum leaves the range.

* `Timedelta.seconds_eq_ok_iff` — the number of seconds is found exactly then, and it is the sum;
* `timedelta_folds_exactly` — the call pushes this number, or else its arguments are refused.
-/

namespace Covenant

open Gen

namespace Timedelta

variable {n : Int}

/-- The number is a signed 64-bit one. -/
def InRange (n : Int) : Prop := -2 ^ 63 ≤ n ∧ n < 2 ^ 63

/-- The units, and how many seconds they have. -/
def units : List (Ident × Int) :=
  [("weeks", 7 * 24 * 60 * 60), ("days", 24 * 60 * 60), ("hours", 60 * 60), ("minutes", 60),
    ("seconds", 1)]

/-- The expression is an integer literal with the value, or one behind a minus sign. -/
inductive Spells : Expr → Int → Prop where
  | literal (line : Nat) (n : Int64) : Spells (.literal line (.int n)) n.toInt
  | negated (line inner : Nat) (n : Int64) :
      Spells (.unary line .minus (.literal inner (.int n))) (-n.toInt)

/-- A named value stands for a number of times a unit of so many seconds. -/
def Counts (value : Ident × Expr) (term : Int × Int) : Prop :=
  Spells value.2 term.1 ∧ (value.1, term.2) ∈ units

/-- The seconds of all terms. -/
def total (terms : List (Int × Int)) : Int := (terms.map fun term => term.1 * term.2).sum

/-- The values stand for terms that can be added to a number one after the other, within the range
all the time. -/
structure Adds (start : Int) (values : List (Ident × Expr)) (terms : List (Int × Int)) : Prop where
  counts : List.Forall₂ Counts values terms
  values : ∀ term ∈ terms, InRange term.1
  products : ∀ term ∈ terms, InRange (term.1 * term.2)
  sums : ∀ j, InRange (start + total (terms.take j))

/-- The call stands for the number of seconds. -/
def Folds (args : List Expr) (keywords : List (Ident × Expr)) (seconds : Int) : Prop :=
  args.length ≤ 2 ∧ ∃ terms, Adds 0 (["days", "seconds"].zip args ++ keywords) terms ∧
    seconds = total terms

/-! ## Numbers -/

theorem inRange_toInt (n : Int64) : InRange n.toInt := ⟨n.le_toInt, n.toInt_lt⟩

theorem exists_toInt (h : InRange n) : ∃ m : Int64, m.toInt = n :=
  ⟨.ofInt n, Int64.toInt_ofInt_of_le h.1 h.2⟩

theorem int64?_eq_some_iff {m : Int64} :
    int64? n = some m ↔ InRange n ∧ m.toInt = n := by
  have hmin : Int64.minValue.toInt = -2 ^ 63 := by decide
  have hmax : Int64.maxValue.toInt = 2 ^ 63 - 1 := by decide
  unfold int64?
  rw [hmin, hmax]
  constructor
  · intro h
    split at h
    · next hrange =>
      have hn : InRange n := ⟨hrange.1, by omega⟩
      exact ⟨hn, by rw [← Option.some.inj h, Int64.toInt_ofInt_of_le hn.1 hn.2]⟩
    · cases h
  · rintro ⟨hrange, rfl⟩
    rw [if_pos ⟨hrange.1, Int.le_sub_one_of_lt hrange.2⟩, Int64.ofInt_toInt]

theorem toInt_neg_of_ne {n : Int64} (h : n ≠ Int64.minValue) : (-n).toInt = -n.toInt := by
  have hne : n.toInt ≠ -2 ^ 63 := fun heq => h (Int64.toInt_inj.mp heq)
  obtain ⟨hlow, hhigh⟩ := inRange_toInt n
  rw [Int64.toInt_neg, Int.bmod_eq_of_le (by omega) (by omega)]

theorem integer?_eq_some_iff {value : Expr} {m : Int64} :
    value.integer? = some m ↔ Spells value m.toInt := by
  constructor
  · intro h
    unfold Expr.integer? at h
    split at h
    · cases h
      exact .literal _ _
    · split at h
      · cases h
      · next hmin =>
        cases h
        rw [toInt_neg_of_ne hmin]
        exact .negated _ _ _
    · cases h
  · generalize hn : m.toInt = n
    rintro (⟨line, k⟩ | ⟨line, inner, k⟩)
    · rw [Expr.integer?, Int64.toInt_inj.mp hn]
    · have hk : k ≠ Int64.minValue := by
        rintro rfl
        have hm := m.toInt_lt
        rw [hn] at hm
        exact absurd hm (by decide)
      rw [Expr.integer?, if_neg hk, Option.some.injEq, ← Int64.toInt_inj, toInt_neg_of_ne hk, hn]

theorem scale?_eq_some_iff {unit : Ident} {scale : Int} :
    scale? unit = some scale ↔ (unit, scale) ∈ units := by
  unfold scale? units
  split <;> simp_all [eq_comm]

/-! ## Sums -/

/-- One more term is added in front of the others. -/
theorem adds_cons_iff {start : Int} {value : Ident × Expr} {values : List (Ident × Expr)}
    {term : Int × Int} {terms : List (Int × Int)} :
    Adds start (value :: values) (term :: terms) ↔
      (Counts value term ∧ InRange term.1 ∧ InRange (term.1 * term.2)) ∧ InRange start ∧
        Adds (start + term.1 * term.2) values terms := by
  have htotal (ts : List (Int × Int)) :
      start + total (term :: ts) = start + term.1 * term.2 + total ts := by
    simp [total, Int.add_assoc]
  constructor
  · rintro ⟨hcounts, hvalues, hproducts, hsums⟩
    obtain ⟨hcount, hcounts⟩ := List.forall₂_cons.mp hcounts
    obtain ⟨hvalue, hvalues⟩ := List.forall_mem_cons.mp hvalues
    obtain ⟨hproduct, hproducts⟩ := List.forall_mem_cons.mp hproducts
    refine ⟨⟨hcount, hvalue, hproduct⟩, by simpa [total] using hsums 0, hcounts, hvalues,
      hproducts, fun j => ?_⟩
    rw [← htotal, ← List.take_succ_cons]
    exact hsums (j + 1)
  · rintro ⟨⟨hcount, hvalue, hproduct⟩, hstart, hcounts, hvalues, hproducts, hsums⟩
    refine ⟨.cons hcount hcounts, List.forall_mem_cons.mpr ⟨hvalue, hvalues⟩,
      List.forall_mem_cons.mpr ⟨hproduct, hproducts⟩, fun j => ?_⟩
    cases j with
    | zero => simpa [total] using hstart
    | succ j =>
      rw [List.take_succ_cons, htotal]
      exact hsums j

theorem add_eq_ok_iff {start next : Int64} {unit : Ident} {value : Expr} :
    add start unit value = .ok next ↔ ∃ term, (Counts (unit, value) term ∧ InRange term.1 ∧
      InRange (term.1 * term.2)) ∧ next.toInt = start.toInt + term.1 * term.2 := by
  constructor
  · intro h
    unfold add at h
    split at h <;> try cases h
    next scale hscale =>
    split at h <;> try cases h
    next n hn =>
    split at h <;> try cases h
    next product hproduct =>
    split at h <;> try cases h
    next hsum =>
    obtain ⟨hrange, hproduct⟩ := int64?_eq_some_iff.mp hproduct
    refine ⟨(n.toInt, scale), ⟨⟨integer?_eq_some_iff.mp hn, scale?_eq_some_iff.mp hscale⟩,
      inRange_toInt n, hrange⟩, ?_⟩
    rw [(int64?_eq_some_iff.mp hsum).2, hproduct]
  · rintro ⟨⟨_, scale⟩, ⟨⟨hspells, hunit⟩, hvalue, hproduct⟩, hnext⟩
    obtain ⟨n, rfl⟩ := exists_toInt hvalue
    obtain ⟨product, hproductInt⟩ := exists_toInt hproduct
    have hsum : int64? (start.toInt + product.toInt) = some next :=
      int64?_eq_some_iff.mpr ⟨hproductInt ▸ hnext ▸ inRange_toInt next, hproductInt ▸ hnext⟩
    rw [add, scale?_eq_some_iff.mpr hunit, integer?_eq_some_iff.mpr hspells]
    simp only [int64?_eq_some_iff.mpr ⟨hproduct, hproductInt⟩, hsum]

theorem addAll_eq_ok_iff {start last : Int64} {values : List (Ident × Expr)} :
    addAll start values = .ok last ↔
      ∃ terms, Adds start.toInt values terms ∧ last.toInt = start.toInt + total terms := by
  induction values generalizing start with
  | nil =>
    rw [addAll, Except.ok.injEq]
    constructor
    · rintro rfl
      exact ⟨[], ⟨.nil, by simp, by simp, by simpa [total] using inRange_toInt start⟩, by simp [total]⟩
    · rintro ⟨_, ⟨⟨⟩, -⟩, hlast⟩
      exact Int64.toInt_inj.mp (by simpa [total] using hlast.symm)
  | cons value values ih =>
    rw [addAll, Except.bind_eq_ok_iff]
    constructor
    · rintro ⟨next, hadd, hrest⟩
      obtain ⟨term, hterm, hnext⟩ := add_eq_ok_iff.mp hadd
      obtain ⟨terms, hterms, hlast⟩ := ih.mp hrest
      rw [hnext] at hterms hlast
      refine ⟨term :: terms, adds_cons_iff.mpr ⟨hterm, inRange_toInt start, hterms⟩, ?_⟩
      simpa [total, Int.add_assoc] using hlast
    · rintro ⟨terms, hterms, hlast⟩
      cases hterms.counts with
      | @cons _ term _ terms _ _ =>
        obtain ⟨hterm, -, hterms⟩ := adds_cons_iff.mp hterms
        obtain ⟨next, hnext⟩ := exists_toInt (by simpa [total] using hterms.sums 0)
        refine ⟨next, add_eq_ok_iff.mpr ⟨term, hterm, hnext⟩, ih.mpr ⟨terms, hnext ▸ hterms, ?_⟩⟩
        rw [hlast, hnext]
        simp [total, Int.add_assoc]

theorem seconds_eq_ok_iff {args : List Expr} {keywords : List (Ident × Expr)} {n : Int64} :
    seconds args keywords = .ok n ↔ Folds args keywords n.toInt := by
  unfold seconds Folds
  rw [show positional.length = 2 from rfl]
  split
  · next hmany => simp [Nat.not_le.mpr hmany]
  · next hfew =>
    rw [addAll_eq_ok_iff]
    simp [positional, Nat.not_lt.mp hfew]

theorem Folds.inRange {args : List Expr} {keywords : List (Ident × Expr)}
    (h : Folds args keywords n) : InRange n := by
  obtain ⟨-, terms, hterms, rfl⟩ := h
  simpa using hterms.sums terms.length

end Timedelta

/-! ## Calls -/

/-- A call of `timedelta`. -/
def Expr.timedelta (line nameLine : Nat) (args : List Expr) (keywords : List (Ident × Expr)) : Expr :=
  .call line (.name nameLine "timedelta") args keywords

variable {config : Config} {state : State} {line nameLine : Nat} {args : List Expr}
  {keywords : List (Ident × Expr)}

/-- The name denotes the built-in, unless the program has something else of that name. -/
theorem classify_timedelta (hfree : state.layout.binds "timedelta" = false)
    (hrecord : config.records.get? "timedelta" = none) (ty receiver : Typed Ty) :
    Callee.classify ⟨config.records, state.layout⟩ (.name nameLine "timedelta") ty receiver =
      .ok (.builtin "timedelta" .timedelta none []) := by
  simp [Callee.classify, hfree, Callee.ofName, hrecord, Builtin.function?]

theorem typeOf_timedelta (hfree : state.layout.binds "timedelta" = false)
    (hrecord : config.records.get? "timedelta" = none) (expected : Option Ty) :
    Gen.typeOf (.timedelta line nameLine args keywords) expected config state =
      .ok ⟨.int, [], state⟩ := by
  simp only [Gen.typeOf, scope_bind, Covenant.typeOf, Expr.timedelta, typing,
    classify_timedelta hfree hrecord]
  cases expected <;> rfl

theorem emitExpr_timedelta (hfree : state.layout.binds "timedelta" = false)
    (hrecord : config.records.get? "timedelta" = none) :
    emitExpr (.timedelta line nameLine args keywords) .int config state =
      match Timedelta.seconds args keywords with
      | .ok n => .ok ⟨(), config.notes (.called "timedelta") ++ [.prim (.push .int (.int n))],
          state.atDepth (state.layout.depth + 1)⟩
      | .error fault => failAt line (.badArgument fault) config state := by
  have hargs : (operands args).map Operand.expr = args := by
    simp [operands_eq_map, Expr.operand, Function.comp_def]
  have hkeywords : (keywordOperands keywords).map (fun k => (k.1, k.2.expr)) = keywords := by
    simp [keywordOperands_eq_map, Expr.operand, Function.comp_def]
  have hcallee : typed (calleeOf ⟨config.records, state.layout⟩ (.name nameLine "timedelta")) config
      state = .ok ⟨.builtin "timedelta" .timedelta none [], [], state⟩ := by
    simp only [calleeOf, classify_timedelta hfree hrecord, typed_ok]
  let call : Invocation := ⟨"timedelta", line, ⟨[], .int⟩, operands args,
    (keywordOperands keywords).map fun k => (k.1, k.2.expr)⟩
  have hemit : emitExpr (.timedelta line nameLine args keywords) .int config state =
      (do annotate (.called "timedelta"); call.emit .timedelta) config state := by
    simp only [Expr.timedelta, emitExpr, emitCall, scope_bind]
    refine (bind_of_silent hcallee).trans ?_
    simp only [callBuiltin, scope_bind]
    exact bind_of_silent rfl
  rw [hemit, bind_of_ok (show annotate _ _ _ = .ok ⟨(), config.notes _, state⟩ from rfl)]
  simp only [call, Invocation.emit, hargs, hkeywords]
  cases Timedelta.seconds args keywords <;> rfl

/-- A call of the built-in `timedelta` that stands for a number of seconds pushes it, by one
instruction. Any other call is refused for its arguments. -/
theorem timedelta_folds_exactly (hfree : state.layout.binds "timedelta" = false)
    (hrecord : config.records.get? "timedelta" = none) (expected : Option Ty) :
    (∀ seconds, Timedelta.Folds args keywords seconds → ∃ n : Int64, n.toInt = seconds ∧ ∃ after,
      (Expr.timedelta line nameLine args keywords).operand.compile expected config state =
        .ok ⟨.int, config.notes (.called "timedelta") ++ [.prim (.push .int (.int n))], after⟩) ∧
    ((¬∃ seconds, Timedelta.Folds args keywords seconds) → ∃ e fault, e.cause = .badArgument fault ∧
      (Expr.timedelta line nameLine args keywords).operand.compile expected config state =
        .error e) := by
  have hcompile : (Expr.timedelta line nameLine args keywords).operand.compile expected config
      state = (do emitExpr (.timedelta line nameLine args keywords) .int; return .int : Gen Ty)
        config (state.seeing line) := by
    rw [Operand.compile]
    exact (bind_of_silent (typeOf_timedelta hfree hrecord expected)).trans seen_bind
  have hemit : emitExpr (.timedelta line nameLine args keywords) .int config (state.seeing line) = _ :=
    emitExpr_timedelta ((State.layout_seeing state line).symm ▸ hfree) hrecord
  rw [hcompile]
  constructor
  · intro seconds hfolds
    obtain ⟨n, rfl⟩ := Timedelta.exists_toInt hfolds.inRange
    rw [Timedelta.seconds_eq_ok_iff.mpr hfolds] at hemit
    exact ⟨n, rfl, (state.seeing line).atDepth (state.layout.depth + 1),
      (bind_of_ok hemit).trans (by simp [Except.map])⟩
  · intro hnot
    cases hseconds : Timedelta.seconds args keywords with
    | ok n => exact absurd ⟨_, Timedelta.seconds_eq_ok_iff.mp hseconds⟩ hnot
    | error fault =>
      rw [hseconds] at hemit
      refine ⟨_, fault, ?_, bind_of_error (hemit.trans rfl)⟩
      unfold CompileError.orLine
      split <;> rfl

/-- One day less thirty hours, and seven seconds. -/
def Timedelta.overdrawn : List (Ident × Expr) :=
  [("days", .literal 1 (.int 1)), ("hours", .unary 1 .minus (.literal 1 (.int 30))),
    ("seconds", .literal 1 (.int 7))]

theorem timedelta_folds_exactly_overdrawn :
    (∃ after, (Expr.timedelta 1 1 [] Timedelta.overdrawn).operand.compile none ⟨.empty, true⟩
      ⟨.empty .module, 0⟩ =
        .ok ⟨.int, [.note (.called "timedelta"), .prim (.push .int (.int (-21593)))], after⟩) ∧
    ∃ e fault, e.cause = .badArgument fault ∧
      (Expr.timedelta 1 1 [] [("weeks", .literal 1 (.int (2 ^ 62)))]).operand.compile none
        ⟨.empty, true⟩ ⟨.empty .module, 0⟩ = .error e := by
  have hfree : (State.mk (.empty .module) 0).layout.binds "timedelta" = false := rfl
  have hrecord : (Config.mk .empty true).records.get? "timedelta" = none := rfl
  have hseconds : (Timedelta.seconds [] Timedelta.overdrawn).toOption = some (-21593) ∧
      (Timedelta.seconds [] [("weeks", .literal 1 (.int (2 ^ 62)))]).toOption = none := by
    decide +kernel
  constructor
  · have hfolds := Timedelta.seconds_eq_ok_iff.mp (Except.toOption_eq_some_iff.mp hseconds.1)
    obtain ⟨n, hn, after, hcompile⟩ := (timedelta_folds_exactly hfree hrecord none).1 _ hfolds
    obtain rfl := Int64.toInt_inj.mp hn
    exact ⟨after, hcompile⟩
  · refine (timedelta_folds_exactly hfree hrecord none).2 ?_
    rintro ⟨_, hfolds⟩
    obtain ⟨n, rfl⟩ := Timedelta.exists_toInt hfolds.inRange
    have hsome := Except.toOption_eq_some_iff.mpr (Timedelta.seconds_eq_ok_iff.mpr hfolds)
    exact absurd (hsome.symm.trans hseconds.2) (by simp)

end Covenant
