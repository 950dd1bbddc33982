import Covenant.Proofs.Transactions.Expr

/-!
# Covenant — transactions in statements

Every expression that a statement compiles stands where the scan looks for calls: in its value, its
test or its source, or among the keys of an assignment target. So statements heed what the scan says
of them, as long as no function is defined among them (`heeds_compileStmt`), and a block is foretold
by what the scan says of its statements (`foretold_compileBlock`). The scan passes over nested
functions, which have a stack of their own without pending operations, while the generator compiles
them; this is why they are excluded.
-/

namespace Covenant

open Gen

namespace Stmt

mutual

/-- The statement defines a function, itself or in a branch or the body of a loop. -/
def definesFunction : Stmt → Bool
  | function .. => true
  | ifElse _ _ body orelse => anyDefinesFunction body || anyDefinesFunction orelse
  | forIn _ _ _ body => anyDefinesFunction body
  | _ => false

def anyDefinesFunction : List Stmt → Bool
  | [] => false
  | s :: rest => definesFunction s || anyDefinesFunction rest

end

end Stmt

namespace Gen

/-! ## Simple statements -/

variable {C : Prop} {target value test iter : Expr}

theorem heeds_assignStorage (hvalue : value.callsTransaction = true → C) :
    Heeds C (assignStorage value.operand) :=
  heeds_of_foretells (t := []) fun config l =>
    tracked_foretells.assignStorage (value.foretells_operand hvalue config l)

theorem heeds_assignName (target : Expr) (name : Ident) (declared : Option Ty)
    (hvalue : value.callsTransaction = true → C) :
    Heeds C (assignName target name declared value.operand) := by
  refine heeds_layout.bind fun l => ?_
  have hwanted (want : Ty) : Heeds C (do
      checkFits value want
      value.operand.pushAs want
      if (← layout).binds name then
        replace name
      else
        bindTop name want) :=
    ((heeds_typeOf _ _).bind fun _ => .ite (heeds_pure _) (heeds_failAt rfl)).bind fun _ =>
      (value.heeds_pushAs hvalue want).bind fun _ => heeds_layout.bind fun _ =>
        .ite (heeds_replace name) (heeds_bindTop name want)
  cases declared with
  | none =>
    cases l.ty? name with
    | none => exact (value.heeds_value hvalue none).bind fun ty => heeds_bindTop name ty
    | some want => exact hwanted want
  | some declaredTy =>
    cases l.ty? name with
    | none => exact hwanted declaredTy
    | some existingTy => exact heeds_ensure rfl (hwanted declaredTy)

theorem heeds_assign (declared : Option Expr) (htarget : target.callsTransaction = true → C)
    (hvalue : value.callsTransaction = true → C) : Heeds C (assign target declared value) := by
  refine (heeds_mapM_denoted declared).bind fun declared => ?_
  have hinside (hname : target.name? = none) : Heeds C (if target.isStorage then
      assignStorage value.operand else assignPath target value) := by
    cases hstorage : target.isStorage with
    | true => exact heeds_assignStorage hvalue
    | false =>
      exact heeds_of_foretells (t := []) fun config l => tracked_foretells.assignPath hstorage hname
        htarget (value.foretells_operand hvalue config l)
  cases target with
  | name line name => exact heeds_assignName _ name declared hvalue
  | attr | subscript => exact hinside rfl
  | _ => exact heeds_failAt rfl

theorem heeds_evaluate (hvalue : value.callsTransaction = true → C) :
    Heeds C (evaluate value.operand) := by
  unfold evaluate
  split
  · exact heeds_pure _
  · exact heeds_depth.bind fun _ => (value.heeds_compile hvalue none).bind fun _ =>
      heeds_depth.bind fun _ => .ite
        ((heeds_emit (by simp [Instr.transfers])).bind fun _ => heeds_pop 1) (heeds_pure _)

/-- The message of an exception is an argument, which the scan has seen. -/
theorem callsTransaction_of_raised {scope : Scope} {message : Expr}
    (h : raised scope value = .ok message) (hmessage : message.callsTransaction = true) :
    value.callsTransaction = true := by
  unfold raised at h
  split at h
  · split at h
    · split at h
      · cases h
        exact Expr.callsTransaction_of_mem_parts (by simp [Expr.parts]) hmessage
      · exact absurd h faultAt_ne_ok
    · cases h
      exact hmessage
  · cases h
    exact hmessage

theorem heeds_raise {raisedValue : Option Expr}
    (hvalue : raisedValue.any Expr.callsTransaction = true → C) : Heeds C (raise raisedValue) := by
  cases raisedValue with
  | none => exact heeds_fail rfl
  | some value =>
    refine heeds_scope.bind fun scope => heeds_typed_bind (sane_raised scope value)
      fun message hmessage => ?_
    have hscan (h : message.callsTransaction = true) : C :=
      hvalue (callsTransaction_of_raised hmessage h)
    exact (message.heeds_value hscan none).bind fun _ =>
      (heeds_emit (by simp [Instr.transfers])).bind fun _ => heeds_pop 1

theorem heeds_ret {returned : Option Expr}
    (hvalue : returned.any Expr.callsTransaction = true → C) : Heeds C (ret returned) := by
  refine heeds_layout.bind fun l => ?_
  split
  · next want value _ =>
    exact (heeds_typeOf _ _).bind fun _ => heeds_ensure rfl (value.heeds_pushAs hvalue want)
  · exact .ite (heeds_apply (by simp)) (heeds_fail rfl)
  · exact heeds_assignStorage hvalue
  · exact heeds_fail rfl
  · exact heeds_fail rfl

/-! ## Blocks -/

theorem Foretold.freeingAfter {name : Ident} {body : Gen Unit} (h : Foretold C body) :
    Foretold C (freeingAfter name body) := by
  refine h.listen.bind fun result => ?_
  dsimp only
  split
  · exact (heeds_pure _).foretold
  · exact foretold_free name

/-- Both branches start from the layout beneath the test, which is taken over again at the end. -/
theorem heeds_ifElse {body orelse : Gen Unit} (htest : test.callsTransaction = true → C)
    (hbody : Foretold C body) (horelse : Foretold C orelse) :
    Heeds C (ifElse test body orelse) where
  foretold := by
    refine (heeds_typeOf test _).bind_foretold fun found => foretold_ensure rfl ?_
    refine (test.heeds_pushAs htest .bool).bind_foretold fun _ => (heeds_pop 1).bind_foretold
      fun _ config state => ?_
    rw [layout_bind]
    refine (hbody config _).block fun onTrue htrue => (horelse config _).block
      fun onFalse hfalse => ?_
    have hemit (depth : Nat) : Foretold C (do
        setLayout (state.layout.atDepth depth)
        emit (.ifElse onTrue.code onFalse.code)) := by
      intro config state
      rw [setLayout_bind]
      show transfers [.ifElse onTrue.code onFalse.code] = true → C
      rw [transfers_cons, transfers_nil, Bool.or_false, Instr.transfers, Bool.or_eq_true]
      exact Or.rec htrue hfalse
    -- whichever depth the branches agree on, the names are those from before the test
    dsimp only
    split
    · rw [pure_bind]
      exact hemit _ config _
    · split
      · rw [pure_bind]
        exact hemit _ config _
      · exact (heeds_fail rfl).bind_foretold hemit config _
  keeps _ _ _ hdone hbinds := by
    obtain ⟨pushed, onTrue, onFalse, depth, -, hpushed, -, -, -, rfl⟩ := ifElse_eq_ok hdone
    have hkept := (test.heeds_pushAs htest .bool).keeps hpushed
    exact hkept hbinds

theorem heeds_forIn (target : Ident) {body : Gen Unit} (hiter : iter.callsTransaction = true → C)
    (hbody : Foretold C body) : Heeds C (forIn target iter body) where
  foretold := by
    refine (heeds_typeOf iter none).bind_foretold fun ty => ?_
    split
    · next element =>
      refine (iter.heeds_value hiter none).bind_foretold fun _ config state => ?_
      rw [layout_bind]
      refine ForetoldAt.bind ((heeds_pop 1).foretold config state) fun first hfirst => ?_
      have hround : Foretold C (freeingAfter target (do
          bindTop target element
          body)) :=
        Foretold.freeingAfter ((heeds_bindTop target element).bind_foretold fun _ => hbody)
      refine (hround config _).block fun inner hinner => ?_
      have hloop : Foretold C (do
          unless inner.state.layout.depth = (← depth) || diverges inner.code do
            fail (.unsupported .unbalancedLoop)
          emit (.iter inner.code)) :=
        heeds_depth.bind_foretold fun _ => foretold_ensure rfl
          (heeds_emit (by rwa [Instr.transfers])).foretold
      -- the list is missing there only if it is missing where the statement starts
      have hkept := (heeds_pop (C := C) 1).keeps hfirst
      exact (hloop config _).mono id hkept
    · exact (heeds_failAt rfl).foretold
  keeps _ _ _ hdone hbinds := by
    obtain ⟨element, pushed, inner, -, hpushed, -, -, rfl⟩ := forIn_eq_ok hdone
    have hkept := (iter.heeds_value hiter none).keeps hpushed
    exact hkept hbinds

/-- The statements of a block keep the list for each other; what is freed at its end is not asked
for any more. -/
theorem foretold_compileBody {body : List Stmt} (h : ∀ s ∈ body, Heeds C (compileStmt s))
    (outer : Layout) : Foretold C (compileBody body outer) := by
  induction body with
  | nil =>
    rw [compileBody]
    exact heeds_layout.bind_foretold fun _ => foretold_freeAll _
  | cons s rest ih =>
    obtain ⟨hs, hrest⟩ := List.forall_mem_cons.mp h
    rw [compileBody]
    refine hs.listen.bind_foretold fun result => ?_
    dsimp only
    split
    · exact (heeds_pure _).foretold
    · exact ih hrest

theorem foretold_block {body : List Stmt} (h : ∀ s ∈ body, Heeds C (compileStmt s)) :
    Foretold C (fromHere (compileBody body)) :=
  heeds_layout.bind_foretold fun outer => foretold_compileBody h outer

end Gen

/-! ## The recursion over statements -/

variable {C : Prop}

mutual

/-- A statement heeds a condition that the scan of it fulfils. -/
theorem heeds_compileStmt (s : Stmt) (hnested : s.definesFunction = false)
    (hC : s.callsTransaction = true → C) : Heeds C (compileStmt s) := by
  cases s <;> simp only [compileStmt, Stmt.callsTransaction, Stmt.definesFunction, Bool.or_eq_true,
    Bool.or_eq_false_iff] at hnested hC ⊢
  case imports line _ | pass line => exact heeds_seen line
  all_goals refine (heeds_seen _).bind (Function.const _ ?_)
  case function => cases hnested
  case classDef => exact heeds_layout.bind fun _ => heeds_fail rfl
  case assign => exact heeds_assign none (hC ∘ .inl) (hC ∘ .inr)
  case annotated target declared value =>
    cases value with
    | some value => exact heeds_assign (some declared) (hC ∘ .inl) (hC ∘ .inr)
    | none => exact heeds_fail rfl
  case augmented => exact heeds_defect _
  case expr => exact heeds_evaluate hC
  case ifElse test body orelse =>
    exact heeds_ifElse (fun h => hC (.inl (.inl h)))
      (foretold_block (heeds_all body hnested.1 fun h => hC (.inl (.inr h))))
      (foretold_block (heeds_all orelse hnested.2 fun h => hC (.inr h)))
  case forIn target iter body =>
    exact heeds_forIn target (hC ∘ .inl) (foretold_block (heeds_all body hnested (hC ∘ .inr)))
  case raise => exact heeds_raise hC
  case ret => exact heeds_ret hC

theorem heeds_all : ∀ body : List Stmt, Stmt.anyDefinesFunction body = false →
    (Stmt.anyCallsTransaction body = true → C) → ∀ s ∈ body, Heeds C (compileStmt s)
  | [], _, _ => by simp
  | s :: rest, hnested, hC => by
    simp only [Stmt.anyDefinesFunction, Bool.or_eq_false_iff] at hnested
    simp only [Stmt.anyCallsTransaction, Bool.or_eq_true] at hC
    exact List.forall_mem_cons.mpr ⟨heeds_compileStmt s hnested.1 (hC ∘ .inl),
      heeds_all rest hnested.2 (hC ∘ .inr)⟩

end

/-- A block without nested functions is foretold by the scan. -/
theorem foretold_compileBlock {body : List Stmt} (hnested : Stmt.anyDefinesFunction body = false) :
    Foretold (Stmt.anyCallsTransaction body = true) (compileBlock body) :=
  foretold_block (heeds_all body hnested id)

end Covenant
