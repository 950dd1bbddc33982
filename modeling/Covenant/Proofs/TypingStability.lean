import Covenant.Proofs.Gen.Steady

/-!
# Covenant — types that are expected of themselves

What is expected decides which type a literal has, which types a container holds and what takes the
place of unknown parts. A question that is asked again with another expectation may be answered
differently: text that looks like an address is text where text is expected. But the answer is
stable if it is expected itself, at any depth of the expression.

Operators rely on this. The generator asks for the types of both operands, one of them against its
partner, and chooses instructions by the answers. Then it feeds each type back when it emits the
operand, the right one first. So what lies on the stack is what the instruction was chosen for
(`typing_against_own_type_is_stable`).
-/

namespace Covenant

open Gen

namespace Operand

variable {o : Operand} {config : Config} {state : State} {ty : Ty}

/-- Emits the code of an operand whose type is known and which has to leave exactly one new cell. -/
def valueOf (o : Operand) (ty : Ty) : Gen Ty := do
  let before ← depth
  seen o.expr.line
  o.emit ty
  if (← depth) = before + 1 then
    return ty
  else
    failAt o.expr.line (.unsupported (.noValue o.expr.text))

theorem value_of_typeOf {expected : Option Ty}
    (h : typeOf ⟨config.records, state.layout⟩ o.expr expected = .ok ty) :
    o.value expected config state = o.valueOf ty config state := by
  have htyped : Gen.typeOf o.expr expected config state = .ok ⟨ty, [], state⟩ := by
    rw [Gen.typeOf, scope_bind, h]
    rfl
  simp only [value, valueOf, compile, depth_bind, bind_assoc, pure_bind]
  rw [bind_of_silent htyped]

theorem result_of_value {expected : Option Ty} {done : Step Ty}
    (h : typeOf ⟨config.records, state.layout⟩ o.expr expected = .ok ty)
    (hdone : o.value expected config state = .ok done) : done.result = ty := by
  obtain ⟨found, _, hfound, -, -, rfl⟩ := value_eq_ok_iff.mp hdone
  exact Except.ok.inj (hfound.symm.trans h)

end Operand

/-- The rules for the types of two operands differ in what they expect next to a type. -/
theorem exists_partner {rule : Expr → Expr → Typing → Typing → Typed (Ty × Ty)}
    (h : rule ∈ [comparandTypes, arithmeticTypes]) : ∃ partner, rule = operandTypes partner := by
  simp only [List.mem_cons, List.not_mem_nil, or_false] at h
  rcases h with rfl | rfl
  · exact ⟨id, rfl⟩
  · exact ⟨arithmeticPartner, rfl⟩

/-- An expression has its type also where that type is expected, whatever was expected when the type
was found. So each operand of an operator is emitted with the type that the operator was chosen for:
evaluating it against this type is evaluating it at this type. -/
theorem typing_against_own_type_is_stable :
    (∀ (scope : Scope) (e : Expr) (expected : Option Ty) (ty : Ty),
      typeOf scope e expected = .ok ty → typeOf scope e (some ty) = .ok ty) ∧
    ∀ rule ∈ [comparandTypes, arithmeticTypes],
      ∀ (config : Config) (state : State) (left right : Expr) (leftTy rightTy : Ty),
        rule left right (typing ⟨config.records, state.layout⟩ left)
          (typing ⟨config.records, state.layout⟩ right) = .ok (leftTy, rightTy) →
        right.operand.value (some rightTy) config state =
          right.operand.valueOf rightTy config state ∧
        ∀ done, right.operand.value (some rightTy) config state = .ok done →
          done.result = rightTy ∧
          left.operand.value (some leftTy) config done.state =
            left.operand.valueOf leftTy config done.state ∧
          ∀ last, left.operand.value (some leftTy) config done.state = .ok last →
            last.result = leftTy := by
  refine ⟨fun _ _ _ _ => typeOf_own, fun rule hrule config state left right leftTy rightTy h => ?_⟩
  obtain ⟨partner, rfl⟩ := exists_partner hrule
  obtain ⟨hleft, hright⟩ := typeOf_of_operandTypes h
  refine ⟨Operand.value_of_typeOf hright, fun done hdone => ?_⟩
  -- the right operand lies on the stack now, which changes the type of no name
  have hleft : typeOf ⟨config.records, done.state.layout⟩ left (some leftTy) = .ok leftTy := by
    rw [typeOf_of_alike (closed_steady.value right _ hdone), hleft]
  exact ⟨Operand.result_of_value hright hdone, Operand.value_of_typeOf hleft,
    fun last hlast => Operand.result_of_value hleft hlast⟩

/-- A list of text that looks like an address. -/
def Expr.accounts : Expr := .list 1 [.literal 1 (.str "KT1BEqzn5Wx8uJrZNvuS9DVHmLvG9td3fDLi")]

/-- `Timestamp(0)`, next to which a literal is a number of seconds. -/
def Expr.epoch : Expr := .call 1 (.name 1 "Timestamp") [.literal 1 (.int 0)] []

theorem typing_against_own_type_is_stable_epoch :
    (typeOf ⟨.empty, .empty .module⟩ Expr.accounts none = .ok (.list .address) ∧
      typeOf ⟨.empty, .empty .module⟩ Expr.accounts (some (.list .address)) =
        .ok (.list .address)) ∧
    ∃ done last : Step Ty,
      Expr.epoch.operand.value (some .timestamp) ⟨.empty, false⟩ ⟨.empty .module, 0⟩ = .ok done ∧
      done.result = .timestamp ∧
      (Expr.literal 1 (.int 5)).operand.value (some .int) ⟨.empty, false⟩ done.state = .ok last ∧
      last.result = .int := by
  obtain ⟨hstable, hoperands⟩ := typing_against_own_type_is_stable
  have halone : typeOf ⟨.empty, .empty .module⟩ Expr.accounts none = .ok (.list .address) :=
    Except.toOption_eq_some_iff.mp (by decide +kernel)
  refine ⟨⟨halone, hstable _ _ _ _ halone⟩, ?_⟩
  have htypes : arithmeticTypes (.literal 1 (.int 5)) Expr.epoch
      (typing ⟨.empty, .empty .module⟩ (.literal 1 (.int 5)))
      (typing ⟨.empty, .empty .module⟩ Expr.epoch) = .ok (.int, .timestamp) :=
    Except.toOption_eq_some_iff.mp (by decide +kernel)
  obtain ⟨-, hright⟩ := hoperands arithmeticTypes (by simp) ⟨.empty, false⟩ ⟨.empty .module, 0⟩
    _ _ _ _ htypes
  have hruns : ((do
      let _ ← Expr.epoch.operand.value (some .timestamp)
      (Expr.literal 1 (.int 5)).operand.value (some .int) : Gen Ty) ⟨.empty, false⟩
        ⟨.empty .module, 0⟩).toOption.isSome = true := by decide +kernel
  obtain ⟨both, hboth⟩ := Option.isSome_iff_exists.mp hruns
  obtain ⟨done, last, hdone, hlast, -⟩ := bind_eq_ok_iff.mp (Except.toOption_eq_some_iff.mp hboth)
  obtain ⟨hresult, -, hleft⟩ := hright done hdone
  exact ⟨done, last, hdone, hresult, hlast, hleft last hlast⟩

end Covenant
