import Covenant.Gen.Operand
import Covenant.Proofs.Gen.Steps
import Covenant.Proofs.Typing.Stable
import Mathlib.Data.List.Forall2

/-!
# Covenant — types ordered by what is known of them

`Ty.fits` compares types up to unknown parts of the first. It is a partial order with `Ty.unknown` at
the bottom, and the types without unknown parts are maximal in it (`fits_orders_types_by_knowledge`):
a value whose type is known is accepted where that very type is wanted, and nowhere else. Records,
closures and built-ins are compared as a whole, so that two of them are related only if they are
equal, also where their parts are unknown.

The generator compares in three places. What is stored and what is handed to a callee has been typed
against the type that is wanted, which has then been taken over, so that the comparison is an equality
whether or not something was unknown (`checkFits_eq_ok_iff`, `checkArguments_eq_ok_iff`). The elements
of a container are compared both ways, since the element type may come from an empty container in
front of them (`checkElement_eq_ok_iff_of_known`).
-/

namespace Covenant

namespace Ty

variable {a b c : Ty}

/-! ## What a type fits -/

theorem fits_unknown_iff : a.fits .unknown = true ↔ a = .unknown := by
  cases a <;> simp [fits]

theorem option_fits_iff : (option a).fits c = true ↔ ∃ d, c = .option d ∧ a.fits d = true := by
  cases c <;> simp [fits]

theorem list_fits_iff : (list a).fits c = true ↔ ∃ d, c = .list d ∧ a.fits d = true := by
  cases c <;> simp [fits]

theorem contract_fits_iff : (contract a).fits c = true ↔ ∃ d, c = .contract d ∧ a.fits d = true := by
  cases c <;> simp [fits]

theorem map_fits_iff {big : Bool} : (map big a b).fits c = true ↔
    ∃ k v, c = .map big k v ∧ a.fits k = true ∧ b.fits v = true := by
  cases c <;> simp [fits, and_assoc]
  grind

/-! ## An order -/

theorem fits_trans (hab : a.fits b = true) (hbc : b.fits c = true) : a.fits c = true := by
  -- along the first comparison: where it goes inside, the third type has the same constructor
  fun_induction Ty.fits a b generalizing c with
  | case1 => simp [fits]
  | case2 a b ih =>
    obtain ⟨d, rfl, hd⟩ := option_fits_iff.mp hbc
    exact option_fits_iff.mpr ⟨d, rfl, ih hab hd⟩
  | case3 a b ih =>
    obtain ⟨d, rfl, hd⟩ := list_fits_iff.mp hbc
    exact list_fits_iff.mpr ⟨d, rfl, ih hab hd⟩
  | case4 a b ih =>
    obtain ⟨d, rfl, hd⟩ := contract_fits_iff.mp hbc
    exact contract_fits_iff.mpr ⟨d, rfl, ih hab hd⟩
  | case5 big k v big' k' v' ihk ihv =>
    obtain ⟨k'', v'', rfl, hk, hv⟩ := map_fits_iff.mp hbc
    simp only [Bool.and_eq_true] at hab
    obtain rfl := eq_of_beq hab.1.1
    exact map_fits_iff.mpr ⟨k'', v'', rfl, ihk hab.1.2 hk, ihv hab.2 hv⟩
  -- all other types are compared as a whole
  | case6 a b => exact eq_of_beq hab ▸ hbc

theorem fits_antisymm (hab : a.fits b = true) (hba : b.fits a = true) : a = b := by
  fun_induction Ty.fits a b with
  | case1 => exact (fits_unknown_iff.mp hba).symm
  | case2 a b ih | case3 a b ih | case4 a b ih => rw [ih hab (by simpa [fits] using hba)]
  | case5 big k v big' k' v' ihk ihv =>
    obtain ⟨_, _, heq, hk, hv⟩ := map_fits_iff.mp hba
    obtain ⟨rfl, rfl, rfl⟩ := Ty.map.inj heq
    simp only [Bool.and_eq_true] at hab
    rw [ihk hab.1.2 hk, ihv hab.2 hv]
  | case6 a b => exact eq_of_beq hab

/-- Going up in the order, unknown parts are filled in and none appear. -/
theorem hasUnknown_of_fits (h : a.fits b = true) (hb : b.hasUnknown = true) :
    a.hasUnknown = true := by
  fun_induction Ty.fits a b with
  | case1 => rfl
  | case2 a b ih | case3 a b ih | case4 a b ih => exact ih h hb
  | case5 big k v big' k' v' ihk ihv =>
    simp only [Bool.and_eq_true] at h
    simp only [hasUnknown, Bool.or_eq_true] at hb ⊢
    exact hb.imp (ihk h.1.2) (ihv h.2)
  | case6 a b => exact eq_of_beq h ▸ hb

theorem fits_iff_eq_of_known (h : a.hasUnknown = false) : a.fits b = true ↔ a = b :=
  ⟨eq_of_fits h, fun heq => heq ▸ fits_refl a⟩

end Ty

/-! ## The checks -/

variable {want found : Ty}

theorem Typing.adopt_of_known (hknown : found.hasUnknown = false) :
    Typing.adopt want (.ok found) = .ok found :=
  adopt_eq_ok_iff.mpr ⟨found, rfl, (Ty.adopted_of_known hknown _).symm⟩

/-- An element whose type is known has the element type, or fills in its unknown parts. -/
theorem checkElement_eq_ok_iff_of_known {item : Typing} (hfound : item.against want = .ok found)
    (hknown : found.hasUnknown = false) :
    checkElement want item = .ok () ↔
      found = want ∨ want.hasUnknown = true ∧ want.fits found = true := by
  rw [checkElement_eq_ok_iff]
  constructor
  · rintro ⟨_, h, hfits⟩
    cases hfound.symm.trans h
    rw [Ty.fits_iff_eq_of_known hknown] at hfits
    by_cases hwant : want.hasUnknown = true
    · exact hfits.imp_right fun h => ⟨hwant, h⟩
    · rw [Ty.fits_iff_eq_of_known (Bool.eq_false_iff.mpr hwant)] at hfits
      exact .inl (hfits.elim id Eq.symm)
  · rintro (rfl | ⟨-, hfits⟩)
    · exact ⟨found, hfound, .inl (Ty.fits_refl found)⟩
    · exact ⟨found, hfound, .inr hfits⟩

namespace Gen

variable {config : Config} {state : State}

/-- A value can be stored where a type is wanted exactly if it has that type. -/
theorem checkFits_eq_ok_iff {value : Expr} {done : Step Unit} :
    checkFits value want config state = .ok done ↔
      Covenant.typeOf ⟨config.records, state.layout⟩ value (some want) = .ok want ∧
        done = ⟨(), [], state⟩ := by
  rw [← bind_pure (checkFits value want), checkFits_bind_eq_ok_iff]
  constructor
  · rintro ⟨found, hfound, hfits, hdone⟩
    obtain rfl := typeOf_eq_of_fits hfound hfits
    exact ⟨hfound, (Except.ok.inj hdone).symm⟩
  · rintro ⟨hwant, rfl⟩
    exact ⟨want, hwant, Ty.fits_refl want, rfl⟩

end Gen

namespace Operand

open Gen

variable {config : Config} {state : State} {function : Ident} {args : List Operand}
  {wants : List Ty} {done : Step Unit}

/-- The operands have the types that stand in the same place, one by one. -/
abbrev Exactly (scope : Scope) (args : List Operand) (wants : List Ty) : Prop :=
  List.Forall₂ (fun o want => Covenant.typeOf scope o.expr (some want) = .ok want) args wants

theorem checkTypes_eq_ok_iff (hlength : args.length = wants.length) :
    checkTypes function args wants config state = .ok done ↔
      Exactly ⟨config.records, state.layout⟩ args wants ∧ done = ⟨(), [], state⟩ := by
  induction args generalizing wants with
  | nil =>
    obtain rfl := List.length_eq_zero_iff.mp hlength.symm
    simp [checkTypes, pure, eq_comm]
  | cons o os ih =>
    obtain ⟨want, wants, rfl⟩ := List.exists_cons_of_length_eq_add_one hlength.symm
    have ih := ih (Nat.succ.inj hlength)
    rw [Exactly, List.forall₂_cons, and_assoc, ← ih, checkTypes, typeOf_bind_eq_ok_iff]
    constructor
    · rintro ⟨found, hfound, hdone⟩
      obtain ⟨hfits, hrest⟩ := unless_failAt_eq_ok_iff.mp hdone
      -- typing against the wanted type has filled in what was unknown
      obtain rfl := typeOf_eq_of_fits hfound hfits
      exact ⟨hfound, hrest⟩
    · rintro ⟨hwant, hdone⟩
      exact ⟨want, hwant, unless_failAt_eq_ok_iff.mpr ⟨Ty.fits_refl want, hdone⟩⟩

/-- A callee takes the arguments exactly if they have the types that it declares. -/
theorem checkArguments_eq_ok_iff {line : Nat} :
    checkArguments function line args wants config state = .ok done ↔
      Exactly ⟨config.records, state.layout⟩ args wants ∧ done = ⟨(), [], state⟩ := by
  refine unless_failAt_eq_ok_iff.trans ?_
  constructor
  · rintro ⟨hlength, hdone⟩
    exact (checkTypes_eq_ok_iff hlength).mp hdone
  · intro h
    exact ⟨h.1.length_eq, (checkTypes_eq_ok_iff h.1.length_eq).mpr h⟩

end Operand

/-! ## The order and its checks -/

/-- Fitting is a partial order with the unknown type at the bottom. Unknown parts are filled in on the
way up, and a type without any is maximal. Checks against a wanted type are therefore equalities, and
the elements of a container may differ from the wanted type only in filling it in. -/
theorem fits_orders_types_by_knowledge :
    ((∀ a : Ty, a.fits a = true) ∧
      (∀ a b c : Ty, a.fits b = true → b.fits c = true → a.fits c = true) ∧
      ∀ a b : Ty, a.fits b = true → b.fits a = true → a = b) ∧
    (∀ a : Ty, Ty.unknown.fits a = true ∧ (a.fits .unknown = true ↔ a = .unknown)) ∧
    (∀ a b : Ty, a.fits b = true → b.hasUnknown = true → a.hasUnknown = true) ∧
    (∀ a b : Ty, a.hasUnknown = false → (a.fits b = true ↔ a = b)) ∧
    (∀ want found : Ty, found.hasUnknown = false →
      Typing.adopt want (.ok found) = .ok found) ∧
    (∀ (want found : Ty) (item : Typing), item.against want = .ok found →
      found.hasUnknown = false → (checkElement want item = .ok () ↔
        found = want ∨ want.hasUnknown = true ∧ want.fits found = true)) ∧
    (∀ config state value want done, Gen.checkFits value want config state = .ok done ↔
      typeOf ⟨config.records, state.layout⟩ value (some want) = .ok want ∧
        done = ⟨(), [], state⟩) ∧
    ∀ function line args wants config state done,
      Operand.checkArguments function line args wants config state = .ok done ↔
        Operand.Exactly ⟨config.records, state.layout⟩ args wants ∧ done = ⟨(), [], state⟩ :=
  ⟨⟨Ty.fits_refl, fun _ _ _ => Ty.fits_trans, fun _ _ => Ty.fits_antisymm⟩,
    fun _ => ⟨by simp [Ty.fits], Ty.fits_unknown_iff⟩,
    fun _ _ => Ty.hasUnknown_of_fits,
    fun _ _ => Ty.fits_iff_eq_of_known,
    fun _ _ => Typing.adopt_of_known,
    fun _ _ _ => checkElement_eq_ok_iff_of_known,
    fun _ _ _ _ _ => Gen.checkFits_eq_ok_iff,
    fun _ _ _ _ _ _ _ => Operand.checkArguments_eq_ok_iff⟩

/-- An empty list in a big map fits a list of options there, and this fits a list of optional numbers;
the latter fits nothing else. As an element it is taken where lists of unknown values are wanted. -/
theorem fits_fills_in_a_big_map :
    (Ty.map true .int (.list .unknown)).fits (.map true .int (.list (.option .nat))) = true ∧
      ((Ty.list (.option .nat)).fits (.list (.option .int)) = true ↔
        Ty.list (.option .nat) = .list (.option .int)) ∧
      (Ty.record "entry" [("rest", .list .unknown)]).hasUnknown = true ∧
      checkElement (.list .unknown) (.fixed 1 (.ok (.list (.option .nat)))) = .ok () := by
  obtain ⟨⟨-, htrans, -⟩, -, hunknown, hknown, -, helement, -⟩ := fits_orders_types_by_knowledge
  refine ⟨htrans _ (.map true .int (.list (.option .unknown))) _ (by decide) (by decide),
    hknown _ _ (by decide), hunknown _ (.record "entry" [("rest", .list .unknown)]) (by decide)
      (by decide), ?_⟩
  exact (helement _ (.list (.option .nat)) _ rfl (by decide)).mpr (.inr ⟨by decide, by decide⟩)

end Covenant
