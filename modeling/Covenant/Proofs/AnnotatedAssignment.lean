import Covenant.Proofs.Gen.Steady
import Covenant.Proofs.TypeSoundness.Expr

/-!
# Covenant — assignments with an annotation

The value of an assignment has exactly the type of the place that it is assigned to, and this is the
type that the place has afterwards, be it a variable, the storage, or a place at the end of a path
(`typeOf_of_resolve`). An annotation has to denote a type. Where a variable is assigned to, this is
the type of the variable. Where another place is assigned to, nothing compares it with the type of
the place: the assignment is compiled as if it had any other annotation
(`annotated_assignment`).
-/

namespace Covenant

open Gen

variable {scope : Scope} {line : Nat} {target value : Expr} {steps : List PathStep}

/-! ## The type of a place -/

/-- A path leads on from where its first steps lead. -/
theorem pathSteps_append {ty leaf : Ty} {places rest : List Place}
    (h : pathSteps scope line ty (places ++ rest) = .ok (steps, leaf)) :
    ∃ front inner tail, pathSteps scope line ty places = .ok (front, inner) ∧
      pathSteps scope line inner rest = .ok (tail, leaf) := by
  induction places generalizing ty steps with
  | nil => exact ⟨[], ty, steps, rfl, h⟩
  | cons place places ih =>
    cases place with
    | field attr =>
      obtain ⟨name, fields, node, inner, tail, rfl, hnode, htail, rfl⟩ :=
        pathSteps_field_eq_ok_iff.mp h
      obtain ⟨front, middle, tail', hfront, hrest⟩ := ih htail
      exact ⟨_, middle, tail', pathSteps_field_eq_ok_iff.mpr
        ⟨name, fields, node, inner, front, rfl, hnode, hfront, rfl⟩, hrest⟩
    | key index =>
      obtain ⟨key, inner, tail, hentry, hkey, htail, rfl⟩ := pathSteps_key_eq_ok_iff.mp h
      obtain ⟨front, middle, tail', hfront, hrest⟩ := ih htail
      exact ⟨_, middle, tail', pathSteps_key_eq_ok_iff.mpr
        ⟨key, inner, front, hentry, hkey, hfront, rfl⟩, hrest⟩

variable {root : Ident} {ty : Ty}

/-- What is behind the place that a path leads to comes as the last step. -/
theorem pathSteps_of_map_places? {place : Place} {places : List Place}
    {leaf : Ty} (hplaces : (value.places?.map fun (root, inner) => (root, inner ++ [place])) =
      some (root, places)) (hsteps : pathSteps scope line ty places = .ok (steps, leaf)) :
    ∃ inner front middle tail, value.places? = some (root, inner) ∧
      pathSteps scope line ty inner = .ok (front, middle) ∧
      pathSteps scope line middle [place] = .ok (tail, leaf) := by
  obtain ⟨⟨first, inner⟩, hinner, heq⟩ := Option.map_eq_some_iff.mp hplaces
  obtain ⟨rfl, rfl⟩ := Prod.mk.inj heq
  obtain ⟨front, middle, tail, hfront, hlast⟩ := pathSteps_append hsteps
  exact ⟨inner, front, middle, tail, hinner, hfront, hlast⟩

/-- A target that is read has the type of the place that it is written to. -/
theorem typeOf_of_places (hbound : scope.layout.binds root = true)
    (hroot : rootType scope line root = .ok ty) {places : List Place} {leaf : Ty}
    (hplaces : target.places? = some (root, places))
    (hsteps : pathSteps scope line ty places = .ok (steps, leaf)) :
    typeOf scope target none = .ok leaf := by
  fun_induction Expr.places? target generalizing places leaf steps with
  | case1 _ id =>
    cases hplaces
    cases hsteps
    exact typeOf_name_eq_ok_iff.mpr ⟨ty, by rw [nameType, ty?_of_rootType hroot], rfl⟩
  | case2 _ value field hstorage =>
    cases hplaces
    cases hsteps
    rw [rootType, if_pos rfl] at hroot
    exact typeOf_attr_eq_ok_iff.mpr ⟨ty, by simp [attributeType, hstorage, hroot], rfl⟩
  | case3 _ value field hstorage ih =>
    obtain ⟨inner, front, middle, tail, hinner, hfront, hlast⟩ :=
      pathSteps_of_map_places? hplaces hsteps
    have hvalue : (typing scope value).alone = .ok middle := ih hinner hfront
    obtain ⟨name, fields, node, last, tail', rfl, hnode, hend, -⟩ :=
      pathSteps_field_eq_ok_iff.mp hlast
    obtain ⟨-, rfl⟩ := Prod.mk.inj (Except.ok.inj hend)
    have hclass : scope.class? value = none := by
      cases value with
      | name nameLine id =>
        obtain ⟨rfl, -⟩ := Prod.mk.inj (Option.some.inj hinner)
        simp [Scope.class?, hbound]
      | _ => rfl
    refine typeOf_attr_eq_ok_iff.mpr ⟨last, ?_, rfl⟩
    rw [fieldNode_eq] at hnode
    split at hnode
    · next i found hfind =>
      obtain ⟨-, rfl⟩ := Prod.mk.inj (Except.ok.inj hnode)
      simp [attributeType, hstorage, hclass, hvalue, hfind, bind, Except.bind, pure, Except.pure]
    · exact absurd hnode faultAt_ne_ok
  | case4 _ value index ih =>
    obtain ⟨inner, front, middle, tail, hinner, hfront, hlast⟩ :=
      pathSteps_of_map_places? hplaces hsteps
    have hvalue : (typing scope value).alone = .ok middle := ih hinner hfront
    obtain ⟨key, last, tail', hentry, hkey, hend, -⟩ := pathSteps_key_eq_ok_iff.mp hlast
    obtain ⟨-, rfl⟩ := Prod.mk.inj (Except.ok.inj hend)
    refine typeOf_subscript_eq_ok_iff.mpr ⟨last, ?_, rfl⟩
    simp [subscriptType, hvalue, hentry, hkey, bind, Except.bind, pure, Except.pure]
  | case5 => cases hplaces

theorem typeOf_of_resolve {path : Path} (h : Path.resolve scope target = .ok path)
    (hbound : scope.layout.binds path.root = true) : typeOf scope target none = .ok path.leaf := by
  obtain ⟨places, root, hplaces, hroot, hsteps⟩ := Path.resolve_eq_ok h
  exact typeOf_of_places hbound hroot hplaces hsteps

/-! ## Assignments -/

variable {config : Config} {state : State} {done : Step Unit}

/-- An assignment to the storage or to a path gives the place a value of its own type. -/
theorem Gen.place_of_assign (h : (if target.isStorage then assignStorage value.operand
      else assignPath target value : Gen Unit) config state = .ok done) :
    ∃ place, Covenant.typeOf ⟨config.records, done.state.layout⟩ target none = .ok place ∧
      Covenant.typeOf ⟨config.records, state.layout⟩ value (some place) = .ok place := by
  have halike : state.layout.Alike done.state.layout := by
    split at h
    · exact closed_steady.assignStorage value h
    · exact closed_steady.assignPath target value h
  rw [typeOf_of_alike halike]
  split at h
  · next hstorage =>
    rw [assignStorage, storageType, bind_assoc, scope_bind, typed_bind_eq_ok_iff] at h
    obtain ⟨want, hwant, h⟩ := h
    obtain ⟨found, hfound, hfits, -⟩ := checkFits_bind_eq_ok_iff.mp h
    rw [typeOf_eq_of_fits hfound hfits] at hfound
    refine ⟨want, ?_, hfound⟩
    cases target with
    | attr line inner field =>
      exact typeOf_attr_eq_ok_iff.mpr ⟨want, by rw [attributeType, if_pos hstorage, hwant], rfl⟩
    | _ => cases hstorage
  · rw [assignPath, scope_bind, typed_bind_eq_ok_iff] at h
    obtain ⟨path, hpath, h⟩ := h
    obtain ⟨found, hfound, hfits, h⟩ := checkFits_bind_eq_ok_iff.mp h
    rw [typeOf_eq_of_fits hfound hfits] at hfound
    -- the root has been copied, so it has a slot
    obtain ⟨_, _, hfetched, -⟩ := bind_eq_ok_iff.mp h
    obtain ⟨slot, hslot, -⟩ := fetch_eq_ok_iff.mp hfetched
    exact ⟨path.leaf, typeOf_of_resolve hpath (Layout.binds_iff.mpr ⟨slot, hslot⟩), hfound⟩

/-- An assignment to a variable that declares its type gives it a value of this type. -/
theorem Gen.ty?_of_assignName {name : Ident} {declared : Ty}
    (h : assignName target name (some declared) value.operand config state = .ok done) :
    done.state.layout.ty? name = some declared ∧
      Covenant.typeOf ⟨config.records, state.layout⟩ value (some declared) = .ok declared := by
  rcases assignName_eq_ok h with ⟨want, hown, hsame, -, hrun⟩ | ⟨hnone, -⟩
  · obtain rfl := hsame declared rfl
    obtain ⟨found, hfound, hfits, hrun⟩ := checkFits_bind_eq_ok_iff.mp hrun
    rw [typeOf_eq_of_fits hfound hfits] at hfound
    refine ⟨?_, hfound⟩
    obtain ⟨pushed, last, hpushed, hlast, rfl⟩ := bind_eq_ok_iff.mp hrun
    have halike := closed_steady.pushAs value want hpushed
    rw [layout_bind] at hlast
    split at hlast
    · have hafter := steady_replace name hlast
      obtain ⟨c, hc, -⟩ := replace_eq_ok_iff.mp hlast
      have hty := Layout.ty?_of_cell? hc
      rw [halike.ty?] at hty
      rw [hafter.ty?, halike.ty?, hown c.ty hty, hty]
    · obtain ⟨l, hbind, rfl⟩ := bindTop_eq_ok_iff.mp hlast
      exact Layout.ty?_of_cell? (Layout.cell?_of_bind hbind)
  · cases hnone

/-- Annotated assignments. Wherever an assignment with an annotation is accepted, the annotation
denotes a type, and the value has exactly the type that the place assigned to has after the
statement, so that its code leaves a cell of this type, whatever else is on the stack. If a variable
is assigned to, this is the type that the annotation denotes. If it is another place, the annotation
is not compared with the type of the place: with any other type in it the statement is compiled just
the same. -/
theorem annotated_assignment {written : Expr}
    (h : compileStmt (.annotated line target written (some value)) config state = .ok done) :
    ∃ declared place, TypeExpr.type config.records written = .ok declared ∧
      Covenant.typeOf ⟨config.records, done.state.layout⟩ target none = .ok place ∧
      Covenant.typeOf ⟨config.records, state.layout⟩ value (some place) = .ok place ∧
      (∀ s t, Ground config state.layout s → Leaves config state.layout s t
        (value.operand.pushAs place) fun _ u => u = place.stack :: t) ∧
      (target.name?.isSome = true → declared = place) ∧
      (target.name? = none → ∀ other ty, TypeExpr.type config.records other = .ok ty →
        compileStmt (.annotated line target other (some value)) config state = .ok done) := by
  simp only [compileStmt, seen_bind, assign, Option.mapM_some, map_eq_pure_bind, bind_assoc,
    pure_bind, denoted_bind_eq_ok_iff] at h ⊢
  obtain ⟨declared, hdeclared, h⟩ := h
  have hleaves {place : Ty}
      (hvalue : Covenant.typeOf ⟨config.records, state.layout⟩ value (some place) = .ok place) (s t)
      (hground : Ground config state.layout s) : Leaves config state.layout s t
        (value.operand.pushAs place) fun _ u => u = place.stack :: t :=
    (value.sound_operand.pushAs hground hvalue).mono fun _ _ => And.right
  cases target with
  | name nameLine name =>
    obtain ⟨hty, hvalue⟩ := ty?_of_assignName h
    rw [state.layout_seeing] at hvalue
    exact ⟨declared, declared, hdeclared,
      typeOf_name_eq_ok_iff.mpr ⟨declared, by rw [nameType, hty], rfl⟩, hvalue, hleaves hvalue,
      fun _ => rfl, fun hnone => by cases hnone⟩
  | attr | subscript =>
    obtain ⟨place, hplace, hvalue⟩ := place_of_assign h
    rw [state.layout_seeing] at hvalue
    exact ⟨declared, place, hdeclared, hplace, hvalue, hleaves hvalue,
      fun hsome => absurd hsome Bool.false_ne_true, fun _ other ty hty => ⟨ty, hty, h⟩⟩
  | _ => exact absurd h failAt_ne_ok

/-- An integer is assigned to a place in a map, under an annotation that denotes strings. -/
def Stmt.mislabelled : Stmt :=
  .annotated 2 (.subscript 2 (.name 2 "m") (.literal 2 (.int 1))) (.name 2 "str")
    (some (.literal 2 (.int 3)))

/-- The map is a variable on an otherwise empty stack. -/
def Layout.mapped : Layout :=
  ((Layout.empty .module).push 1).bindSlot "m" 0 (.map false .int .int)

theorem annotated_assignment_mislabelled : ∃ done place,
    compileStmt Stmt.mislabelled ⟨.empty, false⟩ ⟨.mapped, 1⟩ = .ok done ∧
      Covenant.typeOf ⟨.empty, done.state.layout⟩
        (.subscript 2 (.name 2 "m") (.literal 2 (.int 1))) none = .ok place ∧
      Covenant.typeOf ⟨.empty, .mapped⟩ (.literal 2 (.int 3)) (some place) = .ok place := by
  have hsome : (compileStmt Stmt.mislabelled ⟨.empty, false⟩
      ⟨.mapped, 1⟩).toOption.isSome = true := by decide +kernel
  obtain ⟨done, hdone⟩ := Option.isSome_iff_exists.mp hsome
  obtain ⟨-, place, -, hplace, hvalue, -⟩ :=
    annotated_assignment (Except.toOption_eq_some_iff.mp hdone)
  exact ⟨done, place, Except.toOption_eq_some_iff.mp hdone, hplace, hvalue⟩

/-- The map has integers in it, and the assignment is accepted. -/
theorem annotation_is_not_compared :
    (Module.compileStatements ⟨[.assign 1 (.name 1 "m") (.dict 1 [(.literal 1 (.int 1),
        .literal 1 (.int 2))]), Stmt.mislabelled]⟩ false).toOption.isSome = true ∧
      (TypeExpr.type .empty (.name 2 "str")).toOption = some .string ∧
      (compileStmt Stmt.mislabelled ⟨.empty, false⟩ ⟨.mapped, 1⟩).toOption.bind (fun done =>
        (Covenant.typeOf ⟨.empty, done.state.layout⟩
          (.subscript 2 (.name 2 "m") (.literal 2 (.int 1))) none).toOption) = some .int := by
  decide +kernel

end Covenant
