import Covenant.Proofs.SemanticPreservation.Computes
import Covenant.Proofs.TypeSoundness.Expr
import Mathlib.Data.List.Forall2

/-!
# Covenant — expressions compute their values

The code of an expression of the core language pushes the value that evaluation gives it, or aborts as
evaluation does (`Expr.faithful`). The rules are those of the generator, one for each kind of
expression; each compares the code that the rule puts together with the clause of the evaluator.

The types of the values are carried along. They are what makes the machine find a pair, a list or an
option where it looks for one, and the evaluator a record.
-/

namespace Covenant

open Gen Outcome Interpretation

variable {α : Type} {I : Interpretation α} {config : Config} {l : Layout}
  {s t : List (Datum α)} {σ : Store α}

/-! ## Values of a type -/

namespace Datum

variable {inhabits : Ty → α → Prop} {d : Datum α}

/-- A comb of values of the attributes' types is a record. -/
theorem areOf_comb {fields : Fields} (hfields : fields ≠ []) {ds : List (Datum α)}
    (h : List.Forall₂ (fun ty d => d.IsOf inhabits ty) fields.types ds) :
    AreOf inhabits fields (comb ds) := by
  induction fields generalizing ds with
  | nil => exact absurd rfl hfields
  | cons f rest ih =>
    obtain ⟨name, ty⟩ := f
    cases h with
    | @cons _ d _ ds hd hds =>
      cases rest with
      | nil =>
        cases hds
        rw [AreOf, comb]
        exact hd
      | cons g more =>
        have hrest := ih (by simp) hds
        cases hds with
        | @cons _ e _ es _ _ =>
          rw [AreOf, comb]
          exact ⟨d, comb (e :: es), rfl, hd, hrest⟩

theorem combIndex_succ (n i : Nat) : combIndex (n + 2) (i + 1) = combIndex (n + 1) i + 2 := by
  simp only [combIndex]
  split <;> split <;> omega

/-- Each attribute of a record is where both the evaluator and the machine look for it. -/
theorem component_of_areOf {fields : Fields} {i : Nat} {attr : Ident} {ty : Ty}
    (h : AreOf inhabits fields d) (hi : fields[i]? = some (attr, ty)) :
    ∃ part, d.component fields.length i = some part ∧
      d.node? (combIndex fields.length i) = some part ∧ part.IsOf inhabits ty := by
  induction fields generalizing i d with
  | nil => simp at hi
  | cons f rest ih =>
    obtain ⟨name, ty'⟩ := f
    -- a single attribute is the whole record, otherwise the record is a pair
    cases rest with
    | nil =>
      obtain rfl : i = 0 := by
        cases i with
        | zero => rfl
        | succ i => simp at hi
      cases hi
      rw [AreOf] at h
      exact ⟨d, by simp [component], by simp [combIndex, node?], h⟩
    | cons g more =>
      rw [AreOf] at h
      obtain ⟨a, b, rfl, ha, hb⟩ := h
      cases i with
      | zero =>
        cases hi
        exact ⟨a, by simp [component], by simp [combIndex, node?], ha⟩
      | succ i =>
        obtain ⟨part, hpart, hnode, htyped⟩ := ih hb hi
        refine ⟨part, ?_, ?_, htyped⟩
        · simpa only [List.length_cons, component] using hpart
        · rw [List.length_cons, List.length_cons, combIndex_succ, node?]
          exact hnode

end Datum

/-! ## Operands -/

/-- The value is one of the type that the expression has, and can be taken apart accordingly unless the
type was settled by what was expected. -/
structure Val.Suits (I : Interpretation α) (scope : Scope) (e : Expr) (ty : Ty) (v : Val α) :
    Prop where
  known : ty.hasUnknown = false
  typed : I.Has ty v.datum
  tagged : typeOf scope e none = .ok ty → v.Tagged ty

/-- The value is one of the type, which is settled, and can be taken apart accordingly. -/
structure Val.Fills (I : Interpretation α) (ty : Ty) (v : Val α) : Prop where
  known : ty.hasUnknown = false
  typed : I.Has ty v.datum
  tagged : v.Tagged ty

theorem Val.Suits.of_keeps {l' : Layout} {records : Records} {e : Expr} {ty : Ty} {v : Val α}
    (h : v.Suits I ⟨records, l'⟩ e ty) (hkeeps : l.Keeps l') : v.Suits I ⟨records, l⟩ e ty :=
  ⟨h.known, h.typed, fun hty => h.tagged ((typeOf_of_alike hkeeps.alike e none).trans hty)⟩

namespace Expr

/-- The code of the expression pushes its value. -/
def Faithful (I : Interpretation α) (config : Config) (σ : Store α) (e : Expr) : Prop :=
  ∀ ⦃l : Layout⦄ ⦃s : List (Datum α)⦄ ⦃expected : Option Ty⦄ ⦃ty : Ty⦄,
    Reads I config.records l s σ → typeOf ⟨config.records, l⟩ e expected = .ok ty →
    Computes I config l s [] (emitExpr e ty) (I.eval config.records σ e) fun _ t v =>
      t = [v.datum] ∧ v.Suits I ⟨config.records, l⟩ e ty

variable {e : Expr} {expected : Option Ty} (h : e.Faithful I config σ)
  (hreads : Reads I config.records l s σ)
include h hreads

/-- The same on top of intermediate values. -/
theorem Faithful.emits {ty : Ty}
    (hty : typeOf ⟨config.records, l⟩ e expected = .ok ty) :
    Computes I config l s t (emitExpr e ty) (I.eval config.records σ e) fun _ u v =>
      u = v.datum :: t ∧ v.Suits I ⟨config.records, l⟩ e ty := by
  intro state done hafter hdone
  have hty' := (typeOf_of_alike hafter.keeps.alike e expected).trans hty
  refine (h (hreads.above hafter) hty' (.refl _) hdone).mono fun s' v hs' => ?_
  obtain ⟨_, rfl, hend, rfl, hsuits⟩ := hs'
  refine ⟨v.datum :: t, rfl, ?_, rfl, hsuits.of_keeps hafter.keeps⟩
  rw [List.length_cons, Nat.add_comm]
  exact hafter.trans hend

/-- A value is checked to be one more cell, which the code of a value is anyway. -/
theorem Faithful.value :
    Computes I config l s t (e.operand.value expected) (I.eval config.records σ e) fun ty u v =>
      typeOf ⟨config.records, l⟩ e expected = .ok ty ∧ u = v.datum :: t ∧
        v.Suits I ⟨config.records, l⟩ e ty := by
  intro state done hafter hdone
  obtain ⟨ty, inner, hty, hinner, -, rfl⟩ := Operand.value_eq_ok_iff.mp hdone
  have hty := (typeOf_of_alike hafter.keeps.alike e expected).symm.trans hty
  have hseen : l.After t.length (state.seeing e.line).layout := by
    rw [state.layout_seeing]
    exact hafter
  refine (h.emits hreads hty hseen hinner).mono fun s' v hs' => ?_
  obtain ⟨u, hu, hend, hvalue, hsuits⟩ := hs'
  exact ⟨u, hu, hend, hty, hvalue, hsuits⟩

/-- The type that is expected is the type that the value has. -/
theorem Faithful.pushAs {want : Ty}
    (hwant : typeOf ⟨config.records, l⟩ e (some want) = .ok want) :
    Computes I config l s t (e.operand.pushAs want) (I.eval config.records σ e) fun _ u v =>
      u = v.datum :: t ∧ v.Suits I ⟨config.records, l⟩ e want := by
  refine (h.value hreads).then_pure fun ty u v hv => computes_pure ?_
  obtain ⟨hty, rfl, hsuits⟩ := hv
  cases hty.symm.trans hwant
  exact ⟨rfl, hsuits⟩

end Expr

namespace Gen

variable {found element : Ty} {e left right : Expr} {name id : Ident} {items args : List Expr}
  {line : Nat} {op : BinOp} {γ : Type}

/-- On top of the layout alone the step pushes the value that the computation gives, of a settled
type. -/
def Evaluates (I : Interpretation α) (config : Config) (l : Layout) (s : List (Datum α))
    (step : Gen Unit) (x : Outcome α (Val α)) (found : Ty) : Prop :=
  Computes I config l s [] step x fun _ t v => t = [v.datum] ∧ v.Fills I found

/-- A settled type is also the type that the expression has where some type is expected. -/
theorem Evaluates.suits {step : Gen Unit} {x : Outcome α (Val α)}
    (h : Evaluates I config l s step x found) (expected : Option Ty) :
    Computes I config l s [] step x fun _ t v =>
      t = [v.datum] ∧ v.Suits I ⟨config.records, l⟩ e (found.adopted expected) := by
  refine Computes.mono h fun _ t v hv => ?_
  obtain ⟨rfl, hfills⟩ := hv
  rw [Ty.adopted_of_known hfills.known]
  exact ⟨rfl, hfills.known, hfills.typed, fun _ => hfills.tagged⟩

variable (hreads : Reads I config.records l s σ)
include hreads

/-! ## Names and literals -/

omit hreads in
/-- The constants of the machine have the types that typing gives them. -/
theorem concurs_constant {ty : Ty} {p : Prim} (h : Builtin.constant? id = some (ty, p)) :
    p.arity = 0 ∧ ty.hasUnknown = false ∧ ty.isFlat = true ∧
      ∃ d, I.prim p [] = .ends d ∧ I.Has ty d := by
  have hambient := fun hp => I.ambient_typed h hp
  unfold Builtin.constant? at h
  split at h <;> cases h
  all_goals refine ⟨rfl, rfl, rfl, ?_⟩
  · exact ⟨_, rfl, hambient (by simp)⟩
  · exact ⟨_, rfl, hambient (by simp)⟩
  · exact ⟨_, rfl, hambient (by simp)⟩
  · exact ⟨_, rfl, hambient (by simp)⟩
  · exact ⟨_, rfl, by simp [Has, Datum.IsOf]⟩

theorem evaluates_fetch (hplain : Ident.isPlain name = true)
    {c : Cell} (hc : l.cell? name = some c) :
    ∃ v, σ name = some v ∧ Evaluates I config l s (fetch name) (.ends v) c.ty := by
  obtain ⟨v, hv, hslot, htyped, htag⟩ := hreads.exists_val hplain hc
  exact ⟨v, hv, computes_fetch hreads.wellFormed hreads.holds.length hc hslot
    ⟨rfl, hreads.known hc, htyped, htag⟩⟩

/-- A name is a variable in the store, or else a constant. -/
theorem evaluates_emitName
    (hplain : Ident.isPlain id = true) (h : nameType ⟨config.records, l⟩ id = .ok found) :
    Evaluates I config l s (emitName id) (I.evalName σ id) found := by
  refine computes_layout_bind fun l' hkeeps => ?_
  rw [hkeeps.binds]
  rcases nameType_of_wellFormed hreads.wellFormed h with ⟨hbound, hvar⟩ | ⟨hnone, p, hconstant⟩
  · obtain ⟨slot, hc⟩ := hreads.wellFormed.cell?_of_ty? hvar
    obtain ⟨v, hv, hfetch⟩ := evaluates_fetch hreads hplain hc
    rw [if_pos hbound, evalName, hv]
    exact hfetch
  · have hfree : σ id = none := hreads.unbound hplain (Layout.cell?_of_unbound hnone)
    obtain ⟨harity, hknown, hflat, d, hd, htyped⟩ := concurs_constant (I := I) hconstant
    rw [if_neg (by simp [hnone]), evalName, hfree, hconstant]
    dsimp only
    rw [hd]
    refine computes_apply [] harity.symm ?_
    rw [hd]
    exact .ends ⟨rfl, hknown, htyped, .inl hflat⟩

omit hreads in
/-- A literal is its own value. -/
theorem evaluates_emitLiteral {value : Literal} {expected : Option Ty}
    (h : literalType value expected = .ok found) :
    Evaluates I config l s (emitLiteral value found) (.ends (.ofLiteral value)) found := by
  have hpush {v : Value} {r : Val α} (hr : r.datum = .ofValue v)
      (hty : I.Has found r.datum) (hflat : found.isFlat = true) :
      Evaluates I config l s (apply (.push found v)) (.ends r) found := by
    refine computes_apply [] rfl (.ends ⟨by rw [hr], ?_, hty, .inl hflat⟩)
    exact (literalType_of_literalType h).1
  cases hasType_of_literalType h with
  | none => exact computes_apply [] rfl (.ends ⟨rfl, rfl, rfl, .inl rfl⟩)
  | _ => exact hpush rfl ⟨_, rfl⟩ rfl

/-! ## Containers -/

omit hreads in
theorem mem_operands (h : e ∈ items) : e.operand ∈ operands items := by
  induction items with
  | nil => simp at h
  | cons first rest ih =>
    rw [operands]
    rcases List.mem_cons.mp h with rfl | h
    · exact List.mem_cons_self
    · exact List.mem_cons_of_mem _ (ih h)

/-- Elements are evaluated last to first, and each is put in front of those behind it. -/
theorem computes_consAll :
    ∀ {items : List Expr}, (∀ e ∈ items, e.Faithful I config σ ∧
      Covenant.typeOf ⟨config.records, l⟩ e (some element) = .ok element) →
    Computes I config l s (.list [] :: t) (Operand.consAll element (operands items))
      (I.evalAll config.records σ items) fun _ u vs =>
        u = .list (vs.map Val.datum) :: t ∧ (∀ v ∈ vs, I.Has element v.datum) ∧
          ∀ first ∈ items.head?,
            Covenant.typeOf ⟨config.records, l⟩ first none = .ok element →
              ∃ v, vs.head? = some v ∧ v.Tagged element
  | [], _ => computes_pure ⟨rfl, by simp, by simp⟩
  | e :: rest, h => by
    obtain ⟨he, hrest⟩ := List.forall_mem_cons.mp h
    refine (computes_consAll hrest).bind fun _ u vs hvs => ?_
    obtain ⟨rfl, htyped, -⟩ := hvs
    refine (he.1.pushAs hreads he.2).bind fun _ u v hv => ?_
    obtain ⟨rfl, hsuits⟩ := hv
    refine computes_apply [v.datum, .list (vs.map Val.datum)] rfl (.ends ⟨rfl, ?_, ?_⟩)
    · exact List.forall_mem_cons.mpr ⟨hsuits.typed, htyped⟩
    · intro first hfirst hty
      cases hfirst
      exact ⟨v, rfl, hsuits.tagged hty⟩

omit hreads in
/-- Where nothing is expected, the first element has the type of all. -/
theorem head_of_typeOf_list {scope : Scope}
    (h : Covenant.typeOf scope (.list line items) none = .ok (.list element))
    (hknown : element.hasUnknown = false) :
    ∃ first ∈ items.head?, Covenant.typeOf scope first none = .ok element := by
  have hlist (items : List Typing) (want : Ty) (h : listOf items want = .ok (.list element)) :
      want = element := by
    obtain ⟨_, -, h⟩ := Except.bind_eq_ok_iff.mp h
    exact Ty.list.inj (Except.pure_eq_ok_iff.mp h)
  cases items with
  | nil =>
    obtain rfl := hlist [] .unknown h
    simp [Ty.hasUnknown] at hknown
  | cons first rest =>
    obtain ⟨want, hwant, h⟩ := Except.bind_eq_ok_iff.mp h
    obtain rfl := hlist _ want h
    exact ⟨first, rfl, hwant⟩

/-- A list is put together on the stack, and by evaluation, from the back. -/
theorem computes_emitList (line : Nat)
    (hitems : ∀ e ∈ items, e.Faithful I config σ ∧
      checkElement element (typing ⟨config.records, l⟩ e) = .ok ()) :
    Computes I config l s [] (emitList line (operands items) (.list element))
      (I.eval config.records σ (.list line items)) fun _ t v =>
        t = [v.datum] ∧ v.Suits I ⟨config.records, l⟩ (.list line items) (.list element) := by
  unfold emitList
  refine computes_when fun hknown => ?_
  have hknown : element.hasUnknown = false := by simpa using hknown
  refine computes_apply_bind [] rfl rfl ?_
  refine Computes.map ((computes_consAll hreads fun e he => ?_).mono fun _ u vs hvs => ?_)
  · exact ⟨(hitems e he).1, typeOf_of_checkElement hknown (hitems e he).2⟩
  · obtain ⟨rfl, htyped, hhead⟩ := hvs
    refine ⟨rfl, by rw [Ty.hasUnknown, hknown], ?_, fun hty => ?_⟩
    · rw [Has, Datum.IsOf]
      exact ⟨_, rfl, by simpa [Has] using htyped⟩
    · obtain ⟨first, hfirst, hfirstTy⟩ := head_of_typeOf_list hty hknown
      obtain ⟨v, hv, htag⟩ := hhead first hfirst hfirstTy
      refine htag.imp (fun hflat => by rw [Ty.isFlat, hflat]) fun heq => ?_
      rw [Val.ofList, hv]
      exact congrArg Ty.list heq

/-! ## Attributes and subscripts -/

/-- An attribute is the storage, or a component of the record in front of it. -/
theorem evaluates_emitAttribute {value : Expr}
    (hvalue : value.Faithful I config σ) {field : Ident}
    (h : attributeType ⟨config.records, l⟩ line value field
      (typing ⟨config.records, l⟩ value) = .ok found) :
    Evaluates I config l s
      (emitAttribute (Expr.attr line value field).isStorage value.operand field)
      (I.eval config.records σ (.attr line value field)) found := by
  rw [eval]
  rcases attributeType_eq_ok h with ⟨hstorage, hty⟩ | ⟨hstorage, -, name, fields, i, hty, hfield⟩
  · rw [hstorage]
    obtain ⟨slot, hc⟩ := hreads.wellFormed.cell?_of_ty? hty
    obtain ⟨v, hv, hfetch⟩ := evaluates_fetch hreads (by decide +kernel) hc
    rw [if_pos rfl, hv]
    exact hfetch
  · rw [hstorage]
    refine (hvalue.value hreads).bind fun ty u v hv => ?_
    obtain ⟨htype, rfl, hsuits⟩ := hv
    cases htype.symm.trans hty
    refine computes_typed_bind fun node hnode => ?_
    rw [fieldNode_eq, hfield] at hnode
    cases hnode
    have htyped := hsuits.typed
    rw [Has, Datum.IsOf] at htyped
    obtain ⟨part, hpart, hnode, hparttyped⟩ :=
      Datum.component_of_areOf htyped (Fields.getElem?_of_find? hfield)
    -- the evaluator finds the attribute by its name, the machine by its node
    have heval : v.field? field = some ⟨found, part⟩ := by
      rw [Val.field?, (hsuits.tagged hty).eq rfl]
      simp [hfield, hpart]
    have hknown := hsuits.known
    rw [Ty.hasUnknown] at hknown
    rw [heval]
    refine computes_apply [v.datum] rfl ?_
    simp only [prim, hnode]
    exact .ends ⟨rfl, Ty.known_of_find? hknown hfield, hparttyped, .inr rfl⟩

/-- Looking up a key that is missing aborts in the machine and in the evaluator. -/
theorem evaluates_emitSubscript {value index : Expr}
    (hvalue : value.Faithful I config σ) (hindex : index.Faithful I config σ)
    (h : subscriptType line (typing ⟨config.records, l⟩ value)
      (typing ⟨config.records, l⟩ index) = .ok found) :
    Evaluates I config l s (emitSubscript value.operand index.operand)
      (I.eval config.records σ (.subscript line value index)) found := by
  obtain ⟨map, key, hmap, hentry, hkey⟩ := subscriptType_eq_ok h
  obtain ⟨big, rfl⟩ := Ty.keyValue?_eq_some hentry
  refine (hvalue.value hreads).bind fun ty u m hm => ?_
  obtain ⟨htype, rfl, hsuits⟩ := hm
  cases htype.symm.trans hmap
  have hknown := hsuits.known
  rw [Ty.hasUnknown, Bool.or_eq_false_iff] at hknown
  have htag : m.ty = .map big key found := (hsuits.tagged hmap).eq rfl
  refine (hindex.pushAs hreads (typeOf_of_checkElement hknown.1 hkey)).bind fun _ u k hk => ?_
  obtain ⟨rfl, hksuits⟩ := hk
  refine computes_apply_bind [k.datum, m.datum] rfl rfl (computes_unwrapOr _ ?_)
  -- the value found is as typed as the map that it comes from
  rw [lookedUp, htag]
  simp only [Ty.keyValue?]
  cases hfound : I.get k.datum m.datum with
  | none => exact .aborts _
  | some d =>
    exact .ends ⟨rfl, hknown.2, I.get_typed hksuits.typed hsuits.typed hfound, .inr rfl⟩

/-! ## Operators -/

omit hreads in
/-- The types of two operands do not depend on the values on top. -/
theorem computes_pairTypes_bind {β γ : Type} {x : Outcome α γ}
    {P : β → List (Datum α) → γ → Prop}
    {rule : Expr → Expr → Typing → Typing → Typed (Ty × Ty)}
    {next : Ty × Ty → Gen β}
    (h : ∀ tys, rule left right (typing ⟨config.records, l⟩ left)
        (typing ⟨config.records, l⟩ right) = .ok tys → Computes I config l s t (next tys) x P) :
    Computes I config l s t (pairTypes rule left.operand right.operand >>= next) x P := by
  unfold pairTypes
  rw [bind_assoc]
  refine computes_scope_bind fun l' hkeeps => computes_typed_bind fun tys htys => ?_
  rw [typing_of_alike hkeeps.alike, typing_of_alike hkeeps.alike] at htys
  exact h tys htys

/-- Two operands, the right one first. -/
theorem computes_operands
    (hleft : left.Faithful I config σ) (hright : right.Faithful I config σ) {partner : Ty → Ty}
    {leftTy rightTy : Ty}
    (h : operandTypes partner left right (typing ⟨config.records, l⟩ left)
      (typing ⟨config.records, l⟩ right) = .ok (leftTy, rightTy))
    {next : Gen Unit} {f : Val α → Val α → Outcome α γ}
    {P : Unit → List (Datum α) → γ → Prop}
    (hnext : ∀ v w, I.Has leftTy v.datum → I.Has rightTy w.datum →
      Computes I config l s [v.datum, w.datum] next (f w v) P) :
    Computes I config l s []
      (do right.operand.pushAs rightTy; left.operand.pushAs leftTy; next)
      (do
        let w ← I.eval config.records σ right
        let v ← I.eval config.records σ left
        f w v) P := by
  obtain ⟨hleftTy, hrightTy⟩ := typeOf_of_operandTypes h
  refine (hright.pushAs hreads hrightTy).bind fun _ u w hw => ?_
  obtain ⟨rfl, hwsuits⟩ := hw
  refine (hleft.pushAs hreads hleftTy).bind fun _ u v hv => ?_
  obtain ⟨rfl, hvsuits⟩ := hv
  exact hnext v w hvsuits.typed hwsuits.typed

omit hreads in
/-- A boolean answer. -/
theorem Computes.bool {step : Gen Unit} {x : Outcome α Bool}
    (h : Computes I config l s t step x fun _ u b => u = [.bool b]) :
    Computes I config l s t step (do return ⟨.bool, .bool (← x)⟩) fun _ u v =>
      u = [v.datum] ∧ Val.Fills I .bool v :=
  Computes.map (h.mono fun _ _ b hu => ⟨hu, rfl, ⟨b, rfl⟩, .inl rfl⟩)

/-- Looking for a key: the map is evaluated first. -/
theorem computes_emitMembership {key map : Expr}
    (hkey : key.Faithful I config σ) (hmap : map.Faithful I config σ) {mapTy keyTy value : Ty}
    (hmapTy : (typing ⟨config.records, l⟩ map).alone = .ok mapTy)
    (hentry : mapTy.keyValue? = some (keyTy, value))
    (h : checkElement keyTy (typing ⟨config.records, l⟩ key) = .ok ())
    {f : Val α → Val α → Outcome α γ} {P : Unit → List (Datum α) → γ → Prop} (next : Gen Unit)
    (hnext : ∀ m k, Computes I config l s [.bool (I.contains k.datum m.datum)] next (f m k) P) :
    Computes I config l s [] (do emitMembership key.operand map.operand; next)
      (do
        let m ← I.eval config.records σ map
        let k ← I.eval config.records σ key
        f m k) P := by
  obtain ⟨big, rfl⟩ := Ty.keyValue?_eq_some hentry
  unfold emitMembership
  rw [bind_assoc]
  refine (hmap.value hreads).bind fun ty u m hm => ?_
  obtain ⟨htype, rfl, hsuits⟩ := hm
  cases htype.symm.trans hmapTy
  have hknown := hsuits.known
  rw [Ty.hasUnknown, Bool.or_eq_false_iff] at hknown
  simp only [Ty.keyValue?, bind_assoc]
  refine (hkey.pushAs hreads (typeOf_of_checkElement hknown.1 h)).bind fun _ u k hk => ?_
  obtain ⟨rfl, -⟩ := hk
  exact computes_apply_bind [k.datum, m.datum] rfl rfl (hnext m k)

omit hreads in
/-- The tests of the machine are those of the evaluator. -/
theorem concurs_comparisonTest {op : CmpOp} {test : Prim} (h : comparisonTest? op = some test)
    (v w : Datum α) :
    test.arity = 1 ∧ Concurs (fun d b => d = .bool b) (I.prim test [.int (I.compare v w)])
      (I.compared v op w) := by
  cases op <;> simp only [comparisonTest?, Option.some.injEq, reduceCtorEq] at h <;>
    subst h <;> exact ⟨rfl, .ends rfl⟩

/-- The outcome of a comparison is tested as the operator says. -/
theorem evaluates_emitCompare
    (hleft : left.Faithful I config σ) (hright : right.Faithful I config σ) {op : CmpOp}
    (h : compareType left op right (typing ⟨config.records, l⟩ left)
      (typing ⟨config.records, l⟩ right) = .ok found) :
    Evaluates I config l s (emitCompare left.operand op right.operand)
      (I.eval config.records σ (.compare line left [(op, right)])) found := by
  obtain ⟨rfl, ⟨hop, map, key, value, hmap, hentry, hkey⟩ |
    ⟨hisIn, hnotIn, -, -, operand, htypes, hcomparable⟩⟩ := compareType_eq_ok h
  · rcases hop with rfl | rfl
    · have hmember := computes_emitMembership hreads hleft hright hmap hentry hkey
        (pure ()) fun m k => Computes.bool (computes_pure (c := I.contains k.datum m.datum) rfl)
      rw [bind_pure] at hmember
      exact hmember
    · refine computes_emitMembership hreads hleft hright hmap hentry hkey _ fun m k => ?_
      exact Computes.bool (computes_apply [_] rfl (.ends rfl))
  · unfold emitCompare
    split
    · contradiction
    · contradiction
    refine computes_pairTypes_bind fun tys htys => ?_
    cases htys.symm.trans htypes
    refine computes_operands hreads hleft hright htypes fun v w _ _ => Computes.bool ?_
    refine computes_apply_bind [v.datum, w.datum] rfl rfl ?_
    cases htest : comparisonTest? op with
    | none => exact computes_defect
    | some test =>
      obtain ⟨harity, hconcurs⟩ := concurs_comparisonTest htest v.datum w.datum (I := I)
      refine computes_apply [.int (I.compare v.datum w.datum)] harity.symm ?_
      exact hconcurs.mono fun d b hd => by rw [hd]

omit hreads in
/-- Division keeps one half of quotient and remainder. -/
theorem computes_divide {v w : Datum α} {half : Prim} (pick : Datum α × Datum α → Datum α)
    (harity : half.arity = 1) (hhalf : ∀ q r, I.prim half [.pair q r] = .ends (pick (q, r)))
    {P : Unit → List (Datum α) → Datum α → Prop}
    (h : ∀ q r, I.divide v w = some (q, r) → P () [pick (q, r)] (pick (q, r))) :
    Computes I config l s [v, w] (divide half) (do return pick (← I.divided v w)) P := by
  refine computes_apply_bind [v, w] rfl rfl ?_
  have hunwrap : Computes I config l s
      [.ofOption ((I.divide v w).map fun parts => .pair parts.1 parts.2)]
      (emit (unwrapOr "Division by 0 not allowed")) (I.divided v w) fun _ u parts =>
        u = [.pair parts.1 parts.2] ∧ I.divide v w = some parts := by
    refine computes_unwrapOr _ ?_
    rw [divided]
    cases hparts : I.divide v w with
    | none => exact .aborts _
    | some parts => exact .ends ⟨rfl, rfl⟩
  refine hunwrap.bind fun _ u parts hu => ?_
  obtain ⟨rfl, hparts⟩ := hu
  refine computes_apply [.pair parts.1 parts.2] harity.symm ?_
  rw [hhalf]
  exact .ends (h _ _ hparts)

omit hreads in
theorem isFlat_of_arithmeticResult? {left right : Ty}
    (h : arithmeticResult? op left right = some found) : found.isFlat = true := by
  unfold arithmeticResult? at h
  split at h
  all_goals
    first
    | cases h
      rfl
    | simp at h

omit hreads in
/-- Arithmetic that is not on text is on integers. -/
theorem int_of_arithmeticResult? {a b : Base} (ha : a ≠ .string)
    (h : arithmeticResult? op (.base a) (.base b) = some found) {d : Datum α}
    (hd : I.Has (.base a) d) : ∃ n, d = .int n := by
  cases a with
  | int | nat | mutez | timestamp => exact hd
  | string => contradiction
  | _ => cases op <;> cases b <;> simp [arithmeticResult?] at h

/-- Text is put together, numbers are added, subtracted, multiplied and divided. -/
theorem evaluates_emitBinary
    (hleft : left.Faithful I config σ) (hright : right.Faithful I config σ)
    (h : binaryType left op right (typing ⟨config.records, l⟩ left)
      (typing ⟨config.records, l⟩ right) = .ok found) :
    Evaluates I config l s (emitBinary left.operand op right.operand)
      (I.eval config.records σ (.binary line left op right)) found := by
  obtain ⟨hdiv, hpow, leftTy, rightTy, htypes, hresult⟩ := binaryType_eq_ok h
  obtain ⟨a, b, rfl, rfl, hknown⟩ := arithmeticResult?_eq_some hresult
  have hflat := isFlat_of_arithmeticResult? hresult
  refine computes_pairTypes_bind fun tys htys => ?_
  cases htys.symm.trans htypes
  refine computes_operands hreads hleft hright htypes fun v w hv hw => Computes.map ?_
  have hfills {d : Datum α} (hd : I.Has found d) : Val.Fills I found ⟨v.ty, d⟩ :=
    ⟨hknown, hd, .inl hflat⟩
  have hmachine (hop : op = .add ∨ op = .sub ∨ op = .mult) :
      Concurs (fun d c => [d] = [c] ∧ Val.Fills I found ⟨v.ty, c⟩)
        (.ofExcept (I.arithmetic op v.datum w.datum))
        (.ofExcept (I.arithmetic op v.datum w.datum)) :=
    concurs_ofExcept _ fun d hd => ⟨rfl, hfills (I.arithmetic_typed hresult hv hw hd)⟩
  cases op with
  | add =>
    dsimp only
    split
    · next hstring =>
      obtain rfl : a = .string := Ty.base.inj hstring
      obtain ⟨-, rfl, rfl⟩ := arithmeticResult?_string hresult
      obtain ⟨text, htext⟩ := hv
      rw [htext]
      exact computes_apply [.string text, w.datum] rfl
        (concurs_ofExcept (I.concat (.string text) w.datum) fun d hd =>
          ⟨rfl, hfills (I.concat_typed ⟨text, rfl⟩ hw hd)⟩)
    · next hstring =>
      obtain ⟨n, hn⟩ := int_of_arithmeticResult? (fun ha => hstring (congrArg Ty.base ha)) hresult hv
      rw [hn] at hmachine ⊢
      exact computes_apply [.int n, w.datum] rfl (hmachine (.inl rfl))
  | sub => exact computes_apply [v.datum, w.datum] rfl (hmachine (.inr (.inl rfl)))
  | mult => exact computes_apply [v.datum, w.datum] rfl (hmachine (.inr (.inr rfl)))
  | floorDiv =>
    exact computes_divide Prod.fst rfl (fun _ _ => rfl) fun q r hparts =>
      ⟨rfl, hfills (I.divide_typed hresult hv hw hparts).1⟩
  | mod =>
    -- quotient and remainder have the same type
    have hresult : arithmeticResult? .floorDiv (.base a) (.base b) = some found := by
      obtain ⟨rfl, hnumeric, rfl⟩ := arithmeticResult?_division (.inr rfl) hresult
      cases b <;> first | rfl | contradiction
    exact computes_divide Prod.snd rfl (fun _ _ => rfl) fun q r hparts =>
      ⟨rfl, hfills (I.divide_typed hresult hv hw hparts).2⟩
  | div | pow => contradiction

/-- Booleans and numbers are negated. -/
theorem evaluates_emitUnary {operand : Expr}
    (hoperand : operand.Faithful I config σ) {op : UnOp}
    (h : unaryType line op (typing ⟨config.records, l⟩ operand) = .ok found) :
    Evaluates I config l s (emitUnary op operand.operand)
      (I.eval config.records σ (.unary line op operand)) found := by
  refine (hoperand.value hreads).bind fun ty u v hv => ?_
  obtain ⟨htype, rfl, hsuits⟩ := hv
  refine Computes.map ?_
  have hnegate (hint : I.Has .int v.datum) :
      Computes I config l s [v.datum] (apply .neg) (.ofExcept (I.negate v.datum))
        fun _ u d => u = [d] ∧ Val.Fills I .int ⟨v.ty, d⟩ :=
    computes_apply [v.datum] rfl (concurs_ofExcept _ fun d hd =>
      ⟨rfl, rfl, I.negate_typed hint hd, .inl rfl⟩)
  have htyped := hsuits.typed
  rcases unaryType_eq_ok h with ⟨rfl, hbool, rfl⟩ | ⟨rfl, hint | hnat, rfl⟩
  · cases htype.symm.trans hbool
    obtain ⟨b, hb⟩ := htyped
    rw [hb]
    exact computes_apply [.bool b] rfl (.ends ⟨rfl, rfl, ⟨!b, rfl⟩, .inl rfl⟩)
  · cases htype.symm.trans hint
    exact hnegate htyped
  · cases htype.symm.trans hnat
    exact hnegate htyped

omit hreads in
/-- A connective combines the two booleans on top. -/
theorem prim_connective (op : BoolOp) (b c : Bool) :
    2 = (connective op).arity ∧
      I.prim (connective op) [.bool c, .bool b] = .ends (.bool (op.combine b c)) := by
  cases op with
  | and => exact ⟨rfl, by rw [BoolOp.combine, Bool.and_comm]; rfl⟩
  | or => exact ⟨rfl, by rw [BoolOp.combine, Bool.or_comm]; rfl⟩

theorem computes_connectAll {op : BoolOp} :
    ∀ {items : List Expr} {b : Bool}, (∀ e ∈ items, e.Faithful I config σ ∧
      Covenant.typeOf ⟨config.records, l⟩ e (some .bool) = .ok .bool) →
    Computes I config l s [.bool b] (connectAll op (operands items))
      (I.evalBooleans config.records σ op b items) fun _ u c => u = [.bool c]
  | [], b, _ => computes_pure rfl
  | e :: rest, b, h => by
    obtain ⟨he, hrest⟩ := List.forall_mem_cons.mp h
    refine (he.1.pushAs hreads he.2).bind fun _ u v hv => ?_
    obtain ⟨rfl, hsuits⟩ := hv
    obtain ⟨c, hc⟩ := hsuits.typed
    rw [hc]
    obtain ⟨harity, hprim⟩ := prim_connective op b c (I := I)
    exact computes_apply_bind [.bool c, .bool b] harity hprim (computes_connectAll hrest)

/-- Every operand of a connective is run, in order. -/
theorem evaluates_emitBoolean {op : BoolOp}
    (h : ∀ e ∈ items, e.Faithful I config σ ∧
      Covenant.typeOf ⟨config.records, l⟩ e (some .bool) = .ok .bool) :
    Evaluates I config l s (emitBoolean op (operands items))
      (I.eval config.records σ (.boolean line op items)) .bool := by
  refine Computes.bool ?_
  cases items with
  | nil => exact computes_defect
  | cons first rest =>
    obtain ⟨hfirst, hrest⟩ := List.forall_mem_cons.mp h
    refine (hfirst.1.pushAs hreads hfirst.2).bind fun _ u v hv => ?_
    obtain ⟨rfl, hsuits⟩ := hv
    obtain ⟨b, hb⟩ := hsuits.typed
    rw [hb]
    dsimp only
    rw [BoolOp.combine_neutral]
    exact computes_connectAll hreads hrest

/-! ## Records and closures -/

omit hreads in
/-- Checked arguments have the types that the callee declares. -/
theorem computes_checkTypes : ∀ {items : List Expr} {wants : List Ty},
    items.length = wants.length →
    Computes I config l s t (Operand.checkTypes name (operands items) wants) (.ends ())
      fun _ u _ => u = t ∧ List.Forall₂
        (fun e want => Covenant.typeOf ⟨config.records, l⟩ e (some want) = .ok want) items wants
  | [], [], _ => computes_pure ⟨rfl, .nil⟩
  | e :: rest, want :: wants, hlength => by
    refine computes_typeOf_bind fun ty hty => computes_unless fun hfits => ?_
    refine (computes_checkTypes (Nat.succ.inj hlength)).mono fun _ u _ hu => ⟨hu.1, .cons ?_ hu.2⟩
    exact typeOf_eq_of_fits hty hfits ▸ hty

omit hreads in
theorem computes_checkArguments {wants : List Ty} :
    Computes I config l s t (Operand.checkArguments name line (operands items) wants) (.ends ())
      fun _ u _ => u = t ∧ List.Forall₂
        (fun e want => Covenant.typeOf ⟨config.records, l⟩ e (some want) = .ok want) items wants :=
  computes_unless fun hlength => computes_checkTypes (by
    rwa [← List.length_map (f := Operand.expr), map_expr_operands] at hlength)

/-- Arguments are evaluated last to first, so that the first is on top. -/
theorem computes_pushAllReversed :
    ∀ {items : List Expr} {wants : List Ty}, (∀ e ∈ items, e.Faithful I config σ) →
    List.Forall₂ (fun e want =>
      Covenant.typeOf ⟨config.records, l⟩ e (some want) = .ok want) items wants →
    Computes I config l s t (Operand.pushAllReversed (operands items) wants)
      (I.evalAll config.records σ items) fun _ u vs => u = vs.map Val.datum ++ t ∧
        List.Forall₂ (fun ty d => d.IsOf I.inhabits ty) wants (vs.map Val.datum)
  | [], _, _, .nil => computes_pure ⟨rfl, .nil⟩
  | e :: rest, _, h, .cons he hrest => by
    obtain ⟨hfaithful, hothers⟩ := List.forall_mem_cons.mp h
    refine (computes_pushAllReversed hothers hrest).bind fun _ u vs hvs => ?_
    obtain ⟨rfl, htyped⟩ := hvs
    refine Computes.map ((hfaithful.pushAs hreads he).mono fun _ u v hv => ?_)
    obtain ⟨rfl, hsuits⟩ := hv
    exact ⟨rfl, .cons hsuits.typed htyped⟩

/-- A record is a comb of the values of its attributes. -/
theorem evaluates_callRecord {fields : Fields}
    (hrecord : config.records.get? name = some fields) (hfree : σ name = none)
    (hargs : ∀ e ∈ args, e.Faithful I config σ) {keywords : List (Ident × Operand)} :
    Evaluates I config l s (callRecord line name fields (operands args) keywords)
      (do I.called config.records σ name (← I.evalAll config.records σ args))
      (.record name fields) := by
  obtain ⟨hfields, hknown⟩ := hreads.records hrecord
  rw [callRecord, buildRecord_eq]
  refine computes_unless fun _ => ?_
  refine computes_checkArguments.prepare fun _ u hu => ?_
  obtain ⟨rfl, htypes⟩ := hu
  refine (computes_pushAllReversed hreads hargs htypes).bind fun _ u vs hvs => ?_
  obtain ⟨rfl, htyped⟩ := hvs
  have hrecordTyped : I.Has (.record name fields) (.comb (vs.map Val.datum)) := by
    rw [Has, Datum.IsOf]
    exact Datum.areOf_comb hfields htyped
  have hfills : Val.Fills I (.record name fields)
      ⟨.record name fields, .comb (vs.map Val.datum)⟩ :=
    ⟨by rw [Ty.hasUnknown]; exact hknown, hrecordTyped, .inr rfl⟩
  have hlength : (vs.map Val.datum).length = fields.length := by
    rw [← htyped.length_eq, Fields.types, List.length_map]
  rw [called, hfree, hrecord]
  refine .ite (fun hmany => ?_) fun hone => ?_
  · exact computes_apply (vs.map Val.datum) hlength (.ends ⟨rfl, hfills⟩)
  · -- a record with one attribute is that attribute
    refine computes_pure ⟨?_, hfills⟩
    rw [List.append_nil]
    have hpos : 0 < fields.length := List.length_pos_of_ne_nil hfields
    obtain ⟨d, hd⟩ := List.length_eq_one_iff.mp (hlength.trans (by omega))
    rw [hd]
    rfl

omit hreads in
/-- The argument and the closure beneath it make room for the result. -/
theorem computes_exec {a f : Datum α} {x : Outcome α γ} {P : Unit → List (Datum α) → γ → Prop}
    (h : Concurs (fun d c => P () [d] c) (.ofExcept (I.call a f)) x) :
    Computes I config l s [a, f] (do emit .exec; pop 1) x P := by
  intro state done hafter hdone
  obtain ⟨-, rfl⟩ := emit_pop_eq_ok_iff.mp hdone
  have hend : l.After 1 (state.layout.atDepth (state.layout.depth - 1)) := by
    have hdepth := hafter.depth
    rw [List.length_cons, List.length_singleton] at hdepth
    exact hafter.atDepth (by omega)
  show Concurs _ (I.run [.exec] ([a, f] ++ s)) _
  rw [run_singleton]
  simp only [List.cons_append, List.nil_append, step]
  -- what the closure does is the same on both sides
  generalize Outcome.ofExcept (I.call a f) = y at h ⊢
  cases h with
  | aborts v => exact .aborts v
  | @ends d c hd => exact .ends ⟨[d], rfl, hend, hd⟩

/-- A closure is applied to the value of its argument. -/
theorem evaluates_callClosure {line funcLine : Nat}
    (hplain : Ident.isPlain name = true) (hbound : l.binds name = true)
    (hfunc : (Expr.name funcLine name).Faithful I config σ) {want result : Ty}
    (hty : (typing ⟨config.records, l⟩ (.name funcLine name)).alone = .ok (.lambda want result))
    (hargs : ∀ e ∈ args, e.Faithful I config σ) :
    Evaluates I config l s
      (callClosure line (Expr.name funcLine name).operand (operands args) [] want)
      (do I.called config.records σ name (← I.evalAll config.records σ args)) result := by
  match args, hargs with
  | [], _ | _ :: _ :: _, _ => exact fun _ _ _ hdone => absurd hdone failAt_ne_ok
  | [arg], hargs =>
    have harg : arg.Faithful I config σ := hargs arg (by simp)
    obtain ⟨f, hf⟩ : ∃ f, σ name = some f :=
      Option.isSome_iff_exists.mp ((hreads.isSome_eq_binds hplain).trans hbound)
    have hname : I.eval config.records σ (.name funcLine name) = .ends f := by
      rw [eval, evalName, hf]
    -- evaluating the name of the closure first makes no difference
    have horder : (do I.called config.records σ name (← I.evalAll config.records σ [arg])) =
        (do
          let _ ← I.eval config.records σ (.name funcLine name)
          let a ← I.eval config.records σ arg
          I.called config.records σ name [a]) := by
      simp [evalAll, hname]
    rw [horder]
    refine computes_typeOf_bind fun ty hargTy => computes_unless fun hwant => ?_
    subst hwant
    refine computes_annotate_bind ((hfunc.value hreads).and_ends.bind fun found u g hg => ?_)
    obtain ⟨⟨hfound, rfl, hsuits⟩, hends⟩ := hg
    obtain rfl : g = f := by
      rw [hname] at hends
      exact (Outcome.ends.inj hends).symm
    cases hfound.symm.trans hty
    have hknown := hsuits.known
    rw [Ty.hasUnknown, Bool.or_eq_false_iff] at hknown
    refine (harg.pushAs hreads hargTy).bind fun _ u a ha => ?_
    obtain ⟨rfl, hasuits⟩ := ha
    rw [called, hf]
    simp only [(hsuits.tagged hty).eq rfl]
    refine Computes.map (computes_exec (concurs_ofExcept _ fun d hd => ⟨rfl, hknown.2, ?_, .inr rfl⟩))
    exact I.call_typed hasuits.typed hsuits.typed hd

/-! ## The recursion over the tree -/

omit hreads in
/-- In the core language a name that is called is that of a record class or of a closure. -/
theorem calleeOf_name {records : Records} {callee : Callee}
    (hcore : records.contains id = true ∨ Builtin.isName id = false)
    (h : calleeOf ⟨records, l⟩ (.name line id) = .ok callee) :
    (∃ fields, callee = .record id fields ∧ l.binds id = false ∧
        records.get? id = some fields) ∨
      ∃ arg result, callee = .closure arg result ∧ l.binds id = true ∧
        (typing ⟨records, l⟩ (.name line id)).alone = .ok (.lambda arg result) := by
  simp only [calleeOf, Callee.classify] at h
  split at h
  · next hbound =>
    obtain ⟨arg, result, rfl, hty⟩ := Callee.ofValue_eq_ok h
    exact .inr ⟨arg, result, rfl, hbound, hty⟩
  · next hfree =>
    have hfree : l.binds id = false := by simpa using hfree
    unfold Callee.ofName at h
    split at h
    · next fields hfields =>
      cases h
      exact .inl ⟨fields, rfl, hfree, hfields⟩
    · next hnone =>
      have hname : Builtin.isName id = false := hcore.resolve_left (by simp [Table.contains, hnone])
      simp only [Builtin.isName, Bool.or_eq_false_iff, Option.isSome_eq_false_iff,
        Option.isNone_iff_eq_none] at hname
      simp [hname.1.2, hname.2, faultAt_ne_ok] at h

/-- A call of a name, at the type that the call has. -/
theorem computes_emitCall {line funcLine : Nat}
    (hplain : Ident.isPlain id = true)
    (hcore : config.records.contains id = true ∨ Builtin.isName id = false)
    (hfunc : (Expr.name funcLine id).Faithful I config σ)
    (hargs : ∀ e ∈ args, e.Faithful I config σ) {expected : Option Ty} {ty : Ty}
    (hty : Covenant.typeOf ⟨config.records, l⟩ (.call line (.name funcLine id) args []) expected =
      .ok ty) :
    Computes I config l s []
      (emitCall line (Expr.name funcLine id).operand none (operands args) [] ty)
      (I.eval config.records σ (.call line (.name funcLine id) args [])) fun _ t v =>
        t = [v.datum] ∧
          v.Suits I ⟨config.records, l⟩ (.call line (.name funcLine id) args []) ty := by
  obtain ⟨callee, found, hcallee, hfound, -, rfl⟩ := typeOf_call_eq_ok_iff.mp hty
  refine computes_scope_bind fun l' hkeeps => computes_typed_bind fun callee' hcallee' => ?_
  obtain rfl : callee' = callee := by
    have hsame : calleeOf ⟨config.records, l'⟩ (.name funcLine id) =
        calleeOf ⟨config.records, l⟩ (.name funcLine id) := by
      simp only [calleeOf, typing_of_alike hkeeps.alike, classify_of_alike hkeeps.alike]
    exact Except.ok.inj (hcallee'.symm.trans (hsame.trans hcallee))
  rcases calleeOf_name hcore hcallee with ⟨fields, rfl, hfree, hrecord⟩ |
    ⟨want, result, rfl, hbound, hclosure⟩
  · cases hfound
    have hunset : σ id = none := by
      have hsome := hreads.isSome_eq_binds hplain
      rw [hfree] at hsome
      simpa using hsome
    exact (evaluates_callRecord hreads hrecord hunset hargs).suits expected
  · cases hfound
    exact (evaluates_callClosure hreads hplain hbound hfunc hclosure hargs).suits expected

end Gen

mutual

/-- Every expression of the core language computes its value. -/
theorem Expr.faithful (I : Interpretation α) (config : Config) (σ : Store α) :
    ∀ {e : Expr}, e.isCore config.records = true → e.Faithful I config σ
  | .name line id, hcore => by
    intro l s expected ty hreads hty
    rw [Expr.isCore] at hcore
    obtain ⟨found, hfound, rfl⟩ := typeOf_name_eq_ok_iff.mp hty
    simpa only [emitExpr, eval] using
      (evaluates_emitName hreads hcore hfound).suits expected
  | .literal line value, _ => by
    intro l s expected ty hreads hty
    obtain ⟨found, hfound, rfl⟩ := typeOf_literal_eq_ok_iff.mp hty
    have hknown := (literalType_of_literalType hfound).1
    have hevaluates : Evaluates I config l s (emitLiteral value (found.adopted expected))
        (.ends (.ofLiteral value)) found := by
      rw [Ty.adopted_of_known hknown]
      exact evaluates_emitLiteral hfound
    simpa only [emitExpr, eval] using hevaluates.suits expected
  | .list line items, hcore => by
    intro l s expected ty hreads hty
    rw [Expr.isCore] at hcore
    obtain ⟨element, rfl, hitems⟩ := typeOf_list_eq_ok hty
    rw [emitExpr]
    exact computes_emitList hreads line fun e he => ⟨Expr.allFaithful I config σ hcore e he,
      checkElement_of_mem_operands hitems _ (mem_operands he)⟩
  | .attr line value field, hcore => by
    intro l s expected ty hreads hty
    rw [Expr.isCore] at hcore
    obtain ⟨found, hfound, rfl⟩ := typeOf_attr_eq_ok_iff.mp hty
    rw [emitExpr]
    exact (evaluates_emitAttribute hreads (Expr.faithful I config σ hcore) hfound).suits expected
  | .subscript line value index, hcore => by
    intro l s expected ty hreads hty
    rw [Expr.isCore, Bool.and_eq_true] at hcore
    obtain ⟨found, hfound, rfl⟩ := typeOf_subscript_eq_ok_iff.mp hty
    rw [emitExpr]
    exact (evaluates_emitSubscript hreads (Expr.faithful I config σ hcore.1)
      (Expr.faithful I config σ hcore.2) hfound).suits expected
  | .call line (.name funcLine id) args keywords, hcore => by
    intro l s expected ty hreads hty
    simp only [Expr.isCore, Bool.and_eq_true, Bool.or_eq_true, Bool.not_eq_true',
      List.isEmpty_iff] at hcore
    obtain ⟨⟨⟨hplain, hname⟩, rfl⟩, hargs⟩ := hcore
    have hfunc : (Expr.name funcLine id).Faithful I config σ :=
      Expr.faithful I config σ (by rw [Expr.isCore]; exact hplain)
    have hcall := computes_emitCall hreads hplain hname hfunc
      (Expr.allFaithful I config σ hargs) hty
    rw [emitExpr]
    · exact hcall
    · simp
  | .compare line left [(op, right)], hcore => by
    intro l s expected ty hreads hty
    rw [Expr.isCore, Bool.and_eq_true] at hcore
    obtain ⟨found, hfound, rfl⟩ := typeOf_compare_eq_ok_iff.mp hty
    rw [emitExpr]
    exact (evaluates_emitCompare hreads (Expr.faithful I config σ hcore.1)
      (Expr.faithful I config σ hcore.2) hfound).suits expected
  | .binary line left op right, hcore => by
    intro l s expected ty hreads hty
    rw [Expr.isCore, Bool.and_eq_true] at hcore
    obtain ⟨found, hfound, rfl⟩ := typeOf_binary_eq_ok_iff.mp hty
    rw [emitExpr]
    exact (evaluates_emitBinary hreads (Expr.faithful I config σ hcore.1)
      (Expr.faithful I config σ hcore.2) hfound).suits expected
  | .unary line op operand, hcore => by
    intro l s expected ty hreads hty
    rw [Expr.isCore] at hcore
    obtain ⟨found, hfound, rfl⟩ := typeOf_unary_eq_ok_iff.mp hty
    rw [emitExpr]
    exact (evaluates_emitUnary hreads (Expr.faithful I config σ hcore) hfound).suits expected
  | .boolean line op items, hcore => by
    intro l s expected ty hreads hty
    rw [Expr.isCore] at hcore
    obtain ⟨found, hfound, rfl⟩ := typeOf_boolean_eq_ok_iff.mp hty
    obtain ⟨-, hbooleans, rfl⟩ := booleanType_eq_ok hfound
    rw [emitExpr]
    exact Evaluates.suits (evaluates_emitBoolean hreads fun e he =>
      ⟨Expr.allFaithful I config σ hcore e he,
        typeOf_bool_of_mem_operands hbooleans _ (mem_operands he)⟩) expected
  | .tuple _ _, hcore | .dict _ _, hcore | .compare _ _ [], hcore
  | .compare _ _ (_ :: _ :: _), hcore => by simp [Expr.isCore] at hcore
  | .call _ (.literal _ _) _ _, hcore | .call _ (.list _ _) _ _, hcore
  | .call _ (.tuple _ _) _ _, hcore | .call _ (.dict _ _) _ _, hcore
  | .call _ (.attr _ _ _) _ _, hcore | .call _ (.subscript _ _ _) _ _, hcore
  | .call _ (.call _ _ _ _) _ _, hcore | .call _ (.compare _ _ _) _ _, hcore
  | .call _ (.binary _ _ _ _) _ _, hcore | .call _ (.unary _ _ _) _ _, hcore
  | .call _ (.boolean _ _ _) _ _, hcore => by simp [Expr.isCore] at hcore

theorem Expr.allFaithful (I : Interpretation α) (config : Config) (σ : Store α) :
    ∀ {items : List Expr}, areCore config.records items = true →
      ∀ e ∈ items, e.Faithful I config σ
  | [], _ => by simp
  | e :: rest, hcore => by
    rw [areCore, Bool.and_eq_true] at hcore
    exact List.forall_mem_cons.mpr
      ⟨faithful I config σ hcore.1, allFaithful I config σ hcore.2⟩

end

end Covenant
