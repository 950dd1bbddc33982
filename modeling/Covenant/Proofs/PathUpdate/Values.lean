import Covenant.Proofs.SemanticPreservation.Expr

/-!
# Covenant — writing into a value

A place inside a value is reached by hops: to an attribute of a record, or to what a map has under a
key. `Interpretation.follow` reads along hops. `Interpretation.write` is functional update: the
containers on the way are rebuilt around what is written. All of them have to be there but for the
last hop, under which a map may have nothing yet.

The interpretation says what an update of a map is. `Interpretation.Updates` asks that it inserts or
overwrites the one entry. Then, for hops that fit the type of the value,

* `write_eq_none_iff` — a write fails exactly if a key is missing on the way;
* `written_of_write` — what was written is read back, and all that branches off is as before.
-/

namespace Covenant

variable {α : Type}

/-! ## Parts of a record -/

namespace Datum

/-- Replaces node `n` of a right comb. -/
def setNode? : Nat → Datum α → Datum α → Option (Datum α)
  | 0, _, v => some v
  | 1, pair _ b, v => some (pair v b)
  | n + 2, pair a b, v => (setNode? n b v).map (pair a)
  | _, _, _ => none

/-- Replaces part `i` of a right comb of `n` values. -/
def setComponent : Nat → Nat → Datum α → Datum α → Option (Datum α)
  | 1, 0, _, v => some v
  | _ + 2, 0, pair _ b, v => some (pair v b)
  | n + 2, i + 1, pair a b, v => (setComponent (n + 1) i b v).map (pair a)
  | _, _, _, _ => none

variable {inhabits : Ty → α → Prop} {d d' v : Datum α} {n i j : Nat}

theorem component_setComponent (h : d.setComponent n i v = some d') :
    d'.component n i = some v := by
  fun_induction setComponent n i d v generalizing d' with
  | case1 d v => rw [component, h]
  | case2 n a b v =>
    cases h
    rw [component]
  | case3 n i a b v ih =>
    obtain ⟨b', hb, rfl⟩ := Option.map_eq_some_iff.mp h
    rw [component]
    exact ih hb
  | case4 => cases h

theorem component_setComponent_ne (h : d.setComponent n i v = some d') (hne : i ≠ j) :
    d'.component n j = d.component n j := by
  fun_induction setComponent n i d v generalizing d' j with
  | case1 d v =>
    cases j with
    | zero => exact absurd rfl hne
    | succ j => simp [component]
  | case2 n a b v =>
    cases h
    cases j with
    | zero => exact absurd rfl hne
    | succ j => rw [component, component]
  | case3 n i a b v ih =>
    obtain ⟨b', hb, rfl⟩ := Option.map_eq_some_iff.mp h
    cases j with
    | zero => rw [component, component]
    | succ j =>
      rw [component, component]
      exact ih hb (by omega)
  | case4 => cases h

/-- Each attribute of a record is replaced where the machine replaces a node. -/
theorem setComponent_of_areOf {fields : Fields} {i : Nat} {attr : Ident} {ty : Ty}
    (h : AreOf inhabits fields d) (hi : fields[i]? = some (attr, ty)) (hv : v.IsOf inhabits ty) :
    ∃ d', d.setComponent fields.length i v = some d' ∧
      d.setNode? (combIndex fields.length i) v = some d' ∧ AreOf inhabits fields d' := by
  induction fields generalizing i d with
  | nil => simp at hi
  | cons f rest ih =>
    obtain ⟨name, ty'⟩ := f
    cases rest with
    | nil =>
      obtain rfl : i = 0 := by
        cases i with
        | zero => rfl
        | succ i => simp at hi
      cases hi
      refine ⟨v, by simp [setComponent], by simp [combIndex, setNode?], ?_⟩
      rw [AreOf]
      exact hv
    | cons g more =>
      rw [AreOf] at h
      obtain ⟨a, b, rfl, ha, hb⟩ := h
      cases i with
      | zero =>
        cases hi
        refine ⟨pair v b, by simp [setComponent], by simp [combIndex, setNode?], ?_⟩
        rw [AreOf]
        exact ⟨v, b, rfl, hv, hb⟩
      | succ i =>
        obtain ⟨b', hb', hnode, htyped⟩ := ih hb hi
        refine ⟨pair a b', ?_, ?_, ?_⟩
        · simpa only [List.length_cons, setComponent, Option.map_eq_some_iff] using
            ⟨b', hb', rfl⟩
        · rw [List.length_cons, List.length_cons, combIndex_succ, setNode?]
          exact Option.map_eq_some_iff.mpr ⟨b', hnode, rfl⟩
        · rw [AreOf]
          exact ⟨a, b', rfl, ha, htyped⟩

end Datum

/-! ## Hops -/

/-- A step into a value. -/
inductive Hop (α : Type) where
  /-- To part `i` of a record with `n` attributes. -/
  | part (n i : Nat)
  /-- To what a map has under a key. -/
  | key (k : Datum α)

/-- The two hops lead from a container of the same shape to different places. -/
def Hop.Apart : Hop α → Hop α → Prop
  | .part n i, .part m j => n = m ∧ i ≠ j
  | .key k, .key k' => k ≠ k'
  | _, _ => False

namespace Interpretation

variable (I : Interpretation α)

/-- What a hop leads to. -/
def look : Hop α → Datum α → Option (Datum α)
  | .part n i, d => d.component n i
  | .key k, d => I.get k d

/-- What hops lead to, one after the other. -/
def follow : List (Hop α) → Datum α → Option (Datum α)
  | [], d => some d
  | hop :: rest, d => (I.look hop d).bind (follow rest)

/-- The container with a value where a hop leads. -/
def put : Hop α → Datum α → Datum α → Option (Datum α)
  | .part n i, v, d => d.setComponent n i v
  | .key k, v, d => (I.other .mapUpdate [k, .present v, d]).toOption

/-- The value with another one written where hops lead. Each container on the way is rebuilt. -/
def write : List (Hop α) → Datum α → Datum α → Option (Datum α)
  | [], v, _ => some v
  | [last], v, d => I.put last v d
  | hop :: rest, v, d => do
    let inner ← I.look hop d
    I.put hop (← write rest v inner) d

/-- Somewhere along the hops, a map does not have the key that is looked for. -/
def Misses (hops : List (Hop α)) (d : Datum α) : Prop :=
  ∃ before k after inner, hops = before ++ .key k :: after ∧ I.follow before d = some inner ∧
    I.get k inner = none

/-- The primitives that update records and maps do so: a record gets a new part, and a map gets an
entry, which takes the place of one with the same key. -/
structure Updates : Prop where
  record : ∀ {n : Nat} {d d' v : Datum α}, d.setNode? n v = some d' →
    I.other (.update n) [v, d] = .ok d'
  map : ∀ {big : Bool} {key value : Ty} {k v d : Datum α}, I.Has key k → I.Has value v →
    I.Has (.map big key value) d →
    ∃ d', I.other .mapUpdate [k, .present v, d] = .ok d' ∧ I.Has (.map big key value) d' ∧
      I.get k d' = some v ∧ ∀ k', k ≠ k' → I.get k' d' = I.get k' d

/-- The hop leads from values of the one type to values of the other. -/
inductive Leads : Ty → Hop α → Ty → Prop where
  | part {name : Ident} {fields : Fields} {i : Nat} {attr : Ident} {inner : Ty} :
      fields[i]? = some (attr, inner) → Leads (.record name fields) (.part fields.length i) inner
  | key {big : Bool} {key inner : Ty} {k : Datum α} : I.Has key k →
      Leads (.map big key inner) (.key k) inner

/-- The hops lead from values of the one type to values of the other. -/
inductive Lead : Ty → List (Hop α) → Ty → Prop where
  | nil (ty : Ty) : Lead ty [] ty
  | cons {outer inner leaf : Ty} {hop : Hop α} {rest : List (Hop α)} : I.Leads outer hop inner →
      Lead inner rest leaf → Lead outer (hop :: rest) leaf

variable {I} {d d' v : Datum α} {hop : Hop α} {hops : List (Hop α)} {outer inner leaf : Ty}

/-! ## One hop -/

theorem has_record_iff {name : Ident} {fields : Fields} :
    I.Has (.record name fields) d ↔ Datum.AreOf I.inhabits fields d := by
  rw [Has, Datum.IsOf]

theorem has_look (hleads : I.Leads outer hop inner) (hd : I.Has outer d) {e : Datum α}
    (h : I.look hop d = some e) : I.Has inner e := by
  cases hleads with
  | @part name fields i attr inner hi =>
    obtain ⟨part, hpart, -, htyped⟩ := Datum.component_of_areOf (has_record_iff.mp hd) hi
    cases hpart.symm.trans h
    exact htyped
  | key hk => exact I.get_typed hk hd h

/-- Only keys can be missing. -/
theorem look_eq_none (hleads : I.Leads outer hop inner) (hd : I.Has outer d)
    (h : I.look hop d = none) : ∃ k, hop = .key k ∧ I.get k d = none := by
  cases hleads with
  | @part name fields i attr inner hi =>
    obtain ⟨part, hpart, -⟩ := Datum.component_of_areOf (has_record_iff.mp hd) hi
    exact absurd (hpart.symm.trans h) (by simp)
  | @key big key inner k hk => exact ⟨k, rfl, h⟩

/-- The one value is the other with `v` where the hop leads. -/
structure Put (I : Interpretation α) (hop : Hop α) (v d d' : Datum α) : Prop where
  here : I.look hop d' = some v
  elsewhere : ∀ hop', hop.Apart hop' → I.look hop' d' = I.look hop' d

theorem exists_put (hupdates : I.Updates) (hleads : I.Leads outer hop inner) (hd : I.Has outer d)
    (hv : I.Has inner v) : ∃ d', I.put hop v d = some d' ∧ I.Has outer d' ∧ I.Put hop v d d' := by
  cases hleads with
  | @part name fields i attr inner hi =>
    obtain ⟨d', hput, -, htyped⟩ := Datum.setComponent_of_areOf (has_record_iff.mp hd) hi hv
    refine ⟨d', hput, has_record_iff.mpr htyped, Datum.component_setComponent hput, ?_⟩
    intro hop' hapart
    cases hop' with
    | part m j =>
      obtain ⟨rfl, hne⟩ := hapart
      exact Datum.component_setComponent_ne hput hne
    | key k => exact hapart.elim
  | @key big key inner k hk =>
    obtain ⟨d', hother, htyped, hhere, helse⟩ := hupdates.map hk hv hd
    refine ⟨d', by rw [put, hother]; rfl, htyped, hhere, ?_⟩
    intro hop' hapart
    cases hop' with
    | part m j => exact hapart.elim
    | key k' => exact helse k' hapart

/-! ## Paths -/

@[simp] theorem follow_cons (hop : Hop α) (rest : List (Hop α)) (d : Datum α) :
    I.follow (hop :: rest) d = (I.look hop d).bind (I.follow rest) := rfl

theorem write_cons {rest : List (Hop α)} (hrest : rest ≠ []) :
    I.write (hop :: rest) v d = (I.look hop d).bind fun inner =>
      (I.write rest v inner).bind fun written => I.put hop written d := by
  cases rest with
  | nil => exact absurd rfl hrest
  | cons next rest => rfl

theorem not_misses_nil (d : Datum α) : ¬I.Misses [] d := by
  rintro ⟨before, k, after, -, heq, -⟩
  simp at heq

theorem misses_cons_iff {rest : List (Hop α)} :
    I.Misses (hop :: rest) d ↔ (∃ k, hop = .key k ∧ I.get k d = none) ∨
      ∃ inner, I.look hop d = some inner ∧ I.Misses rest inner := by
  constructor
  · rintro ⟨before, k, after, inner, heq, hinner, hnone⟩
    cases before with
    | nil =>
      obtain ⟨rfl, rfl⟩ := List.cons.inj heq
      cases hinner
      exact .inl ⟨k, rfl, hnone⟩
    | cons first before =>
      obtain ⟨rfl, rfl⟩ := List.cons.inj heq
      obtain ⟨next, hnext, hinner⟩ := Option.bind_eq_some_iff.mp hinner
      exact .inr ⟨next, hnext, before, k, after, inner, rfl, hinner, hnone⟩
  · rintro (⟨k, rfl, hnone⟩ | ⟨next, hnext, before, k, after, inner, rfl, hinner, hnone⟩)
    · exact ⟨[], k, rest, d, rfl, rfl, hnone⟩
    · exact ⟨hop :: before, k, after, inner, rfl, by simp [hnext, hinner], hnone⟩

/-- The one value is the other with `v` where the hops lead: there it is found, and whatever is
reached by branching off is as before. -/
structure Written (I : Interpretation α) (hops : List (Hop α)) (v d d' : Datum α) : Prop where
  here : I.follow hops d' = some v
  elsewhere : ∀ common hop rest hop' rest', hops = common ++ hop :: rest → hop.Apart hop' →
    I.follow (common ++ hop' :: rest') d' = I.follow (common ++ hop' :: rest') d

theorem Put.written (h : I.Put hop v d d') : I.Written [hop] v d d' where
  here := by simp [h.here, follow]
  elsewhere := by
    intro common hop₁ rest hop' rest' heq hapart
    cases common with
    | nil =>
      obtain ⟨rfl, -⟩ := List.cons.inj heq
      simp [h.elsewhere hop' hapart]
    | cons first common => simp at heq

/-- A write into what a hop leads to, and the container rebuilt around it. -/
theorem Put.written_cons {e w : Datum α} (h : I.Put hop w d d') (he : I.look hop d = some e)
    (hw : I.Written hops v e w) : I.Written (hop :: hops) v d d' where
  here := by rw [follow_cons, h.here, Option.bind_some, hw.here]
  elsewhere := by
    intro common hop₁ rest hop' rest' heq hapart
    cases common with
    | nil =>
      obtain ⟨rfl, -⟩ := List.cons.inj heq
      simp [h.elsewhere hop' hapart]
    | cons first common =>
      obtain ⟨rfl, rfl⟩ := List.cons.inj heq
      simp [h.here, he, hw.elsewhere common hop₁ rest hop' rest' rfl hapart]

/-- Writing along hops that fit the type gives a value of the type, with the one part written. -/
theorem written_of_write (hupdates : I.Updates) (hlead : I.Lead outer hops leaf)
    (hd : I.Has outer d) (hv : I.Has leaf v) (h : I.write hops v d = some d') :
    I.Has outer d' ∧ I.Written hops v d d' := by
  induction hlead generalizing d d' with
  | nil ty =>
    cases h
    exact ⟨hv, rfl, fun common hop rest hop' rest' heq => by simp at heq⟩
  | @cons outer inner leaf hop rest hleads hrest ih =>
    cases rest with
    | nil =>
      cases hrest
      obtain ⟨_, hput, htyped, hwritten⟩ := exists_put hupdates hleads hd hv
      cases hput.symm.trans h
      exact ⟨htyped, hwritten.written⟩
    | cons next rest =>
      rw [write_cons (by simp), Option.bind_eq_some_iff] at h
      obtain ⟨e, he, h⟩ := h
      obtain ⟨w, hw, h⟩ := Option.bind_eq_some_iff.mp h
      obtain ⟨htyped, hwritten⟩ := ih (has_look hleads hd he) hv hw
      obtain ⟨_, hput, houter, hcontainer⟩ := exists_put hupdates hleads hd htyped
      cases hput.symm.trans h
      exact ⟨houter, hcontainer.written_cons he hwritten⟩

/-- A write fails exactly if a key is missing on the way, before the last hop. -/
theorem write_eq_none_iff (hupdates : I.Updates) (hlead : I.Lead outer hops leaf)
    (hd : I.Has outer d) (hv : I.Has leaf v) :
    I.write hops v d = none ↔ I.Misses hops.dropLast d := by
  induction hlead generalizing d with
  | nil ty => simp [write, not_misses_nil]
  | @cons outer inner leaf hop rest hleads hrest ih =>
    cases rest with
    | nil =>
      cases hrest
      obtain ⟨d', hput, -⟩ := exists_put hupdates hleads hd hv
      simp [write, hput, not_misses_nil]
    | cons next rest =>
      rw [write_cons (by simp), List.dropLast_cons_cons, misses_cons_iff]
      cases he : I.look hop d with
      | none => simpa using look_eq_none hleads hd he
      | some e =>
        have hinner := has_look hleads hd he
        -- a container can always be rebuilt around what has been written into it
        have hrebuilt : ∀ w, I.write (next :: rest) v e = some w → I.put hop w d ≠ none := by
          intro w hw
          obtain ⟨htyped, -⟩ := written_of_write hupdates hrest hinner hv hw
          obtain ⟨d', hput, -⟩ := exists_put hupdates hleads hd htyped
          simp [hput]
        have hfound : ¬∃ k, hop = .key k ∧ I.get k d = none := by
          rintro ⟨k, rfl, hnone⟩
          exact absurd (he.symm.trans hnone) (by simp)
        rw [or_iff_right hfound]
        simp only [Option.bind_some, Option.some.injEq, exists_eq_left', ← ih hinner hv,
          Option.bind_eq_none_iff]
        constructor
        · intro hnone
          refine Option.eq_none_iff_forall_not_mem.mpr fun w hw => ?_
          exact hrebuilt w hw (hnone w hw)
        · intro hnone w hw
          rw [hnone] at hw
          contradiction

end Interpretation

end Covenant
