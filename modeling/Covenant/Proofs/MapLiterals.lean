import Covenant.Proofs.PathUpdate
import Covenant.Proofs.SemanticPreservation

/-!
# Covenant — what a map literal holds

The code of a map literal starts from an empty map and puts the entries into it, the last entry of the
literal first. For a list that order gives the elements as they are written. A map has one value under
each key, so of several entries with the same key the one that is put in last counts, and that is the
first one of the literal (`map_literal_keeps_first_entries`).

`Interpretation.assignAll` puts entries into a map one after the other, as assignments `m[k] = v` do.
Then the last entry under each key counts (`assigned_of_assignAll`). The literal is that of its entries
in reverse, and the two maps agree just where the first and the last entry under a key have the same
value.
-/

namespace Covenant

open Gen Outcome Interpretation

variable {α : Type}

/-! ## Entries -/

/-- The value of the first entry under a key. -/
def FirstUnder (entries : List (Datum α × Datum α)) (k v : Datum α) : Prop :=
  ∃ before after, entries = before ++ (k, v) :: after ∧ ∀ e ∈ before, e.1 ≠ k

/-- The value of the last entry under a key. -/
def LastUnder (entries : List (Datum α × Datum α)) (k v : Datum α) : Prop :=
  ∃ before after, entries = before ++ (k, v) :: after ∧ ∀ e ∈ after, e.1 ≠ k

variable {entries rest : List (Datum α × Datum α)} {k k' v v' : Datum α}

theorem lastUnder_reverse_iff : LastUnder entries.reverse k v ↔ FirstUnder entries k v := by
  constructor
  · rintro ⟨before, after, heq, hafter⟩
    refine ⟨after.reverse, before.reverse, ?_, fun e he => hafter e (List.mem_reverse.mp he)⟩
    rw [← List.reverse_reverse entries, heq]
    simp
  · rintro ⟨before, after, rfl, hbefore⟩
    exact ⟨after.reverse, before.reverse, by simp, fun e he => hbefore e (List.mem_reverse.mp he)⟩

theorem lastUnder_cons_iff : LastUnder ((k', v') :: rest) k v ↔
    LastUnder rest k v ∨ (k', v') = (k, v) ∧ ∀ e ∈ rest, e.1 ≠ k := by
  constructor
  · rintro ⟨before, after, heq, hafter⟩
    cases before with
    | nil =>
      obtain ⟨hhead, rfl⟩ := List.cons.inj heq
      exact .inr ⟨hhead, hafter⟩
    | cons first before =>
      obtain ⟨-, rfl⟩ := List.cons.inj heq
      exact .inl ⟨before, after, rfl, hafter⟩
  · rintro (⟨before, after, rfl, hafter⟩ | ⟨hhead, hrest⟩)
    · exact ⟨(k', v') :: before, after, rfl, hafter⟩
    · exact ⟨[], rest, by rw [hhead, List.nil_append], hrest⟩

/-- A key that is there has a last entry. -/
theorem exists_lastUnder (h : ¬∀ e ∈ entries, e.1 ≠ k) : ∃ v, LastUnder entries k v := by
  induction entries with
  | nil => simp at h
  | cons e rest ih =>
    obtain ⟨k', v'⟩ := e
    by_cases hrest : ∀ e ∈ rest, e.1 ≠ k
    · have hhead : k' = k := by
        by_contra hne
        exact h (List.forall_mem_cons.mpr ⟨hne, hrest⟩)
      exact ⟨v', lastUnder_cons_iff.mpr (.inr ⟨by rw [hhead], hrest⟩)⟩
    · obtain ⟨v, hv⟩ := ih hrest
      exact ⟨v, lastUnder_cons_iff.mpr (.inl hv)⟩

theorem exists_firstUnder (h : ¬∀ e ∈ entries, e.1 ≠ k) : ∃ v, FirstUnder entries k v := by
  simp only [← lastUnder_reverse_iff]
  exact exists_lastUnder fun hnone => h fun e he => hnone e (List.mem_reverse.mpr he)

/-! ## Maps -/

namespace Interpretation

variable (I : Interpretation α)

/-- The map after assignments to its entries, one after the other. -/
def assignAll : List (Datum α × Datum α) → Datum α → Option (Datum α)
  | [], d => some d
  | (k, v) :: rest, d => (I.write [.key k] v d).bind (assignAll rest)

/-- The value is what `EMPTY_MAP` pushes for the types, a map that has nothing under any key. -/
structure MakesEmpty (big : Bool) (key value : Ty) (d : Datum α) : Prop where
  made : I.other (.emptyMap big key value) [] = .ok d
  typed : I.Has (.map big key value) d
  get : ∀ k, I.get k d = none

/-- The second map is the first with the entries, of which the last under each key counts. -/
structure Assigned (entries : List (Datum α × Datum α)) (d d' : Datum α) : Prop where
  last : ∀ {k v}, LastUnder entries k v → I.get k d' = some v
  other : ∀ {k}, (∀ e ∈ entries, e.1 ≠ k) → I.get k d' = I.get k d

variable {I} {big : Bool} {key value : Ty} {d d' : Datum α}

theorem assignAll_append (d : Datum α) : I.assignAll (entries ++ rest) d =
    (I.assignAll entries d).bind (I.assignAll rest) := by
  induction entries generalizing d with
  | nil => rfl
  | cons e entries ih =>
    obtain ⟨k, v⟩ := e
    simp only [List.cons_append, assignAll, Option.bind_assoc]
    exact congrArg _ (funext ih)

/-- Entries of the right types can be assigned, and of those under the same key the last counts. -/
theorem assigned_of_assignAll (hupdates : I.Updates)
    (hentries : ∀ e ∈ entries, I.Has key e.1 ∧ I.Has value e.2)
    (hd : I.Has (.map big key value) d) :
    ∃ d', I.assignAll entries d = some d' ∧ I.Has (.map big key value) d' ∧
      I.Assigned entries d d' := by
  induction entries generalizing d with
  | nil => exact ⟨d, rfl, hd, ⟨fun ⟨_, _, heq, _⟩ => by simp at heq, fun _ => rfl⟩⟩
  | cons e rest ih =>
    obtain ⟨k, v⟩ := e
    obtain ⟨⟨hk, hv⟩, hrest⟩ := List.forall_mem_cons.mp hentries
    obtain ⟨d₁, hupdate, hd₁, hhere, helse⟩ := hupdates.map hk hv hd
    obtain ⟨d', hassign, hd', hassigned⟩ := ih hrest hd₁
    refine ⟨d', ?_, hd', ⟨fun hlast => ?_, fun hnone => ?_⟩⟩
    · rw [assignAll, write, put, hupdate]
      exact hassign
    · rcases lastUnder_cons_iff.mp hlast with hlast | ⟨heq, hnone⟩
      · exact hassigned.last hlast
      · -- no later entry takes the place of this one
        obtain ⟨rfl, rfl⟩ := Prod.mk.inj heq
        rw [hassigned.other hnone, hhere]
    · obtain ⟨hne, hnone⟩ := List.forall_mem_cons.mp hnone
      rw [hassigned.other hnone, helse _ hne]

/-- Entries assigned in order and in reverse give the same map just if the first and the last entry
under each key have the same value. -/
theorem agree_iff_of_assigned {empty m m' : Datum α}
    (h : I.Assigned entries.reverse empty m) (h' : I.Assigned entries empty m') :
    (∀ k, I.get k m = I.get k m') ↔
      ∀ k v v', FirstUnder entries k v → LastUnder entries k v' → v = v' := by
  constructor
  · intro hagree k v v' hfirst hlast
    have hv := h.last (lastUnder_reverse_iff.mpr hfirst)
    rw [hagree k, h'.last hlast] at hv
    exact (Option.some.inj hv).symm
  · intro hsame k
    by_cases hnone : ∀ e ∈ entries, e.1 ≠ k
    · rw [h.other fun e he => hnone e (List.mem_reverse.mp he), h'.other hnone]
    · obtain ⟨v, hfirst⟩ := exists_firstUnder hnone
      obtain ⟨v', hlast⟩ := exists_lastUnder hnone
      rw [h.last (lastUnder_reverse_iff.mpr hfirst), h'.last hlast, hsame k v v' hfirst hlast]

end Interpretation

/-! ## The code of a literal -/

variable {I : Interpretation α} {config : Config} {l : Layout} {s t : List (Datum α)} {big : Bool}
  {key value : Ty} {d empty : Datum α} {literal : List (Expr × Expr)}

/-- On the stack of a layout, the keys and values of a literal are those of the entries. -/
def Entries (I : Interpretation α) (config : Config) (l : Layout) (s : List (Datum α))
    (key value : Ty) : List (Expr × Expr) → List (Datum α × Datum α) → Prop :=
  List.Forall₂ fun e entry =>
    I.Pushes config l s e.1.operand key entry.1 ∧ I.Pushes config l s e.2.operand value entry.2

theorem Entries.typed (h : Entries I config l s key value literal entries) :
    ∀ e ∈ entries, I.Has key e.1 ∧ I.Has value e.2 := by
  induction h with
  | nil => simp
  | cons hentry _ ih => exact List.forall_mem_cons.mpr ⟨⟨hentry.1.1, hentry.2.1⟩, ih⟩

namespace Gen

section

variable (hupdates : I.Updates) (hl : l.WellFormed) (hlength : s.length = l.depth)
include hupdates hl hlength

/-- One entry is put into the map on top. -/
theorem computes_insertEntry {k v : Expr} {dk dv : Datum α}
    (hk : I.Pushes config l s k.operand key dk) (hv : I.Pushes config l s v.operand value dv)
    (hd : I.Has (.map big key value) d) :
    Computes I config l s (d :: t)
      (do
        v.operand.pushAs value
        apply .some
        k.operand.pushAs key
        apply .mapUpdate)
      (.ends ()) fun _ u _ => ∃ d', I.write [.key dk] dv d = some d' ∧ u = d' :: t := by
  obtain ⟨d', hupdate, -⟩ := hupdates.map hk.1 hv.1 hd
  refine (computes_pushAs hl hlength hv).prepare fun _ u hu => ?_
  subst hu
  have hsome : Computes I config l s (dv :: d :: t) (apply .some) (.ends ()) fun _ u _ =>
      u = .present dv :: d :: t :=
    computes_apply [dv] rfl (.ends rfl)
  refine hsome.prepare fun _ u hu => ?_
  subst hu
  refine (computes_pushAs hl hlength hk).prepare fun _ u hu => ?_
  subst hu
  refine computes_apply [dk, .present dv, d] rfl ?_
  simp only [prim, write, put, hupdate]
  exact .ends ⟨d', rfl, rfl⟩

/-- The entries are assigned to the map on top, last to first. -/
theorem computes_insertAll (hentries : Entries I config l s key value literal entries)
    (hd : I.Has (.map big key value) d) :
    Computes I config l s (d :: t) (Operand.insertAll key value (entryOperands literal)) (.ends ())
      fun _ u _ => ∃ d', I.assignAll entries.reverse d = some d' ∧ u = d' :: t := by
  induction hentries with
  | nil => exact computes_pure ⟨d, rfl, rfl⟩
  | @cons e entry literal entries hentry hrest ih =>
    obtain ⟨k, v⟩ := e
    obtain ⟨dk, dv⟩ := entry
    -- the rest of the literal has been put in when its first entry is
    refine ih.prepare fun _ u hu => ?_
    obtain ⟨d₁, hassign, rfl⟩ := hu
    obtain ⟨_, hassign', hd₁, -⟩ := assigned_of_assignAll hupdates
      (fun e he => Entries.typed hrest e (List.mem_reverse.mp he)) hd
    cases hassign.symm.trans hassign'
    refine (computes_insertEntry hupdates hl hlength hentry.1 hentry.2 hd₁).mono fun _ u _ hu => ?_
    obtain ⟨d', hwrite, rfl⟩ := hu
    refine ⟨d', ?_, rfl⟩
    rw [List.reverse_cons, assignAll_append, hassign]
    simp [assignAll, hwrite]

theorem computes_emitDict (hempty : I.MakesEmpty big key value empty)
    (hentries : Entries I config l s key value literal entries) {line : Nat} :
    Computes I config l s t (emitDict line (entryOperands literal) (.map big key value)) (.ends ())
      fun _ u _ => ∃ d', I.assignAll entries.reverse empty = some d' ∧ u = d' :: t := by
  unfold emitDict
  refine computes_when fun _ => ?_
  have hmake : Computes I config l s t (apply (.emptyMap big key value)) (.ends ()) fun _ u _ =>
      u = empty :: t := by
    refine computes_apply [] rfl ?_
    simp only [prim, hempty.made]
    exact .ends rfl
  refine hmake.prepare fun _ u hu => ?_
  subst hu
  exact computes_insertAll hupdates hl hlength hentries hempty.typed

end

end Gen

variable {state : State} {done : Step Ty} {line : Nat} {expected : Option Ty}

/-- The code of a map literal pushes the map with its entries assigned last to first: under each key
it has the value of the first entry with that key. This is the map with the entries assigned in the
order of the literal just if the first and the last entry under each key have the same value. -/
theorem map_literal_keeps_first_entries (hupdates : I.Updates) (hl : state.layout.WellFormed)
    (hlength : s.length = state.layout.depth)
    (hdone : (Expr.dict line literal).operand.value expected config state = .ok done)
    (hty : done.result = .map big key value) (hempty : I.MakesEmpty big key value empty)
    (hentries : Entries I config state.layout s key value literal entries) :
    ∃ m m', I.run done.code s = .ends (m :: s) ∧ state.layout.After 1 done.state.layout ∧
      I.Has (.map big key value) m ∧ I.assignAll entries.reverse empty = some m ∧
      (∀ k v, FirstUnder entries k v → I.get k m = some v) ∧
      (∀ k, (∀ e ∈ entries, e.1 ≠ k) → I.get k m = none) ∧
      I.assignAll entries empty = some m' ∧
      (∀ k v, LastUnder entries k v → I.get k m' = some v) ∧
      ((∀ k, I.get k m = I.get k m') ↔
        ∀ k v v', FirstUnder entries k v → LastUnder entries k v' → v = v') := by
  obtain ⟨ty, inner, -, hinner, -, rfl⟩ := Operand.value_eq_ok_iff.mp hdone
  obtain rfl : ty = .map big key value := hty
  -- the map of the reversed entries is what the code makes, that of the entries is for comparison
  obtain ⟨m, hm, htyped, hassigned⟩ := Interpretation.assigned_of_assignAll hupdates
    (fun e he => hentries.typed e (List.mem_reverse.mp he)) hempty.typed
  obtain ⟨m', hm', -, hassigned'⟩ :=
    Interpretation.assigned_of_assignAll hupdates hentries.typed hempty.typed
  have hcomputes : Computes I config state.layout s [] (emitExpr (.dict line literal)
      (.map big key value)) (.ends ()) fun _ u _ => u = [m] :=
    (computes_emitDict hupdates hl hlength hempty hentries).mono fun _ u _ hu => by
      obtain ⟨_, hassign, rfl⟩ := hu
      rw [Option.some.inj (hassign.symm.trans hm)]
  have hstart : state.layout.After 0 (state.seeing line).layout := by
    rw [state.layout_seeing]
    exact .refl _
  have hconcurs := hcomputes hstart hinner
  generalize hrun : I.run inner.code ([] ++ s) = x at hconcurs
  cases hconcurs with
  | ends hends =>
    obtain ⟨u, rfl, hafter, rfl⟩ := hends
    refine ⟨m, m', hrun, hafter, htyped, hm, fun k v hfirst => ?_, fun k hnone => ?_, hm',
      fun k v hlast => hassigned'.last hlast, Interpretation.agree_iff_of_assigned hassigned hassigned'⟩
    · exact hassigned.last (lastUnder_reverse_iff.mpr hfirst)
    · rw [hassigned.other fun e he => hnone e (List.mem_reverse.mp he), hempty.get]

/-! ## A repeated key -/

/-- Maps from integers to integers that can be made and updated; entries hide those behind them. -/
def Interpretation.tables : Interpretation (List (Int × Int)) :=
  { integers with
    other := fun p args =>
      match p, args with
      | .emptyMap .., [] => .ok (.foreign [])
      | .mapUpdate, [.int key, .present (.int value), .foreign entries] =>
        .ok (.foreign ((key, value) :: entries))
      | .update n, [v, d] =>
        match d.setNode? n v with
        | some d' => .ok d'
        | none => .error .unit
      | _, _ => .error .unit }

theorem Interpretation.updates_tables : tables.Updates where
  record h := by simp [tables, h]
  map := by
    intro big key value k v d hk hv hd
    rw [Has, Datum.IsOf] at hd
    obtain ⟨entries, rfl, heq⟩ := hd
    obtain ⟨rfl, rfl, rfl⟩ := Ty.map.inj heq
    obtain ⟨n, rfl⟩ := hk
    obtain ⟨m, rfl⟩ := hv
    refine ⟨.foreign ((n, m) :: entries), rfl, ?_, ?_, ?_⟩
    · rw [Has, Datum.IsOf]
      exact ⟨_, rfl, rfl⟩
    · simp [tables, integers]
    · intro k' hne
      cases k' with
      | int n' =>
        have hkey : (n' == n) = false := beq_eq_false_iff_ne.mpr fun heq => hne (heq ▸ rfl)
        simp [tables, integers, List.lookup_cons, hkey]
      | _ => rfl

theorem Interpretation.makesEmpty_tables :
    tables.MakesEmpty false .int .int (.foreign []) where
  made := rfl
  typed := by
    rw [Has, Datum.IsOf]
    exact ⟨[], rfl, rfl⟩
  get k := by cases k <;> rfl

/-- The literal `{x: 2, 1: 3}`. -/
def Expr.table : List (Expr × Expr) :=
  [(.name 1 "x", .literal 1 (.int 2)), (.literal 1 (.int 1), .literal 1 (.int 3))]

/-- Where `x` is one, the map has two under it. -/
theorem map_literal_keeps_first_entries_table : ∃ done m,
    (Expr.dict 1 Expr.table).operand.value none ⟨.empty, false⟩ ⟨.tally, 0⟩ = .ok done ∧
      Interpretation.tables.run done.code [.foreign [], .int 1] = .ends [m, .foreign [], .int 1] ∧
      Interpretation.tables.get (.int 1) m = some (.int 2) := by
  have hentries : Entries Interpretation.tables ⟨.empty, false⟩ .tally [.foreign [], .int 1] .int .int
      Expr.table [(.int 1, .int 2), (.int 1, .int 3)] :=
    .cons ⟨⟨⟨1, rfl⟩, 0, _, rfl, rfl⟩, ⟨⟨2, rfl⟩, 0, _, rfl, rfl⟩⟩
      (.cons ⟨⟨⟨1, rfl⟩, 0, _, rfl, rfl⟩, ⟨⟨3, rfl⟩, 0, _, rfl, rfl⟩⟩ .nil)
  have hresult : ((Expr.dict 1 Expr.table).operand.value none ⟨.empty, false⟩
      ⟨.tally, 0⟩).toOption.map (·.result) = some (.map false .int .int) := by
    decide +kernel
  obtain ⟨done, hdone, hresult⟩ := Except.exists_ok_of_map hresult
  obtain ⟨m, -, hrun, -, -, -, hfirst, -⟩ := map_literal_keeps_first_entries
    Interpretation.updates_tables Layout.wellFormed_tally rfl hdone hresult
    Interpretation.makesEmpty_tables hentries
  exact ⟨done, m, hdone, hrun, hfirst (.int 1) (.int 2) ⟨[], _, rfl, by simp⟩⟩

/-- The integer that the map on top of the stack has under a key. -/
def Interpretation.underTop? (I : Interpretation α) (k : Datum α) :
    Outcome α (List (Datum α)) → Option Int
  | .ends (m :: _) => (I.get k m).bind fun v => match v with
    | .int n => some n
    | _ => none
  | _ => none

/-- After `m = {1: 2, 1: 3}` there is two under one. Assignments `m[1] = 2` and `m[1] = 3` to an empty
map leave three there. -/
theorem map_literal_loses_last_entry :
    (Module.compileStatements ⟨[.assign 1 (.name 1 "m") (.dict 1
        [(.literal 1 (.int 1), .literal 1 (.int 2)), (.literal 1 (.int 1), .literal 1 (.int 3))])]⟩
      false).toOption.bind (fun code => Interpretation.tables.underTop? (.int 1)
        (Interpretation.tables.run code [])) = some 2 ∧
    (Interpretation.tables.assignAll [(.int 1, .int 2), (.int 1, .int 3)] (.foreign [])).bind
      (fun m => Interpretation.tables.underTop? (.int 1) (.ends [m])) = some 3 := by
  decide +kernel

end Covenant
