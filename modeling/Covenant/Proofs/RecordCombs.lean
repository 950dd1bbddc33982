import Covenant.Proofs.PathUpdate
import Mathlib.Algebra.Ring.Nat

/-!
# Covenant — records give back what was put into them

A record with `n` attributes is the right comb of their values. Its code pushes the values last to
first and combines them by one `PAIR n`, or leaves the only value as it is
(`code_of_buildRecord`). The node of attribute `i` is `projectionIndex? n i`, which is `combIndex n i`
unless there are no attributes. What lies there depends on the comb alone and not on what the values
are: the last value may be a pair itself, and its node is the end of the comb all the same, not a node
of that pair.

* `Datum.node?_comb` — a value is read at its node;
* `Datum.setNode?_comb` — writing at a node replaces the one value;
* `record_comb_round_trips` — the two on the machine, for the record that the code has built.
-/

namespace Covenant

open Gen Interpretation

variable {α : Type} {config : Config}

/-! ## Combs -/

theorem projectionIndex?_of_pos {n : Nat} (h : 1 ≤ n) (i : Nat) :
    projectionIndex? n i = some (combIndex n i) := by
  obtain ⟨m, rfl⟩ := Nat.exists_eq_succ_of_ne_zero (Nat.ne_of_gt h)
  exact projectionIndex?_succ m i

/-- Different attributes have different nodes. -/
theorem combIndex_injective (n : Nat) : Function.Injective (combIndex n) := by
  intro i j h
  unfold combIndex at h
  split at h <;> split at h <;> omega

theorem combIndex_lt {n i : Nat} (hi : i < n) : combIndex n i < 2 * n := by
  unfold combIndex
  split <;> omega

namespace Datum

theorem node?_comb : ∀ (vs : List (Datum α)) {i : Nat}, i < vs.length →
    (comb vs).node? (combIndex vs.length i) = vs[i]?
  | [v], i, h => by
    obtain rfl : i = 0 := by simpa using h
    simp [comb, combIndex, node?]
  | v :: w :: rest, 0, _ => by simp [comb, combIndex, node?]
  | v :: w :: rest, i + 1, h => by
    rw [List.length_cons, List.length_cons, combIndex_succ, comb, node?]
    exact node?_comb (w :: rest) (Nat.lt_of_succ_lt_succ h)

theorem setNode?_comb (w : Datum α) : ∀ (vs : List (Datum α)) {j : Nat}, j < vs.length →
    (comb vs).setNode? (combIndex vs.length j) w = some (comb (vs.set j w))
  | [v], j, h => by
    obtain rfl : j = 0 := by simpa using h
    simp [comb, combIndex, setNode?]
  | v :: u :: rest, 0, _ => by simp [comb, combIndex, setNode?]
  | v :: u :: rest, j + 1, h => by
    rw [List.length_cons, List.length_cons, combIndex_succ, comb, setNode?, List.set_cons_succ]
    have hrest := setNode?_comb w (u :: rest) (Nat.lt_of_succ_lt_succ h)
    rw [List.length_cons] at hrest
    rw [hrest]
    cases j <;> rfl

end Datum

/-! ## The code of a record -/

/-- The code is that of an operand which is pushed as a type. -/
def Operand.Emits (config : Config) (o : Operand) (want : Ty) (code : Code) : Prop :=
  ∃ state done, o.pushAs want config state = .ok done ∧ done.code = code

theorem code_of_pushAllReversed : ∀ {os : List Operand} {wants : List Ty}
    {state : State} {done : Step Unit},
    Operand.pushAllReversed os wants config state = .ok done → os.length = wants.length →
    ∃ codes, List.Forall₂ (fun o code => o.1.Emits config o.2 code) (os.zip wants) codes ∧
      done.code = codes.reverse.flatten
  | [], [], _, _, h, _ => by
    cases h
    exact ⟨[], .nil, rfl⟩
  | o :: os, want :: wants, _, _, h, hlength => by
    obtain ⟨rest, last, hrest, hlast, rfl⟩ := bind_eq_ok_iff.mp h
    obtain ⟨codes, hcodes, hcode⟩ := code_of_pushAllReversed hrest (Nat.succ.inj hlength)
    refine ⟨last.code :: codes, .cons ⟨_, last, hlast, rfl⟩ hcodes, ?_⟩
    simp [hcode]

/-- The values are pushed last to first and combined at once, if there are several. -/
theorem code_of_buildRecord {state : State} {done : Step Unit} {fields : Fields}
    {values : List Operand} (h : buildRecord fields values config state = .ok done)
    (hlength : values.length = fields.length) :
    ∃ codes, List.Forall₂ (fun o code => o.1.Emits config o.2 code) (values.zip fields.types) codes ∧
      done.code = codes.reverse.flatten ++
        if 1 < fields.length then [.prim (.pair fields.length)] else [] := by
  rw [buildRecord_eq] at h
  obtain ⟨pushed, last, hpushed, hlast, rfl⟩ := bind_eq_ok_iff.mp h
  obtain ⟨codes, hcodes, hcode⟩ := code_of_pushAllReversed hpushed (by simp [hlength, Fields.types])
  refine ⟨codes, hcodes, ?_⟩
  split at hlast
  · next hmany =>
    obtain ⟨-, rfl⟩ := apply_eq_ok_iff.mp hlast
    rw [hcode, if_pos hmany]
  · next hone =>
    cases hlast
    rw [hcode, if_neg hone]

namespace Interpretation

variable {I : Interpretation α} {vs s : List (Datum α)}

/-- One value is a comb already. -/
theorem run_combine (hpos : 0 < vs.length) :
    I.run (if 1 < vs.length then [.prim (.pair vs.length)] else []) (vs ++ s) =
      .ends (.comb vs :: s) := by
  split
  · rw [run_singleton, step_prim vs rfl]
    rfl
  · obtain ⟨v, rfl⟩ := List.length_eq_one_iff.mp (by omega : vs.length = 1)
    exact run_nil _

theorem run_get {k : Nat} {d v : Datum α} (h : d.node? k = some v) :
    I.run [.prim (.get k)] (d :: s) = .ends (v :: s) := by
  rw [run_singleton]
  exact (step_prim (I := I) (p := .get k) [d] rfl s).trans (by simp [prim, h])

theorem run_update {k : Nat} {d d' w : Datum α} (h : I.other (.update k) [w, d] = .ok d') :
    I.run [.prim (.update k)] (w :: d :: s) = .ends (d' :: s) := by
  rw [run_singleton]
  exact (step_prim (I := I) (p := .update k) [w, d] rfl s).trans (by simp [prim, h, Outcome.ofExcept])

end Interpretation

/-- The code of a record with `n` attributes pushes their values and combines them. Any `n` values are
combined, whatever they are. `GET` at the node of attribute `i` then gives its value. After an `UPDATE`
at the node of attribute `j`, that attribute has the new value and the others have theirs; an update by
the value that is there already changes nothing. Every attribute has a node, which fits a machine word,
and different attributes have different nodes. -/
theorem record_comb_round_trips {I : Interpretation α}
    (hupdate : ∀ {k : Nat} {d d' w : Datum α}, d.setNode? k w = some d' →
      I.other (.update k) [w, d] = .ok d')
    {state : State} {done : Step Unit} {fields : Fields} {values : List Operand}
    (hpos : 1 ≤ fields.length) (hword : 2 * fields.length < 2 ^ 64)
    (hlength : values.length = fields.length)
    (hbuild : buildRecord fields values config state = .ok done) :
    (∃ codes combine,
      List.Forall₂ (fun o code => o.1.Emits config o.2 code) (values.zip fields.types) codes ∧
      combine = (if 1 < fields.length then [.prim (.pair fields.length)] else []) ∧
      done.code = codes.reverse.flatten ++ combine ∧
      ∀ vs s : List (Datum α), vs.length = fields.length →
        ∃ r, I.run combine (vs ++ s) = .ends (r :: s) ∧
          (∀ start, I.run codes.reverse.flatten start = .ends (vs ++ s) →
            I.run done.code start = .ends (r :: s)) ∧
          ∀ i k v, projectionIndex? fields.length i = some k → vs[i]? = some v →
            I.run [.prim (.get k)] (r :: s) = .ends (v :: s) ∧
            I.run [.prim (.update k)] (v :: r :: s) = .ends (r :: s) ∧
            ∀ j k' w, j < fields.length → projectionIndex? fields.length j = some k' →
              I.run [.prim (.update k'), .prim (.get k)] (w :: r :: s) =
                .ends ((if i = j then w else v) :: s)) ∧
    (∀ i < fields.length, ∃ k, projectionIndex? fields.length i = some k ∧ k < 2 ^ 64) ∧
    ∀ i < fields.length, ∀ j < fields.length,
      projectionIndex? fields.length i = projectionIndex? fields.length j → i = j := by
  refine ⟨?_, fun i hi => ⟨_, projectionIndex?_of_pos hpos i, Nat.lt_trans (combIndex_lt hi) hword⟩,
    fun i _ j _ h => ?_⟩
  case refine_2 =>
    rw [projectionIndex?_of_pos hpos, projectionIndex?_of_pos hpos] at h
    exact combIndex_injective _ (Option.some.inj h)
  simp only [projectionIndex?_of_pos hpos, Option.some.injEq]
  obtain ⟨codes, hcodes, hcode⟩ := code_of_buildRecord hbuild hlength
  refine ⟨codes, _, hcodes, rfl, hcode, fun vs s hvs => ?_⟩
  rw [← hvs] at hpos hcode ⊢
  refine ⟨.comb vs, run_combine hpos, fun start hpushed => ?_, ?_⟩
  · rw [hcode, run_append, hpushed, Outcome.ends_bind, run_combine hpos]
  · rintro i _ v rfl hv
    obtain ⟨hi, rfl⟩ := List.getElem?_eq_some_iff.mp hv
    refine ⟨run_get ((Datum.node?_comb vs hi).trans hv), ?_, ?_⟩
    · have hsame := Datum.setNode?_comb vs[i] vs hi
      rw [List.set_getElem_self] at hsame
      exact run_update (hupdate hsame)
    · rintro j _ w hj rfl
      have hread := Datum.node?_comb (vs.set j w) (i := i) (by simpa using hi)
      rw [List.length_set] at hread
      rw [run_cons, ← run_singleton,
        run_update (hupdate (Datum.setNode?_comb w vs hj)), Outcome.ends_bind]
      refine run_get (hread.trans ?_)
      rw [List.getElem?_set]
      split
      · next heq => simp [heq]
      · next hne => rw [if_neg (fun heq => hne heq.symm), hv]

/-- A point, and two points with a number between them. -/
def Ty.point : Ty := .record "Point" [("x", .int), ("y", .int)]

def Fields.segment : Fields := [("start", .point), ("weight", .int), ("stop", .point)]

/-- A stack with a point on it. -/
def Layout.pointed : Layout := ((Layout.empty .module).push 1).bindSlot "p" 0 .point

theorem record_comb_round_trips_segment : ∃ done,
    buildRecord .segment ([Expr.name 1 "p", .literal 1 (.int 5), .name 1 "p"].map Expr.operand)
      ⟨.empty, false⟩ ⟨.pointed, 0⟩ = .ok done ∧
    ∃ r, accounts.run done.code [.pair (.int 1) (.int 2)] =
        .ends [r, .pair (.int 1) (.int 2)] ∧
      accounts.run [.prim (.get 4)] [r, .pair (.int 1) (.int 2)] =
        .ends [.pair (.int 1) (.int 2), .pair (.int 1) (.int 2)] ∧
      accounts.run [.prim (.update 3), .prim (.get 4)]
          [.int 6, r, .pair (.int 1) (.int 2)] =
        .ends [.pair (.int 1) (.int 2), .pair (.int 1) (.int 2)] := by
  have hbuild : buildRecord .segment
      ([Expr.name 1 "p", .literal 1 (.int 5), .name 1 "p"].map Expr.operand)
      ⟨.empty, false⟩ ⟨.pointed, 0⟩ = .ok ⟨(), [.dup 1, .prim (.push .int (.int 5)), .dup 3] ++
        [.prim (.pair 3)], ⟨Layout.pointed.atDepth 2, 1⟩⟩ := by
    simp only [List.map_cons, Expr.operand, emitExpr]
    rfl
  obtain ⟨⟨codes, _, -, rfl, hcode, hrecord⟩, -⟩ := record_comb_round_trips (I := accounts)
    updates_accounts.record (by decide) (by simp [Fields.segment]) rfl hbuild
  have hpushes : [.dup 1, .prim (.push .int (.int 5)), .dup 3] = codes.reverse.flatten :=
    List.append_cancel_right hcode
  obtain ⟨r, -, hrun, hread⟩ := hrecord
    [.pair (.int 1) (.int 2), .int 5, .pair (.int 1) (.int 2)] [.pair (.int 1) (.int 2)] rfl
  obtain ⟨hget, -, hset⟩ := hread 2 4 _ rfl rfl
  exact ⟨_, hbuild, r, hrun _ (by rw [← hpushes]; rfl), hget, hset 1 3 (.int 6) (by decide) rfl⟩

end Covenant
