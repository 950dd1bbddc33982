import Mathlib.Logic.Relation
import Mathlib.Tactic.TFAE
import Covenant.Proofs.KnownTypes

/-!
# Covenant — the names of records in annotations

A record is called by its name, and its name in an annotation is to denote the type of what such a
call gives. Two tables have a say in this. A record class must not have the name of a built-in, and
annotations look for base types before they look for records. The second table has names that the
first has not (`TypeExpr.ambiguous`), and a record with such a name can be defined but not be named
in an annotation.

`record_annotations` says that these are the only ones: every other record is what its name denotes,
from its definition on and however deep inside an annotation the name stands.
-/

namespace Covenant

namespace TypeExpr

/-- The base types that a record may have the name of. -/
def ambiguous : List Ident :=
  ["int", "nat", "mutez", "str", "address", "bytes", "bool", "Bool", "Operation", "datetime"]

theorem base?_eq_none_iff {name : Ident} (h : Builtin.isName name = false) :
    base? name = none ↔ name ∉ ambiguous := by
  unfold base?
  split <;> first | (revert h; decide) | simp_all [ambiguous]

/-- The name of a record denotes the record, and every other name what it denotes anyway. -/
def naming (records : Records) (record : Ident) (fields : Fields) (id : Ident) (ty : Ty) : Prop :=
  if id = record then ty = .record record fields else named records id = .ok ty

end TypeExpr

namespace Gen

open TypeExpr

variable {config : Config} {state : State} {record : Ident} {fields : Fields}

/-- A record class has a new name, which is not that of a built-in. -/
theorem recordClass_fresh {name : Ident} {body : List Stmt} {done : Step Fields}
    (h : recordClass name body config state = .ok done) :
    config.records.get? name = none ∧ Builtin.isName name = false := by
  unfold recordClass at h
  rw [scope_bind] at h
  split at h
  · exact absurd h fail_bind_ne_ok
  · next hfresh => simpa [Table.contains] using hfresh

/-- Records stay as they are. -/
theorem Next.keeps_records {p q : Point} (h : Next p q)
    (hrecord : p.config.records.get? record = some fields) :
    q.config.records.get? record = some fields := by
  cases h with
  | sessionRecord _ hdone | recordsRecord _ hdone =>
    rw [Table.get?_insert]
    split
    · next heq => cases hrecord.symm.trans (heq ▸ (recordClass_fresh hdone).1)
    · exact hrecord
  | _ => exact hrecord

/-- No record has the name of a built-in. -/
theorem Next.isName_eq_false {p q : Point} (h : Next p q)
    (hp : ∀ record fields, p.config.records.get? record = some fields →
      Builtin.isName record = false) :
    ∀ record fields, q.config.records.get? record = some fields → Builtin.isName record = false := by
  cases h with
  | sessionRecord _ hdone | recordsRecord _ hdone =>
    intro record fields hrecord
    rw [Table.get?_insert] at hrecord
    split at hrecord
    · next heq => exact heq ▸ (recordClass_fresh hdone).2
    · exact hp record fields hrecord
  | _ => exact hp

end Gen

open Gen TypeExpr

theorem Module.Reaches.isName_eq_false {m : Module} {traced : Bool} {p : Point}
    (h : m.Reaches traced p) : ∀ record fields, p.config.records.get? record = some fields →
      Builtin.isName record = false := by
  induction h with
  | session | program => simp
  | next _ hnext ih => exact hnext.isName_eq_false ih

/-- Records and annotations. Let a record be defined at some point of the compilation of a module.
At every later point it is defined as before, and a call of it has the type of the record, unless a
variable hides its name. If the record does not have one of ten names of base types, the record is
what its name denotes by itself, what it denotes anywhere in an annotation, and a place annotated
with the name takes what a call of the record gives. If it has such a name, none of this holds. -/
theorem record_annotations {m : Module} {traced : Bool} {p q : Point} (hp : m.Reaches traced p)
    {record : Ident} {fields : Fields} (hrecord : p.config.records.get? record = some fields)
    (hq : Relation.ReflTransGen Next p q) :
    q.config.records.get? record = some fields ∧
    (∀ (l : Layout) (line nameLine : Nat) (args : List Expr) (keywords : List (Ident × Expr))
      (expected : Option Ty), l.binds record = false →
        typeOf ⟨q.config.records, l⟩ (.call line (.name nameLine record) args keywords) expected =
          .ok (.record record fields)) ∧
    [record ∉ ambiguous,
      ∀ line, type q.config.records (.name line record) = .ok (.record record fields),
      ∀ e ty, type q.config.records e = .ok ty ↔
        Denotes (naming q.config.records record fields) e ty,
      ∀ line want, type q.config.records (.name line record) = .ok want →
        (Ty.record record fields).fits want = true].TFAE := by
  obtain ⟨hreach, hdefined⟩ :
      m.Reaches traced q ∧ q.config.records.get? record = some fields := by
    induction hq with
    | refl => exact ⟨hp, hrecord⟩
    | tail _ hnext ih => exact ⟨.next ih.1 hnext, hnext.keeps_records ih.2⟩
  have hbase := base?_eq_none_iff (hreach.isName_eq_false record fields hdefined)
  have hknown : (Ty.record record fields).hasUnknown = false :=
    (hreach.settled.records hdefined).2
  generalize q.config.records = records at hdefined ⊢
  have hname (line : Nat) : type records (.name line record) =
      .ok ((base? record).elim (.record record fields) .base) := by
    rw [type, resolve, named, hdefined]
    cases base? record <;> rfl
  refine ⟨hdefined, fun l line nameLine args keywords expected hbinds => ?_, ?_⟩
  · have hcallee : calleeOf ⟨records, l⟩ (.name nameLine record) = .ok (.record record fields) := by
      simp [calleeOf, Callee.classify, hbinds, Callee.ofName, hdefined]
    exact typeOf_call_eq_ok_iff.mpr ⟨_, _, hcallee, rfl, fun h => by simp [hknown] at h,
      (Ty.adopted_of_known hknown _).symm⟩
  tfae_have 1 → 2 := by
    intro h line
    rw [hname, hbase.mpr h]
    rfl
  tfae_have 2 → 3 := by
    intro h e ty
    have hnames : (fun id ty => named records id = .ok ty) = naming records record fields := by
      funext id ty
      unfold naming
      split
      · next heq =>
        have hnamed : named records record = .ok (.record record fields) := by
          simpa only [type, resolve] using Except.mapError_eq_ok_iff.mp (h 0)
        rw [heq, hnamed, Except.ok.injEq, @eq_comm Ty ty]
      · rfl
    rw [type, Except.mapError_eq_ok_iff, resolve_eq_ok_iff, hnames]
  tfae_have 3 → 4 := by
    intro h line want hwant
    cases (h _ _).mp hwant with
    | name hwant =>
      rw [naming, if_pos rfl] at hwant
      exact hwant ▸ Ty.fits_refl _
  tfae_have 4 → 1 := by
    intro h
    rw [← hbase]
    cases hfound : base? record with
    | none => rfl
    | some b =>
      have hfits := h 0 (.base b) (by rw [hname, hfound]; rfl)
      cases Ty.eq_of_fits hknown hfits
  tfae_finish

/-- A record with one attribute. -/
def Stmt.recordOf (name : Ident) : Stmt :=
  .classDef 1 name [] [.name 1 "dataclass"] [.annotated 2 (.name 2 "value") (.name 2 "int") none]

/-- A record is made and kept under an annotation with its name. -/
def Module.keeping (name : Ident) : Module :=
  ⟨[Stmt.recordOf name, .annotated 3 (.name 3 "kept") (.name 3 name)
    (some (.call 3 (.name 3 name) [.literal 3 (.int 1)] []))]⟩

theorem record_annotations_keeping : ∃ (p q : Point) (fields : Fields),
    (Module.keeping "Flag").Reaches false p ∧ Relation.ReflTransGen Next p q ∧
      q.config.records.get? "Flag" = some fields ∧
      type q.config.records (.subscript 4 (.name 4 "List") (.name 4 "Flag")) =
        .ok (.list (.record "Flag" fields)) := by
  have hsome : (recordClass "Flag" [.annotated 2 (.name 2 "value") (.name 2 "int") none]
      ⟨.empty, false⟩ ⟨.empty .module, 1⟩).toOption.isSome = true := by decide +kernel
  obtain ⟨done, hdone⟩ := Option.isSome_iff_exists.mp hsome
  have hp : (Module.keeping "Flag").Reaches false _ :=
    .next .session (.sessionRecord rfl (Except.toOption_eq_some_iff.mp hdone))
  have hrecord : Table.get? (Table.empty.insert "Flag" done.result) "Flag" = some done.result := by
    rw [Table.get?_insert, if_pos rfl]
  obtain ⟨hdefined, -, htfae⟩ := record_annotations hp hrecord (.single .sessionStmt)
  refine ⟨_, _, done.result, hp, .single .sessionStmt, hdefined, ?_⟩
  have hagree := htfae.out 0 2
  exact (hagree.mp (by decide) _ _).mpr (.unary rfl (.name (by rw [naming, if_pos rfl])))

/-- A record with the name of a base type can be made, but not be kept under its name. -/
theorem record_annotation_denotes_base_type :
    (((Module.keeping "Bool").take 1).compileStatements false).toOption.isSome = true ∧
      ∃ e, (Module.keeping "Bool").compileStatements false = .error e ∧
        e.message = "type mismatch: expected `bool`, found `int %value` at line 3" := by
  have hmessage : (match (Module.keeping "Bool").compileStatements false with
      | .error e => e.message
      | .ok _ => "") = "type mismatch: expected `bool`, found `int %value` at line 3" := by
    decide +kernel
  cases hrun : (Module.keeping "Bool").compileStatements false with
  | ok code => simp [hrun] at hmessage
  | error e => exact ⟨by decide +kernel, e, rfl, by simpa [hrun] using hmessage⟩

end Covenant
