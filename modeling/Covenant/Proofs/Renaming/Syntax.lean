import Covenant.Proofs.Lines.Syntax
import Covenant.Syntax.Printer
import Covenant.Syntax.Transaction

/-!
# Covenant — names in programs

A name of a program stands for a variable, or it is a label: an attribute, a keyword, a class, a
method of a class or an imported module. `occurrences` lists the names of a tree, told apart in this
way, and `relabel` gives a tree other names and lines, variables by one function, labels by another
and lines by a third.

* `relabel_congr` — only what the functions do to the names and lines that occur matters;
* `text_relabel` — lines are not printed;
* `desugar_relabel`, `callsTransaction_relabel` — relabelling goes through the passes over trees that
  come before code generation.
-/

namespace Covenant

/-- A name of a program and what it names. -/
inductive Occurrence where
  | var (id : Ident)
  /-- An attribute, keyword, class, method or module. -/
  | label (id : Ident)
  deriving DecidableEq

namespace Occurrence

def id : Occurrence → Ident
  | var id | label id => id

/-- The name as that of an attribute. -/
def asLabel (o : Occurrence) : Occurrence := label o.id

/-- Another name, for a variable by the first function and for a label by the second. -/
def rename (f g : Ident → Ident) : Occurrence → Ident
  | var id => f id
  | label id => g id

end Occurrence

/-- Two ways of renaming do the same to the names in a list. -/
structure SameNames (f g f' g' : Ident → Ident) (os : List Occurrence) : Prop where
  vars : ∀ id, Occurrence.var id ∈ os → f id = f' id
  labels : ∀ id, Occurrence.label id ∈ os → g id = g' id

section

variable {f g f' g' : Ident → Ident} {os os' : List Occurrence} {id : Ident}

theorem sameNames_iff :
    SameNames f g f' g' os ↔ ∀ o ∈ os, o.rename f g = o.rename f' g' := by
  refine ⟨fun h o ho => ?_, fun h => ⟨fun id => h (.var id), fun id => h (.label id)⟩⟩
  cases o with
  | var id => exact h.vars id ho
  | label id => exact h.labels id ho

theorem sameNames_append :
    SameNames f g f' g' (os ++ os') ↔ SameNames f g f' g' os ∧ SameNames f g f' g' os' := by
  simp only [sameNames_iff, List.forall_mem_append]

theorem sameNames_var_cons :
    SameNames f g f' g' (.var id :: os) ↔ f id = f' id ∧ SameNames f g f' g' os := by
  simp only [sameNames_iff, List.forall_mem_cons, Occurrence.rename]

theorem sameNames_label_cons :
    SameNames f g f' g' (.label id :: os) ↔ g id = g' id ∧ SameNames f g f' g' os := by
  simp only [sameNames_iff, List.forall_mem_cons, Occurrence.rename]

/-- Names that are read as labels are renamed as labels. -/
theorem SameNames.of_asLabel (h : SameNames f g f' g' (os.map Occurrence.asLabel)) :
    SameNames g g g' g' os :=
  ⟨fun id hid => h.labels id (List.mem_map.mpr ⟨_, hid, rfl⟩),
    fun id hid => h.labels id (List.mem_map.mpr ⟨_, hid, rfl⟩)⟩

end

/-! ## Expressions -/

namespace Expr

mutual

/-- The names in an expression. -/
def occurrences : Expr → List Occurrence
  | name _ id => [.var id]
  | literal _ _ => []
  | list _ items | tuple _ items | boolean _ _ items => allOccurrences items
  | dict _ entries => entryOccurrences entries
  | attr _ value field => .label field :: occurrences value
  | subscript _ value index => occurrences value ++ occurrences index
  | call _ func args keywords =>
    occurrences func ++ (allOccurrences args ++ keywordOccurrences keywords)
  | compare _ left rest => occurrences left ++ comparandOccurrences rest
  | binary _ left _ right => occurrences left ++ occurrences right
  | unary _ _ operand => occurrences operand

def allOccurrences : List Expr → List Occurrence
  | [] => []
  | e :: rest => occurrences e ++ allOccurrences rest

def entryOccurrences : List (Expr × Expr) → List Occurrence
  | [] => []
  | (k, v) :: rest => occurrences k ++ (occurrences v ++ entryOccurrences rest)

def keywordOccurrences : List (Ident × Expr) → List Occurrence
  | [] => []
  | (keyword, v) :: rest => .label keyword :: (occurrences v ++ keywordOccurrences rest)

def comparandOccurrences : List (CmpOp × Expr) → List Occurrence
  | [] => []
  | (_, e) :: rest => occurrences e ++ comparandOccurrences rest

end

section

variable (f g : Ident → Ident) (k : Nat → Nat)

mutual

/-- The expression with other names, for variables by the first function and for labels by the
second, and with other lines by the third. -/
def relabel : Expr → Expr
  | name line id => name (k line) (f id)
  | literal line value => literal (k line) value
  | list line items => list (k line) (relabelAll items)
  | tuple line items => tuple (k line) (relabelAll items)
  | dict line entries => dict (k line) (relabelEntries entries)
  | attr line value field => attr (k line) (relabel value) (g field)
  | subscript line value index => subscript (k line) (relabel value) (relabel index)
  | call line func args keywords =>
    call (k line) (relabel func) (relabelAll args) (relabelKeywords keywords)
  | compare line left rest => compare (k line) (relabel left) (relabelComparands rest)
  | binary line left op right => binary (k line) (relabel left) op (relabel right)
  | unary line op operand => unary (k line) op (relabel operand)
  | boolean line op items => boolean (k line) op (relabelAll items)

def relabelAll : List Expr → List Expr
  | [] => []
  | e :: rest => relabel e :: relabelAll rest

def relabelEntries : List (Expr × Expr) → List (Expr × Expr)
  | [] => []
  | (key, v) :: rest => (relabel key, relabel v) :: relabelEntries rest

def relabelKeywords : List (Ident × Expr) → List (Ident × Expr)
  | [] => []
  | (keyword, v) :: rest => (g keyword, relabel v) :: relabelKeywords rest

def relabelComparands : List (CmpOp × Expr) → List (CmpOp × Expr)
  | [] => []
  | (op, e) :: rest => (op, relabel e) :: relabelComparands rest

end

@[simp] theorem line_relabel (e : Expr) : (e.relabel f g k).line = k e.line := by
  cases e <;> rfl

theorem name?_relabel (e : Expr) : (e.relabel f g k).name? = e.name?.map f := by
  cases e <;> rfl

@[simp] theorem isLiteral_relabel (e : Expr) : (e.relabel f g k).isLiteral = e.isLiteral := by
  cases e with
  | unary line op operand =>
    cases operand with
    | literal _ value => cases op <;> cases value <;> rfl
    | _ => cases op <;> rfl
  | _ => rfl

@[simp] theorem integer?_relabel (e : Expr) : (e.relabel f g k).integer? = e.integer? := by
  cases e with
  | literal _ value => cases value <;> rfl
  | unary line op operand =>
    cases operand with
    | literal _ value => cases op <;> cases value <;> rfl
    | _ => cases op <;> rfl
  | _ => rfl

@[simp] theorem relabelAll_eq_map (es : List Expr) :
    relabelAll f g k es = es.map (relabel f g k) := by
  induction es with
  | nil => rfl
  | cons e rest ih => exact congrArg (e.relabel f g k :: ·) ih

theorem text_relabel_mutual :
    (∀ e : Expr, (e.relabel id id k).text = e.text) ∧
    (∀ rest, comparisonTexts (relabelComparands id id k rest) = comparisonTexts rest) ∧
    (∀ keywords, keywordTexts (relabelKeywords id id k keywords) = keywordTexts keywords) ∧
    (∀ entries, entryTexts (relabelEntries id id k entries) = entryTexts entries) ∧
    ∀ es, texts (relabelAll id id k es) = texts es := by
  apply relabel.mutual_induct <;> intros <;>
    simp_all only [relabel, relabelComparands, relabelKeywords, relabelEntries, relabelAll, text,
      comparisonTexts, keywordTexts, entryTexts, texts, id]

/-- Lines are not printed. -/
@[simp] theorem text_relabel (e : Expr) : (e.relabel id id k).text = e.text :=
  (text_relabel_mutual k).1 e

end

section

variable {f g f' g' : Ident → Ident} {k k' : Nat → Nat}

theorem relabel_congr_mutual :
    (∀ e : Expr, SameNames f g f' g' e.occurrences → SameLines k k' e.lines →
      e.relabel f g k = e.relabel f' g' k') ∧
    (∀ rest, SameNames f g f' g' (comparandOccurrences rest) → SameLines k k' (comparandLines rest) →
      relabelComparands f g k rest = relabelComparands f' g' k' rest) ∧
    (∀ keywords, SameNames f g f' g' (keywordOccurrences keywords) →
      SameLines k k' (keywordLines keywords) →
      relabelKeywords f g k keywords = relabelKeywords f' g' k' keywords) ∧
    (∀ entries, SameNames f g f' g' (entryOccurrences entries) →
      SameLines k k' (entryLines entries) →
      relabelEntries f g k entries = relabelEntries f' g' k' entries) ∧
    ∀ es, SameNames f g f' g' (allOccurrences es) → SameLines k k' (allLines es) →
      relabelAll f g k es = relabelAll f' g' k' es := by
  apply relabel.mutual_induct <;> intros <;>
    simp_all [relabel, relabelComparands, relabelKeywords, relabelEntries, relabelAll,
      occurrences, comparandOccurrences, keywordOccurrences, entryOccurrences, allOccurrences,
      lines, comparandLines, keywordLines, entryLines, allLines, sameNames_append,
      sameNames_var_cons, sameNames_label_cons, sameLines_append, sameLines_cons]

theorem relabel_congr {e : Expr} (h : SameNames f g f' g' e.occurrences)
    (hk : SameLines k k' e.lines) : e.relabel f g k = e.relabel f' g' k' :=
  relabel_congr_mutual.1 e h hk

theorem map_relabel_congr {es : List Expr} (h : SameNames f g f' g' (allOccurrences es))
    (hk : SameLines k k' (allLines es)) : es.map (relabel f g k) = es.map (relabel f' g' k') := by
  rw [← relabelAll_eq_map, ← relabelAll_eq_map]
  exact relabel_congr_mutual.2.2.2.2 es h hk

end

theorem relabel_id_mutual :
    (∀ e : Expr, e.relabel id id id = e) ∧ (∀ rest, relabelComparands id id id rest = rest) ∧
    (∀ keywords, relabelKeywords id id id keywords = keywords) ∧
    (∀ entries, relabelEntries id id id entries = entries) ∧
    ∀ es, relabelAll id id id es = es := by
  apply relabel.mutual_induct <;> intros <;>
    simp_all [relabel, relabelComparands, relabelKeywords, relabelEntries, relabelAll]

@[simp] theorem relabel_id (e : Expr) : e.relabel id id id = e := relabel_id_mutual.1 e

end Expr

/-! ## Statements -/

/-- The names in an expression that may be absent. -/
def Expr.optionOccurrences : Option Expr → List Occurrence
  | none => []
  | some e => e.occurrences

namespace Param

def occurrences (p : Param) : List Occurrence := .var p.name :: Expr.optionOccurrences p.typeExpr

def relabel (f g : Ident → Ident) (k : Nat → Nat) (p : Param) : Param :=
  ⟨f p.name, p.typeExpr.map (·.relabel f g k), k p.line⟩

end Param

namespace Stmt

mutual

/-- The names in a statement. -/
def occurrences : Stmt → List Occurrence
  | function _ name params returns body =>
    .var name :: (params.flatMap Param.occurrences ++
      (Expr.optionOccurrences returns ++ allOccurrences body))
  | classDef _ name bases decorators body =>
    .label name :: (Expr.allOccurrences bases ++
      (Expr.allOccurrences decorators ++ memberOccurrences body))
  | assign _ target value => target.occurrences ++ value.occurrences
  | annotated _ target typeExpr value =>
    target.occurrences ++ (typeExpr.occurrences ++ Expr.optionOccurrences value)
  | augmented _ target _ value => target.occurrences ++ value.occurrences
  | expr _ value => value.occurrences
  | ifElse _ test body orelse =>
    test.occurrences ++ (allOccurrences body ++ allOccurrences orelse)
  | forIn _ target iter body => .var target :: (iter.occurrences ++ allOccurrences body)
  | raise _ value | ret _ value => Expr.optionOccurrences value
  | imports _ names => names.map .label
  | pass _ => []

def allOccurrences : List Stmt → List Occurrence
  | [] => []
  | s :: rest => occurrences s ++ allOccurrences rest

/-- The names in the body of a class. Methods and declared attributes are labels. -/
def memberOccurrences : List Stmt → List Occurrence
  | [] => []
  | function _ name params returns body :: rest =>
    .label name :: (params.flatMap Param.occurrences ++
      (Expr.optionOccurrences returns ++ (allOccurrences body ++ memberOccurrences rest)))
  | annotated _ target typeExpr value :: rest =>
    target.occurrences.map Occurrence.asLabel ++
      (typeExpr.occurrences ++ (Expr.optionOccurrences value ++ memberOccurrences rest))
  | s :: rest => occurrences s ++ memberOccurrences rest

end

theorem occurrences_subset_of_mem {s : Stmt} : ∀ {body : List Stmt}, s ∈ body →
    s.occurrences ⊆ allOccurrences body
  | s' :: rest, h, o, ho => by
    refine List.mem_append.mpr ?_
    rcases List.mem_cons.mp h with rfl | hrest
    · exact .inl ho
    · exact .inr (occurrences_subset_of_mem hrest ho)

/-- The statement declares a label if it stands in a class. -/
def declaresLabel : Stmt → Bool
  | function .. | annotated .. => true
  | _ => false

theorem memberOccurrences_cons {s : Stmt} (h : s.declaresLabel = false) (rest : List Stmt) :
    memberOccurrences (s :: rest) = s.occurrences ++ memberOccurrences rest := by
  cases s <;> first | rfl | cases h

section

variable (f g : Ident → Ident) (k : Nat → Nat)

mutual

/-- The statement with other names, for variables by the first function and for labels by the
second, and with other lines by the third. -/
def relabel : Stmt → Stmt
  | function line name params returns body =>
    function (k line) (f name) (params.map (Param.relabel f g k))
      (returns.map (Expr.relabel f g k)) (relabelAll body)
  | classDef line name bases decorators body =>
    classDef (k line) (g name) (bases.map (Expr.relabel f g k))
      (decorators.map (Expr.relabel f g k)) (relabelMembers body)
  | assign line target value => assign (k line) (target.relabel f g k) (value.relabel f g k)
  | annotated line target typeExpr value =>
    annotated (k line) (target.relabel f g k) (typeExpr.relabel f g k)
      (value.map (Expr.relabel f g k))
  | augmented line target op value =>
    augmented (k line) (target.relabel f g k) op (value.relabel f g k)
  | expr line value => expr (k line) (value.relabel f g k)
  | ifElse line test body orelse =>
    ifElse (k line) (test.relabel f g k) (relabelAll body) (relabelAll orelse)
  | forIn line target iter body =>
    forIn (k line) (f target) (iter.relabel f g k) (relabelAll body)
  | raise line value => raise (k line) (value.map (Expr.relabel f g k))
  | ret line value => ret (k line) (value.map (Expr.relabel f g k))
  | imports line names => imports (k line) (names.map g)
  | pass line => pass (k line)

def relabelAll : List Stmt → List Stmt
  | [] => []
  | s :: rest => relabel s :: relabelAll rest

/-- The body of a class with other names and lines. Methods and declared attributes are labels. -/
def relabelMembers : List Stmt → List Stmt
  | [] => []
  | function line name params returns body :: rest =>
    function (k line) (g name) (params.map (Param.relabel f g k))
      (returns.map (Expr.relabel f g k)) (relabelAll body) :: relabelMembers rest
  | annotated line target typeExpr value :: rest =>
    annotated (k line) (target.relabel g g k) (typeExpr.relabel f g k)
      (value.map (Expr.relabel f g k)) :: relabelMembers rest
  | s :: rest => relabel s :: relabelMembers rest

end

theorem relabelAll_eq_map (body : List Stmt) :
    relabelAll f g k body = body.map (relabel f g k) := by
  induction body with
  | nil => rfl
  | cons s rest ih => exact congrArg (s.relabel f g k :: ·) ih

@[simp] theorem isDocstring_relabel (s : Stmt) :
    (s.relabel f g k).isDocstring = s.isDocstring := by
  cases s with
  | expr line value =>
    cases value with
    | literal _ value => cases value <;> rfl
    | _ => rfl
  | _ => rfl

end

end Stmt

namespace Module

/-- The names in a module. -/
def occurrences (m : Module) : List Occurrence := Stmt.allOccurrences m.body

/-- The module with other names, for variables by the first function and for labels by the
second, and with other lines by the third. -/
def relabel (f g : Ident → Ident) (k : Nat → Nat) (m : Module) : Module :=
  ⟨Stmt.relabelAll f g k m.body⟩

/-- The module with no lines. -/
def withoutLines (m : Module) : Module := m.relabel id id fun _ => 0

end Module

/-! ## Names and lines that stay as they are -/

theorem Param.relabel_id (p : Param) : p.relabel id id id = p := by
  simp [relabel]

theorem Stmt.relabel_id :
    (∀ s : Stmt, s.relabel id id id = s) ∧ (∀ body, relabelMembers id id id body = body) ∧
    ∀ body, relabelAll id id id body = body := by
  apply relabel.mutual_induct <;> intros <;>
    simp_all [relabel, relabelMembers, relabelAll, funext Expr.relabel_id, funext Param.relabel_id]

theorem Module.relabel_id (m : Module) : m.relabel id id id = m :=
  congrArg Module.mk (Stmt.relabel_id.2.2 m.body)

/-! ## Names and lines that do not occur do not matter -/

section

variable {f g f' g' : Ident → Ident} {k k' : Nat → Nat}

theorem Expr.option_relabel_congr {e : Option Expr}
    (h : SameNames f g f' g' (optionOccurrences e)) (hk : SameLines k k' (optionLines e)) :
    e.map (relabel f g k) = e.map (relabel f' g' k') := by
  cases e with
  | none => rfl
  | some e => exact congrArg some (relabel_congr h hk)

theorem Param.map_relabel_congr {params : List Param}
    (h : SameNames f g f' g' (params.flatMap occurrences))
    (hk : SameLines k k' (params.flatMap lines)) :
    params.map (relabel f g k) = params.map (relabel f' g' k') := by
  induction params with
  | nil => rfl
  | cons p rest ih =>
    rw [List.flatMap_cons, sameNames_append, occurrences, sameNames_var_cons] at h
    rw [List.flatMap_cons, sameLines_append, lines, sameLines_cons] at hk
    obtain ⟨⟨hname, htype⟩, hrest⟩ := h
    have htype := Expr.option_relabel_congr htype hk.1.2
    rw [List.map_cons, List.map_cons, ih hrest hk.2, relabel, relabel, hname, htype, hk.1.1]

theorem map_label_congr {names : List Ident} (h : SameNames f g f' g' (names.map .label)) :
    names.map g = names.map g' :=
  List.map_congr_left fun id hid => h.labels id (List.mem_map_of_mem hid)

namespace Stmt

theorem relabel_congr :
    (∀ s : Stmt, SameNames f g f' g' s.occurrences → SameLines k k' s.lines →
      s.relabel f g k = s.relabel f' g' k') ∧
    (∀ body, SameNames f g f' g' (memberOccurrences body) → SameLines k k' (allLines body) →
      relabelMembers f g k body = relabelMembers f' g' k' body) ∧
    ∀ body, SameNames f g f' g' (allOccurrences body) → SameLines k k' (allLines body) →
      relabelAll f g k body = relabelAll f' g' k' body := by
  apply relabel.mutual_induct <;> intros <;>
    simp_all only [relabel, relabelMembers, relabelAll, occurrences, memberOccurrences,
      allOccurrences, lines, allLines, sameNames_append, sameNames_var_cons, sameNames_label_cons,
      sameLines_append, sameLines_cons] <;>
    grind [→ Expr.relabel_congr, → Expr.map_relabel_congr, → Expr.option_relabel_congr,
      → Param.map_relabel_congr, → map_label_congr, → SameNames.of_asLabel]

/-- A statement stays as it is if its lines do. -/
theorem relabel_eq_self {s : Stmt} (h : FixesLines k s.lines) : s.relabel id id k = s :=
  (relabel_congr.1 s ⟨fun _ _ => rfl, fun _ _ => rfl⟩ h).trans (relabel_id.1 s)

end Stmt

theorem Module.relabel_congr {m : Module} (h : SameNames f g f' g' m.occurrences) :
    m.relabel f g k = m.relabel f' g' k :=
  congrArg Module.mk (Stmt.relabel_congr.2.2 _ h fun _ _ => rfl)

end

/-! ## Relabelling and the passes over trees -/

namespace Stmt

theorem desugar_relabel (f g : Ident → Ident) (k : Nat → Nat) :
    (∀ s : Stmt, (s.relabel f g k).desugar = s.desugar.relabel f g k) ∧
    (∀ body, desugarAll (relabelMembers f g k body) = relabelMembers f g k (desugarAll body)) ∧
    ∀ body, desugarAll (relabelAll f g k body) = relabelAll f g k (desugarAll body) := by
  apply relabel.mutual_induct
  case case16 =>
    intro s rest hfunction hannotated hs hrest
    cases s <;> simp_all [relabel, relabelMembers, desugar, desugarAll]
  all_goals
    intros
    simp_all only [relabel, relabelMembers, relabelAll, desugar, desugarAll, Expr.relabel]

/-- Augmented assignments have no names of their own. -/
theorem occurrences_desugar_subset :
    (∀ s : Stmt, s.desugar.occurrences ⊆ s.occurrences) ∧
    (∀ body, memberOccurrences (desugarAll body) ⊆ memberOccurrences body) ∧
    ∀ body, allOccurrences (desugarAll body) ⊆ allOccurrences body := by
  apply relabel.mutual_induct
  case case16 =>
    -- a member that declares no label is read as a statement
    intro s rest hfunction hannotated hs hrest
    cases s <;> simp_all [desugar, desugarAll, memberOccurrences] <;> grind
  all_goals
    intros
    simp only [desugar, desugarAll, occurrences, memberOccurrences, allOccurrences,
      Expr.occurrences]
    grind

end Stmt

/-! ## Calls of `transaction` -/

/-- A renaming of variables spares a name if that name, and nothing else, is renamed to it. -/
def Spares (f : Ident → Ident) (name : Ident) : Prop := ∀ id, f id = name ↔ id = name

section

variable {f : Ident → Ident} (g : Ident → Ident) (k : Nat → Nat)

/-- Whether an expression is the name is not changed by renaming. -/
theorem Expr.name?_beq_relabel {name : Ident} (hf : Spares f name) (e : Expr) :
    ((e.relabel f g k).name? == some name) = (e.name? == some name) := by
  rw [name?_relabel]
  cases e.name? with
  | none => rfl
  | some id =>
    have hid := hf id
    rw [Option.map_some, Option.some_beq_some, Option.some_beq_some, Bool.eq_iff_iff, beq_iff_eq,
      beq_iff_eq, hid]

namespace Expr

theorem callsTransaction_relabel_mutual (hf : Spares f "transaction") :
    (∀ e : Expr, (e.relabel f g k).callsTransaction = e.callsTransaction) ∧
    (∀ rest, anyComparandCallsTransaction (relabelComparands f g k rest) =
      anyComparandCallsTransaction rest) ∧
    (∀ keywords, anyKeywordCallsTransaction (relabelKeywords f g k keywords) =
      anyKeywordCallsTransaction keywords) ∧
    (∀ entries, anyEntryCallsTransaction (relabelEntries f g k entries) =
      anyEntryCallsTransaction entries) ∧
    ∀ es, anyCallsTransaction (relabelAll f g k es) = anyCallsTransaction es := by
  apply relabel.mutual_induct <;> intros <;>
    simp_all only [relabel, relabelComparands, relabelKeywords, relabelEntries, relabelAll,
      callsTransaction, anyComparandCallsTransaction, anyKeywordCallsTransaction,
      anyEntryCallsTransaction, anyCallsTransaction, name?_beq_relabel g k hf]

theorem callsTransaction_relabel (hf : Spares f "transaction") (e : Expr) :
    (e.relabel f g k).callsTransaction = e.callsTransaction :=
  (callsTransaction_relabel_mutual g k hf).1 e

theorem any_callsTransaction_map (hf : Spares f "transaction") (e : Option Expr) :
    (e.map (relabel f g k)).any callsTransaction = e.any callsTransaction := by
  cases e <;> simp [callsTransaction_relabel g k hf]

end Expr

namespace Stmt

theorem callsTransaction_relabel (hf : Spares f "transaction") :
    (∀ s : Stmt, (s.relabel f g k).callsTransaction = s.callsTransaction) ∧
    ∀ body, anyCallsTransaction (relabelAll f g k body) = anyCallsTransaction body := by
  apply callsTransaction.mutual_induct <;> intros <;>
    simp_all only [relabel, relabelAll, callsTransaction, anyCallsTransaction,
      Expr.callsTransaction_relabel g k hf, Expr.any_callsTransaction_map g k hf]

end Stmt

end

end Covenant
