import Covenant.Proofs.Typing.Stable
import Covenant.Syntax.Stmt

/-!
# Covenant — a memory of types

Typing an expression is a matter of typing its parts, and code generation asks for the type of every
node again. A compiler may keep the answers. It stores an answer under the address of the node and
the expected type, but not under what names mean at the point of the question; so an answer is of
use only as long as they mean the same.

This module has what a compiler with a memory is made of.

* `Node.at?` and `Addresses` — the nodes of a syntax tree and where each of them is stored;
* `Ask` — a typing question that may look at the memory and change it;
* `question` — looks a node up and works its type out only if it is not there. Every question goes
  into a log together with its answer, found or worked out, and so does every failure.

`Answers` compares a question to the plain outcome. The memory has to be `Sound`: whatever it holds
about nodes that may be asked for is right where names mean what they mean now.
-/

namespace Covenant

/-! ## Nodes and their addresses -/

/-- A step from a node of the syntax tree to one of its parts. -/
inductive Edge where
  | first | second | third
  deriving DecidableEq

/-- A node of the syntax tree. A list is a node as well, with its head and its tail as parts. -/
inductive Node where
  | expr (e : Expr)
  | exprs (es : List Expr)
  | entries (es : List (Expr × Expr))
  | keywords (ks : List (Ident × Expr))
  | stmt (s : Stmt)
  | block (body : List Stmt)

/-- A part of an expression. -/
def Expr.part? : Expr → Edge → Option Node
  | .list _ items, .first => some (.exprs items)
  | .dict _ es, .first => some (.entries es)
  | .attr _ value _, .first => some (.expr value)
  | .subscript _ value _, .first => some (.expr value)
  | .subscript _ _ index, .second => some (.expr index)
  | .call _ func _ _, .first => some (.expr func)
  | .call _ _ args _, .second => some (.exprs args)
  | .call _ _ _ ks, .third => some (.keywords ks)
  | .compare _ left [_], .first => some (.expr left)
  | .compare _ _ [(_, right)], .second => some (.expr right)
  | .binary _ left _ _, .first => some (.expr left)
  | .binary _ _ _ right, .second => some (.expr right)
  | .unary _ _ operand, .first => some (.expr operand)
  | .boolean _ _ operands, .first => some (.exprs operands)
  | _, _ => none

/-- A part of a statement. Annotations are no part of it: they are types, which are not typed. -/
def Stmt.part? : Stmt → Edge → Option Node
  | .function _ _ _ _ body, .first => some (.block body)
  | .classDef _ _ _ _ body, .first => some (.block body)
  | .assign _ target _, .first => some (.expr target)
  | .assign _ _ value, .second => some (.expr value)
  | .annotated _ target _ _, .first => some (.expr target)
  | .annotated _ _ _ (some value), .second => some (.expr value)
  | .expr _ value, .first => some (.expr value)
  | .ifElse _ test _ _, .first => some (.expr test)
  | .ifElse _ _ body _, .second => some (.block body)
  | .ifElse _ _ _ orelse, .third => some (.block orelse)
  | .forIn _ _ iter _, .first => some (.expr iter)
  | .forIn _ _ _ body, .second => some (.block body)
  | .raise _ (some value), .first => some (.expr value)
  | .ret _ (some value), .first => some (.expr value)
  | _, _ => none

namespace Node

/-- A part of a node. -/
def part? : Node → Edge → Option Node
  | .expr e, edge => e.part? edge
  | .exprs (e :: _), .first => some (.expr e)
  | .exprs (_ :: es), .second => some (.exprs es)
  | .entries ((key, _) :: _), .first => some (.expr key)
  | .entries ((_, value) :: _), .second => some (.expr value)
  | .entries (_ :: es), .third => some (.entries es)
  | .keywords ((_, value) :: _), .first => some (.expr value)
  | .keywords (_ :: ks), .second => some (.keywords ks)
  | .stmt s, edge => s.part? edge
  | .block (s :: _), .first => some (.stmt s)
  | .block (_ :: body), .second => some (.block body)
  | _, _ => none

/-- The node at the end of a path. -/
def at? : Node → List Edge → Option Node
  | n, [] => some n
  | n, edge :: path => (n.part? edge).bind (·.at? path)

theorem at?_cons {n n' : Node} {edge : Edge} (h : n.part? edge = some n') (path : List Edge) :
    n.at? (edge :: path) = n'.at? path := by
  simp [at?, h]

end Node

/-- Where a node is stored, and the nodes inside it, each given by its path from the node. -/
def Addresses (κ : Type) : Type := List Edge → κ

namespace Addresses

variable {κ : Type} {key : κ}

/-- The address of the node itself. -/
def own (a : Addresses κ) : κ := a []

/-- The addresses of a part and of the nodes inside it. -/
def part (a : Addresses κ) (edge : Edge) : Addresses κ := fun path => a (edge :: path)

/-- An expression inside a node is stored at an address. -/
def Stores (a : Addresses κ) (n : Node) (key : κ) (e : Expr) : Prop :=
  ∃ path, n.at? path = some (.expr e) ∧ a path = key

/-- No two expressions inside a node are stored at one address. -/
def Distinct (a : Addresses κ) (n : Node) : Prop :=
  ∀ ⦃path path' : List Edge⦄ ⦃e e' : Expr⦄, n.at? path = some (.expr e) →
    n.at? path' = some (.expr e') → a path = a path' → path = path'

variable {a : Addresses κ} {n n' : Node} {edge : Edge}

theorem Stores.of_part (h : n.part? edge = some n') {e : Expr}
    (hstores : (a.part edge).Stores n' key e) : a.Stores n key e := by
  obtain ⟨path, hpath, hkey⟩ := hstores
  exact ⟨edge :: path, (Node.at?_cons h path).trans hpath, hkey⟩

/-- The addresses inside a part are distinct as well. -/
theorem Distinct.part (hdistinct : a.Distinct n) (edge : Edge) (h : n.part? edge = some n') :
    (a.part edge).Distinct n' := by
  intro path path' e e' hpath hpath' heq
  have hcons : edge :: path = edge :: path' :=
    hdistinct ((Node.at?_cons h path).trans hpath) ((Node.at?_cons h path').trans hpath') heq
  exact (List.cons.inj hcons).2

/-- One address stores one expression. -/
theorem Distinct.unique (hdistinct : a.Distinct n) {e e' : Expr} (h : a.Stores n key e)
    (h' : a.Stores n key e') : e = e' := by
  obtain ⟨path, hpath, hkey⟩ := h
  obtain ⟨path', hpath', hkey'⟩ := h'
  obtain rfl := hdistinct hpath hpath' (hkey.trans hkey'.symm)
  rw [hpath] at hpath'
  injection hpath' with hexpr
  injection hexpr

/-- Two parts of a node have no address in common. -/
theorem Distinct.disjoint (hdistinct : a.Distinct n) {edge' : Edge} {n'' : Node}
    (hne : edge ≠ edge') (h : n.part? edge = some n') (h' : n.part? edge' = some n'') {e e' : Expr}
    (hstores : (a.part edge).Stores n' key e) :
    ¬(a.part edge').Stores n'' key e' := by
  rintro ⟨path', hpath', hkey'⟩
  obtain ⟨path, hpath, hkey⟩ := hstores
  have hcons : edge :: path = edge' :: path' :=
    hdistinct ((Node.at?_cons h path).trans hpath) ((Node.at?_cons h' path').trans hpath')
      (hkey.trans hkey'.symm)
  exact hne (List.cons.inj hcons).1

end Addresses

/-! ## The memory -/

/-- An answer that is kept: the type of the node at an address where a type is expected. -/
structure Entry (κ : Type) where
  key : κ
  expected : Option Ty
  ty : Ty

/-- A question that was asked, what names meant at that point, and the answer it got. -/
structure Question where
  scope : Scope
  expr : Expr
  expected : Option Ty
  answer : Typed Ty

/-- The answers that are kept, and all questions so far. -/
structure Memory (κ : Type) where
  entries : List (Entry κ)
  log : List Question

namespace Memory

variable {κ : Type} {mem : Memory κ}

def empty : Memory κ := ⟨[], []⟩

/-- The answer that is kept for an address and an expected type. -/
def find? [DecidableEq κ] (mem : Memory κ) (key : κ) (expected : Option Ty) : Option Ty :=
  (mem.entries.find? fun entry => entry.key = key ∧ entry.expected = expected).map (·.ty)

/-- Keeps an answer. -/
def keep (mem : Memory κ) (key : κ) (expected : Option Ty) (ty : Ty) : Memory κ :=
  { mem with entries := mem.entries ++ [⟨key, expected, ty⟩] }

/-- Keeps no answer any longer. -/
def clear (mem : Memory κ) : Memory κ := { mem with entries := [] }

/-- Puts a question into the log. -/
def note (mem : Memory κ) (q : Question) : Memory κ := { mem with log := mem.log ++ [q] }

/-- Every question so far got the answer that plain typing gives. -/
def Honest (mem : Memory κ) : Prop :=
  ∀ q ∈ mem.log, q.answer = typeOf q.scope q.expr q.expected

theorem Honest.keep (h : mem.Honest) (key : κ) (expected : Option Ty) (ty : Ty) :
    (mem.keep key expected ty).Honest := h

theorem Honest.clear (h : mem.Honest) : mem.clear.Honest := h

theorem Honest.note (h : mem.Honest) {q : Question}
    (hq : q.answer = typeOf q.scope q.expr q.expected) : (mem.note q).Honest :=
  List.forall_mem_append.mpr ⟨h, List.forall_mem_singleton.mpr hq⟩

/-- What is found is kept under just this address and expectation. -/
theorem exists_of_find? [DecidableEq κ] {key : κ} {expected : Option Ty} {ty : Ty}
    (h : mem.find? key expected = some ty) : ⟨key, expected, ty⟩ ∈ mem.entries := by
  obtain ⟨entry, hentry, rfl⟩ := Option.map_eq_some_iff.mp h
  obtain ⟨rfl, rfl⟩ : entry.key = key ∧ entry.expected = expected := by
    simpa using List.find?_some hentry
  exact List.mem_of_find?_eq_some hentry

end Memory

/-! ## Questions -/

/-- A question about types that uses the memory. -/
def Ask (κ α : Type) : Type := Memory κ → Typed α × Memory κ

namespace Ask

variable {κ α β : Type}

instance : Monad (Ask κ) where
  pure a := fun mem => (.ok a, mem)
  bind m next := fun mem =>
    match m mem with
    | (.ok a, mem) => next a mem
    | (.error e, mem) => (.error e, mem)

/-- An outcome that takes no memory. -/
def plain (outcome : Typed α) : Ask κ α := fun mem => (outcome, mem)

theorem bind_apply (m : Ask κ α) (next : α → Ask κ β) (mem : Memory κ) :
    (m >>= next) mem = match m mem with
      | (.ok a, mem) => next a mem
      | (.error e, mem) => (.error e, mem) := rfl

/-- A sequence of questions that gets an answer has got one to its first question. -/
theorem exists_of_bind_eq_ok {m : Ask κ α} {next : α → Ask κ β} {mem : Memory κ} {b : β}
    (h : ((m >>= next) mem).1 = .ok b) :
    ∃ a mem', m mem = (.ok a, mem') ∧ (next a mem').1 = .ok b := by
  rw [bind_apply] at h
  rcases hm : m mem with ⟨e | a, mem'⟩ <;> rw [hm] at h
  · cases h
  · exact ⟨a, mem', rfl, h⟩

end Ask

/-- Asks for the type of the expression at an address. It is worked out unless the memory has it,
and then kept if there is one. -/
def question {κ : Type} [DecidableEq κ] (scope : Scope) (e : Expr) (key : κ) (expected : Option Ty)
    (infer : Ask κ Ty) : Ask κ Ty := fun mem =>
  match mem.find? key expected with
  | some ty => (.ok ty, mem.note ⟨scope, e, expected, .ok ty⟩)
  | none =>
    match infer mem with
    | (.ok ty, mem) => (.ok ty, (mem.keep key expected ty).note ⟨scope, e, expected, .ok ty⟩)
    | (.error err, mem) => (.error err, mem.note ⟨scope, e, expected, .error err⟩)

/-! ## Right answers -/

/-- What a stretch of the compilation may ask for. Addresses that are not asked for in it may have
answers left over from before. -/
structure Region (κ : Type) where
  /-- The expressions that may be asked for, with their addresses. -/
  live : κ → Expr → Prop
  /-- The addresses of answers that may be left over. -/
  stale : κ → Prop
  unique : ∀ ⦃key e e'⦄, live key e → live key e' → e = e'
  apart : ∀ ⦃key e⦄, live key e → ¬stale key

/-- An answer is left over, or it is the type that plain typing gives. -/
def Entry.Right {κ : Type} (r : Region κ) (scope : Scope) (entry : Entry κ) : Prop :=
  r.stale entry.key ∨
    ∃ e, r.live entry.key e ∧ typeOf scope e entry.expected = .ok entry.ty

/-- Every answer that is kept is left over or right. -/
def Memory.Sound {κ : Type} (r : Region κ) (scope : Scope) (mem : Memory κ) : Prop :=
  ∀ entry ∈ mem.entries, entry.Right r scope

namespace Memory.Sound

variable {κ : Type} {r : Region κ} {scope : Scope} {mem : Memory κ}

/-- Answers stay right as long as names have the same types. -/
theorem of_alike {records : Records} {l l' : Layout} (h : mem.Sound r ⟨records, l⟩)
    (halike : l.Alike l') : mem.Sound r ⟨records, l'⟩ := by
  intro entry hentry
  refine (h entry hentry).imp_right ?_
  rintro ⟨e, hlive, hty⟩
  exact ⟨e, hlive, (typeOf_of_alike halike e entry.expected).trans hty⟩

theorem note (h : mem.Sound r scope) (q : Question) : (mem.note q).Sound r scope := h

theorem keep (h : mem.Sound r scope) {key : κ} {e : Expr} (hlive : r.live key e)
    {expected : Option Ty} {ty : Ty} (hty : typeOf scope e expected = .ok ty) :
    (mem.keep key expected ty).Sound r scope :=
  List.forall_mem_append.mpr ⟨h, List.forall_mem_singleton.mpr (.inr ⟨e, hlive, hty⟩)⟩

/-- An answer that is found for an expression that may be asked for is the right one. -/
theorem typeOf_of_find? [DecidableEq κ] (h : mem.Sound r scope) {key : κ} {e : Expr}
    (hlive : r.live key e) {expected : Option Ty} {ty : Ty}
    (hfind : mem.find? key expected = some ty) : typeOf scope e expected = .ok ty := by
  rcases h _ (exists_of_find? hfind) with hstale | ⟨e', hlive', hty⟩
  · exact absurd hstale (r.apart hlive)
  · obtain rfl := r.unique hlive hlive'
    exact hty

end Memory.Sound

/-! ## Questions that get the plain answer -/

variable {κ α β γ δ : Type} {r : Region κ} {scope : Scope}

/-- From a sound memory the question gets the plain outcome, which is given in terms of what the
question yields, and leaves a sound memory behind. -/
def AnswersAs (r : Region κ) (scope : Scope) (f : α → β) (m : Ask κ α) (outcome : Typed β) : Prop :=
  ∀ ⦃mem : Memory κ⦄, mem.Sound r scope → mem.Honest →
    (m mem).1.map f = outcome ∧ (m mem).2.Sound r scope ∧ (m mem).2.Honest

/-- From a sound memory the question gets the plain outcome. -/
abbrev Answers (r : Region κ) (scope : Scope) (m : Ask κ α) (outcome : Typed α) : Prop :=
  AnswersAs r scope id m outcome

/-- The memory that the first question leaves is sound for the next one. -/
theorem AnswersAs.bind {f : α → β} {m : Ask κ α} {outcome : Typed β}
    (h : AnswersAs r scope f m outcome) {g : γ → δ} {next : α → Ask κ γ} {next' : β → Typed δ}
    (hnext : ∀ a, AnswersAs r scope g (next a) (next' (f a))) :
    AnswersAs r scope g (m >>= next) (outcome >>= next') := by
  intro mem hsound hhonest
  obtain ⟨hout, hsound', hhonest'⟩ := h hsound hhonest
  rw [Ask.bind_apply]
  rcases hm : m mem with ⟨first | a, mem'⟩ <;> rw [hm] at hout hsound' hhonest' <;> subst hout
  · exact ⟨rfl, hsound', hhonest'⟩
  · exact hnext a hsound' hhonest'

theorem Answers.bind {m : Ask κ α} {outcome : Typed α} (h : Answers r scope m outcome) {g : γ → δ}
    {next : α → Ask κ γ} {next' : α → Typed δ}
    (hnext : ∀ a, AnswersAs r scope g (next a) (next' a)) :
    AnswersAs r scope g (m >>= next) (outcome >>= next') :=
  AnswersAs.bind h hnext

theorem answersAs_pure {f : α → β} {a : α} {b : β} (h : f a = b) :
    AnswersAs r scope f (pure a) (.ok b) :=
  fun _ hsound hhonest => ⟨congrArg Except.ok h, hsound, hhonest⟩

theorem answers_pure (a : α) : Answers r scope (pure a) (.ok a) := answersAs_pure rfl

theorem answers_plain (outcome : Typed α) : Answers r scope (Ask.plain outcome) outcome :=
  fun _ hsound hhonest => ⟨Except.map_id ▸ rfl, hsound, hhonest⟩

/-- A fault is the same fault whatever the question is to yield. -/
theorem answersAs_fault (f : α → β) (line : Nat) (cause : Cause) :
    AnswersAs r scope f (Ask.plain (faultAt line cause)) (faultAt line cause) :=
  fun _ hsound hhonest => ⟨rfl, hsound, hhonest⟩

theorem AnswersAs.ite {f : α → β} {c : Prop} [Decidable c] {m m' : Ask κ α} {t t' : Typed β}
    (h : AnswersAs r scope f m t) (h' : AnswersAs r scope f m' t') :
    AnswersAs r scope f (if c then m else m') (if c then t else t') := by
  split
  · exact h
  · exact h'

/-- A question about an expression that may be asked for gets the plain answer, from the memory or
not, if working it out would give that answer. -/
theorem answers_question [DecidableEq κ] {e : Expr} {key : κ} (hlive : r.live key e)
    {expected : Option Ty} {infer : Ask κ Ty}
    (hinfer : Answers r scope infer (typeOf scope e expected)) :
    Answers r scope (question scope e key expected infer) (typeOf scope e expected) := by
  intro mem hsound hhonest
  unfold question
  cases hfind : mem.find? key expected with
  | some ty =>
    -- What is kept under this address is about this very expression.
    have hty := hsound.typeOf_of_find? hlive hfind
    exact ⟨hty.symm, hsound.note _, hhonest.note hty.symm⟩
  | none =>
    -- Questions about the parts may have filled the memory in the meantime.
    obtain ⟨hout, hsound', hhonest'⟩ := hinfer hsound hhonest
    rcases hm : infer mem with ⟨err | ty, mem'⟩ <;> rw [hm] at hout hsound' hhonest'
    · exact ⟨hout, hsound'.note _, hhonest'.note hout⟩
    · exact ⟨hout, (hsound'.keep hlive hout.symm).note _, (hhonest'.keep _ _ _).note hout⟩

end Covenant
