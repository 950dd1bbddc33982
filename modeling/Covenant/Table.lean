import Covenant.Syntax.Expr

/-!
# Covenant — tables of named things

A table is a list of entries in which every name occurs once: inserting under a name replaces what
was there. Only lookups and the set of names matter; nothing depends on the order of entries.
-/

namespace Covenant

/-- Things under names. -/
structure Table (α : Type) where
  entries : List (Ident × α)

namespace Table

variable {α : Type}

def empty : Table α := ⟨[]⟩

/-- What stands under a name. -/
def get? (t : Table α) (name : Ident) : Option α :=
  t.entries.lookup name

def contains (t : Table α) (name : Ident) : Bool :=
  (t.get? name).isSome

/-- The names that have an entry. -/
def names (t : Table α) : List Ident :=
  t.entries.map (·.1)

/-- The table without the entry of a name. -/
def erase (t : Table α) (name : Ident) : Table α :=
  ⟨t.entries.filter fun e => e.1 != name⟩

/-- The table with an entry under a name, in place of any other. -/
def insert (t : Table α) (name : Ident) (value : α) : Table α :=
  ⟨(name, value) :: (t.erase name).entries⟩

/-- The table with every entry changed by a function. -/
def mapValues (f : α → α) (t : Table α) : Table α :=
  ⟨t.entries.map fun (name, value) => (name, f value)⟩

/-- The table with every entry changed by a function that may fail. -/
def traverse {ε : Type} (f : α → Except ε α) (t : Table α) : Except ε (Table α) := do
  return ⟨← t.entries.mapM fun (name, value) => do return (name, ← f value)⟩

/-! ## Lookups -/

theorem lookup_cons (name other : Ident) (value : α) (rest : List (Ident × α)) :
    List.lookup other ((name, value) :: rest) =
      if other = name then some value else List.lookup other rest := by
  by_cases h : other = name
  · simp [h]
  · rw [List.lookup_cons, beq_eq_false_iff_ne.mpr h, if_neg h]

@[simp] theorem get?_empty (name : Ident) : (empty : Table α).get? name = none := rfl

theorem get?_erase (t : Table α) (name other : Ident) :
    (t.erase name).get? other = if other = name then none else t.get? other := by
  obtain ⟨entries⟩ := t
  simp only [get?, erase]
  induction entries with
  | nil => simp
  | cons e rest ih =>
    obtain ⟨key, value⟩ := e
    by_cases hkey : key = name
    · rw [List.filter_cons_of_neg (by simp [hkey]), ih, lookup_cons, hkey]
      split <;> rfl
    · rw [List.filter_cons_of_pos (by simp [hkey]), lookup_cons, lookup_cons, ih]
      grind

theorem get?_insert (t : Table α) (name other : Ident) (value : α) :
    (t.insert name value).get? other = if other = name then some value else t.get? other := by
  have herase := get?_erase t name other
  simp only [get?, insert, lookup_cons] at herase ⊢
  grind

theorem get?_mapValues (f : α → α) (t : Table α) (name : Ident) :
    (t.mapValues f).get? name = (t.get? name).map f := by
  obtain ⟨entries⟩ := t
  simp only [get?, mapValues]
  induction entries with
  | nil => rfl
  | cons e rest ih =>
    obtain ⟨key, value⟩ := e
    rw [List.map_cons, lookup_cons, lookup_cons, ih]
    split <;> rfl

/-- A function that does not fail changes every entry. -/
theorem traverse_of_ok {ε : Type} {f : α → Except ε α} {g : α → α} (h : ∀ a, f a = .ok (g a))
    (t : Table α) : t.traverse f = .ok (t.mapValues g) := by
  have hentries := List.mapM_pure (m := Except ε) (l := t.entries) (f := fun e => (e.1, g e.2))
  simp only [traverse, h]
  exact congrArg (Except.map mk) hentries

end Table

end Covenant
