import Covenant.Ty.Printer

/-!
# Covenant — reading types back

The text of a type determines the type up to the names of its records (`text_determines_type`).

Texts are compared together with what follows them. The text of an atom may end in annotations, one
for each record with a single attribute that it stands in, and the next characters may be annotations
of what the type is part of. These are told apart by their number, so what can be cancelled is a type
with as many annotations after it on both sides (`Ty.Cancels`). If it is not an atom it must also be
the last thing before a closing parenthesis; as an operand it has parentheses of its own.
-/

namespace Covenant

namespace Ty

/-! ## Types up to the names of records -/

mutual

/-- The type with no names for its records. -/
def anonymous : Ty → Ty
  | option t => option t.anonymous
  | list t => list t.anonymous
  | map big k v => map big k.anonymous v.anonymous
  | contract t => contract t.anonymous
  | record _ fields => record "" (anonymousFields fields)
  | lambda arg result => lambda arg.anonymous result.anonymous
  | t => t

def anonymousFields : Fields → Fields
  | [] => []
  | (field, t) :: rest => (field, t.anonymous) :: anonymousFields rest

end

/-- A character that ends a word. -/
def delimits (c : Char) : Bool := c == ' ' || c == ')'

/-- A name that is one word. -/
def isWord (name : Ident) : Bool := name.toList.all fun c => !delimits c

mutual

/-- The names of attributes are words, and there are no built-in functions. -/
def plain : Ty → Bool
  | base _ | unknown => true
  | option t | list t | contract t => t.plain
  | map _ k v | lambda k v => k.plain && v.plain
  | record _ fields => plainFields fields
  | function _ _ => false

def plainFields : Fields → Bool
  | [] => true
  | (field, t) :: rest => isWord field && t.plain && plainFields rest

end

/-! ## What follows a type -/

/-- Nothing follows, or a character that ends a word. -/
def Parts (r : List Char) : Prop := ∀ c ∈ r.head?, delimits c = true

/-- No annotation follows. -/
def Stops (r : List Char) : Prop := Parts r ∧ ∀ rest, r ≠ ' ' :: '%' :: rest

/-- Nothing follows inside the parentheses. -/
def Closes (r : List Char) : Prop := ∀ c ∈ r.head?, c = ')'

/-- So many annotations follow, and then something else. -/
inductive Annotated (stop : List Char → Prop) : Nat → List Char → Prop
  | none {r : List Char} (hstop : stop r) : Annotated stop 0 r
  | one {n : Nat} {r : List Char} (a : Ident) (ha : isWord a = true) (h : Annotated stop n r) :
    Annotated stop (n + 1) (' ' :: '%' :: (a.toList ++ r))

variable {t u : Ty} {name a b : Ident} {fields : Fields} {stop : List Char → Prop} {m n : Nat}
  {r r₁ r₂ : List Char}

theorem Closes.stops (h : Closes r) : Stops r :=
  ⟨fun c hc => by simp [h c hc, delimits], fun rest heq => by simp [heq, Closes] at h⟩

theorem Annotated.parts (h : Annotated Stops n r) : Parts r := by
  cases h with
  | none hstop => exact hstop.1
  | one => simp [Parts, delimits]

theorem Annotated.mono {stop' : List Char → Prop} (h : Annotated stop n r)
    (hmono : ∀ {r}, stop r → stop' r) : Annotated stop' n r := by
  induction h with
  | none hstop => exact .none (hmono hstop)
  | one a ha _ ih => exact .one a ha ih

theorem word_cancel {v w : List Char} (hv : v.all (fun c => !delimits c) = true)
    (hw : w.all (fun c => !delimits c) = true) (hr₁ : Parts r₁) (hr₂ : Parts r₂)
    (h : v ++ r₁ = w ++ r₂) : v = w ∧ r₁ = r₂ := by
  induction v generalizing w with
  | nil =>
    cases w with
    | nil => exact ⟨rfl, h⟩
    | cons c w =>
      subst h
      simp_all [Parts]
  | cons c v ih =>
    cases w with
    | nil =>
      subst h
      simp_all [Parts]
    | cons d w =>
      simp only [List.cons_append, List.cons.injEq, List.all_cons, Bool.and_eq_true] at h hv hw
      obtain ⟨rfl, rfl⟩ := ih hv.2 hw.2 h.2
      exact ⟨by rw [h.1], rfl⟩

theorem annotation_cancel (ha : isWord a = true) (hb : isWord b = true) (hr₁ : Parts r₁)
    (hr₂ : Parts r₂) (h : ' ' :: '%' :: (a.toList ++ r₁) = ' ' :: '%' :: (b.toList ++ r₂)) :
    a = b ∧ r₁ = r₂ := by
  simp only [List.cons.injEq, true_and] at h
  obtain ⟨hname, hrest⟩ := word_cancel ha hb hr₁ hr₂ h
  exact ⟨String.toList_injective hname, hrest⟩

theorem Annotated.unique (h₁ : Annotated Stops m r) (h₂ : Annotated Stops n r) : m = n := by
  generalize hr : r = r' at h₂
  induction h₁ generalizing n r' with
  | none hstop =>
    cases h₂ with
    | none => rfl
    | one a ha h₂ => exact absurd hr (hstop.2 _)
  | one a ha h₁ ih =>
    cases h₂ with
    | none hstop => exact absurd hr.symm (hstop.2 _)
    | one b hb h₂ =>
      obtain ⟨rfl, hrest⟩ := annotation_cancel ha hb h₁.parts h₂.parts hr
      rw [ih _ hrest h₂]

/-! ## The parts of a text -/

/-- An operand after a word. -/
def operand (t : Ty) : List Char := ' ' :: t.operandText.toList

/-- The word that the text starts with, unless this is a record with one attribute. -/
def word : Ty → String
  | base b => b.text
  | option _ => "option"
  | list _ => "list"
  | map false _ _ => "map"
  | map true _ _ => "big_map"
  | contract _ => "contract"
  | record _ _ => "pair"
  | lambda _ _ => "lambda"
  | function _ _ => ""
  | unknown => "unknown"

/-- The parameters of the type, a record apart. -/
def params : Ty → List Ty
  | option t | list t | contract t => [t]
  | map _ k v | lambda k v => [k, v]
  | _ => []

/-- What comes after the word. -/
def args : Ty → List Char
  | record _ fields => (String.join (fieldTexts fields)).toList
  | t => t.params.flatMap operand

/-- This is a record with one attribute. -/
def single : Ty → Bool
  | record _ [_] => true
  | _ => false

theorem exists_of_single (h : u.single = true) (hu : u.plain = true) :
    ∃ name a t, u = record name [(a, t)] ∧ isWord a = true ∧ t.plain = true := by
  rcases u with _ | _ | _ | _ | _ | ⟨name, _ | ⟨⟨a, t⟩, _ | _⟩⟩ | _ | _ | _ <;>
    simp only [single, Bool.false_eq_true] at h
  simp only [plain, plainFields, Bool.and_true, Bool.and_eq_true] at hu
  exact ⟨name, a, t, rfl, hu⟩

theorem toList_text (hsingle : t.single = false) (ht : t.plain = true) :
    t.text.toList = t.word.toList ++ t.args := by
  rcases t with b | _ | _ | ⟨_ | _⟩ | _ | ⟨name, _ | ⟨_, _ | ⟨_, _⟩⟩⟩ | _ | _ | _ <;>
    simp_all [text, word, args, params, operand, operandText, single, plain]

theorem toList_operandText (t : Ty) :
    t.operandText.toList = if t.isAtom then t.text.toList else '(' :: (t.text.toList ++ [')']) := by
  unfold operandText parenthesize
  split <;> simp

theorem text_single : (record name [(a, t)]).text.toList =
    t.operandText.toList ++ ' ' :: '%' :: a.toList := by
  rw [text]
  simp [operandText]

theorem word_isWord (t : Ty) : isWord t.word = true := by
  rcases t with ⟨_ | _ | _ | _ | _ | _ | _ | _ | _ | _⟩ | _ | _ | ⟨_ | _⟩ | _ | _ | _ | _ | _ <;>
    simp [word, Base.text, isWord, delimits]

theorem word_ne_cons (ht : t.plain = true) {c : Char} (hc : c = '(' ∨ c = '%')
    (r₁ r₂ : List Char) : t.word.toList ++ r₁ ≠ c :: r₂ := by
  rcases t with ⟨_ | _ | _ | _ | _ | _ | _ | _ | _ | _⟩ | _ | _ | ⟨_ | _⟩ | _ | _ | _ | _ | _ <;>
    rcases hc with rfl | rfl <;> simp_all [word, Base.text, plain]

theorem args_parts (t : Ty) (hr : Parts r) : Parts (t.args ++ r) := by
  rcases t with _ | _ | _ | _ | _ | ⟨_, _ | ⟨⟨_, _⟩, _⟩⟩ | _ | _ | _ <;>
    simp_all [args, params, operand, fieldTexts, Parts, delimits]

/-- Types with one word have the same constructor. -/
def skeleton : Ty → Ty
  | option _ => option unknown
  | list _ => list unknown
  | map big _ _ => map big unknown unknown
  | contract _ => contract unknown
  | record _ _ => record "" []
  | lambda _ _ => lambda unknown unknown
  | function _ _ => function [] unknown
  | t => t

theorem skeleton_of_word (h : t.word = u.word) : t.skeleton = u.skeleton := by
  rcases t with ⟨_ | _ | _ | _ | _ | _ | _ | _ | _ | _⟩ | _ | _ | ⟨_ | _⟩ | _ | _ | _ | _ | _ <;>
    rcases u with ⟨_ | _ | _ | _ | _ | _ | _ | _ | _ | _⟩ | _ | _ | ⟨_ | _⟩ | _ | _ | _ | _ | _ <;>
    first
    | rfl
    | simp [word, Base.text] at h

theorem args_of_word {p : Ty} (hp : p = unknown ∨ ∃ b, p = base b) (h : t.word = p.word) :
    t.args = [] := by
  have hskeleton := skeleton_of_word h
  rcases hp with rfl | ⟨b, rfl⟩ <;> cases t <;> simp_all [skeleton, args, params]

/-- The text of an atom is a word and annotations. -/
theorem atom_text (hatom : t.isAtom = true) (ht : t.plain = true) (hr : Annotated Stops n r) :
    ∃ (p : Ty) (k : Nat) (r' : List Char), (p = unknown ∨ ∃ b, p = base b) ∧
      t.text.toList ++ r = p.word.toList ++ r' ∧ Annotated Stops (n + k) r' := by
  fun_induction isAtom t generalizing n r with
  | case1 b => exact ⟨base b, 0, r, .inr ⟨b, rfl⟩, by simp [text, word], hr⟩
  | case2 => exact ⟨unknown, 0, r, .inl rfl, by simp [text, word], hr⟩
  | case3 name a t ih =>
    simp only [plain, plainFields, Bool.and_true, Bool.and_eq_true] at ht
    obtain ⟨p, k, r', hp, htext, hr'⟩ := ih hatom ht.2 (.one a ht.1 hr)
    refine ⟨p, 1 + k, r', hp, ?_, by rwa [← Nat.add_assoc]⟩
    rw [text_single, toList_operandText, if_pos hatom, List.append_assoc, ← htext]
    rfl
  | case4 => simp at hatom

/-- A record with one attribute has an annotation more than any other type with its text. -/
theorem text_ne_single (ht : t.plain = true) (hsingle : t.single = false) (hu : u.plain = true)
    (hr₁ : Annotated Stops n r₁) (hr₂ : Annotated Stops (n + 1) r₂) :
    t.text.toList ++ r₁ ≠ u.operandText.toList ++ r₂ := by
  intro h
  rw [toList_text hsingle ht, List.append_assoc, toList_operandText] at h
  split at h
  · next hatom =>
    obtain ⟨p, k, r', hp, htext, hr'⟩ := atom_text hatom hu hr₂
    rw [htext] at h
    obtain ⟨hword, hrest⟩ := word_cancel (word_isWord t) (word_isWord p)
      (args_parts t hr₁.parts) hr'.parts h
    rw [args_of_word hp (String.toList_injective hword), List.nil_append] at hrest
    have hcount := (hrest ▸ hr₁).unique hr'
    omega
  · exact word_ne_cons ht (.inl rfl) _ _ h

theorem atom_ne_cons (hatom : t.isAtom = true) (ht : t.plain = true) (hr : Annotated Stops n r₁)
    {c : Char} (hc : c = '(' ∨ c = '%') : t.text.toList ++ r₁ ≠ c :: r₂ := by
  obtain ⟨p, k, r', hp, htext, -⟩ := atom_text hatom ht hr
  rw [htext]
  exact word_ne_cons (by rcases hp with rfl | ⟨b, rfl⟩ <;> rfl) hc _ _

/-! ## Cancelling types -/

/-- The text of an atom ends where its annotations end, and that of any other type at the closing
parenthesis. -/
def Ends (t : Ty) (r : List Char) : Prop := Stops r ∧ (t.isAtom = false → Closes r)

theorem Closes.ends (h : Closes r) (t : Ty) : Annotated t.Ends 0 r := .none ⟨h.stops, fun _ => h⟩

theorem closes_paren (r : List Char) : Closes (')' :: r) := by simp [Closes]

/-- The type can be told from what follows it. -/
def Cancels (t : Ty) (text : Ty → String) (stop : List Char → Prop) : Prop :=
  ∀ ⦃u : Ty⦄ ⦃n : Nat⦄ ⦃r₁ r₂ : List Char⦄, u.plain = true → Annotated stop n r₁ →
    Annotated stop n r₂ → (text t).toList ++ r₁ = (text u).toList ++ r₂ →
      t.anonymous = u.anonymous ∧ r₁ = r₂

theorem Cancels.operand (h : t.Cancels text t.Ends) (ht : t.plain = true) :
    t.Cancels operandText Stops := by
  intro u n r₁ r₂ hu hr₁ hr₂ heq
  rw [toList_operandText, toList_operandText] at heq
  cases hatom : t.isAtom <;> cases huatom : u.isAtom <;>
    simp only [hatom, huatom, Bool.false_eq_true, if_true, if_false, List.cons_append,
      List.append_assoc, List.nil_append, List.cons.injEq, true_and] at heq
  · obtain ⟨hsame, hrest⟩ := h hu ((closes_paren r₁).ends t) ((closes_paren r₂).ends t) heq
    exact ⟨hsame, List.tail_eq_of_cons_eq hrest⟩
  · exact absurd heq.symm (atom_ne_cons huatom hu hr₂ (.inl rfl))
  · exact absurd heq (atom_ne_cons hatom ht hr₁ (.inl rfl))
  · have hends : ∀ {r}, Stops r → t.Ends r := fun hr => ⟨hr, fun hfalse => by simp [hatom] at hfalse⟩
    exact h hu (hr₁.mono hends) (hr₂.mono hends) heq

/-- An operand is no annotation of the one before it. -/
theorem stops_operand (ht : t.plain = true) (hr : Annotated Stops n r) :
    Stops (t.operand ++ r) := by
  refine ⟨by simp [Parts, Ty.operand, delimits], fun rest heq => ?_⟩
  simp only [Ty.operand, List.cons_append, List.cons.injEq, true_and] at heq
  rw [toList_operandText] at heq
  split at heq
  · next hatom => exact atom_ne_cons hatom ht hr (.inr rfl) heq
  · simp at heq

theorem annotated_operands {ts : List Ty} (hts : ∀ t ∈ ts, t.plain = true)
    (hr : Annotated Stops n r) :
    Annotated Stops (if ts.length = 0 then n else 0) (ts.flatMap Ty.operand ++ r) := by
  induction ts with
  | nil => exact hr
  | cons t ts ih =>
    obtain ⟨ht, hts⟩ := List.forall_mem_cons.mp hts
    rw [List.flatMap_cons, List.append_assoc]
    exact .none (stops_operand ht (ih hts))

theorem operands_cancel {ts us : List Ty} (hlength : ts.length = us.length)
    (ih : ∀ t ∈ ts, t.plain = true ∧ t.Cancels text t.Ends) (hus : ∀ u ∈ us, u.plain = true)
    (hr₁ : Annotated Stops n r₁) (hr₂ : Annotated Stops n r₂)
    (heq : ts.flatMap Ty.operand ++ r₁ = us.flatMap Ty.operand ++ r₂) :
    ts.map anonymous = us.map anonymous ∧ r₁ = r₂ := by
  induction ts generalizing us with
  | nil =>
    cases us with
    | nil => exact ⟨rfl, heq⟩
    | cons => cases hlength
  | cons t ts hrest =>
    cases us with
    | nil => cases hlength
    | cons u us =>
      obtain ⟨⟨hplain, ht⟩, ih⟩ := List.forall_mem_cons.mp ih
      obtain ⟨hu, hus⟩ := List.forall_mem_cons.mp hus
      have hlength := Nat.succ.inj hlength
      rw [List.flatMap_cons, List.flatMap_cons, List.append_assoc, List.append_assoc] at heq
      have hnext := annotated_operands (fun t ht => (ih t ht).1) hr₁
      rw [hlength] at hnext
      obtain ⟨hsame, heq⟩ := ht.operand hplain hu hnext (annotated_operands hus hr₂)
        (List.tail_eq_of_cons_eq heq)
      obtain ⟨hsames, rfl⟩ := hrest hlength ih hus heq
      exact ⟨by rw [List.map_cons, List.map_cons, hsame, hsames], rfl⟩

/-- The first word says which constructor it is. -/
theorem skeleton_of_text (ht : t.plain = true) (hsingle : t.single = false) (hu : u.plain = true)
    (hr₁ : Annotated Stops n r₁) (hr₂ : Annotated Stops n r₂)
    (h : t.text.toList ++ r₁ = u.text.toList ++ r₂) :
    t.skeleton = u.skeleton ∧ t.args ++ r₁ = u.args ++ r₂ := by
  cases husingle : u.single with
  | true =>
    obtain ⟨name, a, u, rfl, ha, hu⟩ := exists_of_single husingle hu
    rw [text_single, List.append_assoc] at h
    exact absurd h (text_ne_single ht hsingle hu hr₁ (.one a ha hr₂))
  | false =>
    rw [toList_text hsingle ht, toList_text husingle hu, List.append_assoc, List.append_assoc] at h
    obtain ⟨hword, hargs⟩ := word_cancel (word_isWord t) (word_isWord u)
      (args_parts t hr₁.parts) (args_parts u hr₂.parts) h
    exact ⟨skeleton_of_word (String.toList_injective hword), hargs⟩

theorem Cancels.of_params (ht : t.plain = true) (hrecord : ∀ name fields, t ≠ record name fields)
    (ih : ∀ p ∈ t.params, p.plain = true ∧ p.Cancels text p.Ends) : t.Cancels text t.Ends := by
  intro u n r₁ r₂ hu hr₁ hr₂ heq
  have hr₁ := hr₁.mono (@fun _ => And.left)
  have hr₂ := hr₂.mono (@fun _ => And.left)
  have hsingle : t.single = false := by cases t <;> simp_all [single]
  obtain ⟨hskeleton, hargs⟩ := skeleton_of_text ht hsingle hu hr₁ hr₂ heq
  obtain ⟨hlength, hplain, heq, hshape⟩ : t.params.length = u.params.length ∧
      (∀ p ∈ u.params, p.plain = true) ∧
      t.params.flatMap Ty.operand ++ r₁ = u.params.flatMap Ty.operand ++ r₂ ∧
      (t.params.map anonymous = u.params.map anonymous → t.anonymous = u.anonymous) := by
    cases t <;> cases u <;> cases hskeleton <;> simp_all [args, params, plain, anonymous]
  obtain ⟨hsame, hrest⟩ := operands_cancel hlength ih hplain hr₁ hr₂ heq
  exact ⟨hshape hsame, hrest⟩

theorem Cancels.single (ha : isWord a = true) (ht : t.plain = true) (h : t.Cancels text t.Ends) :
    (record name [(a, t)]).Cancels text (record name [(a, t)]).Ends := by
  intro u n r₁ r₂ hu hr₁ hr₂ heq
  have hr₁' := hr₁.mono (@fun _ => And.left)
  have hr₂' := hr₂.mono (@fun _ => And.left)
  rw [text_single, List.append_assoc] at heq
  cases husingle : u.single with
  | true =>
    obtain ⟨name, b, u, rfl, hb, hu⟩ := exists_of_single husingle hu
    rw [text_single, List.append_assoc] at heq
    obtain ⟨hsame, hrest⟩ := h.operand ht hu (.one a ha hr₁') (.one b hb hr₂') heq
    obtain ⟨rfl, rfl⟩ := annotation_cancel ha hb hr₁'.parts hr₂'.parts hrest
    exact ⟨by simp [anonymous, anonymousFields, hsame], rfl⟩
  | false => exact absurd heq.symm (text_ne_single hu husingle ht hr₂' (.one a ha hr₁'))

theorem toList_fieldTexts (a : Ident) (t : Ty) (rest : Fields) (r : List Char) :
    (String.join (fieldTexts ((a, t) :: rest))).toList ++ r = ' ' :: '(' :: (t.text.toList ++
      ' ' :: '%' :: (a.toList ++ ')' :: ((String.join (fieldTexts rest)).toList ++ r))) := by
  simp [fieldTexts]

theorem Annotated.ne_group (h : Annotated Closes n r₁) : r₁ ≠ ' ' :: '(' :: r₂ := by
  rintro rfl
  cases h with
  | none hstop => simp [Closes] at hstop

theorem fields_cancel {others : Fields} (ih : ∀ f ∈ fields, f.2.Cancels text f.2.Ends)
    (hfields : plainFields fields = true) (hothers : plainFields others = true)
    (hr₁ : Annotated Closes n r₁) (hr₂ : Annotated Closes n r₂)
    (h : (String.join (fieldTexts fields)).toList ++ r₁ =
      (String.join (fieldTexts others)).toList ++ r₂) :
    anonymousFields fields = anonymousFields others ∧ r₁ = r₂ := by
  induction fields generalizing others with
  | nil =>
    cases others with
    | nil => exact ⟨rfl, h⟩
    | cons g others => exact absurd (h.trans (toList_fieldTexts ..)) hr₁.ne_group
  | cons f fields hrest =>
    obtain ⟨a, t⟩ := f
    cases others with
    | nil => exact absurd (h.symm.trans (toList_fieldTexts ..)) hr₂.ne_group
    | cons g others =>
      obtain ⟨b, u⟩ := g
      simp only [plainFields, Bool.and_eq_true] at hfields hothers
      simp only [toList_fieldTexts, List.cons.injEq, true_and] at h
      obtain ⟨hsame, h⟩ := ih (a, t) List.mem_cons_self hothers.1.2
        (.one a hfields.1.1 ((closes_paren _).ends t)) (.one b hothers.1.1 ((closes_paren _).ends t)) h
      obtain ⟨rfl, hparens⟩ := annotation_cancel hfields.1.1 hothers.1.1
        (closes_paren _).stops.1 (closes_paren _).stops.1 h
      obtain ⟨hsames, rfl⟩ := hrest (fun f hf => ih f (.tail _ hf)) hfields.2 hothers.2
        (List.tail_eq_of_cons_eq hparens)
      exact ⟨by simp [anonymousFields, hsame, hsames], rfl⟩

theorem Cancels.pair (hfields : plainFields fields = true) (hlength : fields.length ≠ 1)
    (ih : ∀ f ∈ fields, f.2.Cancels text f.2.Ends) :
    (record name fields).Cancels text (record name fields).Ends := by
  have hform : (record name fields).isAtom = false ∧ (record name fields).single = false := by
    rcases fields with _ | ⟨f, _ | ⟨g, rest⟩⟩
    · exact ⟨rfl, rfl⟩
    · exact absurd rfl hlength
    · exact ⟨rfl, rfl⟩
  intro u n r₁ r₂ hu hr₁ hr₂ heq
  obtain ⟨hskeleton, hargs⟩ := skeleton_of_text (t := record name fields) hfields hform.2 hu
    (hr₁.mono And.left) (hr₂.mono And.left) heq
  cases u with
  | record _ others =>
    obtain ⟨hsame, hrest⟩ := fields_cancel ih hfields hu (hr₁.mono fun h => h.2 hform.1)
      (hr₂.mono fun h => h.2 hform.1) hargs
    exact ⟨by rw [anonymous, anonymous, hsame], hrest⟩
  | _ => cases hskeleton

mutual

theorem cancels_text : ∀ t : Ty, t.plain = true → t.Cancels text t.Ends
  | base b, ht | unknown, ht => .of_params ht (by simp) (by simp [params])
  | option t, ht | list t, ht | contract t, ht =>
    .of_params ht (by simp) (by simpa [params] using ⟨ht, cancels_text t ht⟩)
  | map _ k v, ht | lambda k v, ht => by
    obtain ⟨hk, hv⟩ := Bool.and_eq_true_iff.mp ht
    have hkeys := cancels_text k hk
    have hvalues := cancels_text v hv
    exact .of_params ht (by simp) (by simp_all [params])
  | record _ [], ht => .pair ht (by simp) (by simp)
  | record _ [(a, t)], ht => by
    simp only [plain, plainFields, Bool.and_true, Bool.and_eq_true] at ht
    exact .single ht.1 ht.2 (cancels_text t ht.2)
  | record _ (f :: g :: rest), ht => .pair ht (by simp) (cancels_fields (f :: g :: rest) ht)

theorem cancels_fields : ∀ fields : Fields, plainFields fields = true →
    ∀ f ∈ fields, f.2.Cancels text f.2.Ends
  | [], _ => by simp
  | (a, t) :: rest, hfields => by
    simp only [plainFields, Bool.and_eq_true] at hfields
    exact List.forall_mem_cons.mpr ⟨cancels_text t hfields.1.2, cancels_fields rest hfields.2⟩

end

end Ty

/-! ## The text of a type -/

/-- Types with the same text differ at most in the names of records. -/
theorem text_determines_type {t u : Ty} (ht : t.plain = true) (hu : u.plain = true)
    (h : t.text = u.text) : t.anonymous = u.anonymous := by
  have hend : Ty.Closes [] := by simp [Ty.Closes]
  exact (Ty.cancels_text t ht hu (hend.ends t) (hend.ends t) (by rw [h])).1

/-- A record with a nested record, whose names are not in the text. -/
def Ty.register (name : Ident) : Ty :=
  .record name [("owner", .record "Key" [("hash", .bytes)]),
    ("book", .map true (.record "Id" [("n", .nat)]) (.option (.record "Unit" [])))]

theorem text_determines_type_register :
    (Ty.register "Ledger").text = (Ty.register "Shop").text ∧ Ty.register "Ledger" ≠ .register "Shop" ∧
      (Ty.register "Ledger").anonymous = (Ty.register "Shop").anonymous :=
  ⟨by decide +kernel, by decide +kernel,
    text_determines_type (by decide +kernel) (by decide +kernel) (by decide +kernel)⟩

end Covenant
