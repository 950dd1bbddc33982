import Covenant.Proofs.Gen.Calls
import Covenant.Proofs.Gen.Steady

/-!
# Covenant — expressions leave no unknown types behind

An empty container has an unknown element type until something settles it. `Instr.typesIn` collects
the type operands of code, at every depth of nesting. `Gen.Settles` says of a step that starts from
records and variables of settled types: if it succeeds, there is nothing unknown among the type
operands of its code nor among the types of the variables after it.

The argument is about success. The typing of an expression may well come out with unknown parts, and
nothing compares it with anything; what refuses it is the rule that would have to put it into an
instruction. So compiling an expression shows that its type has no unknown parts
(`Expr.settles_compile`). No assumption on the stack is needed for that, as it follows from the types
of the variables (`tracked_settling`).
-/

namespace Covenant

open Instr
open Layout hiding types

/-! ## Type operands -/

namespace Instr

mutual

/-- The type operands of an instruction and of the blocks inside it. -/
def types : Instr → List Ty
  | prim p => p.types
  | dip _ body | iter body => typesIn body
  | ifElse first second | ifNone first second => typesIn first ++ typesIn second
  | lambda arg result body => arg :: result :: typesIn body
  | dup _ | dig _ | dug _ | drop | swap | unpair | exec | failwith | note _ => []

/-- The type operands in a block. -/
def typesIn : List Instr → List Ty
  | [] => []
  | i :: rest => i.types ++ typesIn rest

end

/-- No type operand of the code has unknown parts. -/
abbrev AllKnown (code : Code) : Prop := ∀ ty ∈ typesIn code, ty.hasUnknown = false

theorem typesIn_append (first second : Code) :
    typesIn (first ++ second) = typesIn first ++ typesIn second := by
  induction first with
  | nil => rfl
  | cons i rest ih => simp only [List.cons_append, typesIn, ih, List.append_assoc]

theorem AllKnown.append {first second : Code} (h : AllKnown first) (h' : AllKnown second) :
    AllKnown (first ++ second) := by
  intro ty hty
  rw [typesIn_append, List.mem_append] at hty
  exact hty.elim (h ty) (h' ty)

theorem allKnown_nil : AllKnown [] := fun _ hty => absurd hty List.not_mem_nil

theorem allKnown_singleton {i : Instr} (h : ∀ ty ∈ i.types, ty.hasUnknown = false) :
    AllKnown [i] := by
  have htypes : typesIn [i] = i.types := List.append_nil _
  rwa [AllKnown, htypes]

theorem allKnown_notes (config : Gen.Config) (n : Note) : AllKnown (config.notes n) := by
  unfold Gen.Config.notes
  split
  · exact allKnown_singleton allKnown_nil
  · exact allKnown_nil

theorem types_dropAt (n : Nat) : (dropAt n).types = [] := by
  cases n <;> rfl

theorem allKnown_settleCode (jump : Nat) : AllKnown (settleCode jump) := by
  unfold settleCode
  split <;> simp [AllKnown, typesIn, types, types_dropAt]

theorem types_unwrapOr {message : String} {ty : Ty} (h : ty ∈ (unwrapOr message).types) :
    ty.hasUnknown = false := by
  have hstring : ty ∈ [Ty.string] := h
  rw [List.mem_singleton.mp hstring]
  rfl

end Instr

/-! ## Types of variables -/

namespace Layout

variable {l l' : Layout} {name : Ident}

/-- The types of all variables are settled. -/
def Known (l : Layout) : Prop :=
  ∀ ⦃name : Ident⦄ ⦃ty : Ty⦄, l.ty? name = some ty → ty.hasUnknown = false

theorem Known.empty (context : Context) : (empty context).Known := by
  intro name ty hty
  simp [Layout.empty, ty?] at hty

theorem Known.of_alike (h : l.Known) (halike : l.Alike l') : l'.Known :=
  fun other _ hty => h (halike.ty? other ▸ hty)

theorem Known.without (h : l.Known) (name : Ident) (slot : Nat) : (l.without name slot).Known := by
  intro other ty hty
  rw [ty?_without] at hty
  split at hty
  · cases hty
  · exact h hty

/-- A binding takes its type along to its new name. -/
theorem Known.rename (h : l.Known) (source target : Ident) : (l.rename source target).Known := by
  intro other ty hty
  have hmoved : (move l.types source target).get? other = some ty := hty
  rw [get?_move] at hmoved
  split at hmoved
  · split at hmoved
    · exact h hmoved
    · split at hmoved
      · cases hmoved
      · exact h hmoved
  · exact h hmoved

theorem Known.hide (h : l.Known) (name : Ident) : (l.hide name).Known := by
  unfold Layout.hide
  split
  · exact h.rename name _
  · exact h

theorem Known.unhide (h : l.Known) (name : Ident) : (l.unhide name).Known := by
  unfold Layout.unhide
  split
  · next hidden stack _ => exact h.rename hidden name
  · exact h

theorem Known.bindSlot (h : l.Known) {slot : Nat} {ty : Ty} (hty : ty.hasUnknown = false)
    (name : Ident) : (l.bindSlot name slot ty).Known := by
  intro other found hfound
  rw [ty?_bindSlot] at hfound
  split at hfound
  · cases hfound
    exact hty
  · exact h hfound

theorem Known.bind (h : l.Known) {ty : Ty} (hty : ty.hasUnknown = false)
    (hbind : l.bind name ty = .ok l') : l'.Known := by
  obtain ⟨-, rfl⟩ := bind_eq_ok_iff.mp hbind
  exact (h.hide name).bindSlot hty name

theorem Known.dropNames (h : l.Known) {names : List Ident} {code : Code}
    (hdrop : l.dropNames names = .ok (code, l')) : l'.Known ∧ AllKnown code := by
  induction names generalizing l code with
  | nil =>
    cases hdrop
    exact ⟨h, allKnown_nil⟩
  | cons name rest ih =>
    obtain ⟨slot, tail, -, -, hrest, rfl⟩ := dropNames_cons_eq_ok_iff.mp hdrop
    obtain ⟨hknown, htail⟩ := ih (h.without name slot) hrest
    have hdropped := allKnown_singleton (i := dropAt (l.depth - 1 - slot))
      (by simp [types_dropAt])
    exact ⟨hknown, hdropped.append htail⟩

end Layout

/-! ## Steps -/

namespace Gen

variable {α β : Type} {config : Config} {state : State} {c : Prop}

/-- If the step succeeds where records and variables have settled types, then so have the code that
it emits and the variables after it, and its result and the layout after it are as `post` says. -/
def Settles (step : Gen α) (config : Config) (state : State) (post : α → Layout → Prop) : Prop :=
  config.records.Settled → state.layout.Known → ∀ ⦃done : Step α⦄, step config state = .ok done →
    AllKnown done.code ∧ done.state.layout.Known ∧ post done.result done.state.layout

/-- The step hands settled types on, whatever it returns. -/
abbrev HandsOn (step : Gen α) (config : Config) (state : State) : Prop :=
  Settles step config state fun _ _ => True

variable {step : Gen α} {next : α → Gen β} {P P' : α → Layout → Prop} {Q : β → Layout → Prop}
  {line : Nat} {cause : Cause} {l : Layout}

theorem Settles.mono (h : Settles step config state P) (hpost : ∀ a l, P a l → P' a l) :
    Settles step config state P' := fun hrecords hl _ hdone =>
  (h hrecords hl hdone).imp_right fun hend => hend.imp_right (hpost _ _)

/-- A sequence goes on from what its first step leaves. -/
theorem Settles.bind (h : Settles step config state P)
    (hnext : ∀ a s, P a s.layout → Settles (next a) config s Q) :
    Settles (step >>= next) config state Q := by
  intro hrecords hl done hdone
  obtain ⟨first, last, hfirst, hlast, rfl⟩ := bind_eq_ok_iff.mp hdone
  obtain ⟨hcode, hknown, hpost⟩ := h hrecords hl hfirst
  obtain ⟨hcode', hend⟩ := hnext _ _ hpost hrecords hknown hlast
  exact ⟨hcode.append hcode', hend⟩

theorem Settles.ite {step' : Gen α} [Decidable c] (h : c → Settles step config state P)
    (h' : ¬c → Settles step' config state P) :
    Settles (if c then step else step') config state P := by
  split
  · next hc => exact h hc
  · next hc => exact h' hc

theorem Settles.congr {step' : Gen α} {state' : State}
    (heq : step config state = step' config state')
    (hlayout : state'.layout = state.layout) (h : Settles step' config state' P) :
    Settles step config state P := fun hrecords hl _ hdone =>
  h hrecords (hlayout ▸ hl) (heq ▸ hdone)

/-- What the step may rely on. -/
theorem settles_given
    (h : config.records.Settled → state.layout.Known → Settles step config state P) :
    Settles step config state P := fun hrecords hl => h hrecords hl hrecords hl

/-! ### Steps that emit nothing -/

theorem settles_pure {a : α} (h : P a state.layout) : Settles (pure a) config state P := by
  intro hrecords hl done hdone
  cases hdone
  exact ⟨allKnown_nil, hl, h⟩

theorem settles_seen_bind {next : Unit → Gen β}
    (h : Settles (next ()) config (state.seeing line) Q) :
    Settles (seen line >>= next) config state Q :=
  h.congr seen_bind (state.layout_seeing line)

theorem settles_seen (line : Nat) : HandsOn (seen line) config state := by
  intro hrecords hl done hdone
  cases hdone
  exact ⟨allKnown_nil, (state.layout_seeing line).symm ▸ hl, trivial⟩

theorem settles_typed_bind {outcome : Typed α}
    (h : ∀ a, outcome = .ok a → Settles (next a) config state Q) :
    Settles (typed outcome >>= next) config state Q := by
  intro hrecords hl done hdone
  obtain ⟨a, ha, hdone⟩ := typed_bind_eq_ok_iff.mp hdone
  exact h a ha hrecords hl hdone

theorem settles_failAt : Settles (failAt line cause) config state P :=
  fun _ _ _ hdone => absurd hdone failAt_ne_ok

theorem settles_fail : Settles (fail cause) config state P := settles_failAt

theorem settles_failAt_bind : Settles (failAt line cause >>= next) config state Q :=
  fun _ _ _ hdone => absurd hdone failAt_bind_ne_ok

theorem settles_unless [Decidable c] {next : Unit → Gen β}
    (h : c → Settles (next ()) config state Q) :
    Settles (if c then next () else failAt line cause >>= next) config state Q :=
  .ite h fun _ => settles_failAt_bind

theorem settles_when [Decidable c] {next : Unit → Gen β}
    (h : ¬c → Settles (next ()) config state Q) :
    Settles (if c then failAt line cause >>= next else next ()) config state Q :=
  .ite (fun _ => settles_failAt_bind) h

theorem settles_push (n : Nat) : HandsOn (push n) config state := by
  intro hrecords hl done hdone
  cases hdone
  exact ⟨allKnown_nil, hl, trivial⟩

theorem settles_pop (n : Nat) : HandsOn (pop n) config state := by
  intro hrecords hl done hdone
  obtain ⟨-, rfl⟩ := pop_eq_ok_iff.mp hdone
  exact ⟨allKnown_nil, hl, trivial⟩

/-! ### Steps that emit code -/

theorem settles_emit {i : Instr} (h : ∀ ty ∈ i.types, ty.hasUnknown = false) :
    HandsOn (emit i) config state := by
  intro hrecords hl done hdone
  obtain rfl := emit_eq_ok_iff.mp hdone
  exact ⟨allKnown_singleton h, hl, trivial⟩

theorem settles_apply {p : Prim} (h : ∀ ty ∈ p.types, ty.hasUnknown = false) :
    HandsOn (apply p) config state := by
  intro hrecords hl done hdone
  obtain ⟨-, rfl⟩ := apply_eq_ok_iff.mp hdone
  exact ⟨allKnown_singleton h, hl, trivial⟩

/-- Most primitives have no type operand. -/
theorem settles_apply_plain {p : Prim} (h : p.types = []) : HandsOn (apply p) config state :=
  settles_apply (by simp [h])

theorem settles_annotate (n : Note) :
    Settles (annotate n) config state fun _ l => l = state.layout := by
  intro hrecords hl done hdone
  obtain rfl := annotate_eq_ok_iff.mp hdone
  exact ⟨allKnown_notes config n, hl, rfl⟩

theorem settles_fetch (name : Ident) : HandsOn (fetch name) config state := by
  intro hrecords hl done hdone
  obtain ⟨slot, -, -, rfl⟩ := fetch_eq_ok_iff.mp hdone
  exact ⟨(allKnown_notes config _).append (allKnown_singleton allKnown_nil), hl, trivial⟩

theorem settles_replace (name : Ident) : HandsOn (replace name) config state := by
  intro hrecords hl done hdone
  obtain ⟨c, hc, -, rfl⟩ := replace_eq_ok_iff.mp hdone
  exact ⟨(allKnown_notes config _).append (allKnown_settleCode _), hl.of_alike (alike_settled hc),
    trivial⟩

theorem settles_bindTop (name : Ident) {ty : Ty} (hty : ty.hasUnknown = false) :
    HandsOn (bindTop name ty) config state := by
  intro hrecords hl done hdone
  obtain ⟨l, hbind, rfl⟩ := bindTop_eq_ok_iff.mp hdone
  exact ⟨allKnown_notes config _, hl.bind hty hbind, trivial⟩

/-- From a layout on which names have the same types, the step settles types and leaves those of the
names alone. -/
def Settling (config : Config) (l : Layout) : Triple := fun _ _ step post =>
  ∀ ⦃state : State⦄, l.Alike state.layout →
    Settles step config state fun a l' => l.Alike l' ∧ ∃ u, post a u

theorem Steady.settles (hsteady : Steady step) (hlike : l.Alike state.layout)
    (h : HandsOn step config state) :
    Settles step config state fun _ l' => l.Alike l' := fun hrecords hl _ hdone =>
  (h hrecords hl hdone).imp_right fun hend => ⟨hend.1, hlike.trans (hsteady hdone)⟩

theorem Steady.settling {t u : List StackTy} (hsteady : Steady step)
    (h : ∀ state, HandsOn step config state) :
    Settling config l t step fun _ u' => u' = u :=
  fun state hlike => (hsteady.settles hlike (h state)).mono fun _ _ hlike => ⟨hlike, u, rfl⟩

theorem settles_emitName (id : Ident) : HandsOn (emitName id) config state := by
  refine .congr layout_bind rfl (.ite (fun _ => settles_fetch id) fun _ => ?_)
  split
  · next p hconstant =>
    have hplain := (Builtin.typed_of_constant? hconstant).2.2.1
    exact settles_apply_plain (Prim.of_isPlain hplain).1
  · exact fun _ _ _ hdone => absurd hdone defect_ne_ok

/-- A default is compiled where the names are those around it. -/
theorem settling_orElse {t : List StackTy} {x : StackTy} {step : Gen Unit}
    (h : Settling config l t step fun _ u => u = x :: t) :
    Settling config l (.option x :: t) (orElse step) fun _ u => u = x :: t := by
  intro state hlike hrecords hl done hdone
  obtain ⟨inner, -, hinner, rfl⟩ := orElse_eq_ok hdone
  have hbeneath : l.Alike (state.atDepth (state.layout.depth - 1)).layout :=
    hlike.trans (alike_atDepth _ _)
  obtain ⟨hcode, -⟩ := h hbeneath hrecords hl hinner
  exact ⟨allKnown_singleton (by simpa [types, typesIn] using hcode), hl, hlike, _, rfl⟩

/-- A transfer has no type operands of its own. -/
theorem settling_transfer {t : List StackTy} {param : StackTy} {push : Gen Unit}
    (hpush : ∀ t, Settling config l t push fun _ u =>
      u = param :: Ty.mutez.stack :: .contract param :: t) :
    Settling config l t (transfer line push) fun _ u => u = t := by
  intro state hlike
  refine .congr layout_bind rfl (settles_unless fun _ => ?_)
  refine ((steady_fetch _).settles hlike (settles_fetch _)).bind fun _ _ hlike =>
    (hpush t hlike).bind fun _ _ hs => ?_
  exact ((steady_apply _).settles hs.1 (settles_apply_plain rfl)).bind fun _ _ hlike =>
    ((steady_apply _).settles hlike (settles_apply_plain rfl)).bind fun _ _ hlike =>
      (steady_replace _).settling (t := t) (fun _ => settles_replace _) hlike

/-- That types are settled follows from the types of the variables. -/
theorem tracked_settling (hrecords : config.records.Settled) (hl : l.Known) :
    Tracked ⟨config.records, l⟩ True True (Settling config l) where
  known _ := ⟨hrecords, fun hty => hl hty⟩
  mono h hpost _ hlike := (h hlike).mono fun a _ ⟨hlike, u, hu⟩ => by
    obtain ⟨u', hu', -, -⟩ := hpost a u hu
    exact ⟨hlike, u', hu'⟩
  bind h hnext _ hlike := (h hlike).bind fun a _ ⟨hlike, u, hu⟩ => hnext a u hu hlike
  pure ha _ hlike := settles_pure ⟨hlike, _, ha⟩
  ask h state hlike := .congr scope_bind rfl (h state.layout hlike hlike)
  typed_bind _ h _ hlike := settles_typed_bind fun a ha => h a ha hlike
  seen line := (closed_steady.seen line).settling fun _ => settles_seen line
  annotate n := (steady_annotate n).settling fun _ => (settles_annotate n).mono
    fun _ _ _ => trivial
  apply _ _ _ _ _ _ hresult := (steady_apply _).settling fun _ => settles_apply (hresult trivial).2
  fetch _ := (steady_fetch _).settling fun _ => settles_fetch _
  emitName {_ id found} hid _ hlike := by
    have hknown : found.hasUnknown = false := by
      rcases nameType_eq_ok hid with hty | ⟨-, p, hconstant⟩
      · exact hl hty
      · exact (Builtin.typed_of_constant? hconstant).1
    exact ((closed_steady.counted.emitName (n := 0) id).settles hlike (settles_emitName id)).mono
      fun _ _ hlike => ⟨hlike, _, fun _ => hknown, rfl⟩
  replace _ := (steady_replace _).settling fun _ => settles_replace _
  copy := by
    intro t x
    exact ((steady_emit _).bind fun _ => steady_push 1).settling fun _ =>
      (settles_emit (by simp [types])).bind fun _ _ _ => settles_push 1
  unwrap message := (steady_emit _).settling fun _ => settles_emit fun _ => types_unwrapOr
  exec := by
    intro t _ r
    exact ((steady_emit _).bind fun _ => steady_pop 1).settling fun _ =>
      (settles_emit (by simp [types])).bind fun _ _ _ => settles_pop 1
  value h hpost _ hlike := by
    refine .congr depth_bind rfl ((h hlike).bind fun ty _ ⟨hlike, u, hu⟩ => .congr depth_bind rfl
      (.ite (fun _ => ?_) fun _ => settles_failAt))
    obtain ⟨u', hu', -, -⟩ := hpost ty u hu
    exact settles_pure ⟨hlike, u', hu'⟩
  orElse := settling_orElse
  transfer _ hpush := settling_transfer hpush

end Gen

/-! ## Expressions -/

namespace Expr

open Gen

variable {config : Config} {state : State} (e : Expr)

theorem settling_operand {l : Layout} (hrecords : config.records.Settled) (hl : l.Known) :
    e.operand.Tracked ⟨config.records, l⟩ True (Settling config l) :=
  (tracked_settling hrecords hl).operand e fun _ => trivial

/-- Compiling an expression shows that its type is settled. -/
theorem settles_compile (expected : Option Ty) :
    Settles (e.operand.compile expected) config state fun ty _ =>
      typeOf ⟨config.records, state.layout⟩ e expected = .ok ty ∧ ty.hasUnknown = false := by
  refine settles_given fun hrecords hl => ?_
  refine ((e.settling_operand hrecords hl).compile (t := []) (tracked_settling hrecords hl)
    (.refl _)).mono ?_
  rintro ty _ ⟨-, _, hty, hknown, -⟩
  exact ⟨hty, hknown trivial⟩

theorem settles_value (expected : Option Ty) :
    Settles (e.operand.value expected) config state fun ty _ =>
      typeOf ⟨config.records, state.layout⟩ e expected = .ok ty ∧ ty.hasUnknown = false := by
  refine .congr depth_bind rfl ((e.settles_compile expected).bind fun ty s hs =>
    .congr depth_bind rfl ?_)
  exact .ite (fun _ => settles_pure hs) fun _ => settles_failAt

theorem settles_pushAs (want : Ty) : HandsOn (e.operand.pushAs want) config state :=
  (e.settles_value (some want)).bind fun _ _ _ => settles_pure trivial

end Expr

end Covenant
