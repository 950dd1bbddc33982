import Mathlib.Data.List.TakeWhile
import Covenant.Proofs.DebugNotes
import Covenant.Proofs.DepthAccounting

/-!
# Covenant — the names of variables do not matter

A module that calls a variable `y` wherever another calls it `x` compiles to the same contract, to
the last instruction, as long as neither name means anything else to the compiler.

The two modules are related by exchanging `x` and `y`, which is a `Renaming` once it is carried over
to the names made from them: a shadowed `x` is kept as `x@slot`, and has to become `y@slot`. Hence
`exchange` looks at a name up to its first `@`.

The compiler keeps its own cells in the same table, under names that a program could also use. A
program that does gets at those cells, so these names are left out.
-/

namespace Covenant

/-! ## Exchanging two names -/

/-- The two names trade places, and all other names stay. -/
def exchangeBase (x y name : List Char) : List Char :=
  if name = x then y else if name = y then x else name

/-- What stands before the first `@` of a name. -/
def basePart (name : List Char) : List Char := name.takeWhile (· != '@')

/-- The first `@` of a name and what follows it. -/
def slotPart (name : List Char) : List Char := name.dropWhile (· != '@')

theorem basePart_append_slotPart (name : List Char) : basePart name ++ slotPart name = name :=
  List.takeWhile_append_dropWhile

/-- What is appended after an `@` does not change the part before the first one. -/
theorem basePart_append_at (name slot : List Char) :
    basePart (name ++ '@' :: slot) = basePart name := by
  induction name with
  | nil => rfl
  | cons c rest ih =>
    by_cases hc : c = '@'
    · simp [basePart, hc]
    · simpa [basePart, hc] using ih

theorem slotPart_append_at (name slot : List Char) :
    slotPart (name ++ '@' :: slot) = slotPart name ++ '@' :: slot := by
  induction name with
  | nil => rfl
  | cons c rest ih =>
    by_cases hc : c = '@'
    · simp [slotPart, hc]
    · simpa [slotPart, hc] using ih

theorem basePart_of_not_mem {name : List Char} (h : '@' ∉ name) : basePart name = name := by
  rw [basePart, List.takeWhile_eq_self_iff]
  intro c hc
  exact bne_iff_ne.mpr fun heq => h (heq ▸ hc)

theorem slotPart_of_not_mem {name : List Char} (h : '@' ∉ name) : slotPart name = [] := by
  have hparts := basePart_append_slotPart name
  rwa [basePart_of_not_mem h, List.append_right_eq_self] at hparts

theorem basePart_replaced {base : List Char} (hbase : '@' ∉ base) (name : List Char) :
    basePart (base ++ slotPart name) = base ∧ slotPart (base ++ slotPart name) = slotPart name := by
  induction name with
  | nil =>
    have hself : slotPart [] = [] := rfl
    rw [hself, List.append_nil]
    exact ⟨basePart_of_not_mem hbase, slotPart_of_not_mem hbase⟩
  | cons c rest ih =>
    by_cases hc : c = '@'
    · have hself : slotPart (c :: rest) = '@' :: rest := by simp [slotPart, hc]
      rw [hself, basePart_append_at, slotPart_append_at, basePart_of_not_mem hbase,
        slotPart_of_not_mem hbase]
      exact ⟨rfl, rfl⟩
    · have htail : slotPart (c :: rest) = slotPart rest := by simp [slotPart, hc]
      rw [htail]
      exact ih

/-- The name with `x` and `y` exchanged in front of its first `@`. -/
def exchange (x y name : Ident) : Ident :=
  String.ofList (exchangeBase x.toList y.toList (basePart name.toList) ++ slotPart name.toList)

section

variable {x y name : Ident}

theorem exchange_exchange (hx : '@' ∉ x.toList) (hy : '@' ∉ y.toList) (name : Ident) :
    exchange x y (exchange x y name) = name := by
  have hbase : '@' ∉ basePart name.toList := fun h => by simpa using List.mem_takeWhile_imp h
  have hfree : '@' ∉ exchangeBase x.toList y.toList (basePart name.toList) := by
    grind [exchangeBase]
  have htwice (base : List Char) :
      exchangeBase x.toList y.toList (exchangeBase x.toList y.toList base) = base := by
    grind [exchangeBase]
  obtain ⟨hbase, hslot⟩ := basePart_replaced hfree name.toList
  rw [exchange, exchange, String.toList_ofList, hbase, hslot, htwice,
    basePart_append_slotPart, String.ofList_toList]

theorem exchange_hiddenName (x y name : Ident) (slot : Nat) :
    exchange x y (Layout.hiddenName name slot) = Layout.hiddenName (exchange x y name) slot := by
  have hchars : (Layout.hiddenName name slot).toList =
      name.toList ++ '@' :: (toString slot).toList := by
    simp [Layout.hiddenName]
  rw [← String.toList_inj, exchange, hchars, basePart_append_at, slotPart_append_at]
  simp [Layout.hiddenName, exchange]

/-- Of names without `@`, all but the two stay. -/
theorem exchange_of_ne (hname : '@' ∉ name.toList) (hx : name ≠ x) (hy : name ≠ y) :
    exchange x y name = name := by
  have hx : name.toList ≠ x.toList := fun h => hx (String.toList_inj.mp h)
  have hy : name.toList ≠ y.toList := fun h => hy (String.toList_inj.mp h)
  rw [exchange, basePart_of_not_mem hname, slotPart_of_not_mem hname, exchangeBase, if_neg hx,
    if_neg hy, List.append_nil, String.ofList_toList]

theorem exchange_left (hx : '@' ∉ x.toList) : exchange x y x = y := by
  rw [exchange, basePart_of_not_mem hx, slotPart_of_not_mem hx, exchangeBase, if_pos rfl,
    List.append_nil, String.ofList_toList]

end

/-! ## Exchanging two variables -/

theorem at_not_mem_of_isName {name : Ident} (h : Builtin.isName name = true) :
    '@' ∉ name.toList := by
  simp only [Builtin.isName, Bool.or_eq_true] at h
  obtain (h | h) | h := h
  · rw [Builtin.constant?.eq_def] at h
    split at h <;> first | decide | cases h
  · rw [Builtin.function?.eq_def] at h
    split at h <;> first | decide | cases h
  · rw [BuiltinClass.ofName?.eq_def] at h
    split at h <;> first | decide | cases h

/-- The compiler keeps names with an `@` to hide variables. -/
theorem at_not_mem_of_isReserved {name : Ident} (h : isReserved name = true) :
    '@' ∉ name.toList := by
  simp only [isReserved, Bool.or_eq_true, List.contains_iff_mem] at h
  obtain ((h | h) | h) | h := h
  · exact at_not_mem_of_isName h
  · rw [TypeExpr.base?.eq_def] at h
    split at h <;> first | decide | cases h
  · rw [TypeExpr.former?.eq_def] at h
    split at h <;> first | decide | cases h
  · revert name
    decide

namespace Renaming

/-- The renaming that exchanges two variables. -/
def exchanging (x y : Ident) (hx : '@' ∉ x.toList) (hy : '@' ∉ y.toList)
    (hxres : isReserved x = false) (hyres : isReserved y = false) : Renaming where
  map := exchange x y
  injective := Function.LeftInverse.injective (exchange_exchange hx hy)
  hidden := exchange_hiddenName x y
  reserved name hname := by
    refine exchange_of_ne (at_not_mem_of_isReserved hname) ?_ ?_
    · rintro rfl
      rw [hxres] at hname
      cases hname
    · rintro rfl
      rw [hyres] at hname
      cases hname

end Renaming

/-! ## Replacing a variable -/

/-- The name, with `y` for `x`. -/
def Ident.replace (x y name : Ident) : Ident := if name = x then y else name

namespace Module

/-- The module with `y` for `x` wherever it occurs, whatever it names there. -/
def replaceName (x y : Ident) (m : Module) : Module :=
  m.relabel (Ident.replace x y) (Ident.replace x y) id

variable {m : Module} {x y : Ident}

/-- Where `y` is new and `x` names variables only, replacing does what exchanging does. -/
theorem replaceName_eq_exchange (hplain : ∀ o ∈ m.occurrences, '@' ∉ o.id.toList)
    (hxvar : .var x ∈ m.occurrences) (hxlabel : .label x ∉ m.occurrences)
    (hynew : ∀ o ∈ m.occurrences, o.id ≠ y) : m.replaceName x y = m.relabel (exchange x y) id id := by
  refine relabel_congr ⟨fun name hname => ?_, fun name hname => ?_⟩
  · by_cases hname' : name = x
    · have hself : exchange x y x = y := exchange_left (hplain _ hxvar)
      rw [hname', hself, Ident.replace, if_pos rfl]
    · have hother : exchange x y name = name :=
        exchange_of_ne (hplain _ hname) hname' (hynew _ hname)
      rw [hother, Ident.replace, if_neg hname']
  · have hname' : name ≠ x := fun heq => hxlabel (heq ▸ hname)
    rw [Ident.replace, if_neg hname', id]

end Module

/-- The name of a variable does not matter. Let `x` be a name of the module that names variables
only, and `y` one that does not occur in it; let neither mean anything to the compiler, and let no
name have an `@` in it. With `y` for `x` the module compiles to a contract just if it did before, and
to the very same one. -/
theorem replaced_variable_compiles_alike {m : Module} {x y : Ident}
    (hplain : ∀ o ∈ m.occurrences, '@' ∉ o.id.toList) (hyplain : '@' ∉ y.toList)
    (hxvar : .var x ∈ m.occurrences) (hxlabel : .label x ∉ m.occurrences)
    (hxfree : isReserved x = false) (hynew : ∀ o ∈ m.occurrences, o.id ≠ y)
    (hyfree : isReserved y = false) (c : Contract) :
    (m.replaceName x y).compile false = .ok c ↔ m.compile false = .ok c := by
  let ρ := Renaming.exchanging x y (hplain _ hxvar) hyplain hxfree hyfree
  have hlabels : ρ.FixesLabels m.occurrences := fun name hname =>
    exchange_of_ne (hplain _ hname) (fun heq => hxlabel (heq ▸ hname)) (hynew _ hname)
  have hrun := Module.lockstep_compile hlabels false
  have heq : m.replaceName x y = m.relabel ρ id id :=
    Module.replaceName_eq_exchange hplain hxvar hxlabel hynew
  rw [heq]
  generalize hmapped : (m.relabel ρ id id).compile false = outcome at hrun
  generalize m.compile false = outcome' at hrun
  cases hrun with
  | error => exact ⟨nofun, nofun⟩
  | ok hnotes =>
    have hself := Module.map_withoutNotes_compile (m.relabel ρ id id) false
    rw [hmapped] at hself
    rw [Except.ok.inj hself] at hnotes
    rw [hnotes]

/-- An entrypoint whose parameter is shadowed by the variable of a loop. -/
def Module.shadowing : Module :=
  ⟨[.classDef 1 "Contract" [] []
    [.function 2 "deploy" [] none [.ret 3 (some (.literal 3 (.int 0)))],
      .function 4 "add" [⟨"n", some (.name 4 "int"), 4⟩] none
        [.forIn 5 "n" (.list 5 [.name 5 "n", .literal 5 (.int 2)])
          [.assign 6 (.attr 6 (.name 6 "self") "storage")
            (.binary 6 (.attr 6 (.name 6 "self") "storage") .add (.name 6 "n"))]]]]⟩

theorem replaced_variable_compiles_alike_shadowing :
    ∃ c, Module.shadowing.compile false = .ok c ∧
      (Module.shadowing.replaceName "n" "amount").compile false = .ok c := by
  have hok : (Module.shadowing.compile false).toOption.isSome = true := by decide +kernel
  obtain ⟨c, hc⟩ := Except.exists_ok_of_isSome hok
  exact ⟨c, hc, (replaced_variable_compiles_alike (by decide +kernel) (by decide)
    (by decide +kernel) (by decide +kernel) (by decide) (by decide +kernel) (by decide) c).mpr hc⟩

/-- The compiler keeps the storage under a name that a parameter can have too. It is no built-in,
and the counter does not use it; yet with this name for its parameter the counter is another
contract, which stores twice the parameter. -/
theorem parameter_named_storage_differs :
    Builtin.isName Layout.storageName = false ∧
    (∀ o ∈ Module.counter.occurrences, o.id ≠ Layout.storageName) ∧
    ∃ c c', Module.counter.compile false = .ok c ∧
      (Module.counter.replaceName "n" Layout.storageName).compile false = .ok c' ∧ c' ≠ c := by
  refine ⟨by decide, by decide +kernel, ?_⟩
  have hcode : (Module.counter.compile false).toOption.map
      (fun c => c.entrypoints.map (·.2.code.length)) = some [13] := by decide +kernel
  have hcode' : ((Module.counter.replaceName "n" Layout.storageName).compile false).toOption.map
      (fun c => c.entrypoints.map (·.2.code.length)) = some [12] := by decide +kernel
  obtain ⟨c, hc, hcode⟩ := Except.exists_ok_of_map hcode
  obtain ⟨c', hc', hcode'⟩ := Except.exists_ok_of_map hcode'
  refine ⟨c, c', hc, hc', fun heq => ?_⟩
  rw [heq, hcode] at hcode'
  cases hcode'

end Covenant
