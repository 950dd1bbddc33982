import Covenant.Proofs.Aborts.Stmt
import Covenant.Proofs.DepthAccounting
import Covenant.Proofs.Increments

/-!
# Covenant — aborts in compiled modules

Nothing follows an abort in the code of entrypoints and in the blocks inside of any compiled code
(`nothing_follows_an_abort_inside`).

At module level it is different. There the code of all statements is put one after the other, also
behind a statement that aborts, and the preamble of a contract moves its parameter to the top in any
case (`code_follows_an_abort_at_module_level`). What can be said is where such code comes from: it is
the code of later statements, and the code of each statement by itself ends with its abort
(`module_code_stops_at_aborts_iff`).
-/

namespace Covenant

/-! ## Blocks in which nothing follows an abort -/

/-- Nothing follows an abort in the block. The count of cells has an answer for the block, if there
are enough of them, and says that the block aborts just if it diverges. -/
structure EndsAtAbort (block : Code) : Prop where
  stops : stopsAtAbort block = true
  answers : Depth.Answers block
  aborts_iff : ∀ d flow, Depth.run block d = some flow → (flow = .aborts ↔ diverges block = true)

theorem endsAtAbort_of_orderly {code : Code} (horderly : orderly code = true)
    (hanswers : Depth.Answers code) : EndsAtAbort code :=
  ⟨(orderly_iff.mp horderly).1, hanswers, fun _ _ hrun => Depth.run_eq_aborts_iff horderly hrun⟩

theorem endsAtAbort_of_mem {code : Code} (horderly : orderly code = true)
    (hanswers : Depth.Answers code) : ∀ block ∈ code :: blocks code, EndsAtAbort block := by
  obtain ⟨d, flow, hrun⟩ := hanswers
  refine List.forall_mem_cons.mpr
    ⟨endsAtAbort_of_orderly horderly ⟨d, flow, hrun⟩, fun block hmem => ?_⟩
  exact endsAtAbort_of_orderly
    (orderly_of_mem_blocks_mutual.2 _ (orderly_iff.mp horderly).2 _ hmem)
    (Depth.answers_of_mem_blocks code horderly hrun block hmem)

/-- The code of the initial storage and of the entrypoints, and the blocks inside of any code of the
contract. -/
def Contract.blocks (c : Contract) : List Code :=
  (c.storageInit :: Covenant.blocks c.storageInit) ++ Covenant.blocks c.preamble ++
    c.entrypoints.flatMap fun (_, e) => e.code :: Covenant.blocks e.code

/-! ## The code of one module-level statement -/

/-- What is known of the code of a module-level statement by itself. -/
structure IsPiece (s : Stmt) (piece : Code) : Prop where
  orderly : orderly piece = true
  diverges : diverges piece = s.aborts
  answers : Depth.Answers piece

namespace Gen

variable {config : Config} {state : State} {s : Stmt}

theorem isPiece_compileStmt {done : Step Unit} (h : compileStmt s config state = .ok done) :
    IsPiece s done.code :=
  ⟨(orderly_compileStmt s h).1, (orderly_compileStmt s h).2, (accounts_compileStmt s h).answers⟩

theorem isPiece_statement {done : Step (Option (Ident × Fields))}
    (h : statement s config state = .ok done) : IsPiece s done.code := by
  cases s with
  | classDef line name bases decorators body =>
    -- a class that is accepted defines a record, for which nothing is emitted
    have hstraight : Straight (statement (.classDef line name bases decorators body)) :=
      (closed_straight.seen line).bind fun _ => Closed.ite
        ((closed_straight.recordClass name body).bind fun _ => closed_straight.pure _)
        (closed_straight.fail _)
    have hexact : Exact (statement (.classDef line name bases decorators body)) :=
      (closed_exact.seen line).bind fun _ => Closed.ite
        ((closed_exact.recordClass name body).bind fun _ => closed_exact.pure _)
        (closed_exact.fail _)
    exact ⟨(hstraight.orderly h).1, (hstraight.orderly h).2, (hexact.accounts h).answers⟩
  | _ =>
    simp only [statement, seen_bind] at h
    obtain ⟨first, last, hfirst, hlast, rfl⟩ := bind_eq_ok_iff.mp h
    cases hlast
    rw [List.append_nil]
    exact isPiece_compileStmt hfirst

/-! ## The code of a list of statements -/

/-- Statements are compiled one after the other, whether one of them aborts or not. -/
theorem statements_eq_flatten {body : List Stmt} {done : Step Unit}
    (h : statements body config state = .ok done) :
    ∃ pieces : List Code, List.Forall₂ IsPiece body pieces ∧ done.code = pieces.flatten ∧
      ∀ n, ∃ front, statements (body.take n) config state = .ok front ∧
        front.code = (pieces.take n).flatten := by
  induction body generalizing config state done with
  | nil =>
    cases h
    exact ⟨[], .nil, rfl, fun n => ⟨_, by rw [List.take_nil]; rfl, by simp⟩⟩
  | cons s rest ih =>
    rw [statements_cons] at h
    obtain ⟨first, hfirst, h⟩ := Except.bind_eq_ok_iff.mp h
    obtain ⟨last, hlast, h⟩ := Except.bind_eq_ok_iff.mp h
    cases h
    obtain ⟨pieces, hpieces, hcode, hfronts⟩ := ih hlast
    refine ⟨first.code :: pieces, .cons (isPiece_statement hfirst) hpieces, ?_, fun n => ?_⟩
    · rw [List.flatten_cons, ← hcode]
    · cases n with
      | zero => exact ⟨_, rfl, rfl⟩
      | succ n =>
        obtain ⟨front, hfront, hfrontCode⟩ := hfronts n
        rw [List.take_succ_cons, statements_cons, hfirst]
        simp only [bind, Except.bind, hfront]
        exact ⟨_, rfl, by rw [List.take_succ_cons, List.flatten_cons, ← hfrontCode]⟩

theorem prologue_eq_flatten {contract : Option (List Stmt)} {body : List Stmt}
    {done : Step (Option (List Stmt))} (h : prologue contract body config state = .ok done) :
    ∃ pieces : List Code, List.Forall₂ IsPiece body pieces ∧ done.code = pieces.flatten := by
  induction body generalizing contract state done with
  | nil =>
    cases h
    exact ⟨[], .nil, rfl⟩
  | cons s rest ih =>
    rcases prologue_cons_eq_ok h with ⟨hcode, -, hrest⟩ | ⟨first, last, -, -, hfirst, hlast, rfl⟩
    · -- what aborts is code
      have haborts : s.aborts = false := by
        cases s <;> first | rfl | simp [Stmt.isCode, Stmt.isDocstring] at hcode
      obtain ⟨pieces, hpieces, hcode⟩ := ih hrest
      exact ⟨[] :: pieces, .cons ⟨rfl, haborts.symm, 0, _, Depth.run_nil 0⟩ hpieces, hcode⟩
    · obtain ⟨pieces, hpieces, hcode⟩ := ih hlast
      exact ⟨first.code :: pieces, .cons (isPiece_compileStmt hfirst) hpieces,
        by rw [List.flatten_cons, ← hcode]⟩

end Gen

/-! ## Modules before desugaring -/

namespace Stmt

theorem aborts_desugar_mutual : (∀ s : Stmt, s.desugar.aborts = s.aborts) ∧
    ∀ body, anyAborts (desugarAll body) = anyAborts body := by
  apply desugar.mutual_induct <;> intros <;> simp_all [desugar, desugarAll, aborts, anyAborts]

end Stmt

variable {pieces : List Code} {body : List Stmt}

theorem isPieces_of_desugar {m : Module} (h : List.Forall₂ IsPiece m.desugar.body pieces) :
    List.Forall₂ IsPiece m.body pieces := by
  rw [Module.desugar, Stmt.desugarAll_eq_map, List.forall₂_map_left_iff] at h
  exact h.imp fun s piece hpiece =>
    ⟨hpiece.orderly, hpiece.diverges.trans (Stmt.aborts_desugar_mutual.1 s), hpiece.answers⟩

/-! ## Blocks inside -/

theorem endsAtAbort_of_mem_flatten (h : List.Forall₂ IsPiece body pieces) :
    ∀ block ∈ blocks pieces.flatten, EndsAtAbort block := by
  induction h with
  | nil => simp [blocks]
  | cons hpiece _ ih =>
    intro block hmem
    rw [List.flatten_cons, blocks_append, List.mem_append] at hmem
    rcases hmem with hmem | hmem
    · exact endsAtAbort_of_mem hpiece.orderly hpiece.answers block (List.mem_cons_of_mem _ hmem)
    · exact ih block hmem

/-- The instructions around the code of the statements have no blocks. -/
theorem Gen.blocks_preamble (code : Code) (d : Nat) : blocks (preamble code d) = blocks code := by
  rw [preamble, List.cons_append, blocks, blocks_append]
  split <;> simp [blocks, Instr.blocks]

/-- In the blocks inside of compiled code, in the code of entrypoints and in that of the initial
storage, nothing but notes follows an instruction that diverges. The count of cells says of them that
they abort just if they diverge. -/
theorem nothing_follows_an_abort_inside (m : Module) (traced : Bool) :
    (∀ code, m.compileStatements traced = .ok code → ∀ block ∈ blocks code, EndsAtAbort block) ∧
    ∀ c, m.compile traced = .ok c → ∀ block ∈ c.blocks, EndsAtAbort block := by
  refine ⟨fun code hcode => ?_, fun c hc block hmem => ?_⟩
  · obtain ⟨done, hdone, rfl⟩ := Module.compileStatements_eq_ok_iff.mp hcode
    obtain ⟨pieces, hpieces, hflat, -⟩ := Gen.statements_eq_flatten hdone
    rw [hflat]
    exact endsAtAbort_of_mem_flatten hpieces
  · obtain ⟨config, module, init, methods, -, -, parts⟩ := Module.compile_eq_ok hc
    rw [Contract.blocks, List.mem_append, List.mem_append, List.mem_flatMap] at hmem
    rcases hmem with (hmem | hmem) | ⟨⟨name, e⟩, hentry, hmem⟩
    · obtain ⟨state, deployed, hdeploy, hresult⟩ := parts.deploy
      have hstraight := Gen.straight_deploy hdeploy
      have hrun := Gen.run_deploy hdeploy
      rw [hresult] at hstraight hrun
      exact endsAtAbort_of_mem (orderly_of_straight hstraight) ⟨0, _, hrun⟩ block hmem
    · obtain ⟨line, hprologue⟩ := parts.prologue
      obtain ⟨pieces, hpieces, hflat⟩ := Gen.prologue_eq_flatten hprologue
      rw [parts.preamble, Gen.blocks_preamble, hflat] at hmem
      exact endsAtAbort_of_mem_flatten hpieces block hmem
    · obtain ⟨method, -, -, state, compiled, hcompiled, rfl⟩ := parts.entrypoints name e hentry
      obtain ⟨named, start, inner, -, -, hinner, hresult⟩ := Gen.entrypoint_eq_ok hcompiled
      rw [hresult] at hmem
      exact endsAtAbort_of_mem (Gen.orderly_entrypointCode method hinner).1
        (Gen.accounts_entrypointCode method hinner).answers block hmem

/-- Refuses in one branch, with a statement behind that is never reached. -/
def Module.guarded : Module :=
  ⟨[.ifElse 1 (.literal 1 (.bool true))
    [.raise 2 (some (.literal 2 (.str "no"))), .assign 3 (.name 3 "x") (.literal 3 (.int 1))] []]⟩

theorem nothing_follows_an_abort_inside_counter :
    (∃ code block, Module.guarded.compileStatements false = .ok code ∧ block ∈ blocks code ∧
      diverges block = true ∧ EndsAtAbort block) ∧
    ∃ c block, Module.counter.compile false = .ok c ∧ block ∈ c.blocks ∧ diverges block = true ∧
      EndsAtAbort block := by
  constructor
  · have hany : (Module.guarded.compileStatements false).toOption.map
        (fun code => (blocks code).any diverges) = some true := by decide +kernel
    obtain ⟨code, hcode, hany⟩ := Except.exists_ok_of_map hany
    obtain ⟨block, hmem, hdiv⟩ := List.any_eq_true.mp hany
    exact ⟨code, block, hcode, hmem, hdiv,
      (nothing_follows_an_abort_inside Module.guarded false).1 code hcode block hmem⟩
  · have hany : (Module.counter.compile false).toOption.map
        (fun c => c.blocks.any diverges) = some true := by decide +kernel
    obtain ⟨c, hc, hany⟩ := Except.exists_ok_of_map hany
    obtain ⟨block, hmem, hdiv⟩ := List.any_eq_true.mp hany
    exact ⟨c, block, hc, hmem, hdiv,
      (nothing_follows_an_abort_inside Module.counter false).2 c hc block hmem⟩

/-! ## The code of a module -/

/-- Nothing but notes comes from the statements behind one that aborts. -/
def QuietBehindAborts (body : List Stmt) (pieces : List Code) : Prop :=
  ∀ n s, body[n]? = some s → s.aborts = true →
    (pieces.drop (n + 1)).flatten.all Instr.isNote = true

theorem quietBehindAborts_cons_iff {s : Stmt} {rest : List Stmt} {piece : Code} :
    QuietBehindAborts (s :: rest) (piece :: pieces) ↔
      (s.aborts = true → pieces.flatten.all Instr.isNote = true) ∧
        QuietBehindAborts rest pieces := by
  constructor
  · intro h
    exact ⟨fun haborts => h 0 s rfl haborts, fun n s' hs' => h (n + 1) s' hs'⟩
  · rintro ⟨hfirst, hrest⟩ n s' hs' haborts
    cases n with
    | zero =>
      cases hs'
      exact hfirst haborts
    | succ n => exact hrest n s' hs' haborts

/-- The statements abort or not as their pieces of code diverge or not. -/
theorem any_diverges_flatten (h : List.Forall₂ IsPiece body pieces) :
    pieces.flatten.any Instr.diverges = body.any Stmt.aborts := by
  induction h with
  | nil => rfl
  | cons hpiece _ ih =>
    rw [List.flatten_cons, List.any_append, List.any_cons, ih,
      any_diverges_eq (orderly_iff.mp hpiece.orderly).1, hpiece.diverges]

theorem stopsAtAbort_flatten_iff (h : List.Forall₂ IsPiece body pieces) :
    stopsAtAbort pieces.flatten = true ↔ QuietBehindAborts body pieces := by
  induction h with
  | nil => simp [stopsAtAbort, QuietBehindAborts]
  | cons hpiece _ ih =>
    have hstops := (orderly_iff.mp hpiece.orderly).1
    rw [List.flatten_cons, stopsAtAbort_append_iff, any_diverges_eq hstops, hpiece.diverges, ih,
      quietBehindAborts_cons_iff]
    exact ⟨fun h => ⟨h.2.2, h.2.1⟩, fun h => ⟨hstops, h.2, h.1⟩⟩

/-- The preamble ends by moving the parameter to the top, if there are cells above it. -/
theorem stopsAtAbort_preamble_iff (h : List.Forall₂ IsPiece body pieces) (d : Nat) :
    stopsAtAbort (Gen.preamble pieces.flatten d) = true ↔
      QuietBehindAborts body pieces ∧ ((∃ s ∈ body, s.aborts = true) → d = 0) := by
  have hunpair : stopsAtAbort (Gen.preamble pieces.flatten d) =
      stopsAtAbort (pieces.flatten ++ if 0 < d then [.dig d] else []) := by
    simp [Gen.preamble, stopsAtAbort, Instr.diverges]
  have hdig : stopsAtAbort (if 0 < d then [.dig d] else []) = true := by split <;> rfl
  have hnotes : (if 0 < d then [Instr.dig d] else []).all Instr.isNote = true ↔ d = 0 := by
    cases d <;> simp [Instr.isNote]
  rw [hunpair, stopsAtAbort_append_iff, stopsAtAbort_flatten_iff h, any_diverges_flatten h,
    List.any_eq_true, hnotes]
  exact ⟨fun h => ⟨h.1, h.2.2⟩, fun h => ⟨h.1, hdig, h.2⟩⟩

/-- The code of a module is put together from pieces, one for each statement, which by themselves
stop at an abort. So code follows an abort just if a later statement emits code, or if the preamble
moves the parameter above the cells that are left by the statements. -/
theorem module_code_stops_at_aborts_iff (m : Module) (traced : Bool) :
    (∀ code, m.compileStatements traced = .ok code → ∃ pieces : List Code,
      List.Forall₂ (fun s piece => stopsAtAbort piece = true ∧ diverges piece = s.aborts)
        m.body pieces ∧
      (∀ n, (m.take n).compileStatements traced = .ok (pieces.take n).flatten) ∧
      code = pieces.flatten ∧ (stopsAtAbort code = true ↔ QuietBehindAborts m.body pieces)) ∧
    ∀ c, m.compile traced = .ok c → ∃ (pieces : List Code) (d : Nat),
      List.Forall₂ (fun s piece => stopsAtAbort piece = true ∧ diverges piece = s.aborts)
        m.body pieces ∧
      Depth.Balanced pieces.flatten 0 d ∧ c.preamble = Gen.preamble pieces.flatten d ∧
      (stopsAtAbort c.preamble = true ↔
        QuietBehindAborts m.body pieces ∧ ((∃ s ∈ m.body, s.aborts = true) → d = 0)) := by
  have hpiece (s : Stmt) (piece : Code) (h : IsPiece s piece) :
      stopsAtAbort piece = true ∧ diverges piece = s.aborts :=
    ⟨(orderly_iff.mp h.orderly).1, h.diverges⟩
  refine ⟨fun code hcode => ?_, fun c hc => ?_⟩
  · obtain ⟨done, hdone, rfl⟩ := Module.compileStatements_eq_ok_iff.mp hcode
    obtain ⟨pieces, hpieces, hflat, hfronts⟩ := Gen.statements_eq_flatten hdone
    have hpieces := isPieces_of_desugar hpieces
    refine ⟨pieces, hpieces.imp hpiece, fun n => ?_, hflat, ?_⟩
    · obtain ⟨front, hfront, hcode⟩ := hfronts n
      rw [Module.compileStatements_take_eq_ok hfront, hcode]
    · rw [hflat]
      exact stopsAtAbort_flatten_iff hpieces
  · obtain ⟨config, module, init, methods, -, -, parts⟩ := Module.compile_eq_ok hc
    obtain ⟨line, hprologue⟩ := parts.prologue
    obtain ⟨pieces, hpieces, hflat⟩ := Gen.prologue_eq_flatten hprologue
    have hpieces := isPieces_of_desugar hpieces
    have hbalanced := Gen.accounts_prologue hprologue
    rw [hflat] at hbalanced
    refine ⟨pieces, _, hpieces.imp hpiece, hbalanced, ?_, ?_⟩
    · rw [parts.preamble, hflat]
    · rw [parts.preamble, hflat]
      exact stopsAtAbort_preamble_iff hpieces _

/-- Aborts, with a statement behind. -/
def Module.hasty : Module :=
  ⟨[.raise 1 (some (.literal 1 (.str "stop"))), .assign 2 (.name 2 "x") (.literal 2 (.int 1))]⟩

/-- A contract whose module-level code aborts with a variable on the stack. -/
def Module.stillborn : Module :=
  ⟨[.assign 1 (.name 1 "x") (.literal 1 (.int 1)), .raise 2 (some (.literal 2 (.str "stop"))),
    .classDef 3 "Contract" [] []
      [.function 4 "deploy" [] none [.ret 5 (some (.literal 5 (.int 0)))]]]⟩

theorem module_code_stops_at_aborts_iff_stillborn :
    (∃ code pieces, Module.hasty.compileStatements false = .ok code ∧ code = pieces.flatten ∧
      stopsAtAbort code = false ∧ ¬QuietBehindAborts Module.hasty.body pieces) ∧
    ∃ c pieces d, Module.stillborn.compile false = .ok c ∧
      c.preamble = Gen.preamble pieces.flatten d ∧ stopsAtAbort c.preamble = false ∧
      ¬(QuietBehindAborts Module.stillborn.body pieces ∧
        ((∃ s ∈ Module.stillborn.body, s.aborts = true) → d = 0)) := by
  constructor
  · have hstops : (Module.hasty.compileStatements false).toOption.map stopsAtAbort =
        some false := by decide +kernel
    obtain ⟨code, hcode, hstops⟩ := Except.exists_ok_of_map hstops
    obtain ⟨pieces, -, -, hflat, hiff⟩ :=
      (module_code_stops_at_aborts_iff Module.hasty false).1 code hcode
    refine ⟨code, pieces, hcode, hflat, hstops, fun hquiet => ?_⟩
    exact absurd (hstops.symm.trans (hiff.mpr hquiet)) (by decide)
  · have hstops : (Module.stillborn.compile false).toOption.map
        (fun c => stopsAtAbort c.preamble) = some false := by decide +kernel
    obtain ⟨c, hc, hstops⟩ := Except.exists_ok_of_map hstops
    obtain ⟨pieces, d, -, -, hpreamble, hiff⟩ :=
      (module_code_stops_at_aborts_iff Module.stillborn false).2 c hc
    refine ⟨c, pieces, d, hc, hpreamble, hstops, fun hquiet => ?_⟩
    exact absurd (hstops.symm.trans (hiff.mpr hquiet)) (by decide)

/-- Code follows the abort of one statement if another one comes after it, and in a preamble even
if it is the last one. -/
theorem code_follows_an_abort_at_module_level :
    (Module.hasty.compileStatements false).toOption.map
        (fun code => (stopsAtAbort code, code.map Instr.diverges)) =
      some (false, [false, true, false]) ∧
    (Module.stillborn.compile false).toOption.map
        (fun c => (stopsAtAbort c.preamble, c.preamble.map Instr.diverges)) =
      some (false, [false, false, false, true, false]) := by
  decide +kernel

end Covenant
