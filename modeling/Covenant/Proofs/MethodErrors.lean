import Covenant.Proofs.NoDefects
import Covenant.Proofs.Scoping
import Covenant.Proofs.Translation.Module

/-!
# Covenant — errors in methods

An error that is not found at a node of its own is found at the last line seen. Where the methods
of a contract class are compiled, this line is the method's own, so that an entrypoint is refused at
one of its lines (`entrypoint_error_line`). The storage initializer is the exception: it is compiled
after all members of the class have been looked at, and no line is seen again before it. What it is
refused for may be found at the last member (`deploy_error_line`), whichever method that is.

`method_errors` puts the two together: whatever is wrong with a method that the class has, the error
is found in it, or in the last member if the method is the storage initializer.
-/

namespace Covenant

open Relabelling Stmt

namespace Stmt

variable {s s' : Stmt}

theorem areAllPlain_iff {body : List Stmt} :
    areAllPlain body = true ↔ ∀ s ∈ body, s.isPlain = true := by
  induction body with
  | nil => simp [areAllPlain]
  | cons s rest ih => simp [areAllPlain, ih]

theorem isPlain_of_mem_inner (h : s.isPlain = true) (hs : s' ∈ s.inner) : s'.isPlain = true := by
  cases s with
  | ifElse line test body orelse =>
    rw [isPlain, Bool.and_eq_true, areAllPlain_iff, areAllPlain_iff] at h
    exact (List.mem_append.mp hs).elim (h.1 s') (h.2 s')
  | function | classDef | forIn =>
    rw [isPlain, areAllPlain_iff] at h
    exact h s' hs
  | _ => cases hs

theorem lines_subset_of_mem_inner (hs : s' ∈ s.inner) : s'.lines ⊆ s.lines := by
  cases s with
  | ifElse line test body orelse =>
    have hsub := (List.mem_append.mp hs).imp lines_subset_of_mem lines_subset_of_mem
    rw [lines]
    grind
  | function | classDef | forIn =>
    have hsub := lines_subset_of_mem hs
    simp only [lines, inner] at hsub ⊢
    grind
  | _ => cases hs

end Stmt

namespace Gen

variable {config : Config} {state : State} {method : Method} {e : CompileError}

/-- If all members have lines, the line seen last is that of the last member. -/
theorem State.line_seeingAll {body : List Stmt} (h : ∀ s ∈ body, s.line ≠ 0) (state : State) :
    (state.seeingAll body).line = (body.getLast?.map Stmt.line).getD state.line := by
  induction body generalizing state with
  | nil => rfl
  | cons s rest ih =>
    obtain ⟨hs, hrest⟩ := List.forall_mem_cons.mp h
    have hseen : (state.seeing s.line).line = s.line := by rw [State.seeing, if_neg hs]
    rw [State.seeingAll, List.foldl_cons, ← State.seeingAll, ih hrest, hseen]
    cases rest <;> simp [List.getLast?_cons]

/-! ## Single methods -/

/-- New lines outside a method do not change the method. -/
theorem Method.under_eq_self {f : Relabelling} {traced : Bool}
    (h : FixesLines f method.stmt.lines) : method.under (f.translation traced True) = method := by
  have hstmt : (method.under (f.translation traced True)).stmt = method.stmt :=
    Stmt.relabel_eq_self h
  rw [Method.mk.injEq]
  exact Stmt.function.inj hstmt

/-- A method that is refused as an entrypoint is refused at one of its lines, since its own line is
seen before anything else. -/
theorem entrypoint_error_line (hline : method.line ≠ 0)
    (hplain : areAllPlain method.body = true) {base : Layout} (hbase : Stored base)
    {start : Contract}
    (h : entrypoints base start [method] config state = .error e) :
    ∃ line ∈ method.stmt.lines, e.line = some line := by
  have hdefect := (yields_entrypoints hbase (by simpa using hplain) start).of_error h
  have hseen : entrypoints base start [method] config state =
      entrypoints base start [method] config ⟨state.layout, method.line⟩ := by
    rw [entrypoints, seen_bind, seen_bind, State.seeing, State.seeing, if_neg hline, if_neg hline]
  rw [hseen] at h
  refine error_line_mem (fun f traced hf => ?_) hline (line_mem_lines method.stmt) h hdefect
  have hsame : base.mapNames (f.translation traced True) = base := base.mapNames_id
  have hfollows : Follows (f.translation traced True) _ (entrypoints base start [method])
      (entrypoints (base.mapNames _) start [method.under _]) :=
    follows_entrypoints base (fun _ _ => fixesLabels_translation f traced True _) start
  rw [Method.under_eq_self hf, hsame] at hfollows
  exact ⟨_, hfollows⟩

/-- A storage initializer that is refused is refused at one of its lines or at the line seen last. -/
theorem deploy_error_line (hline : state.line ≠ 0) (h : deploy method config state = .error e) :
    ∃ line, e.line = some line ∧ (line ∈ method.stmt.lines ∨ line = state.line) := by
  have hdefect := (yields_deploy method).of_error h
  have hfound : ∃ line ∈ state.line :: method.stmt.lines, e.line = some line := by
    refine error_line_mem (fun f traced hf => ?_) hline List.mem_cons_self h hdefect
    have hfollows : Follows (f.translation traced True) _ (deploy method) (deploy (method.under _)) :=
      follows_deploy (fixesLabels_translation f traced True _)
    rw [Method.under_eq_self (sameLines_cons.mp hf).2] at hfollows
    exact ⟨_, hfollows⟩
  obtain ⟨line, hmem, he⟩ := hfound
  exact ⟨line, he, (List.mem_cons.mp hmem).symm⟩

/-! ## All methods of a class -/

theorem entrypoints_append (base : Layout) (start : Contract) (methods rest : List Method) :
    entrypoints base start (methods ++ rest) =
      entrypoints base start methods >>= fun c => entrypoints base c rest := by
  induction methods generalizing start with
  | nil => rw [List.nil_append, entrypoints, pure_bind]
  | cons method methods ih =>
    simp only [List.cons_append, entrypoints, bind_assoc]
    congr
    funext _
    congr
    funext compiled
    split
    · rfl
    · exact ih _

/-- Methods that are not all accepted are accepted up to one that is not. -/
theorem entrypoints_eq_error {base : Layout} {start : Contract} {methods : List Method}
    (h : entrypoints base start methods config state = .error e) :
    ∃ before method after, methods = before ++ method :: after ∧ ∃ done,
      entrypoints base start before config state = .ok done ∧
      entrypoints base done.result [method] config done.state = .error e := by
  induction methods generalizing start state with
  | nil => cases h
  | cons method rest ih =>
    have hcons (rest : List Method) : entrypoints base start (method :: rest) =
        entrypoints base start [method] >>= fun c => entrypoints base c rest :=
      entrypoints_append base start [method] rest
    rw [hcons rest] at h
    rcases bind_eq_error_iff.mp h with hfirst | ⟨first, hfirst, hrest⟩
    · exact ⟨[], method, rest, rfl, _, rfl, hfirst⟩
    · obtain ⟨before, other, after, rfl, done, hdone, herror⟩ := ih hrest
      refine ⟨method :: before, other, after, rfl,
        { done with code := first.code ++ done.code }, ?_, herror⟩
      rw [hcons, bind_of_ok hfirst, hdone]
      rfl

end Gen

open Gen

/-- Errors in the methods of a contract class. Let every node of a module have a line, and let the
compiler get to the contract class of the module, all of whose members may stand there. If the class
is refused then, this is because of the storage initializer or because of one of the other methods,
of which those before it are accepted. The error has a line. In a method other than the storage
initializer it is a line of the method: of its definition or of a node inside. In the storage
initializer it is such a line as well, or else that of the last member of the class. -/
theorem method_errors {m : Module} (hlines : ∀ line ∈ Stmt.allLines m.body, line ≠ 0)
    {traced : Bool} {config : Config} {state : State} {module : Layout} {body : List Stmt}
    (hreach : m.Reaches traced ⟨.members module body, config, state⟩)
    {found : Step (Option Method × List Method)}
    (hfound : members none body config state = .ok found) {init : Method}
    (hinit : found.result.1 = some init) (code : Code) {e : CompileError}
    (h : contract body code module config state = .error e) :
    (deploy init config found.state = .error e ∧
      ∃ line, e.line = some line ∧
        (line ∈ init.stmt.lines ∨ body.getLast?.map Stmt.line = some line)) ∨
    ∃ deployed, deploy init config found.state = .ok deployed ∧
      let base := entryLayout module deployed.result.1
      let start : Contract := ⟨deployed.result.1, deployed.result.2, preamble code module.depth, []⟩
      ∃ before method after done, found.result.2 = before ++ method :: after ∧
        entrypoints base start before config deployed.state = .ok done ∧
        entrypoints base done.result [method] config done.state = .error e ∧
        ∃ line ∈ method.stmt.lines, e.line = some line := by
  have hnodes : ∀ s ∈ body, s.isPlain = true ∧ ∀ line ∈ s.lines, line ≠ 0 := by
    refine hreach.holds (fun hs s' hs' => ⟨isPlain_of_mem_inner hs.1 hs', fun line hline =>
      hs.2 line (lines_subset_of_mem_inner hs' hline)⟩) fun s hs => ?_
    refine ⟨areAllPlain_iff.mp (isPlain_desugar.2 m.body) s hs, fun line hline => ?_⟩
    exact hlines line (lines_desugar_subset.2 m.body (lines_subset_of_mem hs hline))
  have hnonempty := List.ne_nil_of_mem (stmt_mem_of_members hfound (.inl hinit))
  have hseen : body.getLast?.map Stmt.line = some found.state.line ∧ found.state.line ≠ 0 := by
    obtain ⟨-, -, -, -, hstate⟩ := members_eq_ok_iff.mp hfound
    rw [hstate, State.line_seeingAll fun s hs => (hnodes s hs).2 _ s.line_mem_lines,
      List.getLast?_eq_some_getLast hnonempty]
    exact ⟨rfl, (hnodes _ (List.getLast_mem hnonempty)).2 _ (line_mem_lines _)⟩
  obtain ⟨⟨deploys, methods⟩, foundCode, after⟩ := found
  obtain rfl : deploys = some init := hinit
  rcases bind_eq_error_iff.mp h with hnone | ⟨found, hfound', h⟩
  · cases hfound.symm.trans hnone
  obtain rfl := Except.ok.inj (hfound'.symm.trans hfound)
  rcases bind_eq_error_iff.mp h with hdeploy | ⟨deployed, hdeploy, h⟩
  · obtain ⟨line, he, hline⟩ := deploy_error_line hseen.2 hdeploy
    refine .inl ⟨hdeploy, line, he, hline.imp_right fun heq => ?_⟩
    rw [heq]
    exact hseen.1
  · obtain ⟨before, method, after, hmethods, done, hdone, herror⟩ := entrypoints_eq_error h
    have hmem : method ∈ methods := hmethods ▸ List.mem_append_right _ List.mem_cons_self
    obtain ⟨hplain, hline⟩ := hnodes _ (stmt_mem_of_members hfound (.inr hmem))
    refine .inr ⟨deployed, hdeploy, before, method, after, done, hmethods, hdone, herror, ?_⟩
    exact entrypoint_error_line (hline _ (line_mem_lines _)) hplain
      (stored_entryLayout hreach.formed.ready _) herror

/-- The storage initializer does not return anything, and another method comes after it. -/
def Stmt.misdeployed : List Stmt :=
  [.function 2 "deploy" [] none [.pass 3], .function 4 "bump" [] none [.pass 5]]

def Module.misdeployed : Module := ⟨[.classDef 1 "Contract" [] [] Stmt.misdeployed]⟩

theorem method_errors_misdeployed : ∃ (state : State) (e : CompileError) (line : Nat),
    Module.misdeployed.Reaches false
        ⟨.members (.empty .module) Stmt.misdeployed, ⟨.empty, false⟩, state⟩ ∧
      contract Stmt.misdeployed [] (.empty .module) ⟨.empty, false⟩ state = .error e ∧
      e.line = some line ∧ (line ∈ [2, 3] ∨ Stmt.misdeployed.getLast?.map Stmt.line = some line) := by
  have hreach : Module.misdeployed.Reaches false
      ⟨.members (.empty .module) Stmt.misdeployed, ⟨.empty, false⟩, ⟨.empty .module, 1⟩⟩ :=
    .next (.next (.next (.next .program (.recordsSkip rfl)) .prologue) (.prologueSkip rfl)) .members
  obtain ⟨-, line, he, hline⟩ | ⟨deployed, hdeployed, -⟩ :=
    method_errors (by decide) hreach rfl rfl [] rfl
  · exact ⟨_, _, line, hreach, rfl, he, hline⟩
  · cases hdeployed

/-- The error is found in a method that nothing is wrong with. -/
theorem method_error_outside :
    Module.misdeployed.compile false = .error ⟨.unsupported .deployBody, some 4⟩ ∧
      Stmt.misdeployed.map Stmt.lines = [[2, 3], [4, 5]] :=
  ⟨rfl, rfl⟩

end Covenant
