import Lox.Proofs.Session.History

namespace Lox
set_option autoImplicit true

/-- A source text has an error that is found before anything is executed. -/
def rejected (source : String) : Bool :=
  !(readProgram source).2.isEmpty || !(readProgram source).1.misuses.isEmpty

theorem rejected_eq_false : rejected source = false ↔
    (readProgram source).2 = [] ∧ (readProgram source).1.misuses = [] := by
  simp [rejected]

theorem Log.fatal_reportAll (log : Log) (ds : List Diagnostic) :
    (log.reportAll ds).fatal = log.fatal := by
  induction ds generalizing log with
  | nil => rfl
  | cons d ds ih =>
    rw [reportAll, List.foldl_cons]
    refine (ih (log.report d)).trans ?_
    cases d <;> rfl

namespace Session

/-- The runs of source texts one after another, each with its limit. -/
def runs (s : Session) : List (Nat × String) → List Run
  | [] => []
  | (limit, source) :: rest =>
    let run := s.run limit source
    run :: run.session.runs rest

variable {s t : Session} {source : String} {limit : Nat}

theorem accepts_iff (hs : s.interactive = true) :
    (∃ tree, s.Accepts source tree) ↔ rejected source = false := by
  rw [rejected_eq_false]
  constructor
  · rintro ⟨tree, _, hread, hproper⟩
    rw [hread]
    exact ⟨rfl, hproper⟩
  · rintro ⟨hread, hproper⟩
    refine ⟨_, ?_, Prod.ext rfl hread, hproper⟩
    rw [begin, if_pos hs]
    rfl

theorem not_accepts_of_rejected (hs : s.interactive = true) (h : rejected source = true) :
    ∀ tree, ¬s.Accepts source tree := by
  intro tree hacc
  rw [(accepts_iff hs).1 ⟨tree, hacc⟩] at h
  cases h

/-- Executing a program changes neither the kind of the session nor what the log has of
compile-time errors. -/
theorem execute_keeps (limit : Nat) (s : Session) (P : Program Binding) :
    (s.execute limit P).session.interactive = s.interactive ∧
      (s.execute limit P).session.log.compileError = s.log.compileError := by
  rw [execute]
  split <;> exact ⟨rfl, rfl⟩

theorem interactive_begin (s : Session) : s.begin.interactive = s.interactive := by
  rw [begin]
  split <;> rfl

theorem interactive_run (limit : Nat) (s : Session) (source : String) :
    (s.run limit source).session.interactive = s.interactive := by
  by_cases hacc : ∃ tree, s.Accepts source tree
  · obtain ⟨tree, hacc⟩ := hacc
    rw [hacc.run_eq, (execute_keeps _ _ _).1, interactive_begin]
  · obtain ⟨ds, _, hrun⟩ := run_eq_report (not_exists.1 hacc) limit
    rw [hrun]
    exact interactive_begin s

/-- The log tells whether a text was rejected. -/
theorem compileError_run (hs : s.interactive = true) (limit : Nat) (source : String) :
    (s.run limit source).session.log.compileError = rejected source := by
  cases hrejected : rejected source with
  | false =>
    obtain ⟨tree, hacc⟩ := (accepts_iff hs).2 hrejected
    rw [hacc.run_eq, (execute_keeps _ _ _).2, hacc.clean]
  | true =>
    obtain ⟨ds, herror, hrun⟩ := run_eq_report (not_accepts_of_rejected hs hrejected) limit
    rw [hrun, herror]

/-- After a rejected text the next run starts as it would have started without it. -/
theorem begin_run_of_rejected (hs : s.interactive = true) (h : rejected source = true)
    (limit : Nat) : (s.run limit source).session.begin = s.begin := by
  obtain ⟨ds, _, hrun⟩ := run_eq_report (not_accepts_of_rejected hs h) limit
  have hreset : (s.begin.log.reportAll ds).reset = s.begin.log := by
    rw [Log.reset, Log.fatal_reportAll, begin, if_pos hs]
    rfl
  rw [hrun, begin, report, if_pos ((interactive_begin s).trans hs), hreset]

/-- A run depends on nothing but the session that it starts with. -/
theorem run_congr (h : s.begin = t.begin) (limit : Nat) (source : String) :
    s.run limit source = t.run limit source := by
  unfold run
  rw [← begin_def s, ← begin_def t, h]

theorem runs_congr (h : s.begin = t.begin) (inputs : List (Nat × String)) :
    s.runs inputs = t.runs inputs := by
  cases inputs with
  | nil => rfl
  | cons input rest => rw [runs, runs, run_congr h]

/-- Rejected texts leave no trace. In an interactive session the log of a run tells whether its text
was rejected, and without the rejected texts every other run is the same as with them: what it
writes, its answer, and the session after it with log, environments and globals. -/
theorem runs_without_rejected (hs : s.interactive = true) (inputs : List (Nat × String)) :
    (s.runs inputs).map (·.session.log.compileError) = inputs.map (rejected ·.2) ∧
      s.runs (inputs.filter (!rejected ·.2)) =
        (s.runs inputs).filter (!·.session.log.compileError) := by
  induction inputs generalizing s with
  | nil => exact ⟨rfl, rfl⟩
  | cons input rest ih =>
    have hafter := (interactive_run input.1 s input.2).trans hs
    obtain ⟨ihlog, ihruns⟩ := ih hafter
    have hlog := compileError_run hs input.1 input.2
    rw [runs]
    refine ⟨by rw [List.map_cons, List.map_cons, hlog, ihlog], ?_⟩
    cases hrejected : rejected input.2 with
    | true =>
      rw [List.filter_cons_of_neg (by simp [hrejected]),
        List.filter_cons_of_neg (by simp [hlog, hrejected]), ← ihruns]
      exact (runs_congr (begin_run_of_rejected hs hrejected input.1) _).symm
    | false =>
      rw [List.filter_cons_of_pos (by simp [hrejected]),
        List.filter_cons_of_pos (by simp [hlog, hrejected]), ← ihruns, runs]

/-- Two texts are rejected between a declaration and its use. -/
theorem runs_without_rejected_between :
    ∃ inputs, inputs.map (rejected ·.2) = [false, true, true, false] ∧
      (new true).interactive = true ∧
      (new true).runs (inputs.filter (!rejected ·.2)) =
        ((new true).runs inputs).filter (!·.session.log.compileError) := by
  let inputs := [(50, "fun f() \x7b print 1; \x7d"), (50, "var f = ;"), (50, "return f;"),
    (50, "f();")]
  have hrejected : inputs.map (rejected ·.2) = [false, true, true, false] := by decide +kernel
  exact ⟨inputs, hrejected, rfl, (runs_without_rejected rfl inputs).2⟩

end Session

end Lox
