import Lox.Proofs.Session.Faults
import Lox.Proofs.Session.Rejected

namespace Lox
set_option autoImplicit true

def Output.diagnostic? : Output → Option Diagnostic
  | .text _ => none
  | .diagnostic d => some d

/-- The compile-time errors of a source text: those met in reading it, or else its misuses. -/
def compileErrors (source : String) : List Diagnostic :=
  match (readProgram source).2 with
  | [] => (readProgram source).1.misuses.map (·.diagnostic)
  | d :: ds => d :: ds

theorem compileErrors_of_read (h : (readProgram source).2 ≠ []) :
    compileErrors source = (readProgram source).2 := by
  rw [compileErrors]
  split
  · exact absurd ‹_› h
  · exact Eq.symm ‹_›

theorem compileErrors_of_misuses (h : (readProgram source).2 = []) :
    compileErrors source = (readProgram source).1.misuses.map (·.diagnostic) := by
  rw [compileErrors, h]

theorem compileErrors_stopsRun (source : String) : ∀ d ∈ compileErrors source, d.StopsRun := by
  intro d hd
  by_cases h : (readProgram source).2 = []
  · rw [compileErrors_of_misuses h] at hd
    obtain ⟨misuse, _, rfl⟩ := List.mem_map.1 hd
    exact ⟨_, _, _, rfl⟩
  · rw [compileErrors_of_read h] at hd
    exact readProgram_stopsRun source d hd

def Machine.lines (m : Machine) : List Output := m.printed.reverse.map .text

namespace Log

/-- The answers of runs, the graver ones later. -/
def codes : List Nat := [okCode, runtimeCode, compileCode]

/-- No error is forgotten. -/
structure Grows (log log' : Log) : Prop where
  compileError : log.compileError = true → log'.compileError = true
  runtimeError : log.runtimeError = true → log'.runtimeError = true

theorem Grows.refl (log : Log) : log.Grows log := ⟨id, id⟩

theorem Grows.trans {log log' log'' : Log} (h : log.Grows log') (h' : log'.Grows log'') :
    log.Grows log'' := ⟨h'.compileError ∘ h.compileError, h'.runtimeError ∘ h.runtimeError⟩

theorem grows_reportAll (log : Log) (ds : List Diagnostic) : log.Grows (log.reportAll ds) := by
  induction ds generalizing log with
  | nil => exact .refl log
  | cons d ds ih =>
    refine Grows.trans ?_ (ih (log.report d))
    cases d with
    | compileError => exact ⟨fun _ => rfl, id⟩
    | runtimeError => exact ⟨id, fun _ => rfl⟩
    | warning => exact ⟨id, id⟩
    | failure => exact ⟨id, id⟩

theorem exitCode_mem_codes (log : Log) : log.exitCode ∈ codes := by
  rw [exitCode]
  split
  · decide
  · split <;> decide

theorem exitCode_eq_compileCode {log : Log} :
    log.exitCode = compileCode ↔ log.compileError = true := by
  rw [exitCode]
  split
  · simp [*]
  · split <;> simp [*, runtimeCode, okCode, compileCode]

theorem Grows.exitCode {log log' : Log} (h : log.Grows log') :
    codes.idxOf log.exitCode ≤ codes.idxOf log'.exitCode := by
  obtain ⟨hcompile, hruntime⟩ := h
  simp only [Log.exitCode]
  revert hcompile hruntime
  cases log.compileError <;> cases log'.compileError <;> cases log.runtimeError <;>
    cases log'.runtimeError <;> decide

theorem messages_reportAll (log : Log) (ds : List Diagnostic) :
    (log.reportAll ds).messages = log.messages ++ ds.map (·.plain) := by
  induction ds generalizing log with
  | nil => exact (List.append_nil _).symm
  | cons d ds ih =>
    have hd : (log.report d).messages = log.messages ++ [d.plain] := by cases d <;> rfl
    refine (ih (log.report d)).trans ?_
    rw [hd, List.append_assoc]
    rfl

end Log

def Answer.code? : Answer → Option Nat
  | .code n => some n
  | _ => none

namespace Session

variable {s : Session} {source : String} {limit : Nat} {inputs : List (Nat × String)}
  {input : Nat × String} {i j : Nat} {r r' : Run}

/-- How a run of a source text comes out in an interactive session, by its answer. The last state of
the machine is `m`. -/
inductive Outcome (s : Session) (source : String) (m : Machine) (r : Run) : Answer → Prop where
  /-- Compile-time errors are written and nothing else, and nothing has changed. -/
  | rejected : compileErrors source ≠ [] → (∀ d ∈ compileErrors source, d.StopsRun) →
      r.output = (compileErrors source).map .diagnostic →
      r.session.store = s.store → r.session.env = s.env →
      Outcome s source m r (.code Log.compileCode)
  | finished : compileErrors source = [] → m.outcome = .finished → r.output = m.lines →
      Outcome s source m r (.code Log.okCode)
  | failed : compileErrors source = [] → m.outcome = .failed (.error fault line) →
      r.output = m.lines ++ [.diagnostic (.runtimeError line fault.message)] →
      Outcome s source m r (.code Log.runtimeCode)
  | escaped : compileErrors source = [] → m.outcome = .failed (.escape (.unbound x)) →
      r.output = m.lines → Outcome s source m r (.escaped (.unbound x))
  | unfinished : compileErrors source = [] → m.outcome = .unfinished → r.output = m.lines →
      Outcome s source m r .unfinished

/-- A run executes its program, or it reports errors and does nothing else. -/
theorem run_cases {motive : Run → Prop}
    (executed : ∀ tree, s.Accepts source tree → motive (s.begin.execute limit tree.resolve))
    (stopped : ∀ ds, (s.begin.report ds).1.log.compileError = true →
      motive ⟨(s.begin.report ds).1, (s.begin.report ds).2,
        .code (s.begin.report ds).1.log.exitCode⟩) :
    motive (s.run limit source) := by
  by_cases hacc : ∃ tree, s.Accepts source tree
  · obtain ⟨tree, hacc⟩ := hacc
    rw [hacc.run_eq]
    exact executed tree hacc
  · obtain ⟨ds, herror, hrun⟩ := run_eq_report (not_exists.1 hacc) limit
    rw [hrun]
    exact stopped ds herror

/-- The last state of the machine in a run, if the run comes to the machine. -/
def machine (limit : Nat) (s : Session) (source : String) : Machine :=
  (Machine.start s.store s.env (readProgram source).1.resolve).run limit

/-- While there is a compile-time error in the log, a run only reads its text. -/
theorem run_of_compileError (h : s.begin.log.compileError = true) (limit : Nat) :
    s.run limit source =
      { session := (s.begin.report (readProgram source).2).1
        output := (readProgram source).2.map .diagnostic
        answer := .code Log.compileCode } := by
  have hlog : (s.begin.log.reportAll (readProgram source).2).compileError = true :=
    (Log.grows_reportAll _ _).compileError h
  simp only [run, report, ← begin_def]
  refine (if_pos hlog).trans ?_
  rw [Log.exitCode_eq_compileCode.2 hlog]

theorem run_of_compileErrors (h : s.begin.log.compileError = false)
    (herrors : compileErrors source ≠ []) (limit : Nat) :
    s.run limit source =
      { session := (s.begin.report (compileErrors source)).1
        output := (compileErrors source).map .diagnostic
        answer := .code Log.compileCode } := by
  have hlog := (Log.compileError_reportAll s.begin.log (compileErrors_stopsRun source)).2
    (.inr herrors)
  by_cases hread : (readProgram source).2 = []
  · rw [compileErrors_of_misuses hread] at hlog ⊢
    have hclean : ¬s.begin.log.compileError = true := Bool.eq_false_iff.1 h
    simp only [run, hread, report, Log.reportAll, List.map_nil, List.foldl_nil, List.nil_append,
      ← begin_def] at hlog ⊢
    refine (if_neg hclean).trans ((if_pos hlog).trans ?_)
    rw [Log.exitCode_eq_compileCode.2 hlog]
  · rw [compileErrors_of_read hread] at hlog ⊢
    simp only [run, report, ← begin_def]
    refine (if_pos hlog).trans ?_
    rw [Log.exitCode_eq_compileCode.2 hlog]

theorem accepts_of_compileErrors (h : s.begin.log.compileError = false)
    (herrors : compileErrors source = []) : s.Accepts source (readProgram source).1 := by
  have hread : (readProgram source).2 = [] := by
    by_contra hread
    exact hread (compileErrors_of_read hread ▸ herrors)
  rw [compileErrors_of_misuses hread] at herrors
  exact ⟨h, Prod.ext rfl hread, List.map_eq_nil_iff.1 herrors⟩

theorem log_begin (hs : s.interactive = true) : s.begin.log = s.log.reset := by
  rw [begin, if_pos hs]

theorem begin_eq_self (hs : s.interactive = false) : s.begin = s := by
  rw [begin, if_neg (Bool.eq_false_iff.1 hs)]

theorem filterMap_diagnostic (ds : List Diagnostic) :
    (ds.map Output.diagnostic).filterMap (·.diagnostic?) = ds := by
  rw [List.filterMap_map]
  exact List.filterMap_some

theorem filterMap_text (lines : List String) :
    (lines.map Output.text).filterMap (·.diagnostic?) = [] := by
  rw [List.filterMap_map, List.filterMap_eq_nil_iff]
  exact fun _ _ => rfl

/-- Only look-ups of names break out of a run. -/
theorem unbound_of_escaped (hist : History s programs past)
    (hrun : (s.run limit source).answer = .escaped f) : ∃ x, f = .unbound x := by
  obtain ⟨tree, hacc, n, _, hmis⟩ := escaped_misreads hist hrun
  obtain ⟨W, hfits, _⟩ := (Moment.intro hist hacc n).fits
  exact hfits.misreads hmis

theorem run_outcome (hist : History s programs past) (hs : s.interactive = true) (limit : Nat)
    (source : String) :
    Outcome s source (s.machine limit source) (s.run limit source) (s.run limit source).answer := by
  have hlog := log_begin hs
  have hclean : s.begin.log.compileError = false := by rw [hlog]; rfl
  by_cases herrors : compileErrors source = []
  · have hacc := accepts_of_compileErrors hclean herrors
    have hescaped : ∀ f, (s.run limit source).answer = .escaped f → ∃ x, f = .unbound x :=
      fun f => unbound_of_escaped hist
    rw [hacc.run_eq, execute, store_begin, env_begin] at hescaped ⊢
    change Outcome s source ((Machine.start s.store s.env _).run limit) _ _
    generalize (Machine.start s.store s.env (readProgram source).1.resolve).run limit = m
      at hescaped ⊢
    split at hescaped
    · rename_i hout
      simp only [adopt, hlog]
      exact .finished herrors hout rfl
    · rename_i hout
      simp only [adopt, hlog]
      exact .failed herrors hout rfl
    · rename_i hout
      obtain ⟨x, rfl⟩ := hescaped _ rfl
      exact .escaped herrors hout rfl
    · rename_i hout
      exact .unfinished herrors hout rfl
  · rw [run_of_compileErrors hclean herrors]
    exact .rejected herrors (compileErrors_stopsRun source) rfl (store_begin s) (env_begin s)

theorem messages_execute (limit : Nat) (s : Session) (P : Program Binding) :
    (s.execute limit P).session.log.messages =
      s.log.messages ++ ((s.execute limit P).output.filterMap (·.diagnostic?)).map (·.plain) := by
  rw [execute]
  split
  · rw [filterMap_text]
    exact (List.append_nil _).symm
  · rw [report, List.filterMap_append, filterMap_text, filterMap_diagnostic]
    exact Log.messages_reportAll _ _
  · rw [filterMap_text]
    exact (List.append_nil _).symm
  · rw [filterMap_text]
    exact (List.append_nil _).symm

/-- The diagnostics that a run writes are those it puts into the log. -/
theorem messages_run (limit : Nat) (s : Session) (source : String) :
    (s.run limit source).session.log.messages = s.begin.log.messages ++
      ((s.run limit source).output.filterMap (·.diagnostic?)).map (·.plain) := by
  apply run_cases (motive := fun r => r.session.log.messages = s.begin.log.messages ++
    (r.output.filterMap (·.diagnostic?)).map (·.plain))
  · intro tree _
    exact messages_execute limit s.begin tree.resolve
  · intro ds _
    rw [report, filterMap_diagnostic]
    exact Log.messages_reportAll _ _

theorem grows_execute (limit : Nat) (s : Session) (P : Program Binding) :
    s.log.Grows (s.execute limit P).session.log := by
  rw [execute]
  split
  · exact .refl _
  · exact Log.grows_reportAll _ _
  · exact .refl _
  · exact .refl _

theorem grows_run (limit : Nat) (s : Session) (source : String) :
    s.begin.log.Grows (s.run limit source).session.log := by
  apply run_cases (motive := fun r => s.begin.log.Grows r.session.log)
  · intro tree _
    exact grows_execute limit s.begin tree.resolve
  · intro ds _
    exact Log.grows_reportAll _ _

theorem exitCode_of_answer (h : (s.run limit source).answer = .code n) :
    n = (s.run limit source).session.log.exitCode := by
  revert h
  apply run_cases (motive := fun r => r.answer = .code n → n = r.session.log.exitCode)
  · intro tree _ h
    rw [execute] at h ⊢
    split at h <;> cases h <;> simp only [*, report]
  · intro ds _ h
    cases h
    rfl

theorem grows_runs (hs : s.interactive = false) (hr : r ∈ s.runs inputs) :
    s.log.Grows r.session.log ∧ ∀ n, r.answer = .code n → n = r.session.log.exitCode := by
  induction inputs generalizing s with
  | nil => cases hr
  | cons input rest ih =>
    have hrun := grows_run input.1 s input.2
    rw [begin_eq_self hs] at hrun
    rcases List.mem_cons.1 hr with rfl | hr
    · exact ⟨hrun, fun n => exitCode_of_answer⟩
    · obtain ⟨hgrows, hcode⟩ := ih ((interactive_run _ _ _).trans hs) hr
      exact ⟨hrun.trans hgrows, hcode⟩

theorem answer_code?_eq_some : a.code? = some n ↔ a = Answer.code n := by
  cases a <;> simp [Answer.code?]

/-- Answers only get graver. -/
theorem codes_runs (hs : s.interactive = false) (inputs : List (Nat × String)) :
    ((s.runs inputs).filterMap (·.answer.code?)).Pairwise
      fun n n' => Log.codes.idxOf n ≤ Log.codes.idxOf n' := by
  rw [List.pairwise_filterMap]
  simp only [answer_code?_eq_some]
  induction inputs generalizing s with
  | nil => exact .nil
  | cons input rest ih =>
    have hafter := (interactive_run input.1 s input.2).trans hs
    refine .cons ?_ (ih hafter)
    intro r hr n hn n' hn'
    obtain ⟨hgrows, hcode⟩ := grows_runs hafter hr
    rw [exitCode_of_answer hn, hcode n' hn']
    exact hgrows.exitCode

/-- Once there is a compile-time error, source texts are only read. -/
theorem runs_of_compileError (hs : s.interactive = false) (hlog : s.log.compileError = true)
    (hr : (s.runs inputs)[i]? = some r) (hinput : inputs[i]? = some input) :
    r.session.store = s.store ∧ r.session.env = s.env ∧
      r.output = (readProgram input.2).2.map .diagnostic := by
  induction inputs generalizing s i with
  | nil => cases hinput
  | cons first rest ih =>
    have hrun : s.run first.1 first.2 = _ := run_of_compileError (by rwa [begin_eq_self hs]) first.1
    rw [begin_eq_self hs] at hrun
    cases i with
    | zero =>
      cases hinput
      rw [runs, List.getElem?_cons_zero] at hr
      cases hr
      rw [hrun]
      exact ⟨rfl, rfl, rfl⟩
    | succ i =>
      have hgrows := grows_run first.1 s first.2
      rw [begin_eq_self hs] at hgrows
      obtain ⟨hstore, henv, hout⟩ :=
        ih ((interactive_run _ _ _).trans hs) (hgrows.compileError hlog) hr hinput
      rw [hstore, henv, hrun]
      exact ⟨rfl, rfl, hout⟩

theorem answer_eq_compileCode (limit : Nat) (s : Session) (source : String) :
    (s.run limit source).answer = .code Log.compileCode ↔
      (s.run limit source).session.log.compileError = true := by
  constructor
  · intro hcode
    exact Log.exitCode_eq_compileCode.1 (exitCode_of_answer hcode).symm
  · apply run_cases (motive := fun r => r.session.log.compileError = true →
      r.answer = .code Log.compileCode)
    · intro tree hacc herror
      rw [(execute_keeps _ _ _).2, hacc.clean] at herror
      cases herror
    · intro ds herror _
      rw [Log.exitCode_eq_compileCode.2 herror]

theorem compileError_run_iff (hs : s.interactive = false) (limit : Nat) (source : String) :
    (s.run limit source).session.log.compileError = true ↔
      s.log.compileError = true ∨ compileErrors source ≠ [] := by
  cases hlog : s.log.compileError with
  | true =>
    have hgrows := grows_run limit s source
    rw [begin_eq_self hs] at hgrows
    exact iff_of_true (hgrows.compileError hlog) (.inl rfl)
  | false =>
    rw [← begin_eq_self hs] at hlog
    by_cases herrors : compileErrors source = []
    · rw [(accepts_of_compileErrors hlog herrors).run_eq, (execute_keeps _ _ _).2, hlog]
      simp [herrors]
    · rw [run_of_compileErrors hlog herrors, report,
        Log.compileError_reportAll _ (compileErrors_stopsRun source), hlog]

/-- A run is answered with the code of compile-time errors if there was one up to then. -/
theorem compileCode_runs (hs : s.interactive = false) (hr : (s.runs inputs)[i]? = some r) :
    r.answer = .code Log.compileCode ↔
      s.log.compileError = true ∨ ∃ input ∈ inputs.take (i + 1), compileErrors input.2 ≠ [] := by
  induction inputs generalizing s i with
  | nil => cases hr
  | cons first rest ih =>
    have herror := compileError_run_iff hs first.1 first.2
    cases i with
    | zero =>
      cases hr
      rw [answer_eq_compileCode, herror]
      simp
    | succ i =>
      rw [ih ((interactive_run _ _ _).trans hs) hr, herror, List.take_succ_cons, or_assoc]
      simp

theorem runs_after_compileCode (hs : s.interactive = false) (hij : i < j)
    (hr : (s.runs inputs)[i]? = some r) (hcode : r.answer = .code Log.compileCode)
    (hr' : (s.runs inputs)[j]? = some r') (hinput : inputs[j]? = some input) :
    r'.session.store = r.session.store ∧ r'.session.env = r.session.env ∧
      r'.output = (readProgram input.2).2.map .diagnostic := by
  induction inputs generalizing s i j with
  | nil => cases hinput
  | cons first rest ih =>
    have hafter := (interactive_run first.1 s first.2).trans hs
    obtain ⟨j, rfl⟩ := Nat.exists_eq_add_one_of_ne_zero (Nat.ne_of_gt (Nat.zero_lt_of_lt hij))
    cases i with
    | zero =>
      cases hr
      have herror := (answer_eq_compileCode _ _ _).1 hcode
      exact runs_of_compileError hafter herror hr' hinput
    | succ i => exact ih hafter (Nat.lt_of_succ_lt_succ hij) hr hr' hinput

theorem begin_report (hs : s.interactive = true) (ds : List Diagnostic) :
    (s.report ds).1.begin = s.begin := by
  have hreset : (s.log.reportAll ds).reset = s.log.reset := by
    rw [Log.reset, Log.fatal_reportAll, Log.reset]
  rw [begin, begin, if_pos hs, report, if_pos hs, hreset]

/-- How runs come out. In an interactive session, whatever was reported before, a run writes
compile-time errors alone, or what its program prints and after it one error at most, and the log
has just the diagnostics written. In any other session no answer is less grave than an earlier one.
A run is answered with the code of compile-time errors if there was one up to then, and after that a
run changes nothing and writes only what it finds wrong in reading its text. -/
theorem runs_come_out (hist : History s programs past) :
    (s.interactive = true → ∀ ds limit source r, (s.report ds).1.run limit source = r →
      Outcome s source (s.machine limit source) r r.answer ∧
        r.session.log.messages = (r.output.filterMap (·.diagnostic?)).map (·.plain)) ∧
    (s.interactive = false → ∀ inputs,
      (∀ n ∈ (s.runs inputs).filterMap (·.answer.code?), n ∈ Log.codes) ∧
      ((s.runs inputs).filterMap (·.answer.code?)).Pairwise
          (fun n n' => Log.codes.idxOf n ≤ Log.codes.idxOf n') ∧
      ∀ (i : Nat) (r : Run), (s.runs inputs)[i]? = some r →
        (r.answer = .code Log.compileCode ↔ s.log.compileError = true ∨
          ∃ input ∈ inputs.take (i + 1), compileErrors input.2 ≠ []) ∧
        (r.answer = .code Log.compileCode → ∀ (j : Nat) (r' : Run) (input : Nat × String),
          i < j → (s.runs inputs)[j]? = some r' → inputs[j]? = some input →
            r'.session.store = r.session.store ∧ r'.session.env = r.session.env ∧
              r'.output = (readProgram input.2).2.map .diagnostic)) := by
  constructor
  · rintro hs ds limit source r rfl
    rw [run_congr (begin_report hs ds)]
    refine ⟨run_outcome hist hs limit source, ?_⟩
    rw [messages_run, log_begin hs]
    rfl
  · intro hs inputs
    refine ⟨?_, codes_runs hs inputs, ?_⟩
    · intro n hn
      obtain ⟨r, hr, hcode⟩ := List.mem_filterMap.1 hn
      rw [(grows_runs hs hr).2 n (answer_code?_eq_some.1 hcode)]
      exact Log.exitCode_mem_codes _
    · intro i r hr
      refine ⟨compileCode_runs hs hr, ?_⟩
      intro hcode j r' input hij hr' hinput
      exact runs_after_compileCode hs hij hr hcode hr' hinput

/-- A function of an earlier run prints and fails. -/
theorem runs_come_out_later :
    ∃ s programs past r, History s programs past ∧ programs.length = 1 ∧ s.interactive = true ∧
      s.run 50 "f();" = r ∧
      r.output = [.text "a", .diagnostic (.runtimeError 1 "Operands must be numbers.")] ∧
      Outcome s "f();" (s.machine 50 "f();") r (.code Log.runtimeCode) := by
  let source := "fun f() \x7b print \"a\"; nil - nil; \x7d"
  have hacc : (new true).Accepts source (readProgram source).1 :=
    ⟨rfl, Prod.ext rfl (by decide +kernel : (readProgram source).2 = []), by decide +kernel⟩
  have hist : History ((new true).run 50 source).session _ _ :=
    .executed (.new true) hacc (by decide +kernel)
  obtain ⟨hout, _⟩ := (runs_come_out hist).1 (by decide +kernel) [] 50 "f();" _ rfl
  have hanswer : ((((new true).run 50 source).session.report []).1.run 50 "f();").answer =
      .code Log.runtimeCode := by decide +kernel
  rw [hanswer] at hout
  exact ⟨_, _, _, _, hist, rfl, by decide +kernel, rfl, by decide +kernel, hout⟩

end Session

end Lox
