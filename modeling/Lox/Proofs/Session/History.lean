import Lox.Proofs.Machine.Preservation
import Lox.Session

namespace Lox
set_option autoImplicit true

/-- Diagnostics that stop a run before anything is executed. -/
def Diagnostic.StopsRun (d : Diagnostic) : Prop :=
  ∃ line place text, d = .compileError line place text

theorem Log.compileError_reportAll (log : Log) {ds : List Diagnostic} (hds : ∀ d ∈ ds, d.StopsRun) :
    (log.reportAll ds).compileError = true ↔ log.compileError = true ∨ ds ≠ [] := by
  induction ds generalizing log with
  | nil => simp [reportAll]
  | cons d ds ih =>
    obtain ⟨line, place, text, rfl⟩ := hds d List.mem_cons_self
    have ih := ih (log.report (.compileError line place text))
      fun d hd => hds d (List.mem_cons_of_mem _ hd)
    simp only [reportAll, List.foldl_cons] at ih ⊢
    rw [ih]
    simp [report]

theorem readProgram_stopsRun (source : String) : ∀ d ∈ (readProgram source).2, d.StopsRun := by
  intro d hd
  rcases List.mem_append.1 hd with hd | hd
  · obtain ⟨e, _, rfl⟩ := List.mem_map.1 hd
    exact ⟨_, _, _, rfl⟩
  · obtain ⟨e, _, rfl⟩ := List.mem_map.1 hd
    cases hfound : e.found with
    | none => exact ⟨_, _, _, by rw [SyntaxError.diagnostic, hfound]⟩
    | some t => exact ⟨_, _, _, by rw [SyntaxError.diagnostic, hfound]⟩

namespace Session

/-- The session as a run starts with it. -/
def begin (s : Session) : Session := if s.interactive then { s with log := s.log.reset } else s

/-- A source text is executed: it can be read, no name is misused, and no earlier error is still in
the log. -/
structure Accepts (s : Session) (source : String) (tree : Program Grammar.Unresolved) : Prop where
  clean : s.begin.log.compileError = false
  read : readProgram source = (tree, [])
  proper : tree.misuses = []

variable {s : Session} {source : String} {tree : Program Grammar.Unresolved} {limit : Nat}

theorem begin_def (s : Session) :
    s.begin = if s.interactive then { s with log := s.log.reset } else s := rfl

theorem store_begin (s : Session) : s.begin.store = s.store := by
  rw [begin]
  split <;> rfl

theorem env_begin (s : Session) : s.begin.env = s.env := by
  rw [begin]
  split <;> rfl

theorem Accepts.run_eq (h : s.Accepts source tree) (limit : Nat) :
    s.run limit source = s.begin.execute limit tree.resolve := by
  have hclean : ¬s.begin.log.compileError = true := Bool.eq_false_iff.1 h.clean
  simp only [run, h.read, h.proper, report, Log.reportAll, List.map_nil, List.foldl_nil,
    ← begin_def]
  rw [if_neg hclean, if_neg hclean]

/-- A run that is stopped before anything is executed only reports the errors. -/
theorem run_eq_report (h : ∀ tree, ¬s.Accepts source tree) (limit : Nat) :
    ∃ ds, (s.begin.report ds).1.log.compileError = true ∧
      s.run limit source = { session := (s.begin.report ds).1, output := (s.begin.report ds).2,
                             answer := .code (s.begin.report ds).1.log.exitCode } := by
  obtain ⟨tree, ds, hread⟩ : ∃ tree ds, readProgram source = (tree, ds) := ⟨_, _, rfl⟩
  have hds := readProgram_stopsRun source
  have hms : ∀ d ∈ tree.misuses.map (·.diagnostic), d.StopsRun := by
    intro d hd
    obtain ⟨misuse, _, rfl⟩ := List.mem_map.1 hd
    exact ⟨_, _, _, rfl⟩
  rw [hread] at hds
  simp only [run, hread, report, ← begin_def]
  split
  · exact ⟨ds, ‹_›, rfl⟩
  · rename_i hclean
    split
    · refine ⟨ds ++ tree.misuses.map (·.diagnostic), ?_⟩
      rw [Log.reportAll, List.foldl_append, List.map_append]
      exact ⟨‹_›, rfl⟩
    · rename_i hproper
      rw [Log.compileError_reportAll _ hds, not_or, not_not] at hclean
      rw [Log.compileError_reportAll _ hms, not_or, not_not] at hproper
      exact (h tree ⟨Bool.eq_false_iff.2 hclean.1, hclean.2 ▸ hread,
        List.map_eq_nil_iff.1 hproper.2⟩).elim

theorem run_of_not_accepts (h : ∀ tree, ¬s.Accepts source tree) (limit : Nat) :
    (s.run limit source).session.store = s.store ∧ (s.run limit source).session.env = s.env ∧
      ∃ n, (s.run limit source).answer = .code n := by
  obtain ⟨ds, _, hrun⟩ := run_eq_report h limit
  rw [hrun]
  exact ⟨store_begin s, env_begin s, _, rfl⟩

end Session

namespace Machine

/-- The states that `n` steps leave behind, the last one first. -/
def trace : Nat → Machine → List Machine
  | 0, _ => []
  | n + 1, m =>
    match m.step with
    | some m' => trace n m' ++ [m]
    | none => []

/-- A zone is on record for an environment only if a step of the past made it for that zone. -/
def Recorded (past : List Machine) (W : Roles) : Prop :=
  ∀ h z, W h = some z → ∃ m ∈ past, m.Opens h z

variable {P : List (Program Binding)} {W : Roles} {E : ArenaFault → Prop} {m : Machine}
  {past : List Machine}

theorem Fits.run (hm : m.Fits P W E) (hW : Recorded past W)
    (hE : ∀ m' ∈ m.trace n, ∀ f, m'.Misreads f → E f) :
    ∃ W', (m.run n).Fits P W' E ∧ Recorded (m.trace n ++ past) W' := by
  induction n generalizing m W past with
  | zero => exact ⟨W, hm, hW⟩
  | succ n ih =>
    rw [Machine.run, trace]
    cases hstep : m.step with
    | none => exact ⟨W, hm, hW⟩
    | some m' =>
      simp only [trace, hstep] at hE
      obtain ⟨W', hm', hW'⟩ := hm.step_roles (hE m (by simp)) hstep
      have hrec : Recorded (m :: past) W' := by
        intro h z hz
        rcases hW' h z hz with hz | hopens
        · obtain ⟨m₀, hm₀, hopens⟩ := hW h z hz
          exact ⟨m₀, List.mem_cons_of_mem _ hm₀, hopens⟩
        · exact ⟨m, List.mem_cons_self, hopens⟩
      obtain ⟨W'', hm'', hW''⟩ := ih hm' hrec fun m₀ hm₀ => hE m₀ (List.mem_append_left _ hm₀)
      exact ⟨W'', hm'', by simpa using hW''⟩

theorem Fits.globals_current (hm : m.Fits P W E) (hend : m.outcome ≠ .unfinished) :
    m.store.arena.Chain W m.env [] [] := by
  obtain ⟨_, hctl⟩ := hm
  rw [outcome] at hend
  generalize m.control = control at hctl hend
  cases hctl with
  | eval => exact (hend rfl).elim
  | exec => exact (hend rfl).elim
  | value => exact (hend rfl).elim
  | @complete c zs Ss Γ k _ hc _ hk =>
    cases hk with
    | program =>
      cases List.eq_nil_of_length_eq_zero hc.length
      exact hc
    | sequence => cases c <;> exact (hend rfl).elim
    | again => cases c <;> exact (hend rfl).elim
    | leaveBlock => cases c <;> exact (hend rfl).elim
    | leaveFunction => cases c <;> exact (hend rfl).elim
    | leaveMethod => cases c <;> exact (hend rfl).elim

end Machine

namespace Session

/-- A session is reached by running source texts one after another, each to its end, whatever that
is. Beside it stand the programs that were executed and the states the machine went through, the
last ones first. -/
inductive History : Session → List (Program Binding) → List Machine → Prop where
  | new (interactive : Bool) : History (.new interactive) [] []
  | stopped : History s programs past → (∀ tree, ¬s.Accepts source tree) →
      History (s.run limit source).session programs past
  | executed : History s programs past → s.Accepts source tree →
      (s.run limit source).answer ≠ .unfinished →
      History (s.run limit source).session (tree.resolve :: programs)
        ((Machine.start s.store s.env tree.resolve).trace limit ++ past)

/-- A state of the machine in a session, `n` steps after the start of a run. -/
inductive Moment : List (Program Binding) → List Machine → Machine → Prop where
  | intro : History s programs past → s.Accepts source tree → (n : Nat) →
      Moment (tree.resolve :: programs)
        ((Machine.start s.store s.env tree.resolve).trace n ++ past)
        ((Machine.start s.store s.env tree.resolve).run n)

/-- Between two runs the globals are current, and all in the store fits. -/
structure Fits (programs : List (Program Binding)) (W : Roles) (s : Session) : Prop where
  store : s.store.Fits programs W
  current : s.store.arena.Chain W s.env [] []

end Session

theorem Store.Fits.more {s : Store} (hs : s.Fits P W) (hQ : Program.Accepted Q) :
    s.Fits (Q :: P) W := by
  have hlater : ∀ b, World.Later b (s.world P W) (s.world (Q :: P) W) :=
    fun b => ⟨List.subset_cons_self _ _, .refl _ _, .refl _⟩
  have hs' := hs.sound
  refine ⟨⟨?_, hs'.below, hs'.closed, ?_, hs'.names, hs'.fresh, hs'.globals⟩, ?_⟩
  · exact List.forall_mem_cons.2 ⟨hQ, hs'.accepted⟩
  · exact fun h e x v hg hv => (hs'.values h e x v hg hv).later (hlater h)
  · exact fun i x v hv => (hs.fields i x v hv).later (hlater globals)

namespace Session

variable {programs : List (Program Binding)} {W : Roles} {s : Session} {past : List Machine}
  {E : ArenaFault → Prop}

theorem Fits.start (hs : s.Fits programs W) (hP : Program.Accepted P) :
    (Machine.start s.store s.env P).Fits (P :: programs) W E :=
  ⟨hs.store.more hP, .normal (Γ := {}) hs.current (.program (.program List.mem_cons_self))⟩

theorem fits_new (interactive : Bool) : (new interactive).Fits [] fun _ => none := by
  have hget : ∀ h e, (new interactive).store.arena.get? h = some e → h = globals ∧
      e = { enclosing := none } := by
    intro h e hg
    simp only [new, emptyStore, Arena.get?_new] at hg
    split at hg
    · rename_i hh
      cases hg
      exact ⟨hh.symm, rfl⟩
    · simp [Arena.get?] at hg
  refine ⟨⟨⟨by simp [Store.world], ?_, ?_, ?_, by simp [Store.world], by simp [Store.world], rfl⟩,
    ?_⟩, ?_⟩
  · intro h e hg
    obtain ⟨rfl, rfl⟩ := hget h e hg
    exact Nat.zero_lt_one
  · intro h e hg hc
    obtain ⟨rfl, rfl⟩ := hget h e hg
    cases hc
  · intro h e x v hg hv
    obtain ⟨rfl, rfl⟩ := hget h e hg
    simp at hv
  · intro i x v hv
    simp [new, emptyStore, Store.fieldsOf] at hv
  · exact .globals (e := { enclosing := none }) (Arena.get?_new _ _ _ _) rfl

theorem store_execute (limit : Nat) (s : Session) (P : Program Binding) :
    (s.execute limit P).session.store = ((Machine.start s.store s.env P).run limit).store ∧
    (s.execute limit P).session.env = ((Machine.start s.store s.env P).run limit).env := by
  rw [execute]
  split <;> exact ⟨rfl, rfl⟩

theorem outcome_of_answer (h : (execute limit s P).answer ≠ .unfinished) :
    ((Machine.start s.store s.env P).run limit).outcome ≠ .unfinished := by
  intro hout
  simp [execute, hout] at h

theorem History.fits (h : History s programs past) :
    ∃ W, s.Fits programs W ∧ Machine.Recorded past W := by
  induction h with
  | new interactive => exact ⟨_, fits_new interactive, fun h z hz => nomatch hz⟩
  | @stopped s programs past source limit _ hrej ih =>
    obtain ⟨W, hs, hW⟩ := ih
    obtain ⟨hstore, henv, _⟩ := run_of_not_accepts hrej limit
    exact ⟨W, ⟨hstore ▸ hs.store, by rw [hstore, henv]; exact hs.current⟩, hW⟩
  | @executed s programs past source tree limit _ hacc hend ih =>
    obtain ⟨W, hs, hW⟩ := ih
    have hP := Program.accepted_resolve hacc.proper
    obtain ⟨W', hm, hW'⟩ := (hs.start hP (E := fun _ => True)).run (n := limit) hW
      fun _ _ _ _ => trivial
    rw [hacc.run_eq] at hend ⊢
    obtain ⟨hstore, henv⟩ := store_execute limit s.begin tree.resolve
    have hend := outcome_of_answer hend
    rw [store_begin, env_begin] at hstore henv hend
    exact ⟨W', ⟨hstore ▸ hm.store, by rw [hstore, henv]; exact hm.globals_current hend⟩, hW'⟩

theorem Moment.fits (h : Moment programs past m) :
    ∃ W, m.Fits programs W (fun _ => True) ∧ Machine.Recorded past W := by
  cases h with
  | intro hist hacc n =>
    obtain ⟨W, hs, hW⟩ := hist.fits
    exact (hs.start (Program.accepted_resolve hacc.proper)).run hW fun _ _ _ _ => trivial

end Session

end Lox
