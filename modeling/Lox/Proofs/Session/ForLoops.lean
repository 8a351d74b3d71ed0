import Lox.Proofs.Grammar.CompleteStatements
import Lox.Proofs.Machine.Sequel
import Lox.Proofs.Session.ForRounds

namespace Lox
set_option autoImplicit true

namespace ForRun

/-- A clause runs, or it begins within three steps. -/
def Runs (R : ForRun) (clause : Clause) (m : Machine) : Prop :=
  (∃ b, (R.cont clause).Over b m.control.cont m.env) ∨
    ∃ n ≤ 3, R.Begins clause (m.run n).control

/-- Within five steps the loop is over. -/
def Leaves (R : ForRun) (c : Completion) (m : Machine) : Prop :=
  ∃ n ≤ 5, (m.run n).control = .complete c R.k

/-- The clauses that have ended in some states, the last one first. -/
inductive Logged (R : ForRun) : List Machine → List Mark → Prop where
  | nil : Logged R [] []
  | ended {m : Machine} : R.Ended m.control mark → Logged R past marks →
      Logged R (m :: past) (mark :: marks)
  | other {m : Machine} : (∀ mark, ¬R.Ended m.control mark) → Logged R past marks →
      Logged R (m :: past) marks

/-- The first steps of a loop from the state `m`, up to its end at the latest: the clauses that end
were due, and the one that is due now runs, unless the loop is left. -/
structure Course (R : ForRun) (m : Machine) (n : Nat) (marks : List Mark) : Prop where
  fresh : ∀ s, R.start = some s → m.store.arena.get? R.home = none
  logged : R.Logged (m.trace n) marks
  ordered : R.Ordered marks
  current : (∃ clause, R.due marks.head? = some clause ∧ R.Runs clause (m.run n)) ∨
    ∃ c, LoopEnds marks.head? c ∧ R.Leaves c (m.run n)
  ends : ∀ c, (m.run n).control = .complete c R.k →
    LoopEnds marks.head? c ∧ (m.run n).env = R.outer
  scope : ∀ m' ∈ m.trace n, ∀ mark, R.Ended m'.control mark →
    R.Scoped m'.store.arena m'.env mark

variable {P : List (Program Binding)} {W : Roles} {m m' : Machine}
  {R : ForRun} {clause : Clause} {mark : Mark} {last : Option Mark} {c : Completion}
  {behind : DoneCont}

theorem Entry.exists_step (h : R.Entry clause (n + 1) d m.control) : ∃ m', m.step = some m' := by
  cases hstep : m.step with
  | some m' => exact ⟨m', rfl⟩
  | none =>
    obtain ⟨c, rest, hctl, _⟩ := Machine.step_eq_none hstep
    rw [hctl] at h
    cases h

theorem Entry.run (h : R.Entry clause n d m.control) (hm : m.Fits P W fun _ => True)
    (hunder : R.Under m.store.arena m.env d) : R.Begins clause (m.run n).control := by
  induction n generalizing m W d with
  | zero =>
    cases h with
    | begins h => exact h
  | succ n ih =>
    obtain ⟨m', hstep⟩ := h.exists_step
    obtain ⟨W', hm', _⟩ := hm.step_roles (fun _ _ => trivial) hstep
    obtain ⟨d', hentry, hunder'⟩ := h.step hm hunder hstep
    rw [Machine.run, hstep]
    exact ih hentry hm' hunder'

theorem Exit.exists_step (h : R.Exit c (n + 1) behind) (hctl : m.control = .complete c behind) :
    ∃ m', m.step = some m' := by
  cases hstep : m.step with
  | some m' => exact ⟨m', rfl⟩
  | none =>
    obtain ⟨c, rest, hctl', _⟩ := Machine.step_eq_none hstep
    cases hctl.symm.trans hctl'
    generalize hbehind : DoneCont.program rest = behind at h
    cases h with
    | leave => cases hbehind
    | rest hs => rw [rest_of_start hs] at hbehind; cases hbehind
    | again => cases hbehind
    | leaveRound => cases hbehind
    | advance => cases hbehind

theorem Exit.run (h : R.Exit c n behind) (hctl : m.control = .complete c behind)
    (hm : m.Fits P W fun _ => True) : (m.run n).control = .complete c R.k := by
  induction n generalizing m W behind with
  | zero =>
    cases h
    exact hctl
  | succ n ih =>
    obtain ⟨m', hstep⟩ := h.exists_step hctl
    obtain ⟨W', hm', _⟩ := hm.step_roles (fun _ _ => trivial) hstep
    obtain ⟨behind', hctl', hexit⟩ := h.step hm hctl hstep
    rw [Machine.run, hstep]
    exact ih hexit hctl' hm'

theorem Entry.le_three {control : Control} (h : R.Entry clause n d control) : n ≤ 3 := by
  cases h <;> decide

theorem At.current (h : R.At last m) (hm : m.Fits P W fun _ => True) :
    (∃ clause, R.due last = some clause ∧ R.Runs clause m) ∨
      ∃ c, LoopEnds last c ∧ R.Leaves c m := by
  cases h with
  | outside hlast hs hctl henv hhome =>
    obtain ⟨m', hstep, hentry, hunder⟩ := exists_step_outside hs hctl henv hhome
    obtain ⟨W', hm', _⟩ := hm.step_roles (fun _ _ => trivial) hstep
    have hrun : m.run 2 = m'.run 1 := by rw [Machine.run, hstep]
    refine .inl ⟨_, hlast ▸ due_none hs, .inr ⟨2, by decide, ?_⟩⟩
    rw [hrun]
    exact hentry.run hm' hunder
  | entering hdue hentry hunder _ =>
    exact .inl ⟨_, hdue, .inr ⟨_, hentry.le_three, hentry.run hm hunder⟩⟩
  | leaving hn hexit hctl hc => exact .inr ⟨_, hc, _, hn, hexit.run hctl hm⟩
  | @inside clause b hdue hin =>
    rcases hin with hover | ⟨hend, henv⟩
    · exact .inl ⟨clause, hdue, .inl ⟨b, hover⟩⟩
    · rcases ended_or_exit (has_of_due hdue) hend with ⟨mark, hmark, rfl⟩ | hfault
      · refine .inl ⟨_, hdue, .inl ⟨b, ?_⟩⟩
        rw [hmark.cont, henv]
        exact .refl
      · obtain ⟨fault, n, hn, behind, hexit, hctl⟩ := hfault
        exact .inr ⟨_, loopEnds_failing hdue fault, n, hn, hexit.run hctl hm⟩

theorem At.loopEnds (h : R.At last m) (hctl : m.control = .complete c R.k) : LoopEnds last c := by
  cases h with
  | outside _ _ hctl' => cases hctl.symm.trans hctl'
  | entering _ hentry =>
    rw [hctl] at hentry
    exact absurd rfl hentry.ne_k
  | leaving _ _ hctl' hc =>
    cases hctl.symm.trans hctl'
    exact hc
  | inside hdue hin =>
    rcases hin with hover | ⟨hend, _⟩
    · rw [hctl] at hover
      exact absurd hover not_over_k
    · rcases ended_or_exit (has_of_due hdue) hend with ⟨mark, hmark, rfl⟩ | hfault
      · have hcont := hmark.cont
        rw [hctl] at hcont
        have hover : (R.cont mark.clause).Over m.env (.done R.k) m.env := hcont ▸ .refl
        exact absurd hover not_over_k
      · obtain ⟨fault, n, hn, behind, hexit, hctl'⟩ := hfault
        cases hctl.symm.trans hctl'
        exact loopEnds_failing hdue fault

/-- A state of the loop, after the states `past`. -/
structure Reached (R : ForRun) (past : List Machine) (m : Machine) (marks : List Mark) : Prop where
  logged : R.Logged past marks
  ordered : R.Ordered marks
  state : R.At marks.head? m
  scope : ∀ m' ∈ past, ∀ mark, R.Ended m'.control mark → R.Scoped m'.store.arena m'.env mark

theorem Reached.step {past : List Machine} {marks : List Mark} (h : R.Reached past m marks)
    (hm : m.Fits P W fun _ => True) (hne : ¬(Cont.done R.k).Ends m.control)
    (hstep : m.step = some m') : ∃ marks', R.Reached (m :: past) m' marks' := by
  have hscope : ∀ m₀ ∈ m :: past, ∀ mark, R.Ended m₀.control mark →
      R.Scoped m₀.store.arena m₀.env mark :=
    List.forall_mem_cons.2 ⟨fun mark hmark => (h.state.scoped hne hmark).2, h.scope⟩
  rcases h.state.step hm hne hstep with ⟨mark, hmark, hat⟩ | ⟨hmark, hat⟩
  · have hdue := (h.state.scoped hne hmark).1
    exact ⟨mark :: marks, .ended hmark h.logged, .cons hdue h.ordered, hat, hscope⟩
  · exact ⟨marks, .other hmark h.logged, h.ordered, hat, hscope⟩

end ForRun

namespace ForLoop

variable {P : List (Program Binding)} {W : Roles} {m : Machine} {k : DoneCont}
  {L : ForLoop Binding}

/-- A for loop that is executed next. If it has an initializer, its scope is a new environment. -/
def runFrom (L : ForLoop Binding) (m : Machine) (k : DoneCont) : ForRun :=
  { L with outer := m.env, home := L.start.elim m.env fun _ => m.store.arena.next, k }

theorem at_runFrom (hctl : m.control = .exec L.toStmt k) : (L.runFrom m k).At none m := by
  cases hs : L.start with
  | none =>
    have hloop : m.control = .exec L.loop k := by
      rw [hctl, toStmt, hs]
      rfl
    have hentry := ForRun.Entry.loop (R := L.runFrom m k)
    rw [ForRun.rest_of_none hs] at hentry
    have hdue : L.due none = some .condition := by
      rw [due, first, hs]
      rfl
    have hhome : m.env = (L.runFrom m k).home := by
      rw [runFrom, hs]
      rfl
    refine .entering (d := 0) hdue (hloop ▸ hentry) hhome fun _ name init hs' => ?_
    cases hs.symm.trans hs'
  | some s => exact .outside rfl hs hctl rfl (by rw [runFrom, hs]; rfl)

/-- Every run of a for loop has a course. -/
theorem exists_course (hm : m.Fits P W fun _ => True) (hctl : m.control = .exec L.toStmt k)
    (hinside : ∀ m' ∈ m.trace n, ¬(Cont.done k).Ends m'.control) :
    ∃ marks, (L.runFrom m k).Course m n marks := by
  let I (past : List Machine) (m' : Machine) : Prop :=
    (∀ m₀ ∈ past, ¬(Cont.done k).Ends m₀.control) →
      ∃ marks, (L.runFrom m k).Reached past m' marks
  have hstart : I [] m := fun _ => ⟨[], .nil, .nil, at_runFrom hctl, fun m' hm' => by cases hm'⟩
  have hkeep : ∀ past W m₁ m₂, m₁.Fits P W (fun _ => True) → m₁.step = some m₂ → I past m₁ →
      I (m₁ :: past) m₂ := by
    intro past W m₁ m₂ hm₁ hstep ih hne
    obtain ⟨hne, hpast⟩ := List.forall_mem_cons.1 hne
    obtain ⟨marks, hmarks⟩ := ih hpast
    exact hmarks.step hm₁ hne hstep
  obtain ⟨hreached, W', hm'⟩ := hm.run_keeps hstart hkeep n
  rw [List.append_nil] at hreached
  obtain ⟨marks, h⟩ := hreached hinside
  have hover : m.Inside (.done k) m.env := .inl (by rw [hctl]; exact .refl)
  have henv : ∀ c, (m.run n).control = .complete c k → (m.run n).env = m.env :=
    fun c hend => (hover.run hinside).env_of_ends ⟨c, hend⟩
  have hfresh : ∀ s, L.start = some s → m.store.arena.get? (L.runFrom m k).home = none := by
    intro s hs
    rw [runFrom, hs]
    exact hm.store.sound.below.get?_next
  exact ⟨marks, hfresh, h.logged, h.ordered, h.state.current hm',
    fun c hend => ⟨h.state.loopEnds hend, henv c hend⟩, h.scope⟩

end ForLoop

namespace Session

open Grammar in
/-- A for statement that the parser accepts is read as its clauses say. In every context the
increment refers to what the body does not declare as the condition does, from one scope further
inside, and a variable that the initializer declares belongs to the loop's own scope and is not seen
behind the loop. Whenever it is executed, its clauses run in their order, with one environment for
the loop's own scope. -/
theorem for_loops_run_in_order
    (h : (statement (expression l) (declaration (expression l) d) n : Parser _).Yields
      (⟨.keyword .forWord, o⟩ :: ts) s rest) :
    ∃ L dangling, IsForLoop true dangling ts L rest ∧ s = L.toStmt ∧
      ∀ Γ, s.resolve Γ = (L.resolve Γ).toStmt ∧
        (∀ e ∈ L.increment, ∀ x ∉ L.body.names,
          (L.aroundIncrement Γ).binding x = ((L.around Γ).binding x).farther ∧
          (e.resolve (L.aroundIncrement Γ)).mentions.filter (·.name = x) =
            ((e.resolve (L.around Γ)).mentions.filter (·.name = x)).map Mention.farther) ∧
        (∀ name init, L.start = some (.varDecl name init) →
          (L.around Γ).binding name.name = .bound 0 ∧ Γ.after s = Γ) ∧
        ∀ programs past m k n, Moment programs past m → m.control = .exec (s.resolve Γ) k →
          (∀ m' ∈ m.trace n, ¬(Cont.done k).Ends m'.control) →
          ∃ marks, ((L.resolve Γ).runFrom m k).Course m n marks := by
  have hreads := sound_statement (sound_expression l) (sound_declaration (sound_expression l) d) n
    (⟨.keyword .forWord, o⟩ :: ts)
  unfold Parser.Ensures at hreads
  rw [h] at hreads
  obtain ⟨dangling, hstmt, _⟩ := hreads rfl
  obtain ⟨L, hL, rfl⟩ := hstmt.exists_forLoop
  refine ⟨L, dangling, hL, rfl, fun Γ => ⟨L.resolve_toStmt Γ, ?_, ?_, ?_⟩⟩
  · intro e he x hx
    have hbinding := L.binding_aroundIncrement Γ he hx
    exact ⟨hbinding, Expr.mentions_farther hbinding (L.inClass_aroundIncrement Γ) e⟩
  · intro name init hs
    exact ⟨L.binding_around Γ hs, L.after_toStmt Γ hs⟩
  · intro programs past m k n hm hctl hinside
    obtain ⟨W, hfits, _⟩ := hm.fits
    rw [L.resolve_toStmt] at hctl
    exact ForLoop.exists_course hfits hctl hinside

open Grammar in
/-- A loop with all its clauses that counts up to its end. -/
theorem for_loops_run_in_order_counting :
    ∃ l d n o ts s rest,
      (statement (expression l) (declaration (expression l) d) n : Parser _).Yields
        (⟨.keyword .forWord, o⟩ :: ts) s rest ∧
      ∃ (L : ForLoop Unresolved) (programs : List (Program Binding)) (past : List Machine)
        (m : Machine) (k : DoneCont) (j : Nat) (c : Completion) (marks : List Mark),
        s = L.toStmt ∧ Moment programs past m ∧ m.control = .exec (s.resolve {}) k ∧
        (∀ m' ∈ m.trace j, ¬(Cont.done k).Ends m'.control) ∧
        (m.run j).control = .complete c k ∧ ((L.resolve {}).runFrom m k).Course m j marks := by
  let source := "for (var i = 0; i < 2; i = i + 1) if (i < 5) print i;"
  let tokens := (scan source).list.tokens
  have hacc : (new true).Accepts source (readProgram source).1 :=
    ⟨rfl, Prod.ext rfl (by decide +kernel : (readProgram source).2 = []), by decide +kernel⟩
  have herrors : (parse tokens).errors.isEmpty = true := by decide +kernel
  have hprogram : IsProgram true tokens (readProgram source).1 :=
    isProgram_of_parse (List.isEmpty_iff.1 herrors)
  obtain ⟨s, hs⟩ : ∃ s, (readProgram source).1 = [s] := List.length_eq_one_iff.1 (by decide +kernel)
  obtain ⟨⟨kind, o⟩, hhead, hkind⟩ := Option.map_eq_some_iff.1
    (by decide +kernel : tokens.head?.map (·.kind) = some (.keyword .forWord))
  obtain ⟨ts, hts⟩ := List.head?_eq_some_iff.1 hhead
  cases hkind
  rw [hs, hts] at hprogram
  -- the statement of the program is read from all tokens
  obtain ⟨dangling, hstmt⟩ : ∃ dangling,
      IsStmt true dangling (⟨.keyword .forWord, o⟩ :: ts) s [] := by
    cases hprogram with
    | next hdecl hnone =>
      cases hnone
      cases hdecl with
      | varDecl h => cases h
      | statement h => exact ⟨_, h⟩
  have he := complete_expression (ts.length + 3)
  have hd := complete_declaration he (Nat.le_succ _)
  have hyields := complete_statement he hd (Nat.le_succ _) _ s [] ⟨dangling, hstmt, fun _ => nofun⟩
    (Nat.lt_succ_self _) trivial
  let start := Machine.start (new true).store (new true).env (readProgram source).1.resolve
  have hctl : (start.run 1).control = .exec (s.resolve {}) (.program []) := by
    simp only [start, hs]
    rfl
  have hout : ((start.run 1).run 200).outcome = .finished := by decide +kernel
  obtain ⟨c, hend, _⟩ := Machine.control_of_finished hout
  have hends : (Cont.done (.program [])).Ends ((start.run 1).run 200).control := ⟨c, hend⟩
  obtain ⟨j, hinside, c, hend⟩ := Machine.exists_first_end hends
  obtain ⟨L, _, _, hL, hcontext⟩ := for_loops_run_in_order hyields
  obtain ⟨marks, hcourse⟩ := (hcontext {}).2.2.2 _ _ _ _ j (.intro (.new true) hacc 1) hctl hinside
  exact ⟨_, _, _, o, ts, s, [], hyields, L, _, _, _, _, j, c, marks, hL,
    .intro (.new true) hacc 1, hctl, hinside, hend, hcourse⟩

end Session

end Lox
