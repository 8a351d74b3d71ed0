import Lox.Proofs.Machine.ForRun
import Lox.Proofs.Session.CallLocals

namespace Lox
set_option autoImplicit true

def Arena.Binds (a : Arena) (h : Handle) (x : String) : Prop :=
  ∃ e, a.get? h = some e ∧ e.values.contains x = true

theorem Arena.Binds.keep {a a' : Arena} (h : a.Binds i x) (hk : a.Keeps b a') (hi : i ≤ b) :
    a'.Binds i x := by
  obtain ⟨e, hg, hx⟩ := h
  obtain ⟨e', hg', hgrows⟩ := hk _ _ hg (.inl hi)
  exact ⟨e', hg', hgrows.values x hx⟩

namespace Machine

variable {P : List (Program Binding)} {W : Roles} {E : ArenaFault → Prop} {m m' : Machine}
  {k : DoneCont} {name : Ident}

theorem Fits.step_leaveBlock (hm : m.Fits P W E)
    (hctl : m.control = .complete c (.leaveBlock outer k)) (hstep : m.step = some m') :
    m'.control = .complete c k ∧ m'.env = outer := by
  obtain ⟨hs, hfits⟩ := hm
  rw [hctl] at hfits
  rw [Machine.step, hctl] at hstep
  cases hfits with
  | complete _ hc _ hk =>
    cases hk with
    | leaveBlock hlt _ _ =>
      obtain ⟨e, hg⟩ := hc.live
      obtain ⟨m₁, hleave, hleft⟩ := leave_zone hs hg hlt
      simp only [completeStep, hleave] at hstep
      cases hstep
      exact ⟨rfl, hleft.env⟩

/-- A variable is declared in the environment `b`, and `k` is left to do behind the declaration. -/
inductive Declares (name : Ident) (k : DoneCont) (b : Handle) (m : Machine) : Prop where
  | begins : m.control = .exec (.varDecl name init) k → m.env = b → Declares name k b m
  | inside : m.Inside (.value (.define name k)) b → Declares name k b m
  | ended : m.control = .complete c k → (c = .normal → m.store.arena.Binds b name.name) →
      Declares name k b m

theorem Fits.define_declares (hm : m.Fits P W E) (name : Ident) (v : Value) (k : DoneCont) :
    Declares name k m.env (m.define name v k) := by
  obtain ⟨zs, Ss, hc⟩ := hm.chain
  obtain ⟨e, hg⟩ := hc.live
  rw [define, Store.define_eq_ok hg]
  refine .ended rfl fun _ => ⟨{ e with values := e.values.set name.name v }, ?_, by simp⟩
  exact (Arena.get?_put _ _ _ _).trans (if_pos rfl)

theorem Declares.step (h : Declares name k b m) (hm : m.Fits P W E)
    (hne : ¬(Cont.done k).Ends m.control) (hstep : m.step = some m') : Declares name k b m' := by
  cases h with
  | @begins init hctl henv =>
    subst henv
    rw [Machine.step, hctl] at hstep
    cases hstep
    cases init with
    | none => exact hm.define_declares name .nil k
    | some e => exact .inside (.inl .refl)
  | inside h =>
    by_cases hend : (Cont.value (.define name k)).Ends m.control
    · cases h.env_of_ends hend
      rcases hend with ⟨v, hctl⟩ | ⟨fault, hctl⟩
      · rw [Machine.step, hctl] at hstep
        cases hstep
        exact hm.define_declares name v k
      · exact absurd ⟨_, hctl⟩ hne
    · exact .inside (h.step hend hstep)
  | ended hctl => exact absurd ⟨_, hctl⟩ hne

theorem Declares.binds (h : Declares name k b m) (hctl : m.control = .complete .normal k) :
    m.store.arena.Binds b name.name := by
  cases h with
  | begins hctl' => cases hctl.symm.trans hctl'
  | inside h =>
    rw [Inside, hctl] at h
    rcases h with h | ⟨⟨v, hv⟩ | ⟨fault, hfault⟩, _⟩
    · have hle := h.sizeOf_le
      simp +arith [Control.cont] at hle
    · cases hv
    · cases hfault
  | ended hctl' hbinds =>
    cases hctl.symm.trans hctl'
    exact hbinds rfl

end Machine

namespace ForRun

/-- The scope of the loop is found from an environment, by a number of scopes outward. -/
def Under (R : ForRun) (a : Arena) (h : Handle) : Nat → Prop
  | 0 => h = R.home
  | _ + 1 => ∃ e, a.get? h = some e ∧ e.enclosing = some R.home

/-- What a declaration as the initializer declares is bound in the scope of the loop. -/
def Declared (R : ForRun) (a : Arena) : Prop :=
  ∀ name init, R.start = some (.varDecl name init) → a.Binds R.home name.name

/-- A state of the loop when `last` is the clause that has ended last. -/
inductive At (R : ForRun) (last : Option Mark) (m : Machine) : Prop where
  | outside : last = none → R.start = some s → m.control = .exec R.toStmt R.k → m.env = R.outer →
      R.home = m.store.arena.next → At R last m
  | entering : R.due last = some clause → R.Entry clause (n + 1) d m.control →
      R.Under m.store.arena m.env d → (clause ≠ .initializer → R.Declared m.store.arena) →
      At R last m
  | inside : R.due last = some clause → m.Inside (R.cont clause) b →
      R.Under m.store.arena b (R.depth clause) →
      (clause ≠ .initializer → R.Declared m.store.arena) →
      (clause = .initializer → ∀ name init, R.start = some (.varDecl name init) →
        m.Declares name R.afterInitializer b) → At R last m
  /-- Out of the loop, also by a fault in the condition or the increment. -/
  | leaving : n ≤ 5 → R.Exit c n behind → m.control = .complete c behind →
      LoopEnds last c → At R last m

/-- When a clause has ended, the scope of the loop is where it should be, and what the initializer
declares is bound there unless the initializer has ended early. -/
def Scoped (R : ForRun) (a : Arena) (h : Handle) (mark : Mark) : Prop :=
  R.Under a h (R.depth mark.clause) ∧
    ((∀ c, mark = .initialized c → c = .normal) → R.Declared a)

variable {P : List (Program Binding)} {W : Roles} {E : ArenaFault → Prop} {m m' : Machine}
  {R : ForRun} {clause : Clause} {mark : Mark} {last : Option Mark} {c : Completion}
  {behind : DoneCont}

theorem Entry.step (h : R.Entry clause (n + 1) d m.control) (hm : m.Fits P W E)
    (hunder : R.Under m.store.arena m.env d) (hstep : m.step = some m') :
    ∃ d', R.Entry clause n d' m'.control ∧ R.Under m'.store.arena m'.env d' := by
  have hleave : ∀ {c outer k}, m.control = .complete c (.leaveBlock outer k) →
      m'.control = .complete c k ∧ m'.env = outer := fun hctl => hm.step_leaveBlock hctl hstep
  rw [Machine.step] at hstep
  generalize m.control = control at h hstep hleave
  cases h with
  | opened hs =>
    cases hstep
    exact ⟨0, .begins (.initializer hs), hunder⟩
  | loop =>
    cases hstep
    exact ⟨0, .begins .condition, hunder⟩
  | advanced he =>
    cases hstep
    exact ⟨1, .leave he, hunder⟩
  | leave he =>
    obtain ⟨hctl, henv⟩ := hleave rfl
    exact ⟨0, hctl ▸ .again he, henv⟩
  | again he =>
    cases hstep
    exact ⟨0, .begins .condition, hunder⟩
  | round he =>
    rw [round_of_some he] at hstep
    cases hstep
    have henv : m.env = R.home := hunder
    have hentry := henv.symm ▸ Entry.body he
    exact ⟨1, hentry, _, (Arena.get?_new _ _ _ _).trans (if_pos rfl), congrArg some henv⟩
  | @body e he =>
    cases hstep
    have hbegins := Entry.begins (R := R) .body
    rw [afterBody_of_some he, depth_body_of_some he] at hbegins
    exact ⟨1, hbegins, hunder⟩
  | increment he =>
    cases hstep
    have hbegins := Entry.begins (.increment he)
    rw [depth_increment_of_some he] at hbegins
    exact ⟨1, hbegins, hunder⟩

theorem Exit.step (h : R.Exit c (n + 1) behind) (hm : m.Fits P W E)
    (hctl : m.control = .complete c behind) (hstep : m.step = some m') :
    ∃ behind', m'.control = .complete c behind' ∧ R.Exit c n behind' := by
  have hleave : ∀ {outer k}, m.control = .complete c (.leaveBlock outer k) →
      m'.control = .complete c k ∧ m'.env = outer := fun hctl => hm.step_leaveBlock hctl hstep
  rw [Machine.step, hctl] at hstep
  rw [hctl] at hleave
  cases h with
  | leave hs => exact ⟨_, (hleave rfl).1, .done⟩
  | rest hs =>
    rw [rest_of_start hs] at hstep
    cases c <;> cases hstep <;> exact ⟨_, rfl, .leave hs⟩
  | again hc he hexit =>
    cases c with
    | normal => exact absurd rfl hc
    | returning v => cases hstep; exact ⟨_, rfl, hexit⟩
    | failing fault => cases hstep; exact ⟨_, rfl, hexit⟩
  | leaveRound hc he hexit => exact ⟨_, (hleave rfl).1, hexit⟩
  | advance hc he hexit => cases c <;> cases hstep <;> exact ⟨_, rfl, hexit⟩

theorem Under.keep {a a' : Arena} (h : R.Under a i d) (hk : a.Keeps b a') (hi : d ≠ 0 → i ≤ b) :
    R.Under a' i d := by
  cases d with
  | zero => exact h
  | succ d =>
    obtain ⟨e, hg, he⟩ := h
    obtain ⟨e', hg', hgrows⟩ := hk _ _ hg (.inl (hi (Nat.succ_ne_zero d)))
    exact ⟨e', hg', hgrows.enclosing.trans he⟩

theorem Under.home_le (h : R.Under m.store.arena m.env d) (hm : m.Fits P W E) :
    R.home ≤ m.env := by
  cases d with
  | zero => exact Nat.le_of_eq (Eq.symm h)
  | succ d =>
    obtain ⟨e, hg, he⟩ := h
    obtain ⟨zs, Ss, hc⟩ := hm.chain
    generalize m.env = env at hg hc ⊢
    cases hc with
    | globals hg' he' =>
      cases hg.symm.trans hg'
      cases he.symm.trans he'
    | link hg' he' hlt =>
      cases hg.symm.trans hg'
      cases he.symm.trans he'
      exact Nat.le_of_lt hlt

theorem Declared.keep {a a' : Arena} (h : R.Declared a) (hk : a.Keeps b a')
    (hb : ∀ s, R.start = some s → R.home ≤ b) : R.Declared a' :=
  fun name init hs => (h name init hs).keep hk (hb _ hs)

theorem home_mem_opened (hs : R.start = some s) (hb : R.depth clause = 0 → b = R.home) :
    R.home ∈ (R.cont clause).opened b := by
  have hrest : R.home ∈ R.rest.opened R.home := by
    rw [rest_of_start hs]
    exact List.mem_cons_self
  cases clause with
  | initializer =>
    cases hb rfl
    exact List.mem_cons_self
  | condition =>
    cases hb rfl
    exact hrest
  | body =>
    cases he : R.increment with
    | none =>
      cases hb (depth_body_of_none he)
      rw [ForRun.cont, afterBody_of_none he]
      exact hrest
    | some e =>
      rw [ForRun.cont, afterBody_of_some he]
      exact List.mem_cons_of_mem _ hrest
  | increment => exact List.mem_cons_of_mem _ hrest

theorem mem_opened (hd : R.depth clause ≠ 0) : b ∈ (R.cont clause).opened b := by
  cases clause with
  | initializer => exact absurd rfl hd
  | condition => exact absurd rfl hd
  | body =>
    cases he : R.increment with
    | none => exact absurd (depth_body_of_none he) hd
    | some e =>
      rw [ForRun.cont, afterBody_of_some he]
      exact List.mem_cons_self
  | increment => exact List.mem_cons_self

theorem Entry.at (h : R.Entry clause n d m.control) (hdue : R.due last = some clause)
    (hunder : R.Under m.store.arena m.env d)
    (hdecl : clause ≠ .initializer → R.Declared m.store.arena) : R.At last m := by
  cases n with
  | succ n => exact .entering hdue h hunder hdecl
  | zero =>
    generalize hctl : m.control = control at h
    cases h with
    | begins h =>
      have hcont := h.cont
      rw [← hctl] at hcont
      refine .inside hdue (.inl (hcont ▸ .refl)) hunder hdecl ?_
      rintro rfl name init hs
      cases h with
      | initializer hs' =>
        cases hs.symm.trans hs'
        exact .begins hctl rfl

theorem at_initialized (hs : R.start = some s) (hunder : R.Under m.store.arena m.env 0)
    (hdecl : c = .normal → R.Declared m.store.arena)
    (hstep : m.completeStep c R.afterInitializer = some m') : R.At (some (.initialized c)) m' := by
  cases c with
  | normal =>
    cases hstep
    have hentry := Entry.loop (R := R)
    rw [rest_of_start hs] at hentry
    exact hentry.at rfl hunder fun _ => hdecl rfl
  | returning v => cases hstep; exact .leaving (by decide) (.leave hs) rfl rfl
  | failing fault => cases hstep; exact .leaving (by decide) (.leave hs) rfl rfl

theorem at_tested (hunder : R.Under m.store.arena m.env 0) (hdecl : R.Declared m.store.arena)
    (v : Value) : R.At (some (.tested v)) (m.valueStep v R.afterCondition) := by
  rw [afterCondition, Machine.valueStep]
  split
  · rename_i hv
    have hdue : R.due (some (.tested v)) = some .body := due_some (if_pos hv)
    cases he : R.increment with
    | none =>
      have hentry := Entry.begins (R := R) .body
      rw [afterBody_of_none he, ← round_of_none he, depth_body_of_none he] at hentry
      exact hentry.at hdue hunder fun _ => hdecl
    | some e => exact (Entry.round he).at hdue hunder fun _ => hdecl
  · rename_i hv
    obtain ⟨n, hn, hexit⟩ := R.exists_exit_rest .normal
    have hstop : (some (Mark.tested v)).bind Mark.stop? = some .normal := if_neg hv
    refine .leaving (by omega) hexit rfl ?_
    rw [LoopEnds, hstop]

theorem at_executed_of_none (he : R.increment = none) (hunder : R.Under m.store.arena m.env 0)
    (hdecl : R.Declared m.store.arena) (hstep : m.completeStep c R.again = some m') :
    R.At (some (.executed c)) m' := by
  obtain ⟨n, hn, hexit⟩ := R.exists_exit_rest c
  cases c with
  | normal =>
    cases hstep
    have hnext : R.next .body = .condition := by
      rw [ForLoop.next, he]
      rfl
    have hdue : R.due (some (.executed .normal)) = some .condition := congrArg some hnext
    exact (Entry.begins .condition).at hdue hunder fun _ => hdecl
  | returning v => cases hstep; exact .leaving (by omega) hexit rfl rfl
  | failing fault => cases hstep; exact .leaving (by omega) hexit rfl rfl

theorem at_executed_of_some (he : R.increment = some e) (hunder : R.Under m.store.arena m.env 1)
    (hdecl : R.Declared m.store.arena)
    (hstep : m.completeStep c (.sequence [.expression e] (.leaveBlock R.home R.again)) = some m') :
    R.At (some (.executed c)) m' := by
  obtain ⟨n, hn, hexit⟩ := R.exists_exit_rest c
  by_cases hc : c = .normal
  · subst hc
    cases hstep
    have hnext : R.next .body = .increment := by
      rw [ForLoop.next, he]
      rfl
    have hdue : R.due (some (.executed .normal)) = some .increment := congrArg some hnext
    exact (Entry.increment he).at hdue hunder fun _ => hdecl
  · have hleave := Exit.leaveRound hc he (.again hc he hexit)
    cases c with
    | normal => exact absurd rfl hc
    | returning v => cases hstep; exact .leaving (by omega) hleave rfl rfl
    | failing fault => cases hstep; exact .leaving (by omega) hleave rfl rfl

/-- After a clause the one that is due is entered, or the loop is left. -/
theorem Ended.step (h : R.Ended m.control mark) (hscoped : R.Scoped m.store.arena m.env mark)
    (hstep : m.step = some m') : R.At (some mark) m' := by
  obtain ⟨hunder, hdecl⟩ := hscoped
  rw [Machine.step] at hstep
  generalize m.control = control at h hstep
  cases h with
  | initialized hs =>
    refine at_initialized hs hunder (fun hc => hdecl fun c hmark => ?_) hstep
    cases hmark
    exact hc
  | @tested v =>
    cases hstep
    exact at_tested hunder (hdecl fun c hmark => by cases hmark) v
  | @executed c =>
    have hdecl := hdecl fun c hmark => by cases hmark
    cases he : R.increment with
    | none =>
      rw [Mark.clause, depth_body_of_none he] at hunder
      exact at_executed_of_none he hunder hdecl (afterBody_of_none he ▸ hstep)
    | some e =>
      rw [Mark.clause, depth_body_of_some he] at hunder
      exact at_executed_of_some he hunder hdecl (afterBody_of_some he ▸ hstep)
  | advanced he =>
    cases hstep
    rw [Mark.clause, depth_increment_of_some he] at hunder
    exact (Entry.advanced he).at rfl hunder fun _ => hdecl fun c hmark => by cases hmark

theorem Exit.not_ended_of_ne (h : R.Exit c n behind) (hctl : m.control = .complete c behind)
    (hne : ¬(Cont.done R.k).Ends m.control) : ¬R.Ended m.control mark := by
  rw [hctl] at hne ⊢
  cases n with
  | zero =>
    cases h
    exact absurd ⟨c, rfl⟩ hne
  | succ n => exact h.not_ended

theorem eq_of_inside (hc : R.Has clause) (hin : m.Inside (R.cont clause) b)
    (hne : ¬(Cont.done R.k).Ends m.control) (hmark : R.Ended m.control mark) :
    mark.clause = clause := by
  rcases hin with hover | ⟨hend, _⟩
  · rw [hmark.cont] at hover
    exact eq_of_over hc hmark.has hover
  · rcases ended_or_exit hc hend with ⟨mark', hmark', rfl⟩ | ⟨fault, n, _, behind, hexit, hctl⟩
    · exact cont_injective (hmark.cont.symm.trans hmark'.cont)
    · exact absurd hmark (hexit.not_ended_of_ne hctl hne)

/-- A clause that ends was due. -/
theorem At.scoped (h : R.At last m) (hne : ¬(Cont.done R.k).Ends m.control)
    (hmark : R.Ended m.control mark) :
    R.due last = some mark.clause ∧ R.Scoped m.store.arena m.env mark := by
  cases h with
  | outside _ _ hctl =>
    rw [hctl] at hmark
    cases hmark
  | entering _ hentry => exact absurd hmark hentry.not_ended
  | leaving _ hexit hctl => exact absurd hmark (hexit.not_ended_of_ne hctl hne)
  | @inside clause b hdue hin hunder hdecl hdeclares =>
    cases eq_of_inside (has_of_due hdue) hin hne hmark
    cases hin.env_of_ends hmark.ends
    refine ⟨hdue, hunder, fun hnormal => ?_⟩
    by_cases hclause : mark.clause = .initializer
    · intro name init hs
      have hvar := hdeclares hclause name init hs
      generalize hctl : m.control = control at hmark
      cases hmark with
      | initialized =>
        cases hnormal _ rfl
        have henv : m.env = R.home := hunder
        exact henv ▸ hvar.binds hctl
      | tested => cases hclause
      | executed => cases hclause
      | advanced => cases hclause
    · exact hdecl hclause

theorem exists_step_outside (hs : R.start = some s) (hctl : m.control = .exec R.toStmt R.k)
    (henv : m.env = R.outer) (hhome : R.home = m.store.arena.next) :
    ∃ m', m.step = some m' ∧ R.Entry .initializer 1 0 m'.control ∧
      R.Under m'.store.arena m'.env 0 := by
  have hstmt : R.toStmt = .block [s, R.loop] := by
    rw [ForLoop.toStmt, hs]
    rfl
  have hentry := Entry.opened hs
  rw [← henv] at hentry
  have hstep : m.step = some (m.execStep (.block [s, R.loop]) R.k) := by
    rw [Machine.step, hctl, hstmt]
  exact ⟨_, hstep, hentry, hhome.symm⟩

theorem due_none (hs : R.start = some s) : R.due none = some .initializer := by
  rw [ForLoop.due, ForLoop.first, hs]
  rfl

theorem At.step_inside (hdue : R.due last = some clause) (hin : m.Inside (R.cont clause) b)
    (hunder : R.Under m.store.arena b (R.depth clause))
    (hdecl : clause ≠ .initializer → R.Declared m.store.arena)
    (hdeclares : clause = .initializer → ∀ name init, R.start = some (.varDecl name init) →
      m.Declares name R.afterInitializer b)
    (hm : m.Fits P W fun _ => True) (hend : ¬(R.cont clause).Ends m.control)
    (hstep : m.step = some m') : R.At last m' := by
  obtain ⟨W', hm', _⟩ := hm.step_roles (fun _ _ => trivial) hstep
  have hkeeps := hm.step_keeps_env hstep
  have hin' := hin.step hend hstep
  have hhome : ∀ s, R.start = some s → R.home ≤ m'.env := by
    intro s hs
    refine hin'.opened_le hm' (home_mem_opened hs fun hd => ?_)
    rw [hd] at hunder
    exact hunder
  refine .inside hdue hin' (hunder.keep hkeeps fun hd => hin'.opened_le hm' (mem_opened hd))
    (fun hc => (hdecl hc).keep hkeeps hhome) ?_
  rintro rfl name init hs
  exact (hdeclares rfl name init hs).step hm hend hstep

theorem At.step_leaving (hn : n ≤ 5) (hexit : R.Exit c n behind)
    (hctl : m.control = .complete c behind) (hc : LoopEnds last c) (hm : m.Fits P W E)
    (hne : ¬(Cont.done R.k).Ends m.control) (hstep : m.step = some m') : R.At last m' := by
  cases n with
  | zero =>
    cases hexit
    exact absurd ⟨c, hctl⟩ hne
  | succ n =>
    obtain ⟨behind', hctl', hexit'⟩ := hexit.step hm hctl hstep
    exact .leaving (Nat.le_of_succ_le hn) hexit' hctl' hc

/-- One step of a loop: a clause that was due has ended, or nothing has. -/
theorem At.step (h : R.At last m) (hm : m.Fits P W fun _ => True)
    (hne : ¬(Cont.done R.k).Ends m.control) (hstep : m.step = some m') :
    (∃ mark, R.Ended m.control mark ∧ R.At (some mark) m') ∨
      (∀ mark, ¬R.Ended m.control mark) ∧ R.At last m' := by
  by_cases hmark : ∃ mark, R.Ended m.control mark
  · obtain ⟨mark, hmark⟩ := hmark
    exact .inl ⟨mark, hmark, hmark.step (h.scoped hne hmark).2 hstep⟩
  · refine .inr ⟨fun mark hended => hmark ⟨mark, hended⟩, ?_⟩
    cases h with
    | outside hlast hs hctl henv hhome =>
      obtain ⟨m₁, hstep₁, hentry, hunder⟩ := exists_step_outside hs hctl henv hhome
      cases hstep.symm.trans hstep₁
      exact hentry.at (hlast ▸ due_none hs) hunder fun hc => absurd rfl hc
    | entering hdue hentry hunder hdecl =>
      obtain ⟨W', hm', _⟩ := hm.step_roles (fun _ _ => trivial) hstep
      obtain ⟨d', hentry', hunder'⟩ := hentry.step hm hunder hstep
      refine hentry'.at hdue hunder' fun hc => ?_
      exact (hdecl hc).keep (hm.step_keeps_env hstep) fun _ _ => hunder'.home_le hm'
    | leaving hn hexit hctl hc => exact step_leaving hn hexit hctl hc hm hne hstep
    | @inside clause _ hdue hin hunder hdecl hdeclares =>
      by_cases hend : (R.cont clause).Ends m.control
      · rcases ended_or_exit (has_of_due hdue) hend with ⟨mark, hended, _⟩ | hfault
        · exact absurd ⟨mark, hended⟩ hmark
        · obtain ⟨fault, n, hn, behind, hexit, hctl⟩ := hfault
          exact step_leaving hn hexit hctl (loopEnds_failing hdue fault) hm hne hstep
      · exact step_inside hdue hin hunder hdecl hdeclares hm hend hstep

end ForRun

end Lox
