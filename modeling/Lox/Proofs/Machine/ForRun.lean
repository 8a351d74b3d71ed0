import Lox.Proofs.Machine.Stack
import Lox.Proofs.Scope.ForLoop

namespace Lox
set_option autoImplicit true

namespace Cont

theorem Over.sizeOf_le {base c : Cont} (h : base.Over b c i) : sizeOf base ≤ sizeOf c := by
  rcases h.eq_or_lt with ⟨rfl, _⟩ | hlt
  · exact Nat.le_refl _
  · exact Nat.le_of_lt hlt

theorem Over.eq_or_below {base c d : Cont} (h : base.Over b c i)
    (hbelow : c.below i = some (d, j)) : c = base ∨ base.Over b d j := by
  cases h with
  | refl => exact .inl rfl
  | push hbelow' h =>
    cases hbelow.symm.trans hbelow'
    exact .inr h

end Cont

inductive Clause where
  | initializer
  | condition
  | body
  | increment
deriving DecidableEq

/-- A clause that has ended, and how. -/
inductive Mark where
  | initialized (c : Completion)
  | tested (v : Value)
  | executed (c : Completion)
  | advanced (v : Value)

def Mark.clause : Mark → Clause
  | .initialized _ => .initializer
  | .tested _ => .condition
  | .executed _ => .body
  | .advanced _ => .increment

/-- How a loop ends when no clause comes after one that has ended: if the condition is false, or if
a statement has ended early. -/
def Mark.stop? : Mark → Option Completion
  | .initialized .normal | .executed .normal | .advanced _ => none
  | .initialized c | .executed c => some c
  | .tested v => if v.isTruthy then none else some .normal

namespace ForLoop

variable {ρ : Type} (L : ForLoop ρ)

def first : Clause := if L.start.isSome then .initializer else .condition

/-- The clause that comes after another. -/
def next : Clause → Clause
  | .initializer | .increment => .condition
  | .condition => .body
  | .body => if L.increment.isSome then .increment else .condition

/-- The clause that comes after the one that has ended last, unless the loop stops there. -/
def due : Option Mark → Option Clause
  | none => some L.first
  | some mark =>
    match mark.stop? with
    | none => some (L.next mark.clause)
    | some _ => none

/-- Clauses that have ended, the last one first, of which each was due. -/
inductive Ordered : List Mark → Prop where
  | nil : Ordered []
  | cons : L.due marks.head? = some mark.clause → Ordered marks → Ordered (mark :: marks)

end ForLoop

/-- How a loop can end after the clause that has ended last. While a clause is due, only a fault
in it ends the loop. -/
def LoopEnds (last : Option Mark) (c : Completion) : Prop :=
  match last.bind Mark.stop? with
  | some c' => c = c'
  | none => ∃ fault, c = .failing fault

/-- A for loop that is executed. Its own scope is `home`, and `k` is left to do behind it, in the
environment `outer`. -/
structure ForRun extends ForLoop Binding where
  outer : Handle
  home : Handle
  k : DoneCont

namespace ForRun

variable (R : ForRun)

def rest : DoneCont := R.start.elim R.k fun _ => .sequence [] (.leaveBlock R.outer R.k)

def again : DoneCont := .again R.condition R.round R.rest

def afterInitializer : DoneCont := .sequence [R.loop] (.leaveBlock R.outer R.k)

def afterCondition : ValueCont := .test R.condition R.round R.rest

def afterBody : DoneCont :=
  R.increment.elim R.again fun e => .sequence [.expression e] (.leaveBlock R.home R.again)

def afterIncrement : ValueCont := .discard (.sequence [] (.leaveBlock R.home R.again))

def cont : Clause → Cont
  | .initializer => .done R.afterInitializer
  | .condition => .value R.afterCondition
  | .body => .done R.afterBody
  | .increment => .value R.afterIncrement

inductive Begins : Clause → Control → Prop where
  | initializer : R.start = some s → Begins .initializer (.exec s R.afterInitializer)
  | condition : Begins .condition (.eval R.condition R.afterCondition)
  | body : Begins .body (.exec R.body R.afterBody)
  | increment : R.increment = some e → Begins .increment (.eval e R.afterIncrement)

inductive Ended : Control → Mark → Prop where
  | initialized : R.start = some s → Ended (.complete c R.afterInitializer) (.initialized c)
  | tested : Ended (.value v R.afterCondition) (.tested v)
  | executed : Ended (.complete c R.afterBody) (.executed c)
  | advanced : R.increment = some e → Ended (.value v R.afterIncrement) (.advanced v)

/-- The number of scopes between the environment of a clause and that of the loop. -/
def depth : Clause → Nat
  | .initializer | .condition => 0
  | .body | .increment => R.increment.elim 0 fun _ => 1

/-- On the way to a clause: the number of steps to its beginning, and of the scopes between the
current environment and that of the loop. -/
inductive Entry : Clause → Nat → Nat → Control → Prop where
  | begins {control : Control} : R.Begins clause control →
      Entry clause 0 (R.depth clause) control
  | opened : R.start = some s →
      Entry .initializer 1 0 (.complete .normal (.sequence [s, R.loop] (.leaveBlock R.outer R.k)))
  | loop : Entry .condition 1 0 (.exec R.loop R.rest)
  | advanced : R.increment = some e →
      Entry .condition 3 1 (.complete .normal (.sequence [] (.leaveBlock R.home R.again)))
  | leave : R.increment = some e →
      Entry .condition 2 1 (.complete .normal (.leaveBlock R.home R.again))
  | again : R.increment = some e → Entry .condition 1 0 (.complete .normal R.again)
  | round : R.increment = some e → Entry .body 2 0 (.exec R.round R.again)
  | body : R.increment = some e →
      Entry .body 1 1 (.complete .normal
        (.sequence [R.body, .expression e] (.leaveBlock R.home R.again)))
  | increment : R.increment = some e →
      Entry .increment 1 1 (.exec (.expression e) (.sequence [] (.leaveBlock R.home R.again)))

/-- On the way out of the loop: the number of steps, and what is left to do. -/
inductive Exit (c : Completion) : Nat → DoneCont → Prop where
  | done : Exit c 0 R.k
  | leave : R.start = some s → Exit c 1 (.leaveBlock R.outer R.k)
  | rest : R.start = some s → Exit c 2 R.rest
  | again : c ≠ .normal → R.increment = some e → Exit c n R.rest → Exit c (n + 1) R.again
  | leaveRound : c ≠ .normal → R.increment = some e → Exit c n R.again →
      Exit c (n + 1) (.leaveBlock R.home R.again)
  | advance : c ≠ .normal → R.increment = some e → Exit c n (.leaveBlock R.home R.again) →
      Exit c (n + 1) (.sequence [] (.leaveBlock R.home R.again))

variable {R} {clause : Clause} {mark : Mark} {control : Control}

theorem Begins.cont (h : R.Begins clause control) : control.cont = R.cont clause := by
  cases h <;> rfl

theorem Ended.cont (h : R.Ended control mark) : control.cont = R.cont mark.clause := by
  cases h <;> rfl

theorem Ended.ends (h : R.Ended control mark) : (R.cont mark.clause).Ends control := by
  cases h with
  | initialized => exact ⟨_, rfl⟩
  | tested => exact .inl ⟨_, rfl⟩
  | executed => exact ⟨_, rfl⟩
  | advanced => exact .inl ⟨_, rfl⟩

theorem rest_of_start (h : R.start = some s) : R.rest = .sequence [] (.leaveBlock R.outer R.k) := by
  rw [rest, h]
  rfl

theorem rest_of_none (h : R.start = none) : R.rest = R.k := by
  rw [rest, h]
  rfl

theorem afterBody_of_some (h : R.increment = some e) :
    R.afterBody = .sequence [.expression e] (.leaveBlock R.home R.again) := by
  rw [afterBody, h]
  rfl

theorem afterBody_of_none (h : R.increment = none) : R.afterBody = R.again := by
  rw [afterBody, h]
  rfl

theorem round_of_some (h : R.increment = some e) :
    R.round = .block [R.body, .expression e] := by
  rw [ForLoop.round, h]
  rfl

theorem round_of_none (h : R.increment = none) : R.round = R.body := by
  rw [ForLoop.round, h]
  rfl

theorem depth_body_of_some (h : R.increment = some e) : R.depth .body = 1 := by
  rw [depth, h]
  rfl

theorem depth_increment_of_some (h : R.increment = some e) : R.depth .increment = 1 := by
  rw [depth, h]
  rfl

theorem depth_body_of_none (h : R.increment = none) : R.depth .body = 0 := by
  rw [depth, h]
  rfl

def Has (R : ForRun) : Clause → Prop
  | .initializer => R.start.isSome = true
  | .increment => R.increment.isSome = true
  | .condition | .body => True

theorem Ended.has (h : R.Ended control mark) : R.Has mark.clause := by
  cases h with
  | initialized h => exact Option.isSome_of_eq_some h
  | tested => trivial
  | executed => trivial
  | advanced h => exact Option.isSome_of_eq_some h

theorem not_over_rest (hc : R.Has clause) : ¬(R.cont clause).Over b (.done R.rest) i := by
  intro h
  cases clause with
  | initializer =>
    obtain ⟨s, hs⟩ := Option.isSome_iff_exists.1 hc
    rw [rest_of_start hs] at h
    cases h with
    | push hbelow h =>
      cases hbelow
      have hle := h.sizeOf_le
      simp +arith [ForRun.cont, afterInitializer] at hle
  | condition =>
    have hle := h.sizeOf_le
    simp +arith [ForRun.cont, afterCondition] at hle
  | body =>
    have hle := h.sizeOf_le
    cases he : R.increment with
    | none => simp +arith [ForRun.cont, afterBody_of_none he, again] at hle
    | some e => simp +arith [ForRun.cont, afterBody_of_some he, again] at hle
  | increment =>
    have hle := h.sizeOf_le
    simp +arith [ForRun.cont, afterIncrement, again] at hle

theorem cont_eq_done {behind : DoneCont} (he : R.increment = some e)
    (h : .done behind = R.cont clause) : ∃ s k', behind = .sequence [s] k' := by
  cases clause with
  | initializer => cases h; exact ⟨_, _, rfl⟩
  | condition => cases h
  | body =>
    rw [ForRun.cont, afterBody_of_some he] at h
    cases h
    exact ⟨_, _, rfl⟩
  | increment => cases h

theorem not_over_advance (hc : R.Has clause) (he : R.increment = some e) :
    ¬(R.cont clause).Over b (.done (.sequence [] (.leaveBlock R.home R.again))) i := by
  intro h
  rcases h.eq_or_below rfl with heq | h
  · obtain ⟨s, k', hs⟩ := cont_eq_done he heq
    cases hs
  rcases h.eq_or_below rfl with heq | h
  · obtain ⟨s, k', hs⟩ := cont_eq_done he heq
    cases hs
  rcases h.eq_or_below rfl with heq | h
  · obtain ⟨s, k', hs⟩ := cont_eq_done he heq
    cases hs
  exact not_over_rest hc h

theorem cont_injective (h : R.cont clause = R.cont clause') : clause = clause' := by
  have hne : R.afterInitializer ≠ R.afterBody := by
    intro h
    cases he : R.increment with
    | none => rw [afterBody_of_none he] at h; cases h
    | some e => rw [afterBody_of_some he] at h; cases h
  cases clause <;> cases clause' <;>
    first
    | rfl
    | cases h
    | exact absurd (Cont.done.inj h) hne
    | exact absurd (Cont.done.inj h) hne.symm

theorem eq_of_over (hc : R.Has clause) (hc' : R.Has clause')
    (h : (R.cont clause).Over b (R.cont clause') i) : clause' = clause := by
  cases clause' with
  | initializer =>
    rcases h.eq_or_below rfl with heq | h
    · exact cont_injective heq
    · obtain ⟨s, hs⟩ := Option.isSome_iff_exists.1 hc'
      have hrest : (R.cont clause).Over b (.done R.rest) i := rest_of_start hs ▸ .push rfl h
      exact absurd hrest (not_over_rest hc)
  | condition =>
    rcases h.eq_or_below rfl with heq | h
    · exact cont_injective heq
    · exact absurd h (not_over_rest hc)
  | body =>
    by_cases heq : R.cont .body = R.cont clause
    · exact cont_injective heq
    cases he : R.increment with
    | none =>
      rw [ForRun.cont, afterBody_of_none he] at h heq
      exact absurd ((h.eq_or_below rfl).resolve_left heq) (not_over_rest hc)
    | some e =>
      rw [ForRun.cont, afterBody_of_some he] at h heq
      have hleave := (h.eq_or_below rfl).resolve_left heq
      exact absurd (.push rfl hleave) (not_over_advance hc he)
  | increment =>
    rcases h.eq_or_below rfl with heq | h
    · exact cont_injective heq
    · obtain ⟨e, he⟩ := Option.isSome_iff_exists.1 hc'
      exact absurd h (not_over_advance hc he)

theorem Ended.shape {behind : DoneCont} (h : R.Ended (.complete c behind) mark) :
    (∃ s k', behind = .sequence [s] k') ∨ behind = R.again ∧ R.increment = none := by
  generalize hcontrol : Control.complete c behind = control at h
  cases h with
  | initialized => cases hcontrol; exact .inl ⟨_, _, rfl⟩
  | tested => cases hcontrol
  | executed =>
    cases hcontrol
    cases he : R.increment with
    | none => exact .inr ⟨afterBody_of_none he, rfl⟩
    | some e => exact .inl ⟨_, _, afterBody_of_some he⟩
  | advanced => cases hcontrol

theorem Entry.not_ended (h : R.Entry clause (n + 1) d control) : ¬R.Ended control mark := by
  intro hmark
  cases h with
  | opened hs =>
    rcases hmark.shape with ⟨s, k', hs⟩ | ⟨hs, _⟩ <;> cases hs
  | loop => cases hmark
  | advanced he =>
    rcases hmark.shape with ⟨s, k', hs⟩ | ⟨hs, _⟩ <;> cases hs
  | leave he =>
    rcases hmark.shape with ⟨s, k', hs⟩ | ⟨hs, _⟩ <;> cases hs
  | again he =>
    rcases hmark.shape with ⟨s, k', hs⟩ | ⟨_, hnone⟩
    · cases hs
    · cases he.symm.trans hnone
  | round he => cases hmark
  | body he =>
    rcases hmark.shape with ⟨s, k', hs⟩ | ⟨hs, _⟩ <;> cases hs
  | increment he => cases hmark

theorem sizeOf_k_le (R : ForRun) : sizeOf R.k ≤ sizeOf R.rest := by
  cases hs : R.start with
  | none => exact Nat.le_of_eq (congrArg sizeOf (rest_of_none hs).symm)
  | some s => simp +arith [rest_of_start hs]

theorem not_over_k : ¬(R.cont clause).Over b (.done R.k) i := by
  intro h
  have hsize := h.sizeOf_le
  have hle := R.sizeOf_k_le
  cases clause with
  | initializer => simp +arith [ForRun.cont, afterInitializer] at hsize
  | condition => simp +arith [ForRun.cont, afterCondition] at hsize; omega
  | body =>
    cases he : R.increment with
    | none => simp +arith [ForRun.cont, afterBody_of_none he, ForRun.again] at hsize; omega
    | some e => simp +arith [ForRun.cont, afterBody_of_some he, ForRun.again] at hsize; omega
  | increment => simp +arith [ForRun.cont, afterIncrement, ForRun.again] at hsize; omega

theorem Entry.ne_k {behind : DoneCont} (h : R.Entry clause (n + 1) d (.complete c behind)) :
    behind ≠ R.k := by
  intro hbehind
  have hsize := congrArg sizeOf hbehind
  have hle := R.sizeOf_k_le
  cases h with
  | opened => simp +arith at hsize
  | advanced => simp +arith [ForRun.again] at hsize; omega
  | leave => simp +arith [ForRun.again] at hsize; omega
  | again => simp +arith [ForRun.again] at hsize; omega
  | body => simp +arith [ForRun.again] at hsize; omega

theorem Exit.not_ended {behind : DoneCont} (h : R.Exit c (n + 1) behind) :
    ¬R.Ended (.complete c behind) mark := by
  intro hmark
  cases h with
  | leave hs =>
    rcases hmark.shape with ⟨s, k', hs⟩ | ⟨hs, _⟩ <;> cases hs
  | rest hs =>
    rw [rest_of_start hs] at hmark
    rcases hmark.shape with ⟨s, k', hs⟩ | ⟨hs, _⟩ <;> cases hs
  | again hc he =>
    rcases hmark.shape with ⟨s, k', hs⟩ | ⟨_, hnone⟩
    · cases hs
    · cases he.symm.trans hnone
  | leaveRound hc he =>
    rcases hmark.shape with ⟨s, k', hs⟩ | ⟨hs, _⟩ <;> cases hs
  | advance hc he =>
    rcases hmark.shape with ⟨s, k', hs⟩ | ⟨hs, _⟩ <;> cases hs

theorem exists_exit_rest (R : ForRun) (c : Completion) : ∃ n ≤ 2, R.Exit c n R.rest := by
  cases hs : R.start with
  | none => exact ⟨0, Nat.zero_le _, rest_of_none hs ▸ .done⟩
  | some s => exact ⟨2, Nat.le_refl _, .rest hs⟩

theorem due_some (h : mark.stop? = none) : R.due (some mark) = some (R.next mark.clause) := by
  rw [ForLoop.due, h]

theorem stop?_of_due (h : R.due (some mark) = some clause) :
    mark.stop? = none ∧ R.next mark.clause = clause := by
  rw [ForLoop.due] at h
  cases hstop : mark.stop? with
  | none =>
    rw [hstop] at h
    cases h
    exact ⟨rfl, rfl⟩
  | some c =>
    rw [hstop] at h
    cases h

theorem has_first : R.Has R.first := by
  rw [ForLoop.first]
  split
  · assumption
  · trivial

theorem has_next (clause : Clause) : R.Has (R.next clause) := by
  cases clause with
  | initializer => trivial
  | condition => trivial
  | increment => trivial
  | body =>
    rw [ForLoop.next]
    split
    · assumption
    · trivial

theorem has_of_due {last : Option Mark} (h : R.due last = some clause) : R.Has clause := by
  cases last with
  | none =>
    cases h
    exact has_first
  | some mark =>
    obtain ⟨_, rfl⟩ := stop?_of_due h
    exact has_next _

theorem loopEnds_failing {last : Option Mark} (h : R.due last = some clause) (fault : Fault) :
    LoopEnds last (.failing fault) := by
  cases last with
  | none => exact ⟨fault, rfl⟩
  | some mark =>
    have hstop : (some mark).bind Mark.stop? = none := (stop?_of_due h).1
    rw [LoopEnds, hstop]
    exact ⟨fault, rfl⟩

theorem exists_exit_enclosing {k' : ValueCont} (hc : R.Has clause) (h : R.cont clause = .value k')
    (fault : Fault) : ∃ n ≤ 5, R.Exit (.failing fault) n k'.enclosing := by
  obtain ⟨n, hn, hexit⟩ := R.exists_exit_rest (.failing fault)
  have hne : Completion.failing fault ≠ .normal := fun h => by cases h
  cases clause with
  | initializer => cases h
  | body => cases h
  | condition =>
    cases h
    exact ⟨n, by omega, hexit⟩
  | increment =>
    cases h
    obtain ⟨e, he⟩ := Option.isSome_iff_exists.1 hc
    exact ⟨n + 3, by omega, .advance hne he (.leaveRound hne he (.again hne he hexit))⟩

/-- When what is left behind a clause is reached, the clause has ended, or a fault leads out of the
loop. -/
theorem ended_or_exit (hc : R.Has clause) (h : (R.cont clause).Ends control) :
    (∃ mark, R.Ended control mark ∧ mark.clause = clause) ∨
      ∃ fault, ∃ n ≤ 5, ∃ behind, R.Exit (.failing fault) n behind ∧
        control = .complete (.failing fault) behind := by
  cases clause with
  | initializer =>
    obtain ⟨s, hs⟩ := Option.isSome_iff_exists.1 hc
    obtain ⟨c, rfl⟩ := h
    exact .inl ⟨_, .initialized hs, rfl⟩
  | condition =>
    rcases h with ⟨v, rfl⟩ | ⟨fault, rfl⟩
    · exact .inl ⟨_, .tested, rfl⟩
    · obtain ⟨n, hn, hexit⟩ := exists_exit_enclosing hc rfl fault
      exact .inr ⟨fault, n, hn, _, hexit, rfl⟩
  | body =>
    obtain ⟨c, rfl⟩ := h
    exact .inl ⟨_, .executed, rfl⟩
  | increment =>
    rcases h with ⟨v, rfl⟩ | ⟨fault, rfl⟩
    · obtain ⟨e, he⟩ := Option.isSome_iff_exists.1 hc
      exact .inl ⟨_, .advanced he, rfl⟩
    · obtain ⟨n, hn, hexit⟩ := exists_exit_enclosing hc rfl fault
      exact .inr ⟨fault, n, hn, _, hexit, rfl⟩

end ForRun

end Lox
