import Lox.Proofs.Machine.Depth
import Lox.Proofs.Machine.Stack

namespace Lox
set_option autoImplicit true

mutual

/-- What is left to do, with the statements `Q` at the end of the program. -/
def ValueCont.extend (Q : List (Stmt Binding)) : ValueCont → ValueCont
  | .unary op pos k => .unary op pos (k.extend Q)
  | .left op pos right k => .left op pos right (k.extend Q)
  | .right left op pos k => .right left op pos (k.extend Q)
  | .logical op right k => .logical op right (k.extend Q)
  | .assign name ref k => .assign name ref (k.extend Q)
  | .callee args paren k => .callee args paren (k.extend Q)
  | .argument callee done rest paren k => .argument callee done rest paren (k.extend Q)
  | .get name k => .get name (k.extend Q)
  | .setObject name value k => .setObject name value (k.extend Q)
  | .setValue target name k => .setValue target name (k.extend Q)
  | .discard k => .discard (k.extend Q)
  | .print k => .print (k.extend Q)
  | .define name k => .define name (k.extend Q)
  | .branch yes no k => .branch yes no (k.extend Q)
  | .test condition body k => .test condition body (k.extend Q)
  | .ret k => .ret (k.extend Q)

def DoneCont.extend (Q : List (Stmt Binding)) : DoneCont → DoneCont
  | .program rest => .program (rest ++ Q)
  | .sequence rest k => .sequence rest (k.extend Q)
  | .again condition body k => .again condition body (k.extend Q)
  | .leaveBlock outer k => .leaveBlock outer (k.extend Q)
  | .leaveCall outer receiver result k => .leaveCall outer receiver result (k.extend Q)

end

def Control.extend (Q : List (Stmt Binding)) : Control → Control
  | .eval e k => .eval e (k.extend Q)
  | .exec s k => .exec s (k.extend Q)
  | .value v k => .value v (k.extend Q)
  | .complete c k => .complete c (k.extend Q)

theorem ValueCont.enclosing_extend (Q : List (Stmt Binding)) (k : ValueCont) :
    (k.extend Q).enclosing = k.enclosing.extend Q := by
  induction k using ValueCont.rec (motive_2 := fun _ => True) with
  | unary _ _ _ ih => exact ih
  | left _ _ _ _ ih => exact ih
  | right _ _ _ _ ih => exact ih
  | logical _ _ _ ih => exact ih
  | assign _ _ _ ih => exact ih
  | callee _ _ _ ih => exact ih
  | argument _ _ _ _ _ ih => exact ih
  | get _ _ ih => exact ih
  | setObject _ _ _ ih => exact ih
  | setValue _ _ _ ih => exact ih
  | discard => rfl
  | print => rfl
  | define => rfl
  | branch => rfl
  | test => rfl
  | ret => rfl
  | _ => trivial

namespace Machine

/-- The machine with the statements `Q` at the end of its program and `lines` printed before. -/
def extend (Q : List (Stmt Binding)) (lines : List String) (m : Machine) : Machine :=
  { m with control := m.control.extend Q, printed := m.printed ++ lines }

variable (Q : List (Stmt Binding)) (lines : List String) (m : Machine)

@[simp] theorem store_extend : (m.extend Q lines).store = m.store := rfl

@[simp] theorem env_extend : (m.extend Q lines).env = m.env := rfl

@[simp] theorem depth_extend : (m.extend Q lines).depth = m.depth := rfl

theorem fail_extend (fault : Fault) (k : ValueCont) :
    (m.extend Q lines).fail fault (k.extend Q).enclosing =
      (m.fail fault k.enclosing).extend Q lines := by
  rw [k.enclosing_extend]
  rfl

theorem readRef_extend (name : Ident) (ref : Binding) (k : ValueCont) :
    (m.extend Q lines).readRef name ref (k.extend Q) = (m.readRef name ref k).extend Q lines := by
  simp only [readRef, store_extend, env_extend]
  cases m.store.read m.env name.name ref with
  | ok v => rfl
  | error fault => exact fail_extend Q lines m _ k

theorem assignRef_extend (name : Ident) (ref : Binding) (v : Value) (k : ValueCont) :
    (m.extend Q lines).assignRef name ref v (k.extend Q) =
      (m.assignRef name ref v k).extend Q lines := by
  simp only [assignRef, store_extend, env_extend]
  cases m.store.assign m.env name.name ref v with
  | ok store => rfl
  | error fault => exact fail_extend Q lines m _ k

theorem define_extend (name : Ident) (v : Value) (k : DoneCont) :
    (m.extend Q lines).define name v (k.extend Q) = (m.define name v k).extend Q lines := by
  simp only [define, store_extend, env_extend]
  cases m.store.define m.env name.name v <;> rfl

theorem capture_extend (k : DoneCont) {go go' : Machine → Machine}
    (hgo : ∀ m, go' (m.extend Q lines) = (go m).extend Q lines) :
    (m.extend Q lines).capture (k.extend Q) go' = (m.capture k go).extend Q lines := by
  simp only [capture, store_extend, env_extend]
  cases (m.store.arena.capture m.env).2 with
  | none => exact hgo { m with store := { m.store with arena := (m.store.arena.capture m.env).1 } }
  | some h => rfl

theorem evalStep_extend (e : Expr Binding) (k : ValueCont) :
    (m.extend Q lines).evalStep e (k.extend Q) = (m.evalStep e k).extend Q lines := by
  cases e with
  | read name ref => exact readRef_extend Q lines m name ref k
  | receiver pos ref => exact readRef_extend Q lines m ⟨receiverName, pos⟩ ref k
  | _ => rfl

theorem execStep_extend (s : Stmt Binding) (k : DoneCont) :
    (m.extend Q lines).execStep s (k.extend Q) = (m.execStep s k).extend Q lines := by
  cases s with
  | varDecl name init =>
    cases init with
    | none => exact define_extend Q lines m name .nil k
    | some e => rfl
  | ret pos value => cases value <;> rfl
  | funDecl decl =>
    rw [execStep, execStep]
    apply capture_extend
    intro m
    exact define_extend Q lines { m with store := m.store.fresh.2 } _ _ k
  | classDecl name methods =>
    rw [execStep, execStep]
    apply capture_extend
    intro m
    exact define_extend Q lines { m with store := m.store.fresh.2 } _ _ k
  | _ => rfl

theorem enter_extend (c : Closure) (receiver : Option Instance) (args : List Value) (paren : Pos)
    (k : ValueCont) :
    (m.extend Q lines).enter c receiver args paren (k.extend Q) =
      (m.enter c receiver args paren k).extend Q lines := by
  rw [enter, enter, depth_extend]
  by_cases hdepth : callLimit ≤ m.depth
  · rw [if_pos hdepth, if_pos hdepth]
    exact fail_extend Q lines m _ k
  · rw [if_neg hdepth, if_neg hdepth]
    cases receiver <;> rfl

theorem checkArity_extend (arity : Nat) (args : List Value) (paren : Pos) (k : ValueCont)
    {go go' : Machine → Machine} (hgo : ∀ m, go' (m.extend Q lines) = (go m).extend Q lines) :
    (m.extend Q lines).checkArity arity args paren (k.extend Q) go' =
      (m.checkArity arity args paren k go).extend Q lines := by
  rw [checkArity, checkArity]
  by_cases harity : args.length = arity
  · rw [if_pos harity, if_pos harity]
    exact hgo m
  · rw [if_neg harity, if_neg harity]
    exact fail_extend Q lines m _ k

theorem callStep_extend (callee : Value) (args : List Value) (paren : Pos) (k : ValueCont) :
    (m.extend Q lines).callStep callee args paren (k.extend Q) =
      (m.callStep callee args paren k).extend Q lines := by
  cases callee with
  | function n c =>
    rw [callStep, callStep]
    apply checkArity_extend
    exact fun m => enter_extend Q lines m c none args paren k
  | method n c i =>
    rw [callStep, callStep]
    apply checkArity_extend
    exact fun m => enter_extend Q lines m c (some i) args paren k
  | cls c =>
    rw [callStep, callStep]
    apply checkArity_extend
    intro m
    simp only [store_extend]
    cases c.initializer? with
    | none => rfl
    | some init => exact enter_extend Q lines { m with store := m.store.fresh.2 } _ _ _ _ k
  | _ => exact fail_extend Q lines m _ k

theorem argumentStep_extend (callee : Value) (done : List Value) (rest : List (Expr Binding))
    (paren : Pos) (k : ValueCont) :
    (m.extend Q lines).argumentStep callee done rest paren (k.extend Q) =
      (m.argumentStep callee done rest paren k).extend Q lines := by
  cases rest with
  | nil => exact callStep_extend Q lines m callee done.reverse paren k
  | cons e rest => rfl

theorem operate_extend (result : Except RuntimeFault Value) (pos : Pos) (k : ValueCont) :
    (m.extend Q lines).operate result pos (k.extend Q) =
      (m.operate result pos k).extend Q lines := by
  cases result with
  | ok v => rfl
  | error fault => exact fail_extend Q lines m _ k

theorem valueStep_extend (v : Value) (k : ValueCont) :
    (m.extend Q lines).valueStep v (k.extend Q) = (m.valueStep v k).extend Q lines := by
  cases k with
  | unary op pos k => exact operate_extend Q lines m _ pos k
  | left => rfl
  | right left op pos k => exact operate_extend Q lines m _ pos k
  | logical op right k =>
    simp only [ValueCont.extend, valueStep]
    split <;> rfl
  | assign name ref k => exact assignRef_extend Q lines m name ref v k
  | callee args paren k => exact argumentStep_extend Q lines m v [] args paren k
  | argument callee done rest paren k =>
    exact argumentStep_extend Q lines m callee (v :: done) rest paren k
  | get name k =>
    cases v with
    | object i =>
      simp only [ValueCont.extend, valueStep, store_extend]
      cases m.store.property? i name.name with
      | none => exact fail_extend Q lines m _ k
      | some found => rfl
    | _ => exact fail_extend Q lines m _ k
  | setObject name value k =>
    cases v with
    | object i => rfl
    | _ => exact fail_extend Q lines m _ k
  | setValue => rfl
  | discard => rfl
  | print => rfl
  | define name k => exact define_extend Q lines m name v k
  | branch yes no k =>
    simp only [ValueCont.extend, valueStep]
    split
    · rfl
    · cases no <;> rfl
  | test condition body k =>
    simp only [ValueCont.extend, valueStep]
    split <;> rfl
  | ret => rfl

theorem leave_extend (outer : Handle) (left : List Handle) :
    (m.extend Q lines).leave outer left =
      ((m.leave outer left).1.extend Q lines, (m.leave outer left).2) := by
  simp only [leave, store_extend]
  cases left.foldlM Arena.release m.store.arena <;> rfl

theorem completeStep_extend (c : Completion) (h : m.completeStep c k = some m') :
    (m.extend Q lines).completeStep c (k.extend Q) = some (m'.extend Q lines) := by
  cases k with
  | program rest =>
    cases c with
    | failing => cases h
    | _ =>
      cases rest with
      | nil => cases h
      | cons s rest =>
        cases h
        rfl
  | sequence rest k =>
    cases c with
    | normal => cases rest <;> cases h <;> rfl
    | _ => cases h; rfl
  | again condition body k => cases c <;> cases h <;> rfl
  | leaveBlock outer k =>
    simp only [completeStep, DoneCont.extend, leave_extend, env_extend] at h ⊢
    cases hl : m.leave outer [m.env] with
    | mk left fault =>
      rw [hl] at h
      cases fault <;> cases h <;> rfl
  | leaveCall outer receiver result k =>
    have hleave : { m.extend Q lines with depth := (m.extend Q lines).depth - 1 }.leave outer
        ((m.extend Q lines).env :: receiver.toList) = _ :=
      leave_extend Q lines { m with depth := m.depth - 1 } outer (m.env :: receiver.toList)
    rw [DoneCont.extend, completeStep, hleave]
    rw [completeStep] at h
    cases hl : { m with depth := m.depth - 1 }.leave outer (m.env :: receiver.toList) with
    | mk left fault =>
      rw [hl] at h
      cases fault with
      | some fault =>
        cases h
        exact congrArg some (fail_extend Q lines left _ k)
      | none =>
        cases c with
        | failing fault =>
          cases h
          exact congrArg some (fail_extend Q lines left fault k)
        | normal => cases result <;> cases h <;> rfl
        | returning v => cases result <;> cases h <;> rfl

/-- A step does not depend on what follows the program, nor on what was printed before. -/
theorem step_extend (h : m.step = some m') :
    (m.extend Q lines).step = some (m'.extend Q lines) := by
  obtain ⟨control, store, env, depth, printed⟩ := m
  cases control with
  | eval e k =>
    cases h
    exact congrArg some (evalStep_extend Q lines _ e k)
  | exec s k =>
    cases h
    exact congrArg some (execStep_extend Q lines _ s k)
  | value v k =>
    cases h
    exact congrArg some (valueStep_extend Q lines _ v k)
  | complete c k => exact completeStep_extend Q lines _ c h

/-- A program runs to its end in the same way whatever follows it. -/
theorem run_extend (n : Nat) :
    ∃ i, i ≤ n ∧ m.run i = m.run n ∧ (m.extend Q lines).run i = (m.run i).extend Q lines := by
  induction n generalizing m with
  | zero => exact ⟨0, Nat.le_refl _, rfl, rfl⟩
  | succ n ih =>
    cases hstep : m.step with
    | none =>
      refine ⟨0, Nat.zero_le _, ?_, rfl⟩
      rw [run, run, hstep]
    | some m' =>
      obtain ⟨i, hi, hrun, hextend⟩ := ih m'
      refine ⟨i + 1, Nat.succ_le_succ hi, ?_, ?_⟩
      · rw [run, run, hstep]
        exact hrun
      · rw [run, run, step_extend Q lines m hstep, hstep]
        exact hextend

end Machine

mutual

theorem ValueCont.extend_nil (k : ValueCont) : k.extend [] = k := by
  cases k with
  | unary op pos k => rw [ValueCont.extend, k.extend_nil]
  | left op pos right k => rw [ValueCont.extend, k.extend_nil]
  | right left op pos k => rw [ValueCont.extend, k.extend_nil]
  | logical op right k => rw [ValueCont.extend, k.extend_nil]
  | assign name ref k => rw [ValueCont.extend, k.extend_nil]
  | callee args paren k => rw [ValueCont.extend, k.extend_nil]
  | argument callee done rest paren k => rw [ValueCont.extend, k.extend_nil]
  | get name k => rw [ValueCont.extend, k.extend_nil]
  | setObject name value k => rw [ValueCont.extend, k.extend_nil]
  | setValue target name k => rw [ValueCont.extend, k.extend_nil]
  | discard k => rw [ValueCont.extend, k.extend_nil]
  | print k => rw [ValueCont.extend, k.extend_nil]
  | define name k => rw [ValueCont.extend, k.extend_nil]
  | branch yes no k => rw [ValueCont.extend, k.extend_nil]
  | test condition body k => rw [ValueCont.extend, k.extend_nil]
  | ret k => rw [ValueCont.extend, k.extend_nil]

theorem DoneCont.extend_nil (k : DoneCont) : k.extend [] = k := by
  cases k with
  | program rest => rw [DoneCont.extend, List.append_nil]
  | sequence rest k => rw [DoneCont.extend, k.extend_nil]
  | again condition body k => rw [DoneCont.extend, k.extend_nil]
  | leaveBlock outer k => rw [DoneCont.extend, k.extend_nil]
  | leaveCall outer receiver result k => rw [DoneCont.extend, k.extend_nil]

end

theorem Control.extend_nil (c : Control) : c.extend [] = c := by
  cases c with
  | eval e k => rw [Control.extend, k.extend_nil]
  | exec s k => rw [Control.extend, k.extend_nil]
  | value v k => rw [Control.extend, k.extend_nil]
  | complete c k => rw [Control.extend, k.extend_nil]

namespace Machine

/-- The machine stops only at the end of its program, or at a fault that has reached it. -/
theorem step_eq_none {m : Machine} (h : m.step = none) :
    ∃ c rest, m.control = .complete c (.program rest) ∧ (rest = [] ∨ ∃ f, c = .failing f) := by
  rw [step] at h
  cases hctl : m.control with
  | eval => rw [hctl] at h; cases h
  | exec => rw [hctl] at h; cases h
  | value => rw [hctl] at h; cases h
  | complete c k =>
    rw [hctl] at h
    cases k with
    | program rest =>
      refine ⟨c, rest, rfl, ?_⟩
      cases c with
      | failing f => exact .inr ⟨f, rfl⟩
      | _ =>
        cases rest with
        | nil => exact .inl rfl
        | cons => cases h
    | sequence rest k =>
      cases c with
      | normal => cases rest <;> cases h
      | _ => cases h
    | again => cases c <;> cases h
    | leaveBlock outer k =>
      simp only [completeStep] at h
      split at h <;> cases h
    | leaveCall outer receiver result k =>
      simp only [completeStep] at h
      repeat' split at h
      all_goals cases h

theorem step_of_ended {m : Machine} (hctl : m.control = .complete c (.program rest))
    (hend : rest = [] ∨ ∃ f, c = .failing f) : m.step = none := by
  rw [step, hctl]
  rcases hend with rfl | ⟨f, rfl⟩
  · cases c <;> rfl
  · rfl

theorem run_printed (lines : List String) (m : Machine) (n : Nat) :
    { m with printed := m.printed ++ lines }.run n =
      { m.run n with printed := (m.run n).printed ++ lines } := by
  have hextend : ∀ m : Machine, m.extend [] lines = { m with printed := m.printed ++ lines } := by
    intro m
    rw [extend, m.control.extend_nil]
  induction n generalizing m with
  | zero => rfl
  | succ n ih =>
    rw [run, run]
    cases hstep : m.step with
    | some m' =>
      have hstep' := step_extend [] lines m hstep
      rw [hextend, hextend] at hstep'
      rw [hstep']
      exact ih m'
    | none =>
      obtain ⟨c, rest, hctl, hend⟩ := step_eq_none hstep
      have hstep' : { m with printed := m.printed ++ lines }.step = none := step_of_ended hctl hend
      rw [hstep']

theorem run_of_step_none {m : Machine} (h : m.step = none) (n : Nat) : m.run n = m := by
  cases n with
  | zero => rfl
  | succ n => rw [run, h]

theorem run_add (m : Machine) (i j : Nat) : m.run (i + j) = (m.run i).run j := by
  induction i generalizing m with
  | zero => rw [Nat.zero_add]; rfl
  | succ i ih =>
    rw [Nat.succ_add, run, run]
    cases hstep : m.step with
    | none => exact (run_of_step_none hstep j).symm
    | some m' => exact ih m'

theorem step_of_outcome {m : Machine} (h : m.outcome ≠ .unfinished) : m.step = none := by
  rw [outcome] at h
  split at h
  · rename_i f rest hctl
    exact step_of_ended hctl (.inr ⟨f, rfl⟩)
  · rename_i c _ hctl
    exact step_of_ended hctl (.inl rfl)
  · exact absurd rfl h

theorem run_of_le {m : Machine} (h : (m.run n).outcome ≠ .unfinished) (hle : n ≤ n') :
    m.run n' = m.run n := by
  obtain ⟨j, rfl⟩ := Nat.exists_eq_add_of_le hle
  rw [run_add]
  exact run_of_step_none (step_of_outcome h) j

theorem step_returned {c : Completion} (hc : ∀ f, c ≠ .failing f) (m : Machine)
    (Q : List (Stmt Binding)) :
    (m.complete c (.program Q)).step = (m.complete .normal (.program Q)).step := by
  cases c with
  | failing f => exact absurd rfl (hc f)
  | _ => cases Q <;> rfl

theorem outcome_returned {c : Completion} (hc : ∀ f, c ≠ .failing f) (m : Machine)
    (Q : List (Stmt Binding)) :
    (m.complete c (.program Q)).outcome = (m.complete .normal (.program Q)).outcome := by
  cases c with
  | failing f => exact absurd rfl (hc f)
  | _ => cases Q <;> rfl

/-- All that is seen of a machine when its run is over. -/
structure Shows (m : Machine) (store : Store) (env : Handle) (printed : List String)
    (outcome : Outcome) : Prop where
  store : m.store = store
  env : m.env = env
  printed : m.printed = printed
  outcome : m.outcome = outcome

/-- Between two statements of a program it does not matter how the last one completed. -/
theorem shows_returned {c : Completion} (hc : ∀ f, c ≠ .failing f) (m : Machine)
    (Q : List (Stmt Binding)) (n : Nat) :
    let normal := (m.complete .normal (.program Q)).run n
    ((m.complete c (.program Q)).run n).Shows normal.store normal.env normal.printed
      normal.outcome := by
  have hstep := step_returned hc m Q
  have hout := outcome_returned hc m Q
  cases n with
  | zero => exact ⟨rfl, rfl, rfl, hout⟩
  | succ n =>
    rw [run, run, hstep]
    cases (m.complete .normal (.program Q)).step with
    | none => exact ⟨rfl, rfl, rfl, hout⟩
    | some m' => exact ⟨rfl, rfl, rfl, rfl⟩

/-- A program behind another one runs as if it were started when the other has ended. -/
theorem run_append {s : Store} {e : Handle} {A : Program Binding}
    (h : ((start s e A).run n).outcome = .finished) (Q : Program Binding) :
    ∃ i, i ≤ n ∧ ∀ k,
      let first := (start s e A).run n
      let second := (start first.store first.env Q).run k
      ((start s e (A ++ Q)).run (i + k)).Shows second.store second.env
        (second.printed ++ first.printed) second.outcome := by
  obtain ⟨i, hi, hrun, hextend⟩ := run_extend Q [] (start s e A) n
  refine ⟨i, hi, fun k => ?_⟩
  have hstart : (start s e A).Balanced := rfl
  have hbalanced := hstart.run n
  rw [hrun] at hextend
  generalize (start s e A).run n = first at h hextend hbalanced
  obtain ⟨c, hctl, hc⟩ := control_of_finished h
  have hdepth : first.depth = 0 := by
    rw [hbalanced, hctl]
    rfl
  -- the statements of the second program are all that is left to do
  let next : Machine := { start first.store first.env Q with printed := [] ++ first.printed }
  have hnext : (start s e (A ++ Q)).run i = next.complete c (.program Q) := by
    refine hextend.trans ?_
    rw [extend, hctl, List.append_nil, hdepth]
    rfl
  have hshows := shows_returned hc next Q k
  have hprinted : (next.complete .normal (.program Q)).run k = _ :=
    run_printed first.printed (start first.store first.env Q) k
  rw [hprinted] at hshows
  rw [run_add, hnext]
  exact hshows

end Machine

end Lox
