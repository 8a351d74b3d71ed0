import Lox.Machine.Step

namespace Lox
set_option autoImplicit true

/-- What is left to do, with a value or after a statement. -/
inductive Cont where
  | value (k : ValueCont)
  | done (k : DoneCont)

def Control.cont : Control → Cont
  | .eval _ k => .value k
  | .exec _ k => .done k
  | .value _ k => .value k
  | .complete _ k => .done k

namespace Cont

/-- What is left below the topmost part, and the environment that is current there. -/
def below (h : Handle) : Cont → Option (Cont × Handle)
  | .value (.unary _ _ k) | .value (.left _ _ _ k) | .value (.right _ _ _ k)
  | .value (.logical _ _ k) | .value (.assign _ _ k) | .value (.callee _ _ k)
  | .value (.argument _ _ _ _ k) | .value (.get _ k) | .value (.setObject _ _ k)
  | .value (.setValue _ _ k) => some (.value k, h)
  | .value (.discard k) | .value (.print k) | .value (.define _ k) | .value (.branch _ _ k)
  | .value (.test _ _ k) | .value (.ret k) => some (.done k, h)
  | .done (.program _) => none
  | .done (.sequence _ k) | .done (.again _ _ k) => some (.done k, h)
  | .done (.leaveBlock outer k) => some (.done k, outer)
  | .done (.leaveCall outer _ _ k) => some (.value k, outer)

/-- What is left to do has `base` at its end, and `b` is current when `base` is reached. -/
inductive Over (base : Cont) (b : Handle) : Cont → Handle → Prop where
  | refl : Over base b base b
  | push : below h c = some (c', h') → Over base b c' h' → Over base b c h

/-- What comes before `base` has ended. An expression ends with a value or a fault. -/
def Ends : Cont → Control → Prop
  | .value k, control =>
    (∃ v, control = .value v k) ∨ ∃ fault, control = .complete (.failing fault) k.enclosing
  | .done k, control => ∃ c, control = .complete c k

theorem Over.trans (h : Over c i d j) (hbase : Over base b c i) : Over base b d j := by
  induction h with
  | refl => exact hbase
  | push hbelow _ ih => exact .push hbelow ih

theorem sizeOf_below {c : Cont} (h : c.below i = some (d, j)) : sizeOf d < sizeOf c := by
  unfold below at h
  split at h <;> cases h <;> simp +arith

theorem Over.eq_or_lt (h : Over base b c i) : c = base ∧ i = b ∨ sizeOf base < sizeOf c := by
  induction h with
  | refl => exact .inl ⟨rfl, rfl⟩
  | push hbelow _ ih =>
    have hlt := sizeOf_below hbelow
    rcases ih with ⟨rfl, _⟩ | ih
    · exact .inr hlt
    · exact .inr (Nat.lt_trans ih hlt)

theorem Over.eq_of_base (h : Over base b base i) : i = b := by
  rcases h.eq_or_lt with ⟨_, h⟩ | h
  · exact h
  · exact absurd h (Nat.lt_irrefl _)

theorem over_enclosing (k : ValueCont) (h : Handle) : Over (.done k.enclosing) h (.value k) h := by
  induction k using ValueCont.rec (motive_2 := fun _ => True) with
  | unary _ _ _ ih => exact .push rfl ih
  | left _ _ _ _ ih => exact .push rfl ih
  | right _ _ _ _ ih => exact .push rfl ih
  | logical _ _ _ ih => exact .push rfl ih
  | assign _ _ _ ih => exact .push rfl ih
  | callee _ _ _ ih => exact .push rfl ih
  | argument _ _ _ _ _ ih => exact .push rfl ih
  | get _ _ ih => exact .push rfl ih
  | setObject _ _ _ ih => exact .push rfl ih
  | setValue _ _ _ ih => exact .push rfl ih
  | discard => exact .push rfl .refl
  | print => exact .push rfl .refl
  | define => exact .push rfl .refl
  | branch => exact .push rfl .refl
  | test => exact .push rfl .refl
  | ret => exact .push rfl .refl
  | _ => trivial

/-- A fault skips the rest of its statement, and with it all that is above the end of that
statement. -/
theorem Over.enclosing (h : Over base b (.value k) i) :
    Over base b (.done k.enclosing) i ∨
      i = b ∧ ∃ k', base = .value k' ∧ k'.enclosing = k.enclosing := by
  induction k using ValueCont.rec (motive_2 := fun _ => True) with
  | unary _ _ _ ih =>
    cases h with
    | refl => exact .inr ⟨rfl, _, rfl, rfl⟩
    | push hbelow h => cases hbelow; exact ih h
  | left _ _ _ _ ih =>
    cases h with
    | refl => exact .inr ⟨rfl, _, rfl, rfl⟩
    | push hbelow h => cases hbelow; exact ih h
  | right _ _ _ _ ih =>
    cases h with
    | refl => exact .inr ⟨rfl, _, rfl, rfl⟩
    | push hbelow h => cases hbelow; exact ih h
  | logical _ _ _ ih =>
    cases h with
    | refl => exact .inr ⟨rfl, _, rfl, rfl⟩
    | push hbelow h => cases hbelow; exact ih h
  | assign _ _ _ ih =>
    cases h with
    | refl => exact .inr ⟨rfl, _, rfl, rfl⟩
    | push hbelow h => cases hbelow; exact ih h
  | callee _ _ _ ih =>
    cases h with
    | refl => exact .inr ⟨rfl, _, rfl, rfl⟩
    | push hbelow h => cases hbelow; exact ih h
  | argument _ _ _ _ _ ih =>
    cases h with
    | refl => exact .inr ⟨rfl, _, rfl, rfl⟩
    | push hbelow h => cases hbelow; exact ih h
  | get _ _ ih =>
    cases h with
    | refl => exact .inr ⟨rfl, _, rfl, rfl⟩
    | push hbelow h => cases hbelow; exact ih h
  | setObject _ _ _ ih =>
    cases h with
    | refl => exact .inr ⟨rfl, _, rfl, rfl⟩
    | push hbelow h => cases hbelow; exact ih h
  | setValue _ _ _ ih =>
    cases h with
    | refl => exact .inr ⟨rfl, _, rfl, rfl⟩
    | push hbelow h => cases hbelow; exact ih h
  | discard =>
    cases h with
    | refl => exact .inr ⟨rfl, _, rfl, rfl⟩
    | push hbelow h => cases hbelow; exact .inl h
  | print =>
    cases h with
    | refl => exact .inr ⟨rfl, _, rfl, rfl⟩
    | push hbelow h => cases hbelow; exact .inl h
  | define =>
    cases h with
    | refl => exact .inr ⟨rfl, _, rfl, rfl⟩
    | push hbelow h => cases hbelow; exact .inl h
  | branch =>
    cases h with
    | refl => exact .inr ⟨rfl, _, rfl, rfl⟩
    | push hbelow h => cases hbelow; exact .inl h
  | test =>
    cases h with
    | refl => exact .inr ⟨rfl, _, rfl, rfl⟩
    | push hbelow h => cases hbelow; exact .inl h
  | ret =>
    cases h with
    | refl => exact .inr ⟨rfl, _, rfl, rfl⟩
    | push hbelow h => cases hbelow; exact .inl h
  | _ => trivial

end Cont

namespace Machine

variable {m m' : Machine} {base : Cont} {b : Handle}

/-- What was left to do at some moment, with `b` as the current environment, is still below, or it
has been reached and `b` is current again. -/
def Inside (base : Cont) (b : Handle) (m : Machine) : Prop :=
  base.Over b m.control.cont m.env ∨ base.Ends m.control ∧ m.env = b

theorem Inside.env_of_ends (h : Inside base b m) (hend : base.Ends m.control) : m.env = b := by
  rcases h with h | ⟨_, h⟩
  · cases base with
    | value k =>
      rcases hend with ⟨v, hctl⟩ | ⟨fault, hctl⟩
      · rw [hctl] at h
        exact h.eq_of_base
      · rw [hctl] at h
        rcases h.eq_or_lt with ⟨hc, _⟩ | hlt
        · cases hc
        rcases (Cont.over_enclosing k b).eq_or_lt with ⟨hc, _⟩ | hlt'
        · cases hc
        · exact absurd hlt (Nat.lt_asymm hlt')
    | done k =>
      obtain ⟨c, hctl⟩ := hend
      rw [hctl] at h
      exact h.eq_of_base
  · exact h

theorem Inside.trans (h : Inside c i m) (hbase : base.Over b c i) : Inside base b m := by
  rcases h with h | ⟨hend, rfl⟩
  · exact .inl (h.trans hbase)
  · cases c with
    | value k =>
      rcases hend with ⟨v, hctl⟩ | ⟨fault, hctl⟩
      · rw [Inside, hctl]
        exact .inl hbase
      · rcases hbase.enclosing with h | ⟨rfl, k', rfl, hk⟩
        · rw [Inside, hctl]
          exact .inl h
        · exact .inr ⟨.inr ⟨fault, hk ▸ hctl⟩, rfl⟩
    | done k =>
      obtain ⟨c, hctl⟩ := hend
      rw [Inside, hctl]
      exact .inl hbase

theorem fail_inside (m : Machine) (fault : Fault) (k : ValueCont) :
    (m.fail fault k.enclosing).Inside (.value k) m.env := .inr ⟨.inr ⟨fault, rfl⟩, rfl⟩

theorem readRef_inside (m : Machine) (name : Ident) (ref : Binding) (k : ValueCont) :
    (m.readRef name ref k).Inside (.value k) m.env := by
  rw [readRef]
  split
  · exact .inl .refl
  · apply fail_inside

theorem assignRef_inside (m : Machine) (name : Ident) (ref : Binding) (v : Value) (k : ValueCont) :
    (m.assignRef name ref v k).Inside (.value k) m.env := by
  rw [assignRef]
  split
  · exact .inl .refl
  · apply fail_inside

theorem define_inside (m : Machine) (name : Ident) (v : Value) (k : DoneCont) :
    (m.define name v k).Inside (.done k) m.env := by
  rw [define]
  split <;> exact .inl .refl

theorem capture_inside (m : Machine) {go : Machine → Machine}
    (hgo : ∀ m : Machine, (go m).Inside (.done k) m.env) :
    (m.capture k go).Inside (.done k) m.env := by
  obtain ⟨arena, broken, hcap⟩ : ∃ arena broken, m.store.arena.capture m.env = (arena, broken) :=
    ⟨_, _, rfl⟩
  rw [capture, hcap]
  cases broken with
  | none => exact hgo { m with store := { m.store with arena } }
  | some h => exact .inl .refl

theorem evalStep_inside (m : Machine) (e : Expr Binding) (k : ValueCont) :
    (m.evalStep e k).Inside (.value k) m.env := by
  cases e with
  | literal => exact .inl .refl
  | grouping => exact .inl .refl
  | unary => exact .inl (.push rfl .refl)
  | binary => exact .inl (.push rfl .refl)
  | logical => exact .inl (.push rfl .refl)
  | read => apply readRef_inside
  | assign => exact .inl (.push rfl .refl)
  | call => exact .inl (.push rfl .refl)
  | get => exact .inl (.push rfl .refl)
  | set => exact .inl (.push rfl .refl)
  | receiver => apply readRef_inside

theorem execStep_inside (m : Machine) (s : Stmt Binding) (k : DoneCont) :
    (m.execStep s k).Inside (.done k) m.env := by
  cases s with
  | expression => exact .inl (.push rfl .refl)
  | print => exact .inl (.push rfl .refl)
  | varDecl name init =>
    cases init with
    | none => apply define_inside
    | some => exact .inl (.push rfl .refl)
  | block => exact .inl (.push rfl (.push rfl .refl))
  | branch => exact .inl (.push rfl .refl)
  | loop => exact .inl (.push rfl .refl)
  | funDecl =>
    apply capture_inside
    intro m
    exact define_inside { m with store := m.store.fresh.2 } _ _ k
  | ret pos value =>
    cases value with
    | none => exact .inl .refl
    | some => exact .inl (.push rfl .refl)
  | classDecl =>
    apply capture_inside
    intro m
    exact define_inside { m with store := m.store.fresh.2 } _ _ k

theorem enter_inside (m : Machine) (c : Closure) (receiver : Option Instance) (args : List Value)
    (paren : Pos) (k : ValueCont) :
    (m.enter c receiver args paren k).Inside (.value k) m.env := by
  rw [enter]
  split
  · apply fail_inside
  · cases receiver <;> exact .inl (.push rfl (.push rfl .refl))

theorem checkArity_inside (m : Machine) {go : Machine → Machine}
    (hgo : (go m).Inside (.value k) m.env) :
    (m.checkArity arity args paren k go).Inside (.value k) m.env := by
  rw [checkArity]
  split
  · exact hgo
  · apply fail_inside

theorem callStep_inside (m : Machine) (callee : Value) (args : List Value) (paren : Pos)
    (k : ValueCont) : (m.callStep callee args paren k).Inside (.value k) m.env := by
  cases callee with
  | function =>
    apply checkArity_inside
    apply enter_inside
  | method =>
    apply checkArity_inside
    apply enter_inside
  | cls c =>
    apply checkArity_inside
    cases c.initializer? with
    | none => exact .inl .refl
    | some init => exact enter_inside { m with store := m.store.fresh.2 } _ _ _ _ k
  | nil => apply fail_inside
  | bool => apply fail_inside
  | number => apply fail_inside
  | string => apply fail_inside
  | object => apply fail_inside

theorem argumentStep_inside (m : Machine) (callee : Value) (done : List Value)
    (rest : List (Expr Binding)) (paren : Pos) (k : ValueCont) :
    (m.argumentStep callee done rest paren k).Inside (.value k) m.env := by
  cases rest with
  | nil => apply callStep_inside
  | cons => exact .inl (.push rfl .refl)

theorem operate_inside (m : Machine) (result : Except RuntimeFault Value) (pos : Pos)
    (k : ValueCont) : (m.operate result pos k).Inside (.value k) m.env := by
  cases result with
  | ok => exact .inl .refl
  | error => apply fail_inside

theorem valueStep_inside (v : Value) (h : (Cont.value k).below m.env = some (base, b)) :
    (m.valueStep v k).Inside base b := by
  cases k with
  | unary => cases h; apply operate_inside
  | left => cases h; exact .inl (.push rfl .refl)
  | right => cases h; apply operate_inside
  | logical =>
    cases h
    rw [valueStep]
    split <;> exact .inl .refl
  | assign => cases h; apply assignRef_inside
  | callee => cases h; apply argumentStep_inside
  | argument => cases h; apply argumentStep_inside
  | get name k =>
    cases h
    cases v with
    | object i =>
      rw [valueStep]
      split
      · exact .inl .refl
      · apply fail_inside
    | _ => exact fail_inside m _ k
  | setObject name value k =>
    cases h
    cases v with
    | object i => exact .inl (.push rfl .refl)
    | _ => exact fail_inside m _ k
  | setValue => cases h; exact .inl .refl
  | discard => cases h; exact .inl .refl
  | print => cases h; exact .inl .refl
  | define => cases h; apply define_inside
  | branch yes no k =>
    cases h
    cases no <;> rw [valueStep] <;> split <;> exact .inl .refl
  | test =>
    cases h
    rw [valueStep]
    split
    · exact .inl (.push rfl .refl)
    · exact .inl .refl
  | ret => cases h; exact .inl .refl

theorem env_leave (m : Machine) (outer : Handle) (left : List Handle) :
    (m.leave outer left).1.env = outer := by
  rw [leave]
  split <;> rfl

theorem leaveCall_ends {c : Completion}
    (hstep : m.completeStep c (.leaveCall outer receiver result k) = some m') :
    (Cont.value k).Ends m'.control ∧ m'.env = outer := by
  have henv := env_leave { m with depth := m.depth - 1 } outer (m.env :: receiver.toList)
  rw [completeStep] at hstep
  split at hstep
  · rename_i n fault hleave
    rw [hleave] at henv
    cases hstep
    exact ⟨.inr ⟨_, rfl⟩, henv⟩
  · rename_i n hleave
    rw [hleave] at henv
    cases c with
    | failing fault => cases hstep; exact ⟨.inr ⟨_, rfl⟩, henv⟩
    | normal => cases result <;> cases hstep <;> exact ⟨.inl ⟨_, rfl⟩, henv⟩
    | returning v => cases result <;> cases hstep <;> exact ⟨.inl ⟨_, rfl⟩, henv⟩

theorem completeStep_inside {c : Completion} (h : (Cont.done k).below m.env = some (base, b))
    (hstep : m.completeStep c k = some m') : m'.Inside base b := by
  cases k with
  | program => cases h
  | sequence rest k =>
    cases h
    cases c with
    | normal =>
      cases rest with
      | nil => cases hstep; exact .inl .refl
      | cons s rest => cases hstep; exact .inl (.push rfl .refl)
    | returning => cases hstep; exact .inl .refl
    | failing => cases hstep; exact .inl .refl
  | again condition body k =>
    cases h
    cases c with
    | normal => cases hstep; exact .inl (.push rfl .refl)
    | returning => cases hstep; exact .inl .refl
    | failing => cases hstep; exact .inl .refl
  | leaveBlock outer k =>
    cases h
    have henv := env_leave m b [m.env]
    rw [completeStep] at hstep
    split at hstep
    · rename_i n hleave
      rw [hleave] at henv
      cases hstep
      exact .inr ⟨⟨_, rfl⟩, henv⟩
    · rename_i n fault hleave
      rw [hleave] at henv
      cases hstep
      exact .inr ⟨⟨_, rfl⟩, henv⟩
  | leaveCall => cases h; exact .inr (leaveCall_ends hstep)

/-- A step stays above what is below, until that is reached. -/
theorem Inside.step (h : Inside base b m) (hne : ¬base.Ends m.control)
    (hstep : m.step = some m') : Inside base b m' := by
  have hover : base.Over b m.control.cont m.env := by
    rcases h with h | ⟨hend, _⟩
    · exact h
    · exact absurd hend hne
  rw [Machine.step] at hstep
  cases hctl : m.control with
  | eval e k =>
    rw [hctl] at hstep hover
    cases hstep
    exact (evalStep_inside m e k).trans hover
  | exec s k =>
    rw [hctl] at hstep hover
    cases hstep
    exact (execStep_inside m s k).trans hover
  | value v k =>
    rw [hctl] at hstep hover hne
    cases hstep
    cases hover with
    | refl => exact absurd (.inl ⟨v, rfl⟩) hne
    | push hbelow hover => exact (valueStep_inside v hbelow).trans hover
  | complete c k =>
    rw [hctl] at hstep hover hne
    cases hover with
    | refl => exact absurd ⟨c, rfl⟩ hne
    | push hbelow hover => exact (completeStep_inside hbelow hstep).trans hover

theorem control_of_finished {m : Machine} (h : m.outcome = .finished) :
    ∃ c, m.control = .complete c (.program []) ∧ ∀ f, c ≠ .failing f := by
  rw [outcome] at h
  split at h
  · cases h
  · rename_i c hne hctl
    exact ⟨c, hctl, hne⟩
  · cases h

end Machine

end Lox
