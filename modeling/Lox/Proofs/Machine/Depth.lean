import Lox.Machine.Step

namespace Lox
set_option autoImplicit true

mutual

/-- The number of calls that are left at some point of what is left to do. -/
def ValueCont.calls : ValueCont → Nat
  | .unary _ _ k | .left _ _ _ k | .right _ _ _ k | .logical _ _ k | .assign _ _ k | .callee _ _ k
  | .argument _ _ _ _ k | .get _ k | .setObject _ _ k | .setValue _ _ k => k.calls
  | .discard k | .print k | .define _ k | .branch _ _ k | .test _ _ k | .ret k => k.calls

def DoneCont.calls : DoneCont → Nat
  | .program _ => 0
  | .sequence _ k | .again _ _ k | .leaveBlock _ k => k.calls
  | .leaveCall _ _ _ k => k.calls + 1

end

def Control.calls : Control → Nat
  | .eval _ k | .value _ k => k.calls
  | .exec _ k | .complete _ k => k.calls

theorem ValueCont.calls_enclosing (k : ValueCont) : k.enclosing.calls = k.calls := by
  induction k using ValueCont.rec (motive_2 := fun _ => True) with
  | unary _ _ _ ih => exact ih
  | left _ _ _ _ ih => exact ih
  | right _ _ _ _ ih => exact ih
  | logical _ _ _ ih => exact ih
  | assign _ _ _ ih => exact ih
  | callee _ _ _ ih => exact ih
  | argument _ _ _ _ _ ih => exact ih
  | get _ _ ih => exact ih
  | setObject _ _ _ ih => exact ih
  | setValue _ _ _ ih => exact ih
  | discard => rfl
  | print => rfl
  | define => rfl
  | branch => rfl
  | test => rfl
  | ret => rfl
  | _ => trivial

namespace Machine

/-- The calls in progress are those that will be left. -/
def Balanced (m : Machine) : Prop := m.depth = m.control.calls

variable {m m' : Machine} {k : ValueCont}

theorem balanced_fail (h : m.depth = k.calls) (fault : Fault) :
    (m.fail fault k.enclosing).Balanced := h.trans k.calls_enclosing.symm

theorem balanced_readRef (h : m.depth = k.calls) (name : Ident) (ref : Binding) :
    (m.readRef name ref k).Balanced := by
  rw [readRef]
  split
  · exact h
  · exact balanced_fail h _

theorem balanced_assignRef (h : m.depth = k.calls) (name : Ident) (ref : Binding) (v : Value) :
    (m.assignRef name ref v k).Balanced := by
  rw [assignRef]
  split
  · exact h
  · exact balanced_fail h _

theorem balanced_define {k : DoneCont} (h : m.depth = k.calls) (name : Ident) (v : Value) :
    (m.define name v k).Balanced := by
  rw [define]
  split <;> exact h

theorem balanced_capture {k : DoneCont} {go : Machine → Machine} (h : m.depth = k.calls)
    (hgo : ∀ m : Machine, m.depth = k.calls → (go m).Balanced) : (m.capture k go).Balanced := by
  simp only [capture]
  split
  · exact hgo _ h
  · exact h

theorem balanced_evalStep (h : m.depth = k.calls) (e : Expr Binding) :
    (m.evalStep e k).Balanced := by
  cases e with
  | read name ref => exact balanced_readRef h name ref
  | receiver pos ref => exact balanced_readRef h _ ref
  | _ => exact h

theorem balanced_execStep {k : DoneCont} (h : m.depth = k.calls) (s : Stmt Binding) :
    (m.execStep s k).Balanced := by
  cases s with
  | varDecl name init =>
    cases init with
    | none => exact balanced_define h name .nil
    | some => exact h
  | ret pos value => cases value <;> exact h
  | funDecl decl =>
    rw [execStep]
    apply balanced_capture h
    intro m hm
    exact balanced_define (m := { m with store := m.store.fresh.2 }) hm _ _
  | classDecl name methods =>
    rw [execStep]
    apply balanced_capture h
    intro m hm
    exact balanced_define (m := { m with store := m.store.fresh.2 }) hm _ _
  | _ => exact h

theorem balanced_enter (h : m.depth = k.calls) (c : Closure) (receiver : Option Instance)
    (args : List Value) (paren : Pos) : (m.enter c receiver args paren k).Balanced := by
  rw [enter]
  split
  · exact balanced_fail h _
  · cases receiver <;> exact congrArg (· + 1) h

theorem balanced_checkArity {go : Machine → Machine} (h : m.depth = k.calls)
    (hgo : ∀ m : Machine, m.depth = k.calls → (go m).Balanced) (arity : Nat) (args : List Value)
    (paren : Pos) : (m.checkArity arity args paren k go).Balanced := by
  rw [checkArity]
  split
  · exact hgo m h
  · exact balanced_fail h _

theorem balanced_callStep (h : m.depth = k.calls) (callee : Value) (args : List Value)
    (paren : Pos) : (m.callStep callee args paren k).Balanced := by
  cases callee with
  | function n c => exact balanced_checkArity h (fun m hm => balanced_enter hm _ _ _ _) _ _ _
  | method n c i => exact balanced_checkArity h (fun m hm => balanced_enter hm _ _ _ _) _ _ _
  | cls c =>
    apply balanced_checkArity h
    intro m hm
    dsimp only
    split
    · exact balanced_enter (m := { m with store := m.store.fresh.2 }) hm _ _ _ _
    · exact hm
  | _ => exact balanced_fail h _

theorem balanced_argumentStep (h : m.depth = k.calls) (callee : Value) (done : List Value)
    (rest : List (Expr Binding)) (paren : Pos) :
    (m.argumentStep callee done rest paren k).Balanced := by
  cases rest with
  | nil => exact balanced_callStep h _ _ _
  | cons => exact h

theorem balanced_operate (h : m.depth = k.calls) (result : Except RuntimeFault Value) (pos : Pos) :
    (m.operate result pos k).Balanced := by
  cases result with
  | ok => exact h
  | error => exact balanced_fail h _

theorem balanced_valueStep (h : m.depth = k.calls) (v : Value) : (m.valueStep v k).Balanced := by
  cases k with
  | unary op pos k => exact balanced_operate (k := k) h _ _
  | right left op pos k => exact balanced_operate (k := k) h _ _
  | logical op right k =>
    rw [valueStep]
    split <;> exact h
  | assign name ref k => exact balanced_assignRef (k := k) h _ _ _
  | callee args paren k => exact balanced_argumentStep (k := k) h _ _ _ _
  | argument callee done rest paren k => exact balanced_argumentStep (k := k) h _ _ _ _
  | get name k =>
    cases v with
    | object i =>
      rw [valueStep]
      split
      · exact h
      · exact balanced_fail (k := k) h _
    | _ => exact balanced_fail (k := k) h _
  | setObject name value k =>
    cases v with
    | object i => exact h
    | _ => exact balanced_fail (k := k) h _
  | define name k => exact balanced_define (k := k) h name v
  | branch yes no k =>
    cases no <;> rw [valueStep] <;> split <;> exact h
  | test condition body k =>
    rw [valueStep]
    split <;> exact h
  | _ => exact h

theorem depth_leave (m : Machine) (outer : Handle) (left : List Handle) :
    (m.leave outer left).1.depth = m.depth := by
  rw [leave]
  split <;> rfl

theorem balanced_completeStep {k : DoneCont} (h : m.depth = k.calls)
    (hstep : m.completeStep c k = some m') : m'.Balanced := by
  cases k with
  | program rest =>
    cases c with
    | failing => cases hstep
    | _ =>
      cases rest with
      | nil => cases hstep
      | cons => cases hstep; exact h
  | sequence rest k =>
    cases c with
    | normal => cases rest <;> cases hstep <;> exact h
    | _ => cases hstep; exact h
  | again => cases c <;> cases hstep <;> exact h
  | leaveBlock outer k =>
    have hdepth := depth_leave m outer [m.env]
    rw [completeStep] at hstep
    split at hstep <;> rename_i hleave <;> rw [hleave] at hdepth <;> cases hstep <;>
      exact hdepth.trans h
  | leaveCall outer receiver result k =>
    have hdepth := depth_leave { m with depth := m.depth - 1 } outer (m.env :: receiver.toList)
    have hcalls : m.depth - 1 = k.calls := by
      rw [h]
      rfl
    rw [completeStep] at hstep
    split at hstep
    · rename_i hleave
      rw [hleave] at hdepth
      cases hstep
      exact balanced_fail (hdepth.trans hcalls) _
    · rename_i hleave
      rw [hleave] at hdepth
      cases c with
      | failing fault =>
        cases hstep
        exact balanced_fail (hdepth.trans hcalls) _
      | normal => cases result <;> cases hstep <;> exact hdepth.trans hcalls
      | returning v => cases result <;> cases hstep <;> exact hdepth.trans hcalls

theorem Balanced.step (h : m.Balanced) (hstep : m.step = some m') : m'.Balanced := by
  rw [Machine.step] at hstep
  rw [Balanced] at h
  cases hctl : m.control with
  | eval e k =>
    rw [hctl] at hstep h
    cases hstep
    exact balanced_evalStep h e
  | exec s k =>
    rw [hctl] at hstep h
    cases hstep
    exact balanced_execStep h s
  | value v k =>
    rw [hctl] at hstep h
    cases hstep
    exact balanced_valueStep h v
  | complete c k =>
    rw [hctl] at hstep h
    exact balanced_completeStep h hstep

theorem Balanced.run (h : m.Balanced) (n : Nat) : (m.run n).Balanced := by
  induction n generalizing m with
  | zero => exact h
  | succ n ih =>
    rw [Machine.run]
    cases hstep : m.step with
    | none => exact h
    | some m' => exact ih (h.step hstep)

end Machine

end Lox
