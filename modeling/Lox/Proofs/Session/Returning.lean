import Lox.Proofs.Scope.Returns
import Lox.Proofs.Session.Effects
import Lox.Proofs.Session.CallLocals

namespace Lox
set_option autoImplicit true

/-- A return is allowed in a function of the kind `F`. -/
def Completion.ReturnsIn (F : Enclosing) (c : Completion) : Prop :=
  ∀ v, c = .returning v → F ≠ .none ∧ (F = .initializer → v = .nil)

mutual

/-- What is left to do before the next call is left, or the program ends, is in a function of the
kind `F`, and so for the calls further out. -/
def ValueCont.ReturnsIn (F : Enclosing) : ValueCont → Prop
  | .unary _ _ k | .left _ _ _ k | .right _ _ _ k | .logical _ _ k | .assign _ _ k | .callee _ _ k
  | .argument _ _ _ _ k | .get _ k | .setObject _ _ k | .setValue _ _ k => k.ReturnsIn F
  | .discard k | .print k | .define _ k => k.ReturnsIn F
  | .branch yes no k => (yes.ReturnsIn F ∧ ∀ s ∈ no, s.ReturnsIn F) ∧ k.ReturnsIn F
  | .test _ body k => body.ReturnsIn F ∧ k.ReturnsIn F
  | .ret k => (F ≠ .none ∧ F ≠ .initializer) ∧ k.ReturnsIn F

def DoneCont.ReturnsIn (F : Enclosing) : DoneCont → Prop
  | .program rest => F = .none ∧ ∀ s ∈ rest, s.ReturnsIn F
  | .sequence rest k => (∀ s ∈ rest, s.ReturnsIn F) ∧ k.ReturnsIn F
  | .again _ body k => body.ReturnsIn F ∧ k.ReturnsIn F
  | .leaveBlock _ k => k.ReturnsIn F
  | .leaveCall _ _ result k => (F ≠ .none ∧ (result.isSome = true → F = .initializer)) ∧
      ∃ F', k.ReturnsIn F'

end

def Control.ReturnsIn (F : Enclosing) : Control → Prop
  | .eval _ k | .value _ k => k.ReturnsIn F
  | .exec s k => s.ReturnsIn F ∧ k.ReturnsIn F
  | .complete c k => c.ReturnsIn F ∧ k.ReturnsIn F

theorem Completion.returnsIn_normal (F : Enclosing) : Completion.normal.ReturnsIn F :=
  fun v hv => by cases hv

theorem Completion.returnsIn_failing (F : Enclosing) (fault : Fault) :
    (Completion.failing fault).ReturnsIn F := fun v hv => by cases hv

theorem ValueCont.ReturnsIn.enclosing {k : ValueCont} (h : k.ReturnsIn F) :
    k.enclosing.ReturnsIn F := by
  induction k using ValueCont.rec (motive_2 := fun _ => True) with
  | unary _ _ _ ih => exact ih h
  | left _ _ _ _ ih => exact ih h
  | right _ _ _ _ ih => exact ih h
  | logical _ _ _ ih => exact ih h
  | assign _ _ _ ih => exact ih h
  | callee _ _ _ ih => exact ih h
  | argument _ _ _ _ _ ih => exact ih h
  | get _ _ ih => exact ih h
  | setObject _ _ _ ih => exact ih h
  | setValue _ _ _ ih => exact ih h
  | discard => exact h
  | print => exact h
  | define => exact h
  | branch => exact h.2
  | test => exact h.2
  | ret => exact h.2
  | _ => trivial

/-- The body of a function, which is no initializer by its name alone. -/
theorem Closure.IsFunction.returnsIn {c : Closure} (h : c.IsFunction w)
    (hP : ∀ P ∈ w.programs, Program.Accepted P) : ∀ s ∈ c.decl.body, s.ReturnsIn .function := by
  obtain ⟨_, zs, Γ, hsite, _⟩ := h
  have hbody := hsite.function.returnsIn hP
  rwa [Context.function_body] at hbody

theorem Closure.IsMethod.returnsIn {c : Closure} (h : c.IsMethod w)
    (hP : ∀ P ∈ w.programs, Program.Accepted P) :
    ∀ s ∈ c.decl.body, s.ReturnsIn (Context.methodKind c.decl.name.name) := by
  obtain ⟨_, zs, Γ, name, methods, hsite, hmem, _⟩ := h
  have hbody := (hsite.method hmem).returnsIn hP
  rwa [Context.function_body] at hbody

namespace Machine

variable {P : List (Program Binding)} {W : Roles} {E : ArenaFault → Prop} {m m' : Machine}
  {F : Enclosing}

/-- Every return still to come is allowed where it goes. -/
def Returning (m : Machine) : Prop := ∃ F, m.control.ReturnsIn F

theorem complete_returning {k : DoneCont} (hk : k.ReturnsIn F) (hc : c.ReturnsIn F) :
    (m.complete c k).Returning := ⟨F, hc, hk⟩

theorem normal_returning {k : DoneCont} (hk : k.ReturnsIn F) :
    (m.complete .normal k).Returning := complete_returning hk (Completion.returnsIn_normal F)

theorem fail_returning {k : DoneCont} (hk : k.ReturnsIn F) (fault : Fault) :
    (m.fail fault k).Returning := complete_returning hk (Completion.returnsIn_failing F fault)

theorem raise_returning {k : ValueCont} (hk : k.ReturnsIn F) (fault : RuntimeFault) (pos : Pos) :
    (m.raise fault pos k).Returning := fail_returning hk.enclosing _

theorem readRef_returning {k : ValueCont} (hk : k.ReturnsIn F) (name : Ident) (ref : Binding) :
    (m.readRef name ref k).Returning := by
  rw [readRef]
  split
  · exact ⟨F, hk⟩
  · exact fail_returning hk.enclosing _

theorem assignRef_returning {k : ValueCont} (hk : k.ReturnsIn F) (name : Ident) (ref : Binding)
    (v : Value) : (m.assignRef name ref v k).Returning := by
  rw [assignRef]
  split
  · exact ⟨F, hk⟩
  · exact fail_returning hk.enclosing _

theorem define_returning {k : DoneCont} (hk : k.ReturnsIn F) (name : Ident) (v : Value) :
    (m.define name v k).Returning := by
  rw [define]
  split
  · exact normal_returning hk
  · exact fail_returning hk _

theorem capture_returning {k : DoneCont} (hk : k.ReturnsIn F) {go : Machine → Machine}
    (hgo : ∀ m, (go m).Returning) : (m.capture k go).Returning := by
  obtain ⟨arena, broken, hcap⟩ : ∃ arena broken, m.store.arena.capture m.env = (arena, broken) :=
    ⟨_, _, rfl⟩
  rw [capture, hcap]
  cases broken with
  | none => exact hgo _
  | some h => exact fail_returning hk _

theorem evalStep_returning {k : ValueCont} (hk : k.ReturnsIn F) (e : Expr Binding) :
    (m.evalStep e k).Returning := by
  cases e with
  | read => exact readRef_returning hk _ _
  | receiver => exact readRef_returning hk _ _
  | _ => exact ⟨F, hk⟩

theorem execStep_returning {k : DoneCont} (hs : s.ReturnsIn F) (hk : k.ReturnsIn F) :
    (m.execStep s k).Returning := by
  cases s with
  | expression => exact ⟨F, hk⟩
  | print => exact ⟨F, hk⟩
  | varDecl name init =>
    cases init with
    | none => exact define_returning hk _ _
    | some => exact ⟨F, hk⟩
  | block => cases hs with | block hbody => exact normal_returning (F := F) ⟨hbody, hk⟩
  | branch => cases hs with | branch hyes hno => exact ⟨F, ⟨hyes, hno⟩, hk⟩
  | loop => cases hs with | loop hbody => exact ⟨F, hbody, hk⟩
  | funDecl => exact capture_returning hk fun m => define_returning hk _ _
  | ret pos value =>
    cases hs with
    | ret hsome hinit =>
      cases value with
      | none => exact complete_returning hk fun v hv => ⟨hsome, fun _ => by cases hv; rfl⟩
      | some e => exact ⟨F, ⟨hsome, fun hF => by cases hinit hF⟩, hk⟩
  | classDecl => exact capture_returning hk fun m => define_returning hk _ _

theorem enter_function_returning {k : ValueCont} {c : Closure} (hk : k.ReturnsIn F)
    (hbody : ∀ s ∈ c.decl.body, s.ReturnsIn .function) (args : List Value) (paren : Pos) :
    (m.enter c none args paren k).Returning := by
  rw [enter]
  split
  · exact raise_returning hk _ _
  · refine normal_returning (F := .function) ⟨hbody, ⟨?_, fun hresult => ?_⟩, F, hk⟩
    · intro h
      cases h
    · cases hresult

theorem enter_method_returning {k : ValueCont} {c : Closure} (hk : k.ReturnsIn F)
    (hbody : ∀ s ∈ c.decl.body, s.ReturnsIn (Context.methodKind c.decl.name.name)) (i : Instance)
    (args : List Value) (paren : Pos) : (m.enter c (some i) args paren k).Returning := by
  rw [enter]
  split
  · exact raise_returning hk _ _
  · refine normal_returning (F := Context.methodKind c.decl.name.name)
      ⟨hbody, ⟨?_, fun hresult => ?_⟩, F, hk⟩
    · rw [Context.methodKind]
      split <;> intro h <;> cases h
    · split at hresult
      · exact if_pos ‹_›
      · cases hresult

theorem checkArity_returning {k : ValueCont} (hk : k.ReturnsIn F) {go : Machine → Machine}
    (hgo : (go m).Returning) : (m.checkArity arity args paren k go).Returning := by
  rw [checkArity]
  split
  · exact hgo
  · exact raise_returning hk _ _

theorem callStep_returning {k : ValueCont} {v : Value} (hv : v.Fits w)
    (hP : ∀ P ∈ w.programs, Program.Accepted P) (hk : k.ReturnsIn F) (args : List Value)
    (paren : Pos) : (m.callStep v args paren k).Returning := by
  cases v with
  | function id c =>
    exact checkArity_returning hk (enter_function_returning hk (hv.returnsIn hP) _ _)
  | method id c i =>
    exact checkArity_returning hk (enter_method_returning hk (hv.1.returnsIn hP) _ _ _)
  | cls c =>
    rw [callStep]
    apply checkArity_returning hk
    cases hinit : c.initializer? with
    | none => exact ⟨F, hk⟩
    | some init => exact enter_method_returning hk ((hv _ _ hinit).2.returnsIn hP) _ _ _
  | _ => exact raise_returning hk _ _

theorem argumentStep_returning {k : ValueCont} {v : Value} (hv : v.Fits w)
    (hP : ∀ P ∈ w.programs, Program.Accepted P) (hk : k.ReturnsIn F) (done : List Value)
    (rest : List (Expr Binding)) (paren : Pos) :
    (m.argumentStep v done rest paren k).Returning := by
  cases rest with
  | nil => exact callStep_returning hv hP hk _ _
  | cons => exact ⟨F, hk⟩

theorem operate_returning {k : ValueCont} (hk : k.ReturnsIn F) (result : Except RuntimeFault Value)
    (pos : Pos) : (m.operate result pos k).Returning := by
  cases result with
  | ok => exact ⟨F, hk⟩
  | error => exact raise_returning hk _ _

theorem valueStep_returning {k : ValueCont} (hv : v.Fits w) (hfits : ValueCont.Fits w h zs Γ k)
    (hP : ∀ P ∈ w.programs, Program.Accepted P) (hk : k.ReturnsIn F) :
    (m.valueStep v k).Returning := by
  cases k with
  | unary op pos k => exact operate_returning (k := k) hk _ _
  | left => exact ⟨F, hk⟩
  | right left op pos k => exact operate_returning (k := k) hk _ _
  | logical =>
    rw [valueStep]
    split <;> exact ⟨F, hk⟩
  | assign name ref k => exact assignRef_returning (k := k) hk _ _ _
  | callee args paren k => exact argumentStep_returning (k := k) hv hP hk _ _ _
  | argument callee done rest paren k =>
    cases hfits with
    | argument hcallee => exact argumentStep_returning (k := k) hcallee hP hk _ _ _
  | get name k =>
    cases v with
    | object i =>
      rw [valueStep]
      split
      · exact ⟨F, hk⟩
      · exact raise_returning (k := k) hk _ _
    | _ => exact raise_returning (k := k) hk _ _
  | setObject name value k =>
    cases v with
    | object i => exact ⟨F, hk⟩
    | _ => exact raise_returning (k := k) hk _ _
  | setValue => exact ⟨F, hk⟩
  | discard k => exact normal_returning (k := k) hk
  | print k => exact normal_returning (k := k) hk
  | define name k => exact define_returning (k := k) hk _ _
  | branch yes no k =>
    obtain ⟨⟨hyes, hno⟩, hk⟩ := hk
    cases no with
    | none =>
      rw [valueStep]
      split
      · exact ⟨F, hyes, hk⟩
      · exact normal_returning hk
    | some no =>
      rw [valueStep]
      split
      · exact ⟨F, hyes, hk⟩
      · exact ⟨F, hno no rfl, hk⟩
  | test c body k =>
    rw [valueStep]
    split
    · exact ⟨F, hk.1, hk⟩
    · exact normal_returning hk.2
  | ret k => exact complete_returning hk.2 fun v _ => ⟨hk.1.1, fun hF => absurd hF hk.1.2⟩

theorem completeStep_returning {c : Completion} {k : DoneCont} (hc : c.ReturnsIn F)
    (hk : k.ReturnsIn F) (hstep : m.completeStep c k = some m') : m'.Returning := by
  cases k with
  | program rest =>
    obtain ⟨rfl, hrest⟩ := hk
    cases rest with
    | nil => cases c <;> cases hstep
    | cons s rest =>
      obtain ⟨hs, hrest⟩ := List.forall_mem_cons.1 hrest
      cases c with
      | failing => cases hstep
      | normal => cases hstep; exact ⟨_, hs, rfl, hrest⟩
      | returning => cases hstep; exact ⟨_, hs, rfl, hrest⟩
  | sequence rest k =>
    obtain ⟨hrest, hk⟩ := hk
    cases c with
    | normal =>
      cases rest with
      | nil => cases hstep; exact normal_returning hk
      | cons s rest =>
        obtain ⟨hs, hrest⟩ := List.forall_mem_cons.1 hrest
        cases hstep
        exact ⟨F, hs, hrest, hk⟩
    | returning => cases hstep; exact complete_returning hk hc
    | failing => cases hstep; exact complete_returning hk hc
  | again condition body k =>
    cases c with
    | normal => cases hstep; exact ⟨F, hk⟩
    | returning => cases hstep; exact complete_returning hk.2 hc
    | failing => cases hstep; exact complete_returning hk.2 hc
  | leaveBlock outer k =>
    rw [completeStep] at hstep
    split at hstep
    · cases hstep; exact complete_returning (k := k) hk hc
    · cases hstep; exact fail_returning (k := k) hk _
  | leaveCall outer receiver result k =>
    obtain ⟨_, F', hk⟩ := hk
    rw [completeStep] at hstep
    split at hstep
    · cases hstep
      exact fail_returning hk.enclosing _
    · cases c with
      | failing => cases hstep; exact fail_returning hk.enclosing _
      | normal => cases result <;> cases hstep <;> exact ⟨F', hk⟩
      | returning => cases result <;> cases hstep <;> exact ⟨F', hk⟩

theorem Fits.step_returning (hm : m.Fits P W E) (hr : m.Returning) (hstep : m.step = some m') :
    m'.Returning := by
  obtain ⟨hs, hctl⟩ := hm
  obtain ⟨F, hF⟩ := hr
  rw [Machine.step] at hstep
  generalize m.control = control at hctl hstep hF
  cases hctl with
  | eval => cases hstep; exact evalStep_returning hF _
  | exec => cases hstep; exact execStep_returning hF.1 hF.2
  | value hv _ hk => cases hstep; exact valueStep_returning hv hk hs.sound.accepted hF
  | complete => exact completeStep_returning hF.1 hF.2 hstep

theorem Fits.run_returning (hm : m.Fits P W fun _ => True) (hr : m.Returning) (n : Nat) :
    (m.run n).Returning :=
  (@Fits.run_keeps _ _ _ [] (fun _ => Returning) hm hr
    (fun _ _ _ _ hm hstep hr => hm.step_returning hr hstep) n).1

/-- The call of an initializer has failed at once, or its body comes next and the instance after
it. -/
def Initializes (k : ValueCont) (b : Bound) (m : Machine) : Prop :=
  (∃ fault, m.control = .complete (.failing fault) k.enclosing) ∨
    ∃ outer self, m.control = .complete .normal
      (.sequence b.method.decl.body (.leaveCall outer (some self) (some b.receiver) k))

theorem raise_initializes (fault : RuntimeFault) (pos : Pos) :
    (m.raise fault pos k).Initializes k b := .inl ⟨_, rfl⟩

theorem enter_initializes {c : Closure} (hname : c.decl.name.name = initializerName) (i : Instance)
    (args : List Value) (paren : Pos) :
    (m.enter c (some i) args paren k).Initializes k ⟨c, i⟩ := by
  rw [enter]
  split
  · apply raise_initializes
  · exact .inr ⟨_, _, rfl⟩

theorem checkArity_initializes {go : Machine → Machine} (hgo : (go m).Initializes k b) :
    (m.checkArity arity args paren k go).Initializes k b := by
  rw [checkArity]
  split
  · exact hgo
  · apply raise_initializes

theorem callStep_initializes {v : Value} (hb : v.bound? m.store.nextId = some b)
    (hname : b.method.decl.name.name = initializerName) (args : List Value) (paren : Pos) :
    (m.callStep v args paren k).Initializes k b := by
  cases v with
  | method id c i =>
    cases hb
    exact checkArity_initializes (enter_initializes hname i args paren)
  | cls c =>
    obtain ⟨init, hinit, rfl⟩ := Option.map_eq_some_iff.1 hb
    rw [callStep]
    apply checkArity_initializes
    rw [hinit]
    exact enter_initializes hname _ args paren
  | _ => cases hb

theorem step_initializes (hcall : m.control.Calls k) (hv : m.control.callee? = some v)
    (hb : v.bound? m.store.nextId = some b) (hname : b.method.decl.name.name = initializerName) :
    ∃ m₁, m.step = some m₁ ∧ m₁.Initializes k b := by
  rw [Machine.step]
  generalize m.control = control at hcall hv
  cases hcall with
  | plain =>
    cases hv
    exact ⟨_, rfl, callStep_initializes hb hname _ _⟩
  | arguments =>
    cases hv
    exact ⟨_, rfl, callStep_initializes hb hname _ _⟩

end Machine

namespace Session

theorem Moment.returning (hm : Moment programs past m) : m.Returning := by
  cases hm with
  | intro hist hacc n =>
    obtain ⟨W, hs, _⟩ := hist.fits
    have hP := Program.accepted_resolve hacc.proper
    have htop := Site.returnsIn (List.forall_mem_singleton.2 hP) (.program List.mem_cons_self)
    exact (hs.start hP).run_returning ⟨.none, Completion.returnsIn_normal _, rfl, htop⟩ n

/-- Returns stay inside functions. Where a statement at the top level of a program has ended without
a fault, it has ended normally. The call of an initializer that does not fail at once runs its body
and then gives the instance, and a return that comes to the end of an initializer has no value to
lose. -/
theorem returns_inside (hm : Moment programs past m) :
    (∀ c rest, m.control = .complete c (.program rest) → (∀ fault, c ≠ .failing fault) →
      c = .normal) ∧
    (∀ k v b, m.control.Calls k → m.control.callee? = some v →
      v.bound? m.store.nextId = some b → b.method.decl.name.name = initializerName →
      ∃ m₁, m.step = some m₁ ∧ m₁.Initializes k b) ∧
    ∀ u outer receiver i k,
      m.control = .complete (.returning u) (.leaveCall outer receiver (some i) k) → u = .nil := by
  obtain ⟨F, hF⟩ := hm.returning
  refine ⟨fun c rest hctl hne => ?_, fun k v b => Machine.step_initializes,
    fun u outer receiver i k hctl => ?_⟩
  · rw [hctl] at hF
    obtain ⟨hc, rfl, _⟩ := hF
    cases c with
    | normal => rfl
    | returning v => exact absurd rfl (hc v rfl).1
    | failing fault => exact absurd rfl (hne fault)
  · rw [hctl] at hF
    obtain ⟨hc, ⟨_, hinit⟩, _⟩ := hF
    exact (hc u rfl).2 (hinit rfl)

/-- The value with which the machine leaves an initializer. -/
def leftWith? : Control → Option Value
  | .eval .. | .exec .. | .value .. => none
  | .complete c k =>
    match k with
    | .program .. | .sequence .. | .again .. | .leaveBlock .. => none
    | .leaveCall _ _ result _ =>
      result.bind fun _ =>
        match c with
        | .normal | .failing .. => none
        | .returning v => some v

theorem eq_of_leftWith? {c : Control} (h : (leftWith? c).isSome = true) :
    ∃ v outer receiver i k, c = .complete (.returning v) (.leaveCall outer receiver (some i) k) := by
  cases c with
  | complete c k =>
    cases k with
    | leaveCall outer receiver result k =>
      cases result with
      | none => cases h
      | some i =>
        cases c with
        | returning v => exact ⟨v, outer, receiver, i, k, rfl⟩
        | _ => cases h
    | _ => cases h
  | _ => cases h

/-- An initializer returns early, from a block in a loop. -/
theorem returns_inside_early :
    ∃ programs past m u outer receiver i k, Moment programs past m ∧
      m.control = .complete (.returning u) (.leaveCall outer receiver (some i) k) ∧ u = .nil := by
  let source := "class A \x7b init() \x7b while (true) \x7b return; \x7d \x7d \x7d A();"
  have hacc : (new true).Accepts source (readProgram source).1 :=
    ⟨rfl, Prod.ext rfl (by decide +kernel : (readProgram source).2 = []), by decide +kernel⟩
  have hm := Moment.intro (.new true) hacc 18
  have hend : (leftWith? ((Machine.start (new true).store (new true).env
      (readProgram source).1.resolve).run 18).control).isSome = true := by decide +kernel
  obtain ⟨u, outer, receiver, i, k, hctl⟩ := eq_of_leftWith? hend
  exact ⟨_, _, _, u, outer, receiver, i, k, hm, hctl, (returns_inside hm).2.2 _ _ _ _ _ hctl⟩

end Session

end Lox
