import Lox.Proofs.Session.CallLocals
import Lox.Proofs.Session.Effects

namespace Lox
set_option autoImplicit true

/-- The instance that a call of a value gives, whatever its body returns: a class gives a new one,
with the identity `n`, and an initializer the one it is bound to. -/
def Value.instance? (n : Identity) : Value → Option Instance
  | .cls c => some ⟨n, c⟩
  | .method _ c i => if c.decl.name.name = initializerName then some i else none
  | _ => none

namespace Machine

variable {m m' : Machine} {k : ValueCont} {i : Instance}

/-- The call that goes on with `k` has given the instance, has failed, or is to give it. -/
inductive Returns (k : ValueCont) (i : Instance) (m : Machine) : Prop where
  | value : m.control = .value (.object i) k → Returns k i m
  | failed : m.control = .complete (.failing fault) k.enclosing → Returns k i m
  | body : m.Inside (.done (.leaveCall outer receiver (some i) k)) b → Returns k i m

theorem Inside.not_value (h : m.Inside (.done (.leaveCall outer receiver result k)) b) (u : Value) :
    m.control ≠ .value u k := by
  intro hctl
  rcases h with h | ⟨⟨c, hend⟩, _⟩
  · rw [hctl] at h
    rcases h.eq_or_lt with ⟨heq, _⟩ | hlt
    · cases heq
    · simp only [Control.cont, Cont.done.sizeOf_spec, Cont.value.sizeOf_spec,
        DoneCont.leaveCall.sizeOf_spec] at hlt
      omega
  · cases hctl.symm.trans hend

theorem Returns.eq (h : m.Returns k i) (hu : m.control = .value u k) : u = .object i := by
  cases h with
  | value hv => cases hu.symm.trans hv; rfl
  | failed hf => cases hu.symm.trans hf
  | body hin => exact (hin.not_value u hu).elim

theorem leaveCall_returns {c : Completion}
    (hstep : m.completeStep c (.leaveCall outer receiver (some i) k) = some m') :
    m'.Returns k i := by
  rw [completeStep] at hstep
  split at hstep
  · cases hstep
    exact .failed rfl
  · cases c with
    | failing => cases hstep; exact .failed rfl
    | normal => cases hstep; exact .value rfl
    | returning => cases hstep; exact .value rfl

theorem Returns.step (h : m.Returns k i) (hne : ¬(Cont.value k).Ends m.control)
    (hstep : m.step = some m') : m'.Returns k i := by
  cases h with
  | value hv => exact absurd (.inl ⟨_, hv⟩) hne
  | failed hf => exact absurd (.inr ⟨_, hf⟩) hne
  | @body outer receiver b hin =>
    by_cases hend : (Cont.done (.leaveCall outer receiver (some i) k)).Ends m.control
    · obtain ⟨c, hctl⟩ := hend
      rw [Machine.step, hctl] at hstep
      exact leaveCall_returns hstep
    · exact .body (hin.step hend hstep)

theorem Returns.run (h : m.Returns k i)
    (hne : ∀ m' ∈ m.trace n, ¬(Cont.value k).Ends m'.control) : (m.run n).Returns k i := by
  induction n generalizing m with
  | zero => exact h
  | succ n ih =>
    rw [trace] at hne
    rw [Machine.run]
    cases hstep : m.step with
    | none => exact h
    | some m' =>
      rw [hstep] at hne
      exact ih (h.step (hne m (by simp)) hstep) fun m₀ hm₀ => hne m₀ (by simp [hm₀])

theorem enter_returns {c : Closure} (hname : c.decl.name.name = initializerName) (args : List Value)
    (paren : Pos) : (m.enter c (some i) args paren k).Returns k i := by
  rw [enter]
  split
  · exact .failed rfl
  · exact .body (.inl (.push rfl .refl))

theorem checkArity_returns {go : Machine → Machine} (hgo : (go m).Returns k i) :
    (m.checkArity arity args paren k go).Returns k i := by
  rw [checkArity]
  split
  · exact hgo
  · exact .failed rfl

theorem callStep_returns {v : Value} (hv : v.Fits w) (hi : v.instance? m.store.nextId = some i)
    (args : List Value) (paren : Pos) : (m.callStep v args paren k).Returns k i := by
  cases v with
  | cls c =>
    cases hi
    rw [callStep]
    apply checkArity_returns
    cases hinit : c.initializer? with
    | none => exact .value rfl
    | some init => exact enter_returns (hv _ _ hinit).1 _ _
  | method j c i' =>
    rw [Value.instance?] at hi
    split at hi
    · rename_i hname
      cases hi
      rw [callStep]
      apply checkArity_returns
      exact enter_returns hname _ _
    · cases hi
  | _ => cases hi

theorem Fits.returns (hm : m.Fits P W E) (hcall : m.control.Calls k)
    (hv : m.control.callee? = some v) (hi : v.instance? m.store.nextId = some i)
    (hstep : m.step = some m') : m'.Returns k i := by
  obtain ⟨_, hctl⟩ := hm
  rw [Machine.step] at hstep
  generalize m.control = control at hcall hctl hstep hv
  cases hcall with
  | plain =>
    cases hstep
    cases hv
    cases hctl with
    | value hfits _ _ => exact callStep_returns hfits hi _ _
  | arguments =>
    cases hstep
    cases hv
    cases hctl with
    | value _ _ hk =>
      cases hk with
      | argument hfits _ _ _ => exact callStep_returns hfits hi _ _

theorem not_value_of_calls (hcall : m.control.Calls k) (u : Value) : m.control ≠ .value u k := by
  intro hctl
  rw [hctl] at hcall
  cases hcall

/-- If the call of a class or of an initializer gives a value, it is the instance. -/
theorem Fits.call_instance (hm : m.Fits P W E) (hcall : m.control.Calls k)
    (hv : m.control.callee? = some v) (hi : v.instance? m.store.nextId = some i)
    (hne : ∀ m' ∈ m.trace n, ¬(Cont.value k).Ends m'.control)
    (hu : (m.run n).control = .value u k) : u = .object i := by
  cases n with
  | zero => exact (not_value_of_calls hcall u hu).elim
  | succ n =>
    rw [trace] at hne
    rw [Machine.run] at hu
    cases hstep : m.step with
    | none =>
      rw [hstep] at hu
      exact (not_value_of_calls hcall u hu).elim
    | some m₁ =>
      rw [hstep] at hu hne
      have hreturns := hm.returns hcall hv hi hstep
      exact (hreturns.run fun m' hm' => hne m' (List.mem_append_left _ hm')).eq hu

end Machine

end Lox
