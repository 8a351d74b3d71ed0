import Lox.Proofs.Session.History

namespace Lox
set_option autoImplicit true

namespace Machine

variable {P : List (Program Binding)} {W : Roles} {E : ArenaFault → Prop} {m : Machine}

theorem mem_trace (h : m' ∈ trace n m) : ∃ i < n, m' = m.run i := by
  induction n generalizing m with
  | zero => cases h
  | succ n ih =>
    rw [trace] at h
    cases hstep : m.step with
    | none => rw [hstep] at h; cases h
    | some m₁ =>
      rw [hstep] at h
      rcases List.mem_append.1 h with h | h
      · obtain ⟨i, hi, rfl⟩ := ih h
        exact ⟨i + 1, Nat.succ_lt_succ hi, by rw [run, hstep]⟩
      · exact ⟨0, Nat.zero_lt_succ n, List.mem_singleton.1 h⟩

theorem Fits.fault (hm : m.Fits P W E) (hout : m.outcome = .failed (.escape f)) : E f := by
  obtain ⟨_, hctl⟩ := hm
  rw [outcome] at hout
  generalize m.control = control at hctl hout
  split at hout
  · cases hout
    cases hctl with
    | complete hcomp => exact hcomp f rfl
  · cases hout
  · cases hout

/-- A look-up reaches the environment it was meant for. If it does not find the name there, the name
is not ready or its declaration is guarded. -/
theorem Fits.lookup (hm : m.Fits P W E) (hctl : m.control = .eval e k)
    (hlook : e.lookup? = some (name, .bound d)) :
    ∃ zs Γ S z, Site P zs Γ (.expr e) ∧ Γ.binding name.name = .bound d ∧ Γ.scopes[d]? = some S ∧
      S.contains name.name = true ∧ zs[d]? = some z ∧
      ((∃ v, m.store.read m.env name.name (.bound d) = .ok v) ∨
        m.store.read m.env name.name (.bound d) = .error (.unbound name.name) ∧
          (S.get? name.name = some .ready → z.Guards name.name)) := by
  have hfits := hm.control
  rw [hctl] at hfits
  cases hfits with
  | @eval zs Γ _ _ hsite hc _ =>
    have hbind : Γ.binding name.name = .bound d :=
      (hsite.proper hm.store.sound.accepted).binding (Expr.reference?_of_lookup? hlook)
    obtain ⟨S, hS, hx, _⟩ := Context.binding_eq_bound hbind
    obtain ⟨i, env, z, ha, _, hz, _, hhas⟩ := hc.ancestor hS
    refine ⟨zs, Γ, S, z, hsite, hbind, hS, hx, hz, ?_⟩
    rw [Store.read_bound ha]
    cases hv : env.values.get? name.name with
    | some v => exact .inl ⟨v, rfl⟩
    | none =>
      refine .inr ⟨rfl, fun hready => ?_⟩
      rcases hhas _ hready with hb | hguard
      · simp [Bindings.contains, hv] at hb
      · exact hguard

theorem Fits.misreads (hm : m.Fits P W E) (hmis : m.Misreads f) : ∃ name, f = .unbound name := by
  obtain ⟨e, k, name, d, hctl, hlook, hread⟩ := hmis
  obtain ⟨_, _, _, _, _, _, _, _, _, ⟨v, hv⟩ | ⟨herror, _⟩⟩ := hm.lookup hctl hlook
  · cases hv.symm.trans hread
  · cases herror.symm.trans hread
    exact ⟨_, rfl⟩

end Machine

namespace Session

variable {s : Session} {programs : List (Program Binding)} {past : List Machine}

/-- A fault that breaks out of a run comes from a look-up in that run. -/
theorem escaped_misreads (hist : History s programs past)
    (hrun : (s.run limit source).answer = .escaped f) :
    ∃ tree, s.Accepts source tree ∧ ∃ n < limit,
      ((Machine.start s.store s.env tree.resolve).run n).Misreads f := by
  by_cases hacc : ∃ tree, s.Accepts source tree
  · obtain ⟨tree, hacc⟩ := hacc
    obtain ⟨W, hs, hW⟩ := hist.fits
    let m := Machine.start s.store s.env tree.resolve
    obtain ⟨_, hfits, _⟩ := Machine.Fits.run (m := m) (n := limit)
      (E := fun f => ∃ m' ∈ m.trace limit, m'.Misreads f)
      (hs.start (Program.accepted_resolve hacc.proper)) hW fun m' hm' f hf => ⟨m', hm', hf⟩
    rw [hacc.run_eq, execute, store_begin, env_begin] at hrun
    have hout : (m.run limit).outcome = .failed (.escape f) := by
      split at hrun
      · cases hrun
      · cases hrun
      · cases hrun
        assumption
      · cases hrun
    obtain ⟨m', hm', hmis⟩ := hfits.fault hout
    obtain ⟨n, hn, rfl⟩ := Machine.mem_trace hm'
    exact ⟨tree, hacc, n, hn, hmis⟩
  · obtain ⟨_, _, n, hn⟩ := run_of_not_accepts (fun tree h => hacc ⟨tree, h⟩) limit
    cases hn.symm.trans hrun

end Session

end Lox
