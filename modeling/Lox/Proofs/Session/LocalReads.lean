import Lox.Proofs.Compile
import Lox.Proofs.Session.Faults

namespace Lox
set_option autoImplicit true

variable {programs : List (Program Binding)} {zs : List (Zone Binding)} {Γ : Context}

theorem Site.zone_regular (hP : ∀ P ∈ programs, ∀ D ∈ Program.declarations P, D.Regular)
    (h : Site programs zs Γ c) (hz : z ∈ zs) : ∀ D ∈ z.declarations, D.Regular := by
  obtain ⟨P, hmem, hsite⟩ := h.own_program
  exact fun D hD => hP P hmem D (hsite.declarations.2 z hz hD)

theorem Site.outer_ready {d : Nat} (h : Site programs zs Γ (.expr e))
    (hS : Γ.scopes[d + 1]? = some S) (hx : S.contains x = true) : S.get? x = some .ready := by
  have hmem : S ∈ Γ.scopes.tail := by
    rw [← List.getElem?_tail] at hS
    exact List.mem_of_getElem? hS
  obtain ⟨status, hstatus⟩ := Bindings.contains_iff.1 hx
  cases status with
  | pending => exact (h.settled S hmem x hstatus).elim
  | ready => exact hstatus

theorem Site.read_ready {d : Nat} (hP : ∀ P ∈ programs, Program.Accepted P)
    (h : Site programs zs Γ (.expr (.read name ref))) (hS : Γ.scopes[d]? = some S)
    (hx : S.contains name.name = true) : S.get? name.name = some .ready := by
  cases d with
  | succ d => exact h.outer_ready hS hx
  | zero =>
    obtain ⟨status, hstatus⟩ := Bindings.contains_iff.1 hx
    cases status with
    | ready => exact hstatus
    | pending =>
      have hpending : Γ.status? name.name = some .pending := by
        rw [Context.status?, List.head?_eq_getElem?, hS]
        exact hstatus
      have hm := (h.proper hP).proper
      simp [Code.misuses, Expr.misuses, hpending] at hm

namespace Machine

variable {m : Machine} {W : Roles} {E : ArenaFault → Prop}

/-- The machine is about to read a variable of a program, which resolution has bound to the scope of
a zone. -/
structure Reads (m : Machine) (P : Program Binding) (name : Ident) (d : Nat) (z : Zone Binding) :
    Prop where
  control : ∃ k, m.control = .eval (.read name (.bound d)) k
  scope : ∃ zs Γ, Site [P] zs Γ (.expr (.read name (.bound d))) ∧
    Γ.binding name.name = .bound d ∧ zs[d]? = some z

/-- A variable is read in vain, and its scope declares a function of that name in a branch or a loop
without a block. -/
def Misses (programs : List (Program Binding)) (m : Machine) (fault : ArenaFault) : Prop :=
  ∃ name d, fault = .unbound name.name ∧ m.store.read m.env name.name (.bound d) = .error fault ∧
    ∃ P ∈ programs, ∃ z, m.Reads P name d z ∧ z.GuardsFunction name.name

theorem Fits.read_cases (hm : m.Fits programs W E)
    (hP : ∀ P ∈ programs, ∀ D ∈ Program.declarations P, D.Regular)
    (hctl : m.control = .eval (.read name (.bound d)) k) :
    ∃ P ∈ programs, ∃ z, m.Reads P name d z ∧
      ((∃ v, m.store.read m.env name.name (.bound d) = .ok v) ∨
        m.store.read m.env name.name (.bound d) = .error (.unbound name.name) ∧
          z.GuardsFunction name.name) := by
  obtain ⟨zs, Γ, S, z, hsite, hbind, hS, hx, hz, hread⟩ := hm.lookup hctl rfl
  obtain ⟨P, hmem, hown⟩ := hsite.own_program
  have hreads : m.Reads P name d z := ⟨⟨k, hctl⟩, zs, Γ, hown, hbind, hz⟩
  refine ⟨P, hmem, z, hreads, hread.imp_right fun ⟨herror, hguards⟩ => ?_⟩
  have hguards := hguards (hsite.read_ready hm.store.sound.accepted hS hx)
  exact ⟨herror, hguards.function (hsite.zone_regular hP (List.mem_of_getElem? hz))⟩

theorem Reads.not_guards (h : m.Reads P name d z) (hP : P.FunctionsDirect) :
    ¬z.GuardsFunction name.name := by
  obtain ⟨zs, Γ, hsite, _, hz⟩ := h.scope
  exact hP.not_guards hsite (List.mem_of_getElem? hz)

theorem Fits.receiver_read (hm : m.Fits programs W E)
    (hP : ∀ P ∈ programs, ∀ D ∈ Program.declarations P, D.Regular)
    (hctl : m.control = .eval (.receiver pos (.bound d)) k) :
    ∃ v, m.store.read m.env receiverName (.bound d) = .ok v := by
  obtain ⟨zs, Γ, S, z, hsite, _, hS, hx, hz, hread | ⟨_, hguards⟩⟩ := hm.lookup hctl rfl
  · exact hread
  · have hregular := hsite.zone_regular hP (List.mem_of_getElem? hz)
    cases Zone.eq_receiver hregular (hsite.within_at hS hz _ hx)
    cases d with
    | zero =>
      rw [← List.head?_eq_getElem?] at hz
      exact (hsite.head_ne_receiver hz).elim
    | succ d =>
      obtain ⟨s, hs, _⟩ := hguards (hsite.outer_ready hS hx)
      cases hs

theorem Fits.receiver_bound (hm : m.Fits programs W E)
    (hctl : m.control = .eval (.receiver pos ref) k) : ∃ d, ref = .bound d := by
  have hfits := hm.control
  rw [hctl] at hfits
  cases hfits with
  | eval hsite _ _ => exact hsite.receiver_bound hm.store.sound.accepted

end Machine

namespace Session

variable {s : Session} {past : List Machine}

theorem Accepts.regular (h : s.Accepts source tree) :
    ∀ D ∈ tree.resolve.declarations, D.Regular := by
  rw [Program.declarations_resolve]
  exact regular_of_readProgram h.read

theorem History.regular (h : History s programs past) :
    ∀ P ∈ programs, ∀ D ∈ P.declarations, D.Regular := by
  induction h with
  | new => exact fun P hP => nomatch hP
  | stopped _ _ ih => exact ih
  | executed _ hacc _ ih => exact List.forall_mem_cons.2 ⟨hacc.regular, ih⟩

theorem Moment.regular (h : Moment programs past m) :
    ∀ P ∈ programs, ∀ D ∈ P.declarations, D.Regular := by
  cases h with
  | intro hist hacc => exact List.forall_mem_cons.2 ⟨hacc.regular, hist.regular⟩

/-- A fault that breaks out of a run comes from reading a function that was left out. -/
theorem History.missing_function (hist : History s programs past)
    (hrun : (s.run limit source).answer = .escaped fault) :
    ∃ tree, s.Accepts source tree ∧ ∃ n < limit,
      ((Machine.start s.store s.env tree.resolve).run n).Misses (tree.resolve :: programs)
        fault := by
  obtain ⟨tree, hacc, n, hn, e, k, name, d, hctl, hlook, hread⟩ := escaped_misreads hist hrun
  have hm := Moment.intro hist hacc n
  obtain ⟨W, hfits, _⟩ := hm.fits
  cases e with
  | read =>
    cases hlook
    obtain ⟨P, hmem, z, hreads, ⟨v, hv⟩ | ⟨herror, hguards⟩⟩ := hfits.read_cases hm.regular hctl
    · cases hv.symm.trans hread
    · cases herror.symm.trans hread
      exact ⟨tree, hacc, n, hn, name, d, rfl, hread, P, hmem, z, hreads, hguards⟩
  | receiver =>
    cases hlook
    obtain ⟨v, hv⟩ := hfits.receiver_read hm.regular hctl
    cases hv.symm.trans hread
  | _ => cases hlook

/-- After any runs, a fault breaks out of the next one only from reading a variable whose scope
declares a function of that name in a branch or a loop without a block. All else that is local is
found: the receiver, and every variable of a program that declares its local functions directly.
Programs of that kind never break out. -/
theorem local_reads_succeed (hist : History s programs past) :
    (∀ limit source fault, (s.run limit source).answer = .escaped fault →
      ∃ tree, s.Accepts source tree ∧ ∃ n < limit,
        ((Machine.start s.store s.env tree.resolve).run n).Misses (tree.resolve :: programs)
          fault) ∧
    (∀ source tree n, s.Accepts source tree →
      ∀ m, m = (Machine.start s.store s.env tree.resolve).run n →
        (∀ name d k, m.control = .eval (.read name (.bound d)) k →
          ∃ P ∈ tree.resolve :: programs, ∃ z, m.Reads P name d z ∧
            (P.FunctionsDirect → ∃ v, m.store.read m.env name.name (.bound d) = .ok v)) ∧
        ∀ pos ref k, m.control = .eval (.receiver pos ref) k →
          ∃ d v, ref = .bound d ∧ m.store.read m.env receiverName (.bound d) = .ok v) ∧
    ((∀ P ∈ programs, P.FunctionsDirect) → ∀ limit source fault,
      (∀ tree, s.Accepts source tree → tree.FunctionsDirect) →
        (s.run limit source).answer ≠ .escaped fault) := by
  refine ⟨fun limit source fault => hist.missing_function, ?_, ?_⟩
  · rintro source tree n hacc m rfl
    have hm := Moment.intro hist hacc n
    obtain ⟨W, hfits, _⟩ := hm.fits
    refine ⟨fun name d k hctl => ?_, fun pos ref k hctl => ?_⟩
    · obtain ⟨P, hmem, z, hreads, hread⟩ := hfits.read_cases hm.regular hctl
      refine ⟨P, hmem, z, hreads, fun hP => ?_⟩
      exact hread.resolve_right fun ⟨_, hguards⟩ => hreads.not_guards hP hguards
    · obtain ⟨d, rfl⟩ := hfits.receiver_bound hctl
      obtain ⟨v, hv⟩ := hfits.receiver_read hm.regular hctl
      exact ⟨d, v, rfl, hv⟩
  · intro hdirect limit source fault htree hrun
    obtain ⟨tree, hacc, n, _, name, d, _, _, P, hmem, z, hreads, hguards⟩ :=
      hist.missing_function hrun
    have hP : ∀ P ∈ tree.resolve :: programs, P.FunctionsDirect :=
      List.forall_mem_cons.2 ⟨(htree tree hacc).resolve, hdirect⟩
    exact hreads.not_guards (hP P hmem) hguards

/-- A function that is left out is missed. Without the condition before it there is no fault. -/
theorem local_reads_succeed_unguarded :
    (∃ tree, (new true).Accepts "\x7b if (false) fun g() \x7b\x7d g(); \x7d" tree ∧ ∃ n < 100,
      ((Machine.start (new true).store (new true).env tree.resolve).run n).Misses [tree.resolve]
        (.unbound "g")) ∧
    ∀ limit fault,
      ((new true).run limit "\x7b fun g() \x7b\x7d g(); \x7d").answer ≠ .escaped fault := by
  have hreads := local_reads_succeed (.new true)
  refine ⟨hreads.1 100 _ _ (by decide +kernel), fun limit fault => ?_⟩
  refine hreads.2.2 (fun P hP => nomatch hP) limit _ fault fun tree hacc => ?_
  have htree : tree = (readProgram "\x7b fun g() \x7b\x7d g(); \x7d").1 := by rw [hacc.read]
  rw [htree]
  decide +kernel

end Session

end Lox
