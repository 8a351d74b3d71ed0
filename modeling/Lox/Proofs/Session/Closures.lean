import Lox.Proofs.Session.Faults

namespace Lox
set_option autoImplicit true

/-- The functions in a value: a function, or the methods of a class, also those of an instance and
of what is bound to one. -/
inductive Value.Carries : Value → Closure → Prop where
  | function : Carries (.function n c) c
  | method : Carries (.method n c i) c
  | receiver : i.cls.methods.get? name = some c → Carries (.method n c' i) c
  | cls : Bindings.get? methods name = some c → Carries (.cls ⟨n, className, methods⟩) c
  | object : i.cls.methods.get? name = some c → Carries (.object i) c

/-- The environment in which a function was made. -/
def Value.home? : Value → Option Handle
  | .function _ c => some c.env
  | _ => none

theorem Value.carries_of_home? {v : Value} (h : v.home? = some i) :
    ∃ c, v.Carries c ∧ c.env = i := by
  cases v with
  | function n c => exact ⟨c, .function, Option.some.inj h⟩
  | _ => cases h

theorem Value.Fits.kept {v : Value} (hv : v.Fits w) (hc : v.Carries c) : w.arena.Kept c.env := by
  cases hc with
  | function => exact hv.1
  | method => exact hv.1.1
  | receiver hm => exact (hv.2 _ _ hm).2.1
  | cls hm => exact (hv _ _ hm).2.1
  | object hm => exact (hv _ _ hm).2.1

mutual

def ValueCont.values : ValueCont → List Value
  | .unary _ _ k | .left _ _ _ k | .logical _ _ k | .assign _ _ k | .callee _ _ k | .get _ k
  | .setObject _ _ k => k.values
  | .right left _ _ k => left :: k.values
  | .argument callee done _ _ k => callee :: (done ++ k.values)
  | .setValue target _ k => .object target :: k.values
  | .discard k | .print k | .define _ k | .branch _ _ k | .test _ _ k | .ret k => k.values

def DoneCont.values : DoneCont → List Value
  | .program _ => []
  | .sequence _ k | .again _ _ k | .leaveBlock _ k => k.values
  | .leaveCall _ _ result k => result.toList.map .object ++ k.values

end

def Control.values : Control → List Value
  | .eval _ k => k.values
  | .exec _ k => k.values
  | .value v k => v :: k.values
  | .complete (.returning v) k => v :: k.values
  | .complete _ k => k.values

mutual

theorem ValueCont.Fits.values (hk : ValueCont.Fits w h zs Γ k) : ∀ v ∈ k.values, v.Fits w := by
  cases hk with
  | unary hk => exact hk.values
  | left _ hk => exact hk.values
  | right hv hk => exact List.forall_mem_cons.2 ⟨hv, hk.values⟩
  | logical _ hk => exact hk.values
  | assign _ hk => exact hk.values
  | callee _ hk => exact hk.values
  | argument hv hd _ hk =>
    exact List.forall_mem_cons.2 ⟨hv, List.forall_mem_append.2 ⟨hd, hk.values⟩⟩
  | get hk => exact hk.values
  | setObject _ hk => exact hk.values
  | setValue hi hk => exact List.forall_mem_cons.2 ⟨hi, hk.values⟩
  | discard hk _ => exact hk.values
  | print hk _ => exact hk.values
  | define _ hk _ => exact hk.values
  | branch _ hk _ => exact hk.values
  | test _ hk _ => exact hk.values
  | ret hk => exact hk.values

theorem DoneCont.Fits.values (hk : DoneCont.Fits w h zs Γ k) : ∀ v ∈ k.values, v.Fits w := by
  cases hk with
  | program => exact fun v hv => nomatch hv
  | sequence _ hk => exact hk.values
  | again _ hk _ => exact hk.values
  | leaveBlock _ hk _ => exact hk.values
  | leaveFunction _ hk _ => exact hk.values
  | leaveMethod _ _ _ _ hi hk _ =>
    refine List.forall_mem_append.2 ⟨fun v hv => ?_, hk.values⟩
    obtain ⟨i, hmem, rfl⟩ := List.mem_map.1 hv
    exact hi i (Option.mem_toList.1 hmem)

end

theorem Control.Fits.values (hc : Control.Fits w E h c) : ∀ v ∈ c.values, v.Fits w := by
  cases hc with
  | eval _ _ hk => exact hk.values
  | exec _ _ hk _ => exact hk.values
  | value hv _ hk => exact List.forall_mem_cons.2 ⟨hv, hk.values⟩
  | @complete c _ _ _ _ hcomp _ _ hk =>
    cases c with
    | normal => exact hk.values
    | returning v => exact List.forall_mem_cons.2 ⟨hcomp, hk.values⟩
    | failing => exact hk.values

/-- A value is stored: bound in an environment that is there, or in a field of an instance. -/
inductive Store.Holds (s : Store) : Value → Prop where
  | bound : s.arena.get? h = some e → e.values.get? name = some v → Holds s v
  | field (i : Instance) : (s.fieldsOf i).get? name = some v → Holds s v

/-- A value exists in a state: it is stored, or an evaluation in progress has it. -/
inductive Machine.Holds (m : Machine) : Value → Prop where
  | stored : m.store.Holds v → Holds m v
  | control : v ∈ m.control.values → Holds m v

theorem Store.Fits.holds {s : Store} (hs : s.Fits P W) (hv : s.Holds v) : v.Fits (s.world P W) := by
  cases hv with
  | bound hg hv => exact hs.sound.values _ _ _ _ hg hv
  | field i hv => exact hs.fields i _ _ hv

theorem Machine.Fits.holds {m : Machine} (hm : m.Fits P W E) (hv : m.Holds v) :
    v.Fits (m.store.world P W) := by
  cases hv with
  | stored hv => exact hm.store.holds hv
  | control hv => exact hm.control.values _ hv

namespace Session

/-- After any runs, and at any moment of the next one, the environment of every function that exists
is kept. So no run breaks off because an environment is missing. -/
theorem no_closure_dangles (hist : History s programs past) :
    (∀ v c, s.store.Holds v → v.Carries c → s.store.arena.Kept c.env) ∧
    (∀ source tree n, s.Accepts source tree →
      ∀ v c, ((Machine.start s.store s.env tree.resolve).run n).Holds v → v.Carries c →
        ((Machine.start s.store s.env tree.resolve).run n).store.arena.Kept c.env) ∧
    ∀ limit source fault, (s.run limit source).answer = .escaped fault →
      ∃ name, fault = .unbound name := by
  obtain ⟨W, hs, hW⟩ := hist.fits
  refine ⟨fun v c hv hc => (hs.store.holds hv).kept hc, ?_, ?_⟩
  · intro source tree n hacc v c hv hc
    obtain ⟨W, hfits, _⟩ := (Moment.intro hist hacc n).fits
    exact (hfits.holds hv).kept hc
  · intro limit source fault hrun
    obtain ⟨tree, hacc, n, _, hmis⟩ := escaped_misreads hist hrun
    obtain ⟨W, hfits, _⟩ := (Moment.intro hist hacc n).fits
    exact hfits.misreads hmis

/-- A function outlives its block, which breaks off before its end. -/
theorem no_closure_dangles_after_escape :
    ∃ s programs past v c, History s programs past ∧ s.store.Holds v ∧ v.Carries c ∧
      c.env ≠ globals ∧ s.store.arena.Kept c.env := by
  let source :=
    "var f; \x7b var a; fun h() \x7b return a; \x7d f = h; " ++
      "if (false) fun g() \x7b\x7d g(); \x7d"
  have hacc : (new true).Accepts source (readProgram source).1 :=
    ⟨rfl, Prod.ext rfl (by decide +kernel : (readProgram source).2 = []), by decide +kernel⟩
  have hend : ((new true).run 100 source).answer = .escaped (.unbound "g") := by decide +kernel
  have hstop : ((new true).run 100 source).answer ≠ .unfinished := by
    rw [hend]
    exact nofun
  have hist := History.executed (.new true) hacc hstop
  generalize hs : ((new true).run 100 source).session = s at hist
  have hf : ((s.store.arena.get? globals).bind (·.values.get? "f")).bind Value.home? = some 1 := by
    rw [← hs]
    decide +kernel
  obtain ⟨v, hval, hhome⟩ := Option.bind_eq_some_iff.1 hf
  obtain ⟨e, hg, hv⟩ := Option.bind_eq_some_iff.1 hval
  obtain ⟨c, hc, henv⟩ := Value.carries_of_home? hhome
  have hkept := (no_closure_dangles hist).1 v c (.bound hg hv) hc
  exact ⟨s, _, _, v, c, hist, .bound hg hv, hc, henv ▸ by decide, hkept⟩

end Session

end Lox
