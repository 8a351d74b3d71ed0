import Lox.Machine.Step
import Lox.Proofs.Machine.World

namespace Lox
set_option autoImplicit true

mutual

/-- A continuation that takes the value of an expression at a site, with `h` as the current
environment. -/
inductive ValueCont.Fits (w : World) :
    Handle → List (Zone Binding) → Context → ValueCont → Prop where
  | unary : ValueCont.Fits w h zs Γ k → ValueCont.Fits w h zs Γ (.unary op pos k)
  | left : Site w.programs zs Γ (.expr right) → ValueCont.Fits w h zs Γ k →
      ValueCont.Fits w h zs Γ (.left op pos right k)
  | right : Value.Fits w v → ValueCont.Fits w h zs Γ k → ValueCont.Fits w h zs Γ (.right v op pos k)
  | logical : Site w.programs zs Γ (.expr right) → ValueCont.Fits w h zs Γ k →
      ValueCont.Fits w h zs Γ (.logical op right k)
  | assign : Site w.programs zs Γ (.expr (.assign name ref value)) → ValueCont.Fits w h zs Γ k →
      ValueCont.Fits w h zs Γ (.assign name ref k)
  | callee : (∀ e ∈ args, Site w.programs zs Γ (.expr e)) → ValueCont.Fits w h zs Γ k →
      ValueCont.Fits w h zs Γ (.callee args paren k)
  | argument : Value.Fits w v → (∀ u ∈ done, Value.Fits w u) →
      (∀ e ∈ rest, Site w.programs zs Γ (.expr e)) → ValueCont.Fits w h zs Γ k →
      ValueCont.Fits w h zs Γ (.argument v done rest paren k)
  | get : ValueCont.Fits w h zs Γ k → ValueCont.Fits w h zs Γ (.get name k)
  | setObject : Site w.programs zs Γ (.expr value) → ValueCont.Fits w h zs Γ k →
      ValueCont.Fits w h zs Γ (.setObject name value k)
  | setValue : ClassObject.Fits w (Instance.cls i) → ValueCont.Fits w h zs Γ k →
      ValueCont.Fits w h zs Γ (.setValue i name k)
  | discard : DoneCont.Fits w h zs Γ' k → Context.Covers zs Γ Γ' →
      ValueCont.Fits w h zs Γ (.discard k)
  | print : DoneCont.Fits w h zs Γ' k → Context.Covers zs Γ Γ' →
      ValueCont.Fits w h zs Γ (.print k)
  | define : Site w.programs zs Γ (.stmt (.varDecl name (some init))) → DoneCont.Fits w h zs Γ' k →
      Context.Covers zs (Γ.mark name.name .ready) Γ' →
      ValueCont.Fits w h zs (Γ.mark name.name .pending) (.define name k)
  | branch : Site w.programs zs Γ (.stmt (.branch c yes no)) → DoneCont.Fits w h zs Γ' k →
      Context.Covers zs (Γ.after (.branch c yes no)) Γ' → ValueCont.Fits w h zs Γ (.branch yes no k)
  | test : Site w.programs zs Γ (.stmt (.loop c body)) → DoneCont.Fits w h zs Γ' k →
      Context.Covers zs Γ Γ' → ValueCont.Fits w h zs Γ (.test c body k)
  | ret : DoneCont.Fits w h zs Γ' k → ValueCont.Fits w h zs Γ (.ret k)

/-- A continuation that goes on after a statement, in the context behind it. -/
inductive DoneCont.Fits (w : World) :
    Handle → List (Zone Binding) → Context → DoneCont → Prop where
  | program : Site w.programs [] Γ (.row rest) → DoneCont.Fits w h [] Γ (.program rest)
  | sequence : Site w.programs zs Γ (.row rest) → DoneCont.Fits w h zs (Γ.afterAll rest) k →
      DoneCont.Fits w h zs Γ (.sequence rest k)
  | again : Site w.programs zs Γ (.stmt (.loop c body)) → DoneCont.Fits w h zs Γ' k →
      Context.Covers zs Γ Γ' → DoneCont.Fits w h zs Γ (.again c body k)
  /-- The environments that are left are newer than the one that is current again. -/
  | leaveBlock : outer < h → DoneCont.Fits w outer zs Γ' k → w.Chain outer zs Γ'.scopes →
      DoneCont.Fits w h (z :: zs) Γ (.leaveBlock outer k)
  | leaveFunction : outer < h → ValueCont.Fits w outer zs Γ' k → w.Chain outer zs Γ'.scopes →
      DoneCont.Fits w h (z :: zs') Γ (.leaveCall outer none none k)
  | leaveMethod : outer < self → self < h → w.arena.get? h = some e → e.enclosing = some self →
      (∀ i ∈ result, ClassObject.Fits w (Instance.cls i)) → ValueCont.Fits w outer zs Γ' k →
      w.Chain outer zs Γ'.scopes →
      DoneCont.Fits w h (z :: z' :: zs') Γ (.leaveCall outer (some self) result k)

end

mutual

theorem ValueCont.Fits.later (hk : ValueCont.Fits w h zs Γ k) (hw : World.Later h w w') :
    ValueCont.Fits w' h zs Γ k := by
  cases hk with
  | unary hk => exact .unary (hk.later hw)
  | left hs hk => exact .left (hs.mono hw.programs) (hk.later hw)
  | right hv hk => exact .right (hv.later hw) (hk.later hw)
  | logical hs hk => exact .logical (hs.mono hw.programs) (hk.later hw)
  | assign hs hk => exact .assign (hs.mono hw.programs) (hk.later hw)
  | callee hs hk => exact .callee (fun e he => (hs e he).mono hw.programs) (hk.later hw)
  | argument hv hd hs hk =>
    exact .argument (hv.later hw) (fun u hu => (hd u hu).later hw)
      (fun e he => (hs e he).mono hw.programs) (hk.later hw)
  | get hk => exact .get (hk.later hw)
  | setObject hs hk => exact .setObject (hs.mono hw.programs) (hk.later hw)
  | setValue hi hk => exact .setValue (hi.later hw) (hk.later hw)
  | discard hk hcov => exact .discard (hk.later hw) hcov
  | print hk hcov => exact .print (hk.later hw) hcov
  | define hs hk hcov => exact .define (hs.mono hw.programs) (hk.later hw) hcov
  | branch hs hk hcov => exact .branch (hs.mono hw.programs) (hk.later hw) hcov
  | test hs hk hcov => exact .test (hs.mono hw.programs) (hk.later hw) hcov
  | ret hk => exact .ret (hk.later hw)

theorem DoneCont.Fits.later (hk : DoneCont.Fits w h zs Γ k) (hw : World.Later h w w') :
    DoneCont.Fits w' h zs Γ k := by
  cases hk with
  | program hs => exact .program (hs.mono hw.programs)
  | sequence hs hk => exact .sequence (hs.mono hw.programs) (hk.later hw)
  | again hs hk hcov => exact .again (hs.mono hw.programs) (hk.later hw) hcov
  | leaveBlock hlt hk hc =>
    have hle := Nat.le_of_lt hlt
    exact .leaveBlock hlt (hk.later (hw.mono hle)) (hw.chain hc hle)
  | leaveFunction hlt hk hc =>
    have hle := Nat.le_of_lt hlt
    exact .leaveFunction hlt (hk.later (hw.mono hle)) (hw.chain hc hle)
  | leaveMethod hlt hlt' hg he hi hk hc =>
    have hle := Nat.le_of_lt (Nat.lt_trans hlt hlt')
    obtain ⟨e', hg', hgrows⟩ := hw.keeps _ _ hg (.inl (Nat.le_refl _))
    exact .leaveMethod hlt hlt' hg' (hgrows.enclosing.trans he) (fun i h => (hi i h).later hw)
      (hk.later (hw.mono hle)) (hw.chain hc hle)

end

theorem ValueCont.Fits.enclosing {k : ValueCont} (hk : ValueCont.Fits w h zs Γ k) :
    ∃ Γ', DoneCont.Fits w h zs Γ' k.enclosing := by
  induction k using ValueCont.rec (motive_2 := fun _ => True) with
  | unary _ _ _ ih => cases hk with | unary hk => exact ih hk
  | left _ _ _ _ ih => cases hk with | left _ hk => exact ih hk
  | right _ _ _ _ ih => cases hk with | right _ hk => exact ih hk
  | logical _ _ _ ih => cases hk with | logical _ hk => exact ih hk
  | assign _ _ _ ih => cases hk with | assign _ hk => exact ih hk
  | callee _ _ _ ih => cases hk with | callee _ hk => exact ih hk
  | argument _ _ _ _ _ ih => cases hk with | argument _ _ _ hk => exact ih hk
  | get _ _ ih => cases hk with | get hk => exact ih hk
  | setObject _ _ _ ih => cases hk with | setObject _ hk => exact ih hk
  | setValue _ _ _ ih => cases hk with | setValue _ hk => exact ih hk
  | discard => cases hk with | discard hk _ => exact ⟨_, hk⟩
  | print => cases hk with | print hk _ => exact ⟨_, hk⟩
  | define => cases hk with | define _ hk _ => exact ⟨_, hk⟩
  | branch => cases hk with | branch _ hk _ => exact ⟨_, hk⟩
  | test => cases hk with | test _ hk _ => exact ⟨_, hk⟩
  | ret => cases hk with | ret hk => exact ⟨_, hk⟩
  | program => trivial
  | sequence => trivial
  | again => trivial
  | leaveBlock => trivial
  | leaveCall => trivial

/-- The value that is returned fits the world. Faults that break out of a run are among `E`. -/
def Completion.Fits (w : World) (E : ArenaFault → Prop) : Completion → Prop
  | .normal => True
  | .returning v => v.Fits w
  | .failing fault => ∀ f, fault = .escape f → E f

theorem Completion.Fits.later {c : Completion} (hc : c.Fits w E) (hw : World.Later b w w') :
    c.Fits w' E := by
  cases c with
  | normal => trivial
  | returning => exact Value.Fits.later hc hw
  | failing => exact hc

inductive Control.Fits (w : World) (E : ArenaFault → Prop) (h : Handle) : Control → Prop where
  | eval : Site w.programs zs Γ (.expr e) → w.Chain h zs Γ.scopes → ValueCont.Fits w h zs Γ k →
      Control.Fits w E h (.eval e k)
  | exec : Site w.programs zs Γ (.stmt s) → w.Chain h zs Γ.scopes → DoneCont.Fits w h zs Γ' k →
      Context.Covers zs (Γ.after s) Γ' → Control.Fits w E h (.exec s k)
  | value : Value.Fits w v → w.Chain h zs Γ.scopes → ValueCont.Fits w h zs Γ k →
      Control.Fits w E h (.value v k)
  /-- A return or a fault can come before all has been declared. -/
  | complete : Completion.Fits w E c → w.Chain h zs Ss → (c = .normal → Ss = Γ.scopes) →
      DoneCont.Fits w h zs Γ k → Control.Fits w E h (.complete c k)

theorem Control.Fits.normal (hc : w.Chain h zs Γ.scopes) (hk : DoneCont.Fits w h zs Γ k) :
    Control.Fits w E h (.complete .normal k) := .complete trivial hc (fun _ => rfl) hk

theorem Control.Fits.returning (hv : v.Fits w) (hc : w.Chain h zs Ss)
    (hk : DoneCont.Fits w h zs Γ k) : Control.Fits w E h (.complete (.returning v) k) :=
  .complete (c := .returning v) hv hc nofun hk

theorem Control.Fits.failing (hE : ∀ f, fault = .escape f → E f) (hc : w.Chain h zs Ss)
    (hk : DoneCont.Fits w h zs Γ k) : Control.Fits w E h (.complete (.failing fault) k) :=
  .complete (c := .failing fault) hE hc nofun hk

def Store.world (programs : List (Program Binding)) (W : Roles) (s : Store) : World :=
  ⟨programs, s.arena, W⟩

structure Store.Fits (programs : List (Program Binding)) (W : Roles) (s : Store) : Prop where
  sound : (s.world programs W).Sound
  fields : ∀ i x v, (s.fieldsOf i).get? x = some v → Value.Fits (s.world programs W) v

structure Machine.Fits (programs : List (Program Binding)) (W : Roles) (E : ArenaFault → Prop)
    (m : Machine) : Prop where
  store : m.store.Fits programs W
  control : m.control.Fits (m.store.world programs W) E m.env

end Lox
