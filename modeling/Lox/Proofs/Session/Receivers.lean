import Lox.Proofs.Scope.Receiver
import Lox.Proofs.Session.Instances
import Lox.Proofs.Session.LocalReads
import Lox.Proofs.Session.Owners
import Lox.Proofs.Session.Scopes

namespace Lox
set_option autoImplicit true

/-- The environment of a receiver, around the parameters of a method: it binds the receiver and no
other name, and lies in the environment of the method. -/
structure Environment.IsReceiver (b : Bound) (e : Environment) : Prop where
  enclosing : e.enclosing = some b.method.env
  values : e.values = Bindings.empty.set receiverName (.object b.receiver)

namespace Machine

variable {P : List (Program Binding)} {W : Roles} {S : Owners} {E : ArenaFault → Prop} {m : Machine}
  {past : List Machine}

theorem Knows.receiver_read (hk : m.Knows W S past) (hm : m.Fits P W E)
    (hreg : ∀ Q ∈ P, ∀ D ∈ Program.declarations Q, D.Regular)
    (hctl : m.control = .eval (.receiver pos ref) k) :
    ∃ b zs Γ inside around, Site P zs Γ (.expr (.receiver pos ref)) ∧
      m.store.arena.Chain W m.env zs Γ.scopes ∧
      zs = inside ++ .function b.method.decl :: .receiver :: around ∧ Zone.receiver ∉ inside ∧
      (Receivers.after past).current = some b ∧ m.step = some (m.give (.object b.receiver) k) := by
  have hfits := hm.control
  rw [hctl] at hfits
  cases hfits with
  | @eval zs Γ _ _ hsite hc _ =>
    obtain ⟨inside, decl, around, rfl, hin, rfl⟩ :=
      hsite.receiver_zones hm.store.sound.accepted hreg
    obtain ⟨i, e, b, hanc, hown, rfl, hvalues⟩ := hk.arena.nearest hc hin
    refine ⟨b, _, Γ, inside, around, hsite, hc, rfl, hin, hk.current.trans hown, ?_⟩
    have hread : m.store.read m.env receiverName (.bound (inside.length + 1)) =
        .ok (.object b.receiver) := by
      rw [Store.read_bound hanc, hvalues, Bindings.get?_set, if_pos rfl]
    rw [Machine.step, hctl]
    show some (m.readRef ⟨receiverName, pos⟩ _ k) = _
    rw [readRef, hread]

theorem Knows.receiver_kept (hk : m.Knows W S past) (hmem : m₀ ∈ past)
    (ho : m₀.Opens h .receiver) :
    ∃ v b, m₀.control.callee? = some v ∧ v.bound? m₀.store.nextId = some b ∧
      (∃ m₁ e, m₀.step = some m₁ ∧ m₁.store.arena.get? h = some e ∧ e.IsReceiver b) ∧
      ∀ e, m.store.arena.get? h = some e → e.IsReceiver b := by
  obtain ⟨m₁, v, b, e₁, hstep, _, _, hcallee, hbound, hg₁, henc₁, hvalues₁⟩ := ho.bound
  refine ⟨v, b, hcallee, hbound, ⟨m₁, e₁, hstep, hg₁, henc₁, hvalues₁⟩, fun e hg => ?_⟩
  obtain ⟨hz, v', b', hcallee', hbound', hown⟩ := hk.record m₀ hmem h ho
  cases hcallee.symm.trans hcallee'
  cases hbound.symm.trans hbound'
  cases hk.arena h e hg with
  | globals _ hnone => cases hz.symm.trans hnone
  | inner hne => exact absurd hz hne
  | receiver _ hown' henc _ hvalues =>
    cases hown.symm.trans hown'
    exact ⟨henc, hvalues⟩

/-- No instance that exists has the identity of the next new one. -/
theorem Knows.fresh_instance (hk : m.Knows W S past)
    (h : m.Holds (.object i) ∨ ∃ j c, m.Holds (.method j c i)) : i.id ≠ m.store.nextId := by
  rcases h with h | ⟨j, c, h⟩
  · exact Nat.ne_of_lt (hk.values _ h)
  · exact Nat.ne_of_lt (hk.values _ h)

end Machine

namespace Session

/-- The receiver, wherever it is evaluated, is the instance to which the innermost method of a class
around was bound in the call that is running, or in the one in which the running function was made.
The environment that the call of a method makes for its receiver binds nothing else, and stays as it
was made for as long as it is there. A call of a class that gives a value gives a new instance of the
class, and a call of an initializer the instance to which it is bound. -/
theorem receivers_hold (hm : Moment programs past m) :
    (∀ pos ref k, m.control = .eval (.receiver pos ref) k →
      ∃ b zs Γ hs inside around, Site programs zs Γ (.expr (.receiver pos ref)) ∧
        m.Surrounds past hs zs ∧ zs = inside ++ .function b.method.decl :: .receiver :: around ∧
        Zone.receiver ∉ inside ∧ (Receivers.after past).current = some b ∧
        m.step = some (m.give (.object b.receiver) k)) ∧
    (∀ m₀ ∈ past, ∀ h, m₀.Opens h .receiver →
      ∃ v b, m₀.control.callee? = some v ∧ v.bound? m₀.store.nextId = some b ∧
        (∃ m₁ e, m₀.step = some m₁ ∧ m₁.store.arena.get? h = some e ∧ e.IsReceiver b) ∧
        ∀ e, m.store.arena.get? h = some e → e.IsReceiver b) ∧
    ∀ k v n u, m.control.Calls k → m.control.callee? = some v →
      (∀ m' ∈ m.trace n, ¬(Cont.value k).Ends m'.control) → (m.run n).control = .value u k →
      (∀ c, v = .cls c → u = .object ⟨m.store.nextId, c⟩ ∧
        ∀ i, (m.Holds (.object i) ∨ ∃ j c, m.Holds (.method j c i)) → i.id ≠ m.store.nextId) ∧
      ∀ j c i, v = .method j c i → c.decl.name.name = initializerName → u = .object i := by
  obtain ⟨W, S, hfits, hW, hk⟩ := hm.knows
  refine ⟨fun pos ref k hctl => ?_, fun m₀ hmem h ho => hk.receiver_kept hmem ho,
    fun k v n u hcall hcallee hne hu => ⟨?_, ?_⟩⟩
  · obtain ⟨b, zs, Γ, inside, around, hsite, hc, hrest⟩ := hk.receiver_read hfits hm.regular hctl
    obtain ⟨hs, hsur⟩ := Machine.Fits.surrounds hfits.store hW hc
    exact ⟨b, zs, Γ, hs, inside, around, hsite, hsur, hrest⟩
  · rintro c rfl
    exact ⟨hfits.call_instance hcall hcallee rfl hne hu, fun i => hk.fresh_instance⟩
  · rintro j c i rfl hname
    exact hfits.call_instance hcall hcallee (if_pos hname) hne hu

/-- A function that was made in a method is called after the method has been called for another
instance. -/
theorem receivers_hold_nested :
    ∃ programs past m pos ref k b m₀ h, Moment programs past m ∧
      m.control = .eval (.receiver pos ref) k ∧ (Receivers.after past).current = some b ∧
      b.receiver.id = 1 ∧ m.step = some (m.give (.object b.receiver) k) ∧ m₀ ∈ past ∧
      m₀.Opens h .receiver ∧ ∃ b₀ : Bound, ∀ e, m.store.arena.get? h = some e → e.IsReceiver b₀ := by
  let source := "class A \x7b m() \x7b fun f() \x7b return this; \x7d return f; \x7d \x7d " ++
    "var f = A().m(); A().m(); f();"
  have hacc : (new true).Accepts source (readProgram source).1 :=
    ⟨rfl, Prod.ext rfl (by decide +kernel : (readProgram source).2 = []), by decide +kernel⟩
  have hm := Moment.intro (.new true) hacc 45
  have hid : (Receivers.after ((Machine.start (new true).store (new true).env
      (readProgram source).1.resolve).trace 45 ++ [])).current.map (·.receiver.id) = some 1 := by
    decide +kernel
  generalize hst : (Machine.start _ _ _).run 45 = m at hm
  generalize (Machine.start _ _ _).trace 45 ++ [] = past at hm hid
  have hreceiver : (match m.control with
      | .eval (.receiver _ _) _ => true
      | _ => false) = true := by
    rw [← hst]
    decide +kernel
  split at hreceiver
  · rename_i pos ref k hctl
    obtain ⟨hread, hkept, _⟩ := receivers_hold hm
    obtain ⟨b, zs, Γ, hs, inside, around, _, hsur, rfl, _, hb, hstep⟩ := hread pos ref k hctl
    have hid : b.receiver.id = 1 := by simpa [hb] using hid
    -- the environment of the receiver is one of those around
    have hmade := List.forall₂_drop_append _ _ _ hsur.made
    generalize hs.drop _ = rest at hmade
    cases hmade with
    | cons _ hmade =>
      cases hmade with
      | @cons h _ _ _ hopens _ =>
        obtain ⟨m₀, hmem, ho⟩ := hopens
        obtain ⟨_, b₀, _, _, _, hsame⟩ := hkept m₀ hmem h ho
        exact ⟨_, past, m, pos, ref, k, b, m₀, h, hm, hctl, hb, hid, hstep, hmem, ho, b₀, hsame⟩
  · cases hreceiver

end Session

end Lox
