import Lox.Proofs.Session.History

namespace Lox
set_option autoImplicit true

/-- The environments from `h` outward, before the globals. -/
inductive Arena.Path (a : Arena) : Handle → List Handle → Prop where
  | globals {e} : a.get? globals = some e → e.enclosing = none → Path a globals []
  | link {h outer e hs} : a.get? h = some e → e.enclosing = some outer → Path a outer hs →
      Path a h (h :: hs)

theorem Arena.Chain.path {a : Arena} (hc : a.Chain W h zs Ss) :
    ∃ hs, a.Path h hs ∧ List.Forall₂ (fun h z => W h = some z) hs zs := by
  induction hc with
  | globals hg he => exact ⟨[], .globals hg he, .nil⟩
  | link hg he _ hz _ _ ih =>
    obtain ⟨hs, hpath, hzs⟩ := ih
    exact ⟨_, .link hg he hpath, .cons hz hzs⟩

theorem Arena.Path.ancestor {a : Arena} {hs : List Handle} {d : Nat} (hp : a.Path h hs)
    (hd : hs[d]? = some i) : ∃ e, a.ancestor h d = .ok (i, e) := by
  induction hp generalizing d with
  | globals => simp at hd
  | @link h outer e hs hg he _ ih =>
    cases d with
    | zero =>
      cases hd
      exact ⟨e, ancestor_zero hg⟩
    | succ d =>
      obtain ⟨f, hf⟩ := ih hd
      exact ⟨f, (ancestor_link hg he d).trans hf⟩

/-- The code that the machine is at. It comes back to an assignment when the value is there. -/
inductive Control.At : Control → Code Binding → Prop where
  | eval : At (.eval e k) (.expr e)
  | exec : At (.exec s k) (.stmt s)
  | assign : At (.value v (.assign name ref k)) (.expr (.assign name ref e))

/-- The environments `hs` around the current one are those of the zones `zs`: each was made for its
zone, and binds no name that the zone does not declare. -/
structure Machine.Surrounds (past : List Machine) (m : Machine) (hs : List Handle)
    (zs : List (Zone Binding)) : Prop where
  path : m.store.arena.Path m.env hs
  made : List.Forall₂ (fun h z => ∃ m' ∈ past, m'.Opens h z) hs zs
  names : List.Forall₂ (fun h z => ∀ e x, m.store.arena.get? h = some e →
    e.values.contains x = true → z.scope.contains x = true) hs zs

theorem Machine.Fits.surrounds {m : Machine} (hs : m.store.Fits P W) (hW : Recorded past W)
    (hc : m.store.arena.Chain W m.env zs Ss) : ∃ hs, m.Surrounds past hs zs := by
  obtain ⟨hs', hpath, hzs⟩ := hc.path
  exact ⟨hs', hpath, hzs.imp fun h z hz => hW h z hz,
    hzs.imp fun h z hz e x hg hx => hs.sound.names h e z x hg hz hx⟩

theorem Control.Fits.at_site {c : Control} (hctl : c.Fits w E h) (hat : c.At code) :
    ∃ code zs Γ, c.At code ∧ Site w.programs zs Γ code ∧ w.Chain h zs Γ.scopes := by
  cases hat with
  | eval => cases hctl with | eval hsite hc _ => exact ⟨_, _, _, .eval, hsite, hc⟩
  | exec => cases hctl with | exec hsite hc _ _ => exact ⟨_, _, _, .exec, hsite, hc⟩
  | assign =>
    cases hctl with
    | value _ hc hk => cases hk with | assign hsite _ => exact ⟨_, _, _, .assign, hsite, hc⟩

/-- Whenever the machine is at a piece of code, that code stands in as many scopes as there are
environments before the globals, and each of these was made for the scope at its place. The distance
noted at a reference leads to the environment of the nearest scope that has the name. -/
theorem Session.scopes_agree (hm : Moment programs past m) (hat : m.control.At code₀) :
    ∃ code zs Γ hs, m.control.At code ∧ Site programs zs Γ code ∧ code.resolve Γ = code ∧
      List.Forall₂ Scope.Within Γ.scopes zs ∧ m.Surrounds past hs zs ∧
      ∀ x d, code.reference? = some (x, .bound d) →
        ∃ h e S, hs[d]? = some h ∧ m.store.arena.ancestor m.env d = .ok (h, e) ∧
          Γ.scopes[d]? = some S ∧ S.contains x = true ∧
          ∀ i < d, ∀ T, Γ.scopes[i]? = some T → T.contains x = false := by
  obtain ⟨W, hfits, hW⟩ := hm.fits
  obtain ⟨code, zs, Γ, hat, hsite, hc⟩ := hfits.control.at_site hat
  have hproper := hsite.proper hfits.store.sound.accepted
  obtain ⟨hs, hsur⟩ := Machine.Fits.surrounds hfits.store hW hc
  refine ⟨code, zs, Γ, hs, hat, hsite, hproper.resolved, hsite.within, hsur, fun x d href => ?_⟩
  obtain ⟨S, hS, hx, hnearer⟩ := Context.binding_eq_bound (hproper.binding href)
  have hlen : hs.length = Γ.scopes.length := hsur.made.length_eq.trans hsite.length.symm
  have hd : d < hs.length := hlen ▸ (List.getElem?_eq_some_iff.1 hS).1
  obtain ⟨e, he⟩ := hsur.path.ancestor (List.getElem?_eq_getElem hd)
  exact ⟨hs[d], e, S, List.getElem?_eq_getElem hd, he, hS, hx, hnearer⟩

/-- A method reads its own local variable from a block: the second of three scopes. -/
theorem Session.scopes_agree_in_method :
    ∃ programs past m name k zs Γ hs h e, Moment programs past m ∧
      m.control = .eval (.read name (.bound 1)) k ∧
      Site programs zs Γ (.expr (.read name (.bound 1))) ∧ m.Surrounds past hs zs ∧
      hs[1]? = some h ∧ m.store.arena.ancestor m.env 1 = .ok (h, e) := by
  let source :=
    "class A \x7b m() \x7b var y = this; \x7b return y; \x7d \x7d \x7d var a = A(); a.m();"
  have hacc : (new true).Accepts source (readProgram source).1 :=
    ⟨rfl, Prod.ext rfl (by decide +kernel : (readProgram source).2 = []), by decide +kernel⟩
  have hm := Moment.intro (.new true) hacc 23
  generalize hst : (Machine.start _ _ _).run 23 = m at hm
  have hread : (match m.control with
      | .eval (.read _ (.bound 1)) _ => true
      | _ => false) = true := by
    rw [← hst]
    decide +kernel
  split at hread
  · rename_i name k hctl
    have hat : m.control.At (.expr (.read name (.bound 1))) := by
      rw [hctl]
      exact .eval
    obtain ⟨code, zs, Γ, hs, hat, hsite, _, _, hsur, href⟩ := scopes_agree hm hat
    rw [hctl] at hat
    cases hat
    obtain ⟨h, e, S, hh, ha, _⟩ := href _ _ rfl
    exact ⟨_, _, m, name, k, zs, Γ, hs, h, e, hm, hctl, hsite, hsur, hh, ha⟩
  · cases hread

end Lox
