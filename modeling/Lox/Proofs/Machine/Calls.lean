import Lox.Proofs.Machine.Access

namespace Lox
set_option autoImplicit true

variable {P : List (Program Binding)} {W : Roles} {E : ArenaFault → Prop} {m : Machine}
  {zs zs' : List (Zone Binding)} {Ss : List Scope} {Γ Γ' : Context} {args : List Value}

namespace World

variable {w : World} {h outer : Handle}

theorem Sound.lt_next (hw : w.Sound) (hc : w.Chain h zs Ss) : h < w.arena.next := by
  obtain ⟨e, hg⟩ := hc.live
  exact hw.below _ e hg

theorem Sound.enter_zone {vals : Bindings Value} (hw : w.Sound) (hc : w.Chain outer zs Ss)
    (hv : ∀ x v, vals.get? x = some v → v.Fits w)
    (hx : ∀ x, vals.contains x = true → z.scope.contains x = true)
    (hS : ∀ x, Bindings.get? S x = some .ready → vals.contains x = true) :
    (w.enter outer vals z).Sound ∧
      (w.enter outer vals z).Chain w.arena.next (z :: zs) (S :: Ss) := by
  obtain ⟨e, hg, _⟩ := hc.globals_live
  exact ⟨hw.enter hv hx (hw.below _ e hg), hc.new hw.below (hw.later_enter outer outer vals z).roles
    (Roles.set_self _ _ _) fun x h => .inl (hS x h)⟩

theorem Sound.enter_block (hw : w.Sound) (hc : w.Chain outer zs Ss) (body : List (Stmt Binding)) :
    (w.enter outer {} (.block body)).Sound ∧
      (w.enter outer {} (.block body)).Chain w.arena.next (.block body :: zs) ({} :: Ss) :=
  hw.enter_zone hc (by simp) (by simp) (by simp)

def params (decl : FunDecl Binding) (args : List Value) : Bindings Value :=
  .ofList ((decl.params.map (·.name)).zip args)

theorem Sound.enter_function {decl : FunDecl Binding} (hw : w.Sound) (hc : w.Chain outer zs Ss)
    (hargs : ∀ u ∈ args, u.Fits w) (hlen : args.length = decl.params.length) :
    (w.enter outer (params decl args) (.function decl)).Sound ∧
      (w.enter outer (params decl args) (.function decl)).Chain w.arena.next
        (.function decl :: zs) (Scope.declare {} (decl.params.map (·.name)) :: Ss) := by
  refine hw.enter_zone hc (fun x v hv => ?_) (fun x hx => ?_) fun x hx => ?_
  · exact hargs v (List.of_mem_zip (Bindings.mem_of_get?_ofList hv)).2
  · obtain ⟨⟨n, v⟩, hmem, rfl⟩ := List.mem_map.1 ((Bindings.contains_ofList _ _).1 hx)
    exact ((Zone.function decl).contains_scope n).2 (.inl (List.of_mem_zip hmem).1)
  · rw [Scope.get?_declare] at hx
    split at hx
    · rename_i hmem
      refine (Bindings.contains_ofList _ _).2 ?_
      rwa [List.map_fst_zip (by simp [hlen])]
    · simp at hx

theorem Sound.enter_receiver (hw : w.Sound) (hc : w.Chain outer zs Ss) (hi : i.cls.Fits w) :
    (w.enter outer (Bindings.empty.set receiverName (.object i)) .receiver).Sound ∧
      (w.enter outer (Bindings.empty.set receiverName (.object i)) .receiver).Chain w.arena.next
        (.receiver :: zs) (Bindings.empty.set receiverName .ready :: Ss) := by
  refine hw.enter_zone hc (fun x v hv => ?_) (fun x hx => ?_) fun x hx => ?_
  · rw [Bindings.get?_set] at hv
    split at hv
    · cases hv
      exact hi
    · simp at hv
  · have hx' : receiverName = x := by simpa [Bindings.contains] using hx
    exact (Zone.contains_scope _ x).2 (.inl (List.mem_singleton.2 hx'.symm))
  · have hx' : receiverName = x := by simpa using hx
    simp [hx']

end World

namespace Machine

theorem raise_fits (hs : m.store.Fits P W) (hc : m.store.arena.Chain W m.env zs Ss)
    (hk : ValueCont.Fits (m.store.world P W) m.env zs Γ k) (fault : RuntimeFault) (pos : Pos) :
    (m.raise fault pos k).Fits P W E := by
  obtain ⟨Γ', hk'⟩ := hk.enclosing
  exact ⟨hs, .failing (fun f hf => nomatch hf) hc hk'⟩

theorem enter_function_fits (hs : m.store.Fits P W) (hc : m.store.arena.Chain W m.env zs Γ.scopes)
    (hk : ValueCont.Fits (m.store.world P W) m.env zs Γ k)
    (hf : c.IsFunction (m.store.world P W)) (hargs : ∀ u ∈ args, u.Fits (m.store.world P W))
    (hlen : args.length = c.arity) (hdepth : m.depth < callLimit) :
    (m.enter c none args paren k).Fits P (W.set m.store.arena.next (.function c.decl)) E := by
  obtain ⟨_, zs', Δ, hsite, hchain⟩ := hf
  rw [Machine.enter, if_neg (Nat.not_le_of_lt hdepth)]
  obtain ⟨hsound, hinner⟩ := hs.sound.enter_function hchain hargs hlen
  have hlater := hs.sound.later_enter m.env c.env (World.params c.decl args) (.function c.decl)
  have hbody := hsite.function
  refine ⟨hs.later hlater hsound, .normal ?_ (.sequence hbody ?_)⟩
  · rw [Context.scopes_body]
    exact hinner
  · exact .leaveFunction (hs.sound.lt_next hc) (hk.later hlater) (hlater.chain hc (Nat.le_refl _))

theorem enter_method_fits (hs : m.store.Fits P W) (hc : m.store.arena.Chain W m.env zs Γ.scopes)
    (hk : ValueCont.Fits (m.store.world P W) m.env zs Γ k)
    (hf : c.IsMethod (m.store.world P W)) (hi : i.cls.Fits (m.store.world P W))
    (hargs : ∀ u ∈ args, u.Fits (m.store.world P W)) (hlen : args.length = c.arity)
    (hdepth : m.depth < callLimit) :
    (m.enter c (some i) args paren k).Fits P ((W.set m.store.arena.next .receiver).set
      (m.store.arena.next + 1) (.function c.decl)) E := by
  obtain ⟨_, zs', Δ, name, methods, hsite, hmem, hchain⟩ := hf
  rw [Machine.enter, if_neg (Nat.not_le_of_lt hdepth)]
  obtain ⟨hsound, hself⟩ := hs.sound.enter_receiver hchain hi
  have hlater := hs.sound.later_enter m.env c.env
    (Bindings.empty.set receiverName (.object i)) .receiver
  obtain ⟨hsound', hinner⟩ := hsound.enter_function hself
    (fun u hu => (hargs u hu).later hlater) hlen
  have hlater' := hlater.trans
    (hsound.later_enter m.env m.store.arena.next (World.params c.decl args) (.function c.decl))
  have hbody := hsite.method hmem
  refine ⟨hs.later hlater' hsound', .normal ?_ (.sequence hbody ?_)⟩
  · rw [Context.scopes_body]
    exact hinner
  · refine .leaveMethod (hs.sound.lt_next hc) (Nat.lt_succ_self _)
      ((Arena.get?_new _ _ _ _).trans (if_pos rfl)) rfl ?_ (hk.later hlater')
      (hlater'.chain hc (Nat.le_refl _))
    intro j hj
    split at hj
    · cases hj
      exact hi.later hlater'
    · cases hj

/-- The environment around is current again, and what has been left is released. -/
structure Left (P : List (Program Binding)) (W : Roles) (outer : Handle) (s : Store) (m : Machine) :
    Prop where
  store : m.store.Fits P W
  env : m.env = outer
  later : World.Later outer (s.world P W) (m.store.world P W)

theorem leave_of_ok {left : List Handle} {a : Arena} (hs : m.store.Fits P W)
    (ha : left.foldlM Arena.release m.store.arena = .ok a)
    (hlater : World.Later outer (m.store.world P W) ⟨P, a, W⟩) (hsound : World.Sound ⟨P, a, W⟩) :
    ∃ m', m.leave outer left = (m', none) ∧ Left P W outer m.store m' := by
  refine ⟨{ m with env := outer, store := { m.store with arena := a } }, ?_,
    hs.later hlater hsound, rfl, hlater⟩
  rw [leave, ha]

theorem leave_zone (hs : m.store.Fits P W) (hg : m.store.arena.get? m.env = some e)
    (hlt : outer < m.env) :
    ∃ m', m.leave outer [m.env] = (m', none) ∧ Left P W outer m.store m' := by
  have hlater := World.later_release (w := m.store.world P W) hg hlt
  refine leave_of_ok hs ?_ hlater (hs.sound.release hg hlt)
  rw [List.foldlM_cons, Arena.release_eq_ok hg]
  rfl

theorem leave_method (hs : m.store.Fits P W) (hg : m.store.arena.get? m.env = some e)
    (hg' : m.store.arena.get? self = some f) (hlt : outer < self) (hlt' : self < m.env) :
    ∃ m', m.leave outer [m.env, self] = (m', none) ∧ Left P W outer m.store m' := by
  have hlater := World.later_release (w := m.store.world P W) hg hlt'
  obtain ⟨f', hf', _⟩ := hlater.keeps self f hg' (.inl (Nat.le_refl _))
  refine leave_of_ok hs ?_ ((hlater.mono (Nat.le_of_lt hlt)).trans (World.later_release hf' hlt))
    ((hs.sound.release hg hlt').release hf' hlt)
  rw [List.foldlM_cons, Arena.release_eq_ok hg]
  exact (congrArg (· >>= _) (Arena.release_eq_ok hf')).trans rfl

end Machine

end Lox
