import Lox.Proofs.Alike.Machine

namespace Lox
set_option autoImplicit true

variable {ι : Type} {R : ι → Likeness} {T T' : Renamings} {σ τ : Renaming} {i : ι}

/-- The zones of new environments leave the functions alone that their renamings have to. -/
structure Renamings.Grown (T' T : Renamings) (next : Handle) (zones : List (Zone Binding)) :
    Prop where
  extends_old : T'.Extends T
  made : ∀ h σ, T' h = some σ →
    T h = some σ ∨ ∃ j z, zones[j]? = some z ∧ h = next + j ∧ z.Fixes (σ 0)

theorem Renamings.Grown.refl (T : Renamings) (next : Handle) (zones : List (Zone Binding)) :
    T.Grown T next zones := ⟨.refl T, fun _ _ => .inl⟩

theorem Renamings.Grown.set {T T' : Renamings} (h : T'.Grown T next zones)
    (hT : (T'.set (next + zones.length) σ).Extends T') (hz : z.Fixes (σ 0)) :
    (T'.set (next + zones.length) σ).Grown T next (zones ++ [z]) where
  extends_old := hT.trans h.extends_old
  made := by
    intro i τ hi
    rw [Renamings.set] at hi
    split at hi
    · rename_i heq
      cases hi
      exact .inr ⟨zones.length, z, by simp, heq.symm, hz⟩
    · rcases h.made i τ hi with hold | ⟨j, z', hj, heq, hfix⟩
      · exact .inl hold
      · have hlt := (List.getElem?_eq_some_iff.1 hj).1
        exact .inr ⟨j, z', by rwa [List.getElem?_append_left hlt], heq, hfix⟩

namespace Machine

/-- What two machines come to by a step of `m` that enters the zones. -/
def Together (R : ι → Likeness) (T : Renamings) (zones : List (Zone Binding)) (m n n' : Machine) :
    Prop := ∃ T', T'.Grown T m.store.arena.next zones ∧ n.Alike R T' n'

variable {m m' n n' : Machine}

theorem Alike.together (h : n.Alike R T n') (zones : List (Zone Binding)) (m : Machine) :
    Together R T zones m n n' := ⟨T, .refl T _ _, h⟩

namespace Level

variable {v v' : Value}

theorem control (hl : m.Level R T σ m') (c c' : Control) :
    Level R T σ { m with control := c } { m' with control := c' } :=
  ⟨hl.store, hl.env, hl.scopes, hl.depth, hl.printed⟩

theorem with_store (hl : m.Level R T σ m') (hs : s.Alike R T s') :
    Level R T σ { m with store := s } { m' with store := s' } :=
  ⟨hs, hl.env, hl.scopes, hl.depth, hl.printed⟩

theorem eval (hl : m.Level R T σ m') (he : Expr.Alike (R i) σ e e')
    (hk : ValueCont.Alike R T i σ k k') : (m.eval e k).Alike R T (m'.eval e' k') :=
  ⟨σ, hl.control _ _, .eval he hk⟩

theorem exec (hl : m.Level R T σ m') (hs : Stmt.Alike (R i) σ s s')
    (hk : DoneCont.Alike R T i σ k k') : (m.exec s k).Alike R T (m'.exec s' k') :=
  ⟨σ, hl.control _ _, .exec hs hk⟩

theorem give (hl : m.Level R T σ m') (hv : v.Alike R T v') (hk : ValueCont.Alike R T i σ k k') :
    (m.give v k).Alike R T (m'.give v' k') :=
  ⟨σ, hl.control _ _, .value hv hk⟩

theorem complete (hl : m.Level R T σ m') (hc : c.Alike R T c')
    (hk : DoneCont.Alike R T i σ k k') : (m.complete c k).Alike R T (m'.complete c' k') :=
  ⟨σ, hl.control _ _, .complete hc hk⟩

theorem fail (hl : m.Level R T σ m') (hf : f.Alike R f') (hk : DoneCont.Alike R T i σ k k') :
    (m.fail f k).Alike R T (m'.fail f' k') := hl.complete (.failing hf) hk

theorem raise (hl : m.Level R T σ m') (hp : (R i).place p p')
    (hk : ValueCont.Alike R T i σ k k') (f : RuntimeFault) :
    (m.raise f p k).Alike R T (m'.raise f p' k') := hl.fail (.error hp) hk.enclosing

theorem readRef {n n' : Ident} (hl : m.Level R T σ m') (hn : Ident.Alike (R i) (σ.along ref) n n')
    (hk : ValueCont.Alike R T i σ k k')
    (hmiss : ∀ f, m.store.read m.env n.name ref = .error f → σ.along ref n.name = n.name) :
    (m.readRef n ref k).Alike R T (m'.readRef n' ref k') := by
  have hread := hl.store.read hl.env hl.scopes hn.name hmiss
  unfold Machine.readRef
  generalize m.store.read m.env n.name ref = x, m'.store.read m'.env n'.name ref = x' at hread
  cases hread with
  | ok hv => exact hl.give hv hk
  | error => exact hl.fail (Fault.alike_ofArena hn.place _) hk.enclosing

theorem assignRef {n n' : Ident} (hl : m.Level R T σ m')
    (hn : Ident.Alike (R i) (σ.along ref) n n') (hv : v.Alike R T v')
    (hk : ValueCont.Alike R T i σ k k') :
    (m.assignRef n ref v k).Alike R T (m'.assignRef n' ref v' k') := by
  have hassign := hl.store.assign hl.env hl.scopes hn.name hv
  unfold Machine.assignRef
  generalize m.store.assign m.env n.name ref v = x, m'.store.assign m'.env n'.name ref v' = x'
    at hassign
  cases hassign with
  | ok hs => exact (hl.with_store hs).give hv hk
  | error => exact hl.fail (Fault.alike_ofArena hn.place _) hk.enclosing

theorem define {n n' : Ident} (hl : m.Level R T σ m') (hn : n'.name = σ 0 n.name)
    (hv : v.Alike R T v') (hk : DoneCont.Alike R T i σ k k') :
    (m.define n v k).Alike R T (m'.define n' v' k') := by
  have hdefine := hl.store.define hl.env hl.scopes hn hv
  unfold Machine.define
  generalize m.store.define m.env n.name v = x, m'.store.define m'.env n'.name v' = x' at hdefine
  cases hdefine with
  | ok hs => exact (hl.with_store hs).complete .normal hk
  | error => exact hl.fail .escape hk

theorem capture (hl : m.Level R T σ m') {go go' : Machine → Machine}
    (hgo : ∀ n n', n.Level R T σ n' → (go n).Alike R T (go' n'))
    (hk : DoneCont.Alike R T i σ k k') : (m.capture k go).Alike R T (m'.capture k' go') := by
  obtain ⟨ha, hbroken⟩ := hl.store.arena.capture hl.env
  have hl' := hl.with_store (hl.store.of_arena ha)
  unfold Machine.capture
  generalize m.store.arena.capture m.env = r, m'.store.arena.capture m'.env = r' at hbroken hl'
  obtain ⟨a, broken⟩ := r
  obtain ⟨a', broken'⟩ := r'
  cases hbroken
  cases broken with
  | none => exact hgo _ _ hl'
  | some h => exact hl'.fail .escape hk

theorem evalStep (hl : m.Level R T σ m') (he : Expr.Alike (R i) σ e e')
    (hk : ValueCont.Alike R T i σ k k')
    (hmiss : ∀ n d f, e = .read n (.bound d) → m.store.read m.env n.name (.bound d) = .error f →
      σ d n.name = n.name) : (m.evalStep e k).Alike R T (m'.evalStep e' k') := by
  cases he with
  | literal => exact hl.give (Value.alike_ofLiteral _) hk
  | grouping he => exact hl.eval he hk
  | unary hp he => exact hl.eval he (.unary hp hk)
  | binary hp hl' hr => exact hl.eval hl' (.left hp hr hk)
  | logical hl' hr => exact hl.eval hl' (.logical hr hk)
  | @read ref n n' hn =>
    refine hl.readRef hn hk fun f hf => ?_
    cases ref with
    | free => rfl
    | bound d => exact hmiss n d f rfl hf
  | assign hn he => exact hl.eval he (.assign hn hk)
  | call hp hc hargs => exact hl.eval hc (.callee hargs hp hk)
  | get hn he => exact hl.eval he (.get hn hk)
  | set hn he hv => exact hl.eval he (.setObject hn hv hk)
  | receiver hp hfix => exact hl.readRef ⟨hfix.symm, hp⟩ hk fun _ _ => hfix

theorem defineFunction (hl : m.Level R T σ m') {f f' : FunDecl Binding}
    (hfix : σ 0 f.name.name = f.name.name) (hf : FunDecl.Alike (R i) σ f f')
    (hk : DoneCont.Alike R T i σ k k') :
    (m.execStep (.funDecl f) k).Alike R T (m'.execStep (.funDecl f') k') := by
  rw [Machine.execStep, Machine.execStep]
  refine hl.capture (fun n n' hn => ?_) hk
  refine (hn.with_store hn.store.fresh).define (hf.name_eq.trans hfix.symm) ?_ hk
  rw [hn.store.nextId]
  exact .function ⟨hn.env, i, σ, hn.scopes, hf⟩

theorem methods_alike (hl : m.Level R T σ m')
    (hfs : FunDecl.AlikeAll (R i) (σ.push 1) methods methods') :
    List.Forall₂ (fun p p' => p'.1 = (1 : Equiv.Perm String) p.1 ∧ p.2.AlikeMethod R T p'.2)
      (methods.map fun f => (f.name.name, (⟨f, m.env⟩ : Closure)))
      (methods'.map fun f => (f.name.name, (⟨f, m'.env⟩ : Closure))) := by
  rw [List.forall₂_map_left_iff, List.forall₂_map_right_iff]
  exact hfs.forall₂.imp fun f f' hf => ⟨hf.name_eq, hl.env, i, σ, hl.scopes, hf⟩

theorem defineClass {x x' : Ident} (hl : m.Level R T σ m') (hfix : σ 0 x.name = x.name)
    (hx : Ident.Alike (R i) 1 x x') (hfs : FunDecl.AlikeAll (R i) (σ.push 1) methods methods')
    (hk : DoneCont.Alike R T i σ k k') :
    (m.execStep (.classDecl x methods) k).Alike R T (m'.execStep (.classDecl x' methods') k') := by
  rw [Machine.execStep, Machine.execStep]
  refine hl.capture (fun n n' hn => ?_) hk
  refine (hn.with_store hn.store.fresh).define (hx.name.trans hfix.symm) ?_ hk
  exact .cls ⟨hn.store.nextId, hx.name, .ofList (hn.methods_alike hfs)⟩

theorem execStep (hl : m.Level R T σ m') (hs : Stmt.Alike (R i) σ s s')
    (hk : DoneCont.Alike R T i σ k k') (hne : ∀ body, s ≠ .block body) :
    (m.execStep s k).Alike R T (m'.execStep s' k') := by
  cases hs with
  | expression he => exact hl.eval he (.discard hk)
  | print he => exact hl.eval he (.print hk)
  | varDecl hn => exact hl.define hn.name .nil hk
  | varInit hn he => exact hl.eval he (.define hn hk)
  | block => exact (hne _ rfl).elim
  | branch hc hyes => exact hl.eval hc (.branch hyes hk)
  | branchElse hc hyes hno => exact hl.eval hc (.branchElse hyes hno hk)
  | loop hc hbody => exact hl.eval hc (.test hc hbody hk)
  | funDecl hfix hf => exact hl.defineFunction hfix hf hk
  | ret => exact hl.complete (.returning .nil) hk
  | retValue _ he => exact hl.eval he (.ret hk)
  | classDecl hfix hn hfs => exact hl.defineClass hfix hn hfs hk

theorem enter {values values' : Bindings Value} (hl : m.Level R T σ m') (heq : outer' = outer)
    (hout : T outer = some τ) (hθ : θ = 1 ∨ ∃ i, (R i).renames θ)
    (hv : values.Alike (Value.Alike R T) θ values') (depth : Nat)
    (c c' : Control) :
    Level R (T.set m.store.arena.next (τ.push θ)) (τ.push θ)
      { m with
        control := c
        store := { m.store with arena := (m.store.arena.new (some outer) values).2 }
        env := m.store.arena.next
        depth := depth }
      { m' with
        control := c'
        store := { m'.store with arena := (m'.store.arena.new (some outer') values').2 }
        env := m'.store.arena.next
        depth := depth } := by
  subst heq
  have ha := hl.store.arena
  have hT := ha.set_extends (τ.push θ)
  refine ⟨⟨ha.new hout hθ hv, fun j j' hj => ?_, hl.store.nextId⟩, ha.next, T.set_self _ _, rfl,
    hl.printed⟩
  exact (hl.store.fields j j' hj).mono fun _ _ h => h.mono hT

theorem block (hl : m.Level R T σ m') (hθ : (R i).renames θ)
    (hbody : Stmt.AlikeAll (R i) (σ.push θ) body body') (hk : DoneCont.Alike R T i σ k k') :
    Together R T [.block body] m (m.execStep (.block body) k) (m'.execStep (.block body') k') := by
  have hT := hl.store.arena.set_extends (σ.push θ)
  have hgrown := (Renamings.Grown.refl T m.store.arena.next []).set hT
    (Zone.fixes_of_alike (z := .block body) hbody)
  have hl' := hl.enter hl.env hl.scopes (.inr ⟨i, hθ⟩) (.empty _ θ) m.depth
  have hstep : m'.execStep (.block body') k' =
      { m' with
        control := .complete .normal (.sequence body' (.leaveBlock m.env k'))
        store := { m'.store with arena := (m'.store.arena.new (some m'.env)).2 }
        env := m'.store.arena.next
        depth := m.depth } := by
    rw [← hl.env, ← hl.depth]
    rfl
  rw [hstep]
  refine ⟨_, hgrown, _, hl' _ _, ?_⟩
  exact .complete .normal (.sequence hbody (.leaveBlock (hT _ _ hl.scopes) (hk.mono hT)))

theorem enterFunction {c c' : Closure} {args args' : List Value} (hl : m.Level R T σ m')
    (hc : c.Alike R T id c') (hargs : List.Forall₂ (Value.Alike R T) args args')
    (hp : (R i).place p p') (hk : ValueCont.Alike R T i σ k k') :
    Together R T [.function c.decl] m (m.enter c none args p k) (m'.enter c' none args' p' k') := by
  unfold Machine.enter
  rw [hl.depth]
  split
  · exact (hl.raise hp hk _).together _ _
  · obtain ⟨⟨name, params, body⟩, env⟩ := c
    obtain ⟨decl', env'⟩ := c'
    obtain ⟨rfl, j, τ, hτ, hdecl⟩ := hc
    cases hdecl with
    | @mk _ _ θ _ _ _ _ _ hname hθ hparams hbody =>
      have hT := hl.store.arena.set_extends (τ.push θ)
      have hgrown := (Renamings.Grown.refl T m.store.arena.next []).set hT
        (Zone.fixes_of_alike (z := .function ⟨name, params, body⟩) hbody)
      have hl' := hl.enter rfl hτ (.inr ⟨j, hθ⟩) (.ofList (Ident.zip_alike hparams hargs))
        (m.depth + 1)
      rw [hl.env]
      refine ⟨_, hgrown, _, hl' _ _, ?_⟩
      exact .complete .normal
        (.sequence hbody (.leaveCall (hT _ _ hl.scopes) .none (hk.mono hT)))

theorem enterMethod {c c' : Closure} {args args' : List Value} {o o' : Instance}
    (hl : m.Level R T σ m') (hc : c.AlikeMethod R T c') (ho : o.Alike R T o')
    (hargs : List.Forall₂ (Value.Alike R T) args args') (hp : (R i).place p p')
    (hk : ValueCont.Alike R T i σ k k') :
    Together R T [.receiver, .function c.decl] m (m.enter c (some o) args p k)
      (m'.enter c' (some o') args' p' k') := by
  unfold Machine.enter
  rw [hl.depth]
  split
  · exact (hl.raise hp hk _).together _ _
  · obtain ⟨⟨name, params, body⟩, env⟩ := c
    obtain ⟨decl', env'⟩ := c'
    obtain ⟨rfl, j, τ, hτ, hdecl⟩ := hc
    cases hdecl with
    | @mk _ _ θ _ _ _ _ _ hname hθ hparams hbody =>
      have hT := hl.store.arena.set_extends (τ.push 1)
      have hself : (Bindings.empty.set receiverName (.object o)).Alike (Value.Alike R T) 1
          (Bindings.empty.set receiverName (.object o')) :=
        Bindings.Alike.set (.empty _ 1) (.object ho) receiverName
      have hl₁ := hl.enter rfl hτ (.inl rfl) hself (m.depth + 1) m.control m'.control
      have hT₁ := hl₁.store.arena.set_extends ((τ.push 1).push θ)
      have hargs₁ := hargs.imp fun _ _ hv => Value.Alike.mono hv hT
      have hl₂ := hl₁.enter hl.store.arena.next (T.set_self _ _) (.inr ⟨j, hθ⟩)
        (.ofList (Ident.zip_alike hparams hargs₁)) (m.depth + 1)
      have hgrown := ((Renamings.Grown.refl T m.store.arena.next []).set hT
        (z := .receiver) (fun x ⟨s, hs, _⟩ => nomatch hs)).set hT₁
        (Zone.fixes_of_alike (z := .function ⟨name, params, body⟩) hbody)
      have hT₂ := hgrown.extends_old
      rw [hl.env]
      refine ⟨_, hgrown, _, hl₂ _ _, ?_⟩
      change Control.Alike R _ _ _ (.complete .normal (.sequence _ (.leaveCall _
        (some m'.store.arena.next) (if _ = initializerName then some o' else none) k')))
      rw [hl.store.arena.next, hname.name]
      refine .complete .normal
        (.sequence hbody (.leaveCall (hT₂ _ _ hl.scopes) ?_ (hk.mono hT₂)))
      change Option.Rel _ (if name.name = initializerName then some o else none)
        (if name.name = initializerName then some o' else none)
      split
      · exact .some (ho.mono hT₂)
      · exact .none

theorem checkArity {args args' : List Value} {go go' : Machine → Machine}
    (hl : m.Level R T σ m') (hargs : List.Forall₂ (Value.Alike R T) args args')
    (hp : (R i).place p p') (hk : ValueCont.Alike R T i σ k k')
    (hgo : Together R T zones m (go m) (go' m')) (arity : Nat) :
    Together R T zones m (m.checkArity arity args p k go)
      (m'.checkArity arity args' p' k' go') := by
  unfold Machine.checkArity
  rw [hargs.length_eq]
  split
  · exact hgo
  · exact (hl.raise hp hk _).together _ _

theorem callStep {args args' : List Value} (hl : m.Level R T σ m') (hv : v.Alike R T v')
    (hargs : List.Forall₂ (Value.Alike R T) args args') (hp : (R i).place p p')
    (hk : ValueCont.Alike R T i σ k k') :
    Together R T v.zones m (m.callStep v args p k) (m'.callStep v' args' p' k') := by
  have hraise := (hl.raise hp hk .notCallable).together v.zones m
  cases hv with
  | nil => exact hraise
  | bool => exact hraise
  | number => exact hraise
  | string => exact hraise
  | object => exact hraise
  | function hc =>
    rw [Machine.callStep, Machine.callStep, hc.arity]
    exact hl.checkArity hargs hp hk (hl.enterFunction hc hargs hp hk) _
  | method hc ho =>
    rw [Machine.callStep, Machine.callStep, Closure.Alike.arity hc]
    exact hl.checkArity hargs hp hk (hl.enterMethod hc ho hargs hp hk) _
  | @cls c c' hc =>
    rw [Machine.callStep, Machine.callStep, hc.arity]
    apply hl.checkArity hargs hp hk
    have hl' := hl.with_store hl.store.fresh
    have hinit := hc.initializer?
    have hobject : Instance.Alike R T ⟨m.store.nextId, c⟩ ⟨m'.store.nextId, c'⟩ :=
      ⟨hl.store.nextId, hc⟩
    simp only [Value.zones, Store.fresh]
    generalize c.initializer? = init, c'.initializer? = init' at hinit
    cases hinit with
    | none => exact (hl'.give (.object hobject) hk).together _ _
    | some hf => exact hl'.enterMethod hf hobject hargs hp hk

theorem argumentStep {done done' : List Value} (hl : m.Level R T σ m') (hv : v.Alike R T v')
    (hdone : List.Forall₂ (Value.Alike R T) done done')
    (hrest : Expr.AlikeAll (R i) σ rest rest') (hp : (R i).place p p')
    (hk : ValueCont.Alike R T i σ k k') :
    Together R T (if rest.isEmpty then v.zones else []) m (m.argumentStep v done rest p k)
      (m'.argumentStep v' done' rest' p' k') := by
  cases hrest with
  | nil => exact hl.callStep hv (List.rel_reverse hdone) hp hk
  | cons he hrest => exact (hl.eval he (.argument hv hdone hrest hp hk)).together _ _

theorem operate {result result' : Except RuntimeFault Value} (hl : m.Level R T σ m')
    (hr : Agree (Value.Alike R T) result result') (hp : (R i).place p p')
    (hk : ValueCont.Alike R T i σ k k') :
    (m.operate result p k).Alike R T (m'.operate result' p' k') := by
  cases hr with
  | ok hv => exact hl.give hv hk
  | error => exact hl.raise hp hk _

theorem getStep {x x' : Ident} (hl : m.Level R T σ m') (hv : v.Alike R T v')
    (hx : Ident.Alike (R i) 1 x x') (hk : ValueCont.Alike R T i σ k k') :
    (m.valueStep v (.get x k)).Alike R T (m'.valueStep v' (.get x' k')) := by
  have hraise := hl.raise hx.place hk .noProperties
  cases hv with
  | object ho =>
    have hprop := hl.store.property? ho x.name
    have hname : x'.name = x.name := hx.name
    rw [Machine.valueStep, Machine.valueStep, hname]
    generalize m.store.property? _ x.name = r, m'.store.property? _ x.name = r' at hprop
    cases hprop with
    | none => exact hl.raise hx.place hk _
    | some h => exact (hl.with_store h.2).give h.1 hk
  | _ => exact hraise

theorem setObjectStep {x x' : Ident} (hl : m.Level R T σ m') (hv : v.Alike R T v')
    (hx : Ident.Alike (R i) 1 x x') (he : Expr.Alike (R i) σ e e')
    (hk : ValueCont.Alike R T i σ k k') :
    (m.valueStep v (.setObject x e k)).Alike R T (m'.valueStep v' (.setObject x' e' k')) := by
  have hraise := hl.raise hx.place hk .noFields
  cases hv with
  | object ho => exact hl.eval he (.setValue ho hx hk)
  | _ => exact hraise

theorem valueStep (hl : m.Level R T σ m') (hv : v.Alike R T v')
    (hk : ValueCont.Alike R T i σ k k') :
    Together R T (Control.value v k).zones m (m.valueStep v k) (m'.valueStep v' k') := by
  cases hk with
  | unary hp hk => exact (hl.operate (UnaryOp.apply_alike _ hv) hp hk).together _ _
  | left hp he hk => exact (hl.eval he (.right hv hp hk)).together _ _
  | right hleft hp hk => exact (hl.operate (BinaryOp.apply_alike _ hleft hv) hp hk).together _ _
  | logical he hk =>
    rw [Machine.valueStep, Machine.valueStep, LogicalOp.stopsAt_alike _ hv]
    split
    · exact (hl.give hv hk).together _ _
    · exact (hl.eval he hk).together _ _
  | assign hn hk => exact (hl.assignRef hn hv hk).together _ _
  | callee hargs hp hk =>
    have hstep := hl.argumentStep hv .nil hargs hp hk
    cases hargs <;> exact hstep
  | argument hc hdone hrest hp hk =>
    have hstep := hl.argumentStep hc (.cons hv hdone) hrest hp hk
    cases hrest <;> exact hstep
  | get hx hk => exact (hl.getStep hv hx hk).together _ _
  | setObject hx he hk => exact (hl.setObjectStep hv hx he hk).together _ _
  | setValue ho hx hk =>
    have hs := hl.store.setField ho.id hv
    have hname := hx.name
    rw [Machine.valueStep, Machine.valueStep, hname]
    exact ((hl.with_store (hs _)).give hv hk).together _ _
  | discard hk => exact (hl.complete .normal hk).together _ _
  | print hk =>
    have hl' : Level R T σ { m with printed := v.text :: m.printed }
        { m' with printed := v'.text :: m'.printed } :=
      ⟨hl.store, hl.env, hl.scopes, hl.depth, by rw [hv.text, hl.printed]⟩
    exact (hl'.complete .normal hk).together _ _
  | define hn hk => exact (hl.define hn.name hv hk).together _ _
  | branch hyes hk =>
    rw [Machine.valueStep, Machine.valueStep, hv.isTruthy]
    split
    · exact (hl.exec hyes hk).together _ _
    · exact (hl.complete .normal hk).together _ _
  | branchElse hyes hno hk =>
    rw [Machine.valueStep, Machine.valueStep, hv.isTruthy]
    split
    · exact (hl.exec hyes hk).together _ _
    · exact (hl.exec hno hk).together _ _
  | test hc hbody hk =>
    rw [Machine.valueStep, Machine.valueStep, hv.isTruthy]
    split
    · exact (hl.exec hbody (.again hc hbody hk)).together _ _
    · exact (hl.complete .normal hk).together _ _
  | ret hk => exact (hl.complete (.returning hv) hk).together _ _

theorem leave {left left' : List Handle} (hl : m.Level R T σ m') (ho : T outer = some τ)
    (heq : left' = left) :
    (m.leave outer left).1.Level R T τ (m'.leave outer left').1 ∧
      (m'.leave outer left').2 = (m.leave outer left).2 := by
  subst heq
  have hrelease := hl.store.arena.releaseAll left'
  unfold Machine.leave
  generalize left'.foldlM Arena.release m.store.arena = r,
    left'.foldlM Arena.release m'.store.arena = r' at hrelease
  cases hrelease with
  | ok ha => exact ⟨⟨hl.store.of_arena ha, rfl, ho, hl.depth, hl.printed⟩, rfl⟩
  | error => exact ⟨⟨hl.store, rfl, ho, hl.depth, hl.printed⟩, rfl⟩

theorem leaveBlockStep (hl : m.Level R T σ m') (hc : c.Alike R T c') (ho : T outer = some τ)
    (hk : DoneCont.Alike R T i τ k k') :
    Option.Rel (Machine.Alike R T) (m.completeStep c (.leaveBlock outer k))
      (m'.completeStep c' (.leaveBlock outer k')) := by
  have hleave := hl.leave ho (congrArg (fun h => [h]) hl.env)
  rw [Machine.completeStep, Machine.completeStep]
  generalize m.leave outer [m.env] = r, m'.leave outer [m'.env] = r' at hleave
  obtain ⟨n, fault⟩ := r
  obtain ⟨n', fault'⟩ := r'
  obtain ⟨hl', hfault⟩ := hleave
  cases hfault
  cases fault with
  | none => exact .some (hl'.complete hc hk)
  | some f => exact .some (hl'.fail .escape hk)

theorem leaveCallStep {result result' : Option Instance} (hl : m.Level R T σ m')
    (hc : c.Alike R T c') (ho : T outer = some τ)
    (hr : Option.Rel (Instance.Alike R T) result result') (hk : ValueCont.Alike R T j τ k k')
    (self : Option Handle) :
    Option.Rel (Machine.Alike R T) (m.completeStep c (.leaveCall outer self result k))
      (m'.completeStep c' (.leaveCall outer self result' k')) := by
  have hdepth : Level R T σ { m with depth := m.depth - 1 } { m' with depth := m'.depth - 1 } :=
    ⟨hl.store, hl.env, hl.scopes, congrArg (· - 1) hl.depth, hl.printed⟩
  have hleave := hdepth.leave ho (congrArg (· :: self.toList) hl.env)
  rw [Machine.completeStep, Machine.completeStep]
  generalize Machine.leave { m with depth := m.depth - 1 } outer (m.env :: self.toList) = r
    at hleave ⊢
  generalize Machine.leave { m' with depth := m'.depth - 1 } outer (m'.env :: self.toList) = r'
    at hleave ⊢
  obtain ⟨n, fault⟩ := r
  obtain ⟨n', fault'⟩ := r'
  obtain ⟨hl', hfault⟩ := hleave
  cases hfault
  cases fault with
  | some f => exact .some (hl'.fail .escape hk.enclosing)
  | none =>
    cases hc with
    | failing hf => exact .some (hl'.fail hf hk.enclosing)
    | normal =>
      cases hr with
      | none => exact .some (hl'.give .nil hk)
      | some ho => exact .some (hl'.give (.object ho) hk)
    | returning hv =>
      cases hr with
      | none => exact .some (hl'.give hv hk)
      | some ho => exact .some (hl'.give (.object ho) hk)

theorem completeStep (hl : m.Level R T σ m') (hc : c.Alike R T c')
    (hk : DoneCont.Alike R T i σ k k') :
    Option.Rel (Machine.Alike R T) (m.completeStep c k) (m'.completeStep c' k') := by
  cases hk with
  | program hrest =>
    cases hc with
    | failing hf => exact .none
    | normal =>
      cases hrest with
      | nil => exact .none
      | cons hs hrest => exact .some (hl.exec hs (.program hrest))
    | returning hv =>
      cases hrest with
      | nil => exact .none
      | cons hs hrest => exact .some (hl.exec hs (.program hrest))
  | sequence hrest hk =>
    cases hc with
    | normal =>
      cases hrest with
      | nil => exact .some (hl.complete .normal hk)
      | cons hs hrest => exact .some (hl.exec hs (.sequence hrest hk))
    | returning hv => exact .some (hl.complete (.returning hv) hk)
    | failing hf => exact .some (hl.complete (.failing hf) hk)
  | again hcond hbody hk =>
    cases hc with
    | normal => exact .some (hl.eval hcond (.test hcond hbody hk))
    | returning hv => exact .some (hl.complete (.returning hv) hk)
    | failing hf => exact .some (hl.complete (.failing hf) hk)
  | leaveBlock ho hk => exact hl.leaveBlockStep hc ho hk
  | leaveCall ho hr hk => exact hl.leaveCallStep hc ho hr hk _

end Level

/-- A variable that is read in vain must have the same name on both sides. -/
def KeepsMissing (T : Renamings) (m : Machine) : Prop :=
  ∀ name d k f σ, m.control = .eval (.read name (.bound d)) k →
    m.store.read m.env name.name (.bound d) = .error f → T m.env = some σ →
      σ d name.name = name.name

/-- Machines that are alike take a step together, or have both ended. -/
theorem Alike.step (h : m.Alike R T m') (hmiss : m.KeepsMissing T) :
    Option.Rel (Together R T m.control.zones m) m.step m'.step := by
  obtain ⟨σ, hl, hctl⟩ := h
  unfold Machine.step
  generalize hcontrol : m.control = c, m'.control = c' at hctl
  cases hctl with
  | @eval i e e' k k' he hk =>
    refine .some ((hl.evalStep he hk fun n d f hread hf => ?_).together _ _)
    exact hmiss n d k f σ (hread ▸ hcontrol) hf hl.scopes
  | @exec i s s' k k' hs hk =>
    by_cases hblock : ∃ body, s = .block body
    · obtain ⟨body, rfl⟩ := hblock
      cases hs with
      | block hθ hbody => exact .some (hl.block hθ hbody hk)
    · exact .some ((hl.execStep hs hk fun body h => hblock ⟨body, h⟩).together _ _)
  | value hv hk => exact .some (hl.valueStep hv hk)
  | complete hc hk => exact Rel.mono (hl.completeStep hc hk) fun n n' hn => hn.together _ _

end Machine

end Lox
