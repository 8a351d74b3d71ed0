import Lox.Proofs.Machine.Calls

namespace Lox
set_option autoImplicit true

/-- The name that an expression looks up, with its reference. -/
def Expr.lookup? : Expr ρ → Option (Ident × ρ)
  | .read name ref => some (name, ref)
  | .receiver pos ref => some (⟨receiverName, pos⟩, ref)
  | _ => none

theorem Expr.reference?_of_lookup? {e : Expr ρ} (h : e.lookup? = some (name, ref)) :
    (Code.expr e).reference? = some (name.name, ref) := by
  cases e <;> cases h <;> rfl

/-- The zones that a call of a value enters, the outermost first. -/
def Value.zones : Value → List (Zone Binding)
  | .function _ c => [.function c.decl]
  | .method _ c _ => [.receiver, .function c.decl]
  | .cls c =>
    match c.initializer? with
    | some init => [.receiver, .function init.decl]
    | none => []
  | _ => []

/-- The zones that the next step enters, unless a call fails. -/
def Control.zones : Control → List (Zone Binding)
  | .exec (.block body) _ => [.block body]
  | .value v (.callee [] _ _) => v.zones
  | .value _ (.argument callee _ [] _ _) => callee.zones
  | _ => []

def Roles.setAll (W : Roles) (h : Handle) : List (Zone Binding) → Roles
  | [] => W
  | z :: zs => (W.set h z).setAll (h + 1) zs

variable {P : List (Program Binding)} {W : Roles} {E : ArenaFault → Prop} {m : Machine}
  {zs : List (Zone Binding)} {Ss : List Scope} {Γ Γ' : Context} {v : Value} {args done : List Value}

theorem Value.fits_ofLiteral (w : World) (l : Literal) : (Value.ofLiteral l).Fits w := by
  cases l <;> trivial

theorem UnaryOp.fits_apply {op : UnaryOp} (h : op.apply v = .ok u) : Value.Fits w u := by
  cases op with
  | negate =>
    cases v <;> cases h
    trivial
  | not =>
    cases h
    trivial

theorem BinaryOp.fits_apply {op : BinaryOp} (h : op.apply a b = .ok u) : Value.Fits w u := by
  unfold BinaryOp.apply at h
  split at h
  · cases h
    trivial
  · cases h
    trivial
  · split at h
    · cases h
    · split at h
      · cases h
        cases op <;> trivial
      · cases h
        trivial
      · cases h
      · cases h

namespace Machine

theorem readRef_fits (hs : m.store.Fits P W) (hc : m.store.arena.Chain W m.env zs Γ.scopes)
    (hk : ValueCont.Fits (m.store.world P W) m.env zs Γ k)
    (hE : ∀ d f, ref = .bound d → m.store.read m.env name.name ref = .error f → E f) :
    (m.readRef name ref k).Fits P W E := by
  rw [readRef]
  split
  · rename_i v hv
    exact ⟨hs, .value (hs.read hc hv) hc hk⟩
  · rename_i fault hf
    obtain ⟨Γ', hk'⟩ := hk.enclosing
    refine ⟨hs, .failing (fun f hfault => ?_) hc hk'⟩
    cases ref with
    | bound d =>
      cases fault <;> cases hfault <;> exact hE d _ rfl hf
    | free =>
      cases Store.read_free_eq_error hc hf
      cases hfault

theorem evalStep_fits (hs : m.store.Fits P W) (hsite : Site P zs Γ (.expr e))
    (hc : m.store.arena.Chain W m.env zs Γ.scopes)
    (hk : ValueCont.Fits (m.store.world P W) m.env zs Γ k)
    (hE : ∀ name d f, e.lookup? = some (name, .bound d) →
      m.store.read m.env name.name (.bound d) = .error f → E f) :
    (m.evalStep e k).Fits P W E := by
  cases e with
  | literal l => exact ⟨hs, .value (Value.fits_ofLiteral _ l) hc hk⟩
  | grouping inner => exact ⟨hs, .eval (hsite.part (by simp [Expr.parts])) hc hk⟩
  | unary op pos operand => exact ⟨hs, .eval (hsite.part (by simp [Expr.parts])) hc (.unary hk)⟩
  | binary left op pos right =>
    exact ⟨hs, .eval (hsite.part (by simp [Expr.parts])) hc
      (.left (hsite.part (by simp [Expr.parts])) hk)⟩
  | logical left op right =>
    exact ⟨hs, .eval (hsite.part (by simp [Expr.parts])) hc
      (.logical (hsite.part (by simp [Expr.parts])) hk)⟩
  | read name ref =>
    exact readRef_fits hs hc hk fun d f href hf => hE name d f (by rw [← href]; rfl) (href ▸ hf)
  | assign name ref value =>
    exact ⟨hs, .eval (hsite.part (by simp [Expr.parts])) hc (.assign hsite hk)⟩
  | call callee args paren =>
    exact ⟨hs, .eval (hsite.part (by simp [Expr.parts])) hc
      (.callee (fun e he => hsite.part (by simp [Expr.parts, he])) hk)⟩
  | get object name => exact ⟨hs, .eval (hsite.part (by simp [Expr.parts])) hc (.get hk)⟩
  | set object name value =>
    exact ⟨hs, .eval (hsite.part (by simp [Expr.parts])) hc
      (.setObject (hsite.part (by simp [Expr.parts])) hk)⟩
  | receiver pos ref =>
    exact readRef_fits hs hc hk fun d f href hf =>
      hE ⟨receiverName, pos⟩ d f (by rw [← href]; rfl) (href ▸ hf)

theorem define_fits (hs : m.store.Fits P W) (hsite : Site P zs Γ (.stmt s))
    (hx : name.name ∈ s.names)
    (hc : m.store.arena.Chain W m.env zs (Γ.mark name.name .pending).scopes)
    (hv : ∀ e, m.store.arena.get? m.env = some e →
      v.Fits ((m.store.world P W).define m.env e name.name v))
    (hk : DoneCont.Fits (m.store.world P W) m.env zs Γ' k)
    (hcov : Context.Covers zs (Γ.mark name.name .ready) Γ') : (m.define name v k).Fits P W E := by
  obtain ⟨e, hg⟩ := hc.live
  have hlater := World.later_define (w := m.store.world P W) hg m.env name.name v
  rw [define, Store.define_eq_ok hg]
  refine ⟨hs.put hg (hv e hg) fun z hz => ?_, .normal (hcov (hc.define hg v)) (hk.later hlater)⟩
  exact hsite.declares hx z ((hc.role hs.sound.globals).symm.trans hz)

theorem assignRef_fits (hs : m.store.Fits P W)
    (hsite : Site P zs Γ (.expr (.assign name ref value)))
    (hc : m.store.arena.Chain W m.env zs Γ.scopes)
    (hk : ValueCont.Fits (m.store.world P W) m.env zs Γ k) (hv : v.Fits (m.store.world P W)) :
    (m.assignRef name ref v k).Fits P W E := by
  rcases Store.assign_cases hs hc hsite v with ⟨h, e, hg, hx, ha⟩ | ha
  · have hlater := World.later_define (w := m.store.world P W) hg m.env name.name v
    rw [assignRef, ha]
    exact ⟨hs.put hg (hv.later hlater) hx,
      .value (hv.later hlater) (hlater.chain hc (Nat.le_refl _)) (hk.later hlater)⟩
  · rw [assignRef, ha]
    obtain ⟨Γ', hk'⟩ := hk.enclosing
    exact ⟨hs, .failing (fun f hf => nomatch hf) hc hk'⟩

theorem capture_eq (hs : m.store.Fits P W) (hc : m.store.arena.Chain W m.env zs Ss) :
    ∃ m' : Machine, (∀ k go, m.capture k go = go m') ∧ m'.env = m.env ∧ m'.store.Fits P W ∧
      m'.store.arena.Kept m.env ∧ ∀ b, World.Later b (m.store.world P W) (m'.store.world P W) := by
  obtain ⟨hnone, hkept, hsound⟩ := World.Sound.capture hs.sound hc
  have hlater := World.later_capture m.env (m.store.world P W) m.env
  refine ⟨{ m with store := { m.store with arena := (m.store.arena.capture m.env).1 } },
    fun k go => ?_, rfl, hs.later hlater hsound, hkept, fun b => World.later_capture b _ _⟩
  have hcap : m.store.arena.capture m.env = ((m.store.arena.capture m.env).1, none) :=
    Prod.ext rfl hnone
  rw [capture, hcap]

theorem execStep_fits (hs : m.store.Fits P W) (hsite : Site P zs Γ (.stmt s))
    (hc : m.store.arena.Chain W m.env zs Γ.scopes)
    (hk : DoneCont.Fits (m.store.world P W) m.env zs Γ' k)
    (hcov : Context.Covers zs (Γ.after s) Γ') (hs' : ∀ body, s ≠ .block body) :
    (m.execStep s k).Fits P W E := by
  have hpending := fun x => Context.covers_mark_pending zs Γ x
  cases s with
  | expression e => exact ⟨hs, .eval (hsite.clause rfl) hc (.discard hk hcov)⟩
  | print e => exact ⟨hs, .eval (hsite.clause rfl) hc (.print hk hcov)⟩
  | varDecl name init =>
    cases init with
    | none =>
      exact define_fits hs hsite List.mem_cons_self (hpending _ hc) (fun _ _ => trivial) hk hcov
    | some e =>
      exact ⟨hs, .eval (hsite.clause rfl) (hpending _ hc) (.define hsite hk hcov)⟩
  | block body => exact (hs' body rfl).elim
  | branch c yes no => exact ⟨hs, .eval (hsite.clause rfl) hc (.branch hsite hk hcov)⟩
  | loop c body =>
    exact ⟨hs, .eval (hsite.clause rfl) hc
      (.test hsite hk ((Context.covers_after_under hsite .body).trans hcov))⟩
  | funDecl decl =>
    obtain ⟨m', hgo, henv, hs', hkept, hlater⟩ := capture_eq hs hc
    have hc' := (hlater m.env).chain (hpending decl.name.name hc) (Nat.le_refl _)
    rw [execStep, hgo]
    rw [← henv] at hkept hc'
    have hx : decl.name.name ∈ (Stmt.funDecl decl).names := List.mem_cons_self
    refine define_fits hs'.fresh hsite hx hc' (fun e hg => ?_)
      (henv ▸ hk.later (hlater m.env)) hcov
    exact ⟨hkept.keep (World.later_define (w := m'.store.world P W) hg m'.env _ _).keeps,
      zs, Γ, hsite, hc'.define hg _⟩
  | ret pos value =>
    cases value with
    | none => exact ⟨hs, .returning trivial hc hk⟩
    | some e => exact ⟨hs, .eval (hsite.clause rfl) hc (.ret hk)⟩
  | classDecl name methods =>
    obtain ⟨m', hgo, henv, hs', hkept, hlater⟩ := capture_eq hs hc
    have hc' := (hlater m.env).chain (hpending name.name hc) (Nat.le_refl _)
    rw [execStep, hgo]
    rw [← henv] at hkept hc'
    refine define_fits hs'.fresh hsite (List.mem_cons_self (a := name.name)) hc' (fun e hg => ?_)
      (henv ▸ hk.later (hlater m.env)) hcov
    intro x f hf
    obtain ⟨decl, hmem, heq⟩ := List.mem_map.1 (Bindings.mem_of_get?_ofList hf)
    cases heq
    exact ⟨rfl, hkept.keep (World.later_define (w := m'.store.world P W) hg m'.env _ _).keeps,
      zs, Γ, name, methods, hsite, hmem, hc'.define hg _⟩

theorem block_fits (hs : m.store.Fits P W) (hsite : Site P zs Γ (.stmt (.block body)))
    (hc : m.store.arena.Chain W m.env zs Γ.scopes)
    (hk : DoneCont.Fits (m.store.world P W) m.env zs Γ' k) (hcov : Context.Covers zs Γ Γ') :
    (m.execStep (.block body) k).Fits P (W.set m.store.arena.next (.block body)) E := by
  obtain ⟨hsound, hinner⟩ := hs.sound.enter_block hc body
  have hlater := hs.sound.later_enter m.env m.env {} (.block body)
  have hbody := hsite.block
  refine ⟨hs.later hlater hsound, .normal (Γ := Γ.enter) hinner (.sequence hbody ?_)⟩
  exact .leaveBlock (hs.sound.lt_next hc) (hk.later hlater)
    (hlater.chain (hcov hc) (Nat.le_refl _))

/-- What follows a step that enters the zones `new`, or fails to. -/
def Follows (P : List (Program Binding)) (W : Roles) (E : ArenaFault → Prop)
    (new : List (Zone Binding)) (m m' : Machine) : Prop :=
  m'.Fits P W E ∨ m'.store.arena.next = m.store.arena.next + new.length ∧
    m'.Fits P (W.setAll m.store.arena.next new) E

theorem enter_function_follows (hs : m.store.Fits P W)
    (hc : m.store.arena.Chain W m.env zs Γ.scopes)
    (hk : ValueCont.Fits (m.store.world P W) m.env zs Γ k)
    (hf : c.IsFunction (m.store.world P W)) (hargs : ∀ u ∈ args, u.Fits (m.store.world P W))
    (hlen : args.length = c.arity) :
    Follows P W E [.function c.decl] m (m.enter c none args paren k) := by
  by_cases hdepth : m.depth < callLimit
  · refine .inr ⟨?_, enter_function_fits hs hc hk hf hargs hlen hdepth⟩
    rw [enter, if_neg (Nat.not_le_of_lt hdepth)]
    rfl
  · rw [enter, if_pos (Nat.le_of_not_lt hdepth)]
    exact .inl (raise_fits hs hc hk _ _)

theorem enter_method_follows (hs : m.store.Fits P W)
    (hc : m.store.arena.Chain W m.env zs Γ.scopes)
    (hk : ValueCont.Fits (m.store.world P W) m.env zs Γ k)
    (hf : c.IsMethod (m.store.world P W)) (hi : i.cls.Fits (m.store.world P W))
    (hargs : ∀ u ∈ args, u.Fits (m.store.world P W)) (hlen : args.length = c.arity) :
    Follows P W E [.receiver, .function c.decl] m (m.enter c (some i) args paren k) := by
  by_cases hdepth : m.depth < callLimit
  · refine .inr ⟨?_, enter_method_fits hs hc hk hf hi hargs hlen hdepth⟩
    rw [enter, if_neg (Nat.not_le_of_lt hdepth)]
    rfl
  · rw [enter, if_pos (Nat.le_of_not_lt hdepth)]
    exact .inl (raise_fits hs hc hk _ _)

theorem callStep_follows (hs : m.store.Fits P W) (hc : m.store.arena.Chain W m.env zs Γ.scopes)
    (hk : ValueCont.Fits (m.store.world P W) m.env zs Γ k) (hv : v.Fits (m.store.world P W))
    (hargs : ∀ u ∈ args, u.Fits (m.store.world P W)) :
    Follows P W E v.zones m (m.callStep v args paren k) := by
  cases v with
  | function id c =>
    rw [callStep, checkArity]
    split
    · rename_i hlen
      exact enter_function_follows hs hc hk hv hargs hlen
    · exact .inl (raise_fits hs hc hk _ _)
  | method id c i =>
    rw [callStep, checkArity]
    split
    · rename_i hlen
      exact enter_method_follows hs hc hk hv.1 hv.2 hargs hlen
    · exact .inl (raise_fits hs hc hk _ _)
  | cls c =>
    rw [callStep, checkArity]
    split
    · rename_i hlen
      cases hinit : c.initializer? with
      | none => exact .inl ⟨hs.fresh, .value hv hc hk⟩
      | some init =>
        have hlen' : args.length = init.arity := by simpa [ClassObject.arity, hinit] using hlen
        simp only [Value.zones, hinit]
        exact enter_method_follows (m := { m with store := m.store.fresh.2 }) hs.fresh hc hk
          (hv _ _ hinit).2 hv hargs hlen'
    · exact .inl (raise_fits hs hc hk _ _)
  | nil => exact .inl (raise_fits hs hc hk _ _)
  | bool => exact .inl (raise_fits hs hc hk _ _)
  | number => exact .inl (raise_fits hs hc hk _ _)
  | string => exact .inl (raise_fits hs hc hk _ _)
  | object => exact .inl (raise_fits hs hc hk _ _)

theorem operate_fits (hs : m.store.Fits P W) (hc : m.store.arena.Chain W m.env zs Γ.scopes)
    (hk : ValueCont.Fits (m.store.world P W) m.env zs Γ k)
    (hv : ∀ v, result = .ok v → v.Fits (m.store.world P W)) (pos : Pos) :
    (m.operate result pos k).Fits P W E := by
  cases result with
  | ok v => exact ⟨hs, .value (hv v rfl) hc hk⟩
  | error fault => exact raise_fits hs hc hk fault pos

theorem getStep_fits (hs : m.store.Fits P W) (hc : m.store.arena.Chain W m.env zs Γ.scopes)
    (hk : ValueCont.Fits (m.store.world P W) m.env zs Γ k) (hv : v.Fits (m.store.world P W)) :
    (m.valueStep v (.get name k)).Fits P W E := by
  cases v with
  | object i =>
    rw [valueStep]
    split
    · rename_i u store hp
      obtain ⟨hu, hstore, harena⟩ := hs.property? hv hp
      have hw : store.world P W = m.store.world P W := by rw [Store.world, harena]; rfl
      rw [← hw] at hu hk
      rw [← harena] at hc
      exact ⟨hstore, .value hu hc hk⟩
    · exact raise_fits hs hc hk _ _
  | nil => exact raise_fits hs hc hk _ _
  | bool => exact raise_fits hs hc hk _ _
  | number => exact raise_fits hs hc hk _ _
  | string => exact raise_fits hs hc hk _ _
  | function => exact raise_fits hs hc hk _ _
  | method => exact raise_fits hs hc hk _ _
  | cls => exact raise_fits hs hc hk _ _

theorem branchStep_fits (hs : m.store.Fits P W) (hsite : Site P zs Γ (.stmt (.branch c yes no)))
    (hc : m.store.arena.Chain W m.env zs Γ.scopes)
    (hk : DoneCont.Fits (m.store.world P W) m.env zs Γ' k)
    (hcov : Context.Covers zs (Γ.after (.branch c yes no)) Γ') :
    (m.valueStep v (.branch yes no k)).Fits P W E := by
  have hyes : Context.Covers zs Γ (Γ.after yes) := Context.covers_after_under hsite .yes
  cases no with
  | none =>
    rw [valueStep]
    split
    · exact ⟨hs, .exec hsite.yes hc hk hcov⟩
    · exact ⟨hs, .normal (hcov (hyes hc)) hk⟩
  | some no =>
    rw [valueStep]
    split
    · exact ⟨hs, .exec hsite.yes hc hk ((Context.covers_after_under hsite .no).trans hcov)⟩
    · exact ⟨hs, .exec hsite.no (hyes hc) hk hcov⟩

theorem valueStep_follows (hs : m.store.Fits P W) (hc : m.store.arena.Chain W m.env zs Γ.scopes)
    (hk : ValueCont.Fits (m.store.world P W) m.env zs Γ k) (hv : v.Fits (m.store.world P W)) :
    Follows P W E (Control.value v k).zones m (m.valueStep v k) := by
  cases hk with
  | unary hk => exact .inl (operate_fits hs hc hk (fun _ => UnaryOp.fits_apply) _)
  | left hsite hk => exact .inl ⟨hs, .eval hsite hc (.right hv hk)⟩
  | right _ hk => exact .inl (operate_fits hs hc hk (fun _ => BinaryOp.fits_apply) _)
  | logical hsite hk =>
    rw [valueStep]
    split
    · exact .inl ⟨hs, .value hv hc hk⟩
    · exact .inl ⟨hs, .eval hsite hc hk⟩
  | assign hsite hk => exact .inl (assignRef_fits hs hsite hc hk hv)
  | @callee args _ _ _ _ _ hargs hk =>
    cases args with
    | nil => exact callStep_follows hs hc hk hv (List.forall_mem_nil _)
    | cons e rest =>
      exact .inl ⟨hs, .eval (hargs e List.mem_cons_self) hc (.argument hv (List.forall_mem_nil _)
        (fun e he => hargs e (List.mem_cons_of_mem _ he)) hk)⟩
  | @argument callee done rest _ _ _ _ _ hcallee hdone hrest hk =>
    have hdone' : ∀ u ∈ v :: done, u.Fits (m.store.world P W) := List.forall_mem_cons.2 ⟨hv, hdone⟩
    cases rest with
    | nil => exact callStep_follows hs hc hk hcallee (fun u hu => hdone' u (List.mem_reverse.1 hu))
    | cons e rest =>
      exact .inl ⟨hs, .eval (hrest e List.mem_cons_self) hc (.argument hcallee hdone'
        (fun e he => hrest e (List.mem_cons_of_mem _ he)) hk)⟩
  | get hk => exact .inl (getStep_fits hs hc hk hv)
  | setObject hsite hk =>
    cases v with
    | object i => exact .inl ⟨hs, .eval hsite hc (.setValue hv hk)⟩
    | nil => exact .inl (raise_fits hs hc hk _ _)
    | bool => exact .inl (raise_fits hs hc hk _ _)
    | number => exact .inl (raise_fits hs hc hk _ _)
    | string => exact .inl (raise_fits hs hc hk _ _)
    | function => exact .inl (raise_fits hs hc hk _ _)
    | method => exact .inl (raise_fits hs hc hk _ _)
    | cls => exact .inl (raise_fits hs hc hk _ _)
  | setValue _ hk => exact .inl ⟨hs.setField hv _ _, .value hv hc hk⟩
  | discard hk hcov => exact .inl ⟨hs, .normal (hcov hc) hk⟩
  | print hk hcov => exact .inl ⟨hs, .normal (hcov hc) hk⟩
  | define hsite hk hcov =>
    exact .inl (define_fits hs hsite List.mem_cons_self hc
      (fun e hg => hv.later (World.later_define hg m.env _ _)) hk hcov)
  | branch hsite hk hcov => exact .inl (branchStep_fits hs hsite hc hk hcov)
  | test hsite hk hcov =>
    rw [valueStep]
    split
    · exact .inl ⟨hs, .exec hsite.loop hc (.again hsite hk hcov) (Context.after_covers _ _ _)⟩
    · exact .inl ⟨hs, .normal (hcov hc) hk⟩
  | ret hk => exact .inl ⟨hs, .returning hv hc hk⟩

theorem Left.complete (hleft : Left P W outer m.store m') (hcomp : c.Fits (m.store.world P W) E)
    (hc : m.store.arena.Chain W outer zs Γ.scopes)
    (hk : DoneCont.Fits (m.store.world P W) outer zs Γ k) : (m'.complete c k).Fits P W E := by
  obtain ⟨hs, rfl, hlater⟩ := hleft
  exact ⟨hs, .complete (hcomp.later hlater) (hlater.chain hc (Nat.le_refl _)) (fun _ => rfl)
    (hk.later hlater)⟩

theorem Left.give (hleft : Left P W outer m.store m') (hv : v.Fits (m.store.world P W))
    (hc : m.store.arena.Chain W outer zs Γ.scopes)
    (hk : ValueCont.Fits (m.store.world P W) outer zs Γ k) : (m'.give v k).Fits P W E := by
  obtain ⟨hs, rfl, hlater⟩ := hleft
  exact ⟨hs, .value (hv.later hlater) (hlater.chain hc (Nat.le_refl _)) (hk.later hlater)⟩

theorem Left.finish (receiver : Option Handle) (hleft : Left P W outer m.store m')
    (hcomp : c.Fits (m.store.world P W) E)
    (hresult : ∀ i ∈ result, ClassObject.Fits (m.store.world P W) (Instance.cls i))
    (hc : m.store.arena.Chain W outer zs Γ.scopes)
    (hk : ValueCont.Fits (m.store.world P W) outer zs Γ k)
    (hm : { m with depth := m.depth - 1 }.leave outer (m.env :: receiver.toList) = (m', none))
    (hstep : m.completeStep c (.leaveCall outer receiver result k) = some n) : n.Fits P W E := by
  rw [completeStep, hm] at hstep
  obtain ⟨Γ', hk'⟩ := hk.enclosing
  cases c with
  | failing fault =>
    cases hstep
    obtain ⟨hs, rfl, hlater⟩ := hleft
    exact ⟨hs, .failing hcomp (hlater.chain hc (Nat.le_refl _)) (hk'.later hlater)⟩
  | normal =>
    cases result with
    | none => cases hstep; exact hleft.give trivial hc hk
    | some i => cases hstep; exact hleft.give (hresult i rfl) hc hk
  | returning v =>
    cases result with
    | none => cases hstep; exact hleft.give hcomp hc hk
    | some i => cases hstep; exact hleft.give (hresult i rfl) hc hk

theorem completeStep_fits (hs : m.store.Fits P W) (hcomp : c.Fits (m.store.world P W) E)
    (hc : m.store.arena.Chain W m.env zs Ss) (hSs : c = .normal → Ss = Γ.scopes)
    (hk : DoneCont.Fits (m.store.world P W) m.env zs Γ k)
    (hstep : m.completeStep c k = some n) : n.Fits P W E := by
  have habrupt : ∀ {Γ' k}, DoneCont.Fits (m.store.world P W) m.env zs Γ' k → c ≠ .normal →
      (m.complete c k).Fits P W E := fun hk hne => ⟨hs, .complete hcomp hc (absurd · hne) hk⟩
  cases hk with
  | @program _ rest _ hsite =>
    have hScopes : Ss = Γ.scopes := by
      rw [List.eq_nil_of_length_eq_zero hc.length, List.eq_nil_of_length_eq_zero hsite.length]
    subst hScopes
    cases c with
    | failing fault => cases hstep
    | normal =>
      cases rest with
      | nil => cases hstep
      | cons s rest =>
        cases hstep
        exact ⟨hs, .exec hsite.first hc (.program hsite.next) (.refl _ _)⟩
    | returning v =>
      cases rest with
      | nil => cases hstep
      | cons s rest =>
        cases hstep
        exact ⟨hs, .exec hsite.first hc (.program hsite.next) (.refl _ _)⟩
  | @sequence _ _ rest _ k hsite hk =>
    cases c with
    | normal =>
      cases hSs rfl
      cases rest with
      | nil => cases hstep; exact ⟨hs, .normal hc hk⟩
      | cons s rest =>
        cases hstep
        exact ⟨hs, .exec hsite.first hc (.sequence hsite.next hk) (.refl _ _)⟩
    | returning v => cases hstep; exact habrupt hk nofun
    | failing fault => cases hstep; exact habrupt hk nofun
  | again hsite hk hcov =>
    cases c with
    | normal =>
      cases hSs rfl
      cases hstep
      exact ⟨hs, .eval (hsite.clause rfl) hc (.test hsite hk hcov)⟩
    | returning v => cases hstep; exact habrupt hk nofun
    | failing fault => cases hstep; exact habrupt hk nofun
  | leaveBlock hlt hk hchain =>
    obtain ⟨e, hg⟩ := hc.live
    obtain ⟨m', hm, hleft⟩ := leave_zone hs hg hlt
    rw [completeStep, hm] at hstep
    cases hstep
    exact hleft.complete hcomp hchain hk
  | leaveFunction hlt hk hchain =>
    obtain ⟨e, hg⟩ := hc.live
    obtain ⟨m', hm, hleft⟩ := leave_zone (m := { m with depth := m.depth - 1 }) hs hg hlt
    exact Left.finish (m := m) none hleft hcomp (by simp) hchain hk hm hstep
  | leaveMethod hlt hlt' hg he hresult hk hchain =>
    obtain ⟨f, hself⟩ := hc.outer_live hg he
    obtain ⟨m', hm, hleft⟩ :=
      leave_method (m := { m with depth := m.depth - 1 }) hs hg hself hlt hlt'
    exact Left.finish (m := m) (some _) hleft hcomp hresult hchain hk hm hstep

/-- The next step looks up a local variable that its environment does not bind. -/
def Misreads (m : Machine) (fault : ArenaFault) : Prop :=
  ∃ e k name d, m.control = .eval e k ∧ e.lookup? = some (name, .bound d) ∧
    m.store.read m.env name.name (.bound d) = .error fault

theorem Fits.step (hm : m.Fits P W E) (hE : ∀ f, m.Misreads f → E f) (hstep : m.step = some m') :
    Follows P W E m.control.zones m m' := by
  obtain ⟨hs, hctl⟩ := hm
  rw [Machine.step] at hstep
  generalize hcontrol : m.control = control at hctl hstep
  cases hctl with
  | @eval _ _ e k hsite hc hk =>
    cases hstep
    exact .inl (evalStep_fits hs hsite hc hk fun name d f hl hr =>
      hE f ⟨e, k, name, d, hcontrol, hl, hr⟩)
  | @exec _ _ s _ k hsite hc hk hcov =>
    cases hstep
    cases s with
    | block body => exact .inr ⟨rfl, block_fits hs hsite hc hk hcov⟩
    | _ => exact .inl (execStep_fits hs hsite hc hk hcov nofun)
  | value hv hc hk =>
    cases hstep
    exact valueStep_follows hs hc hk hv
  | complete hcomp hc hSs hk => exact .inl (completeStep_fits hs hcomp hc hSs hk hstep)

/-- An environment made by the next step, and the zone it is made for. -/
def Opens (m : Machine) (h : Handle) (z : Zone Binding) : Prop :=
  ∃ m' i, m.step = some m' ∧ h < m'.store.arena.next ∧ h = m.store.arena.next + i ∧
    m.control.zones[i]? = some z

end Machine

theorem Roles.setAll_eq_some (W : Roles) {h i : Handle} {zs : List (Zone Binding)}
    (hz : W.setAll h zs i = some z) : W i = some z ∨ ∃ j, i = h + j ∧ zs[j]? = some z := by
  induction zs generalizing W h with
  | nil => exact .inl hz
  | cons z' zs ih =>
    rcases ih (W.set h z') hz with hz | ⟨j, rfl, hj⟩
    · rw [set] at hz
      split at hz
      · rename_i hi
        exact .inr ⟨0, hi.symm, hz⟩
      · exact .inl hz
    · exact .inr ⟨j + 1, by rw [Nat.add_assoc, Nat.add_comm 1], hj⟩

/-- After a step all fits again, and the only new environments are those the step has made. -/
theorem Machine.Fits.step_roles (hm : m.Fits P W E) (hE : ∀ f, m.Misreads f → E f)
    (hstep : m.step = some m') :
    ∃ W', m'.Fits P W' E ∧ ∀ h z, W' h = some z → W h = some z ∨ m.Opens h z := by
  rcases hm.step hE hstep with hfits | ⟨hnext, hfits⟩
  · exact ⟨W, hfits, fun h z => .inl⟩
  · refine ⟨_, hfits, fun h z hz => ?_⟩
    rcases Roles.setAll_eq_some W hz with hz | ⟨j, rfl, hj⟩
    · exact .inl hz
    · refine .inr ⟨m', j, hstep, ?_, rfl, hj⟩
      rw [hnext]
      exact Nat.add_lt_add_left (List.getElem?_eq_some_iff.1 hj).1 _

end Lox
