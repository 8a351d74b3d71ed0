import Lox.Proofs.Arena.Enclosing
import Lox.Proofs.Machine.Preservation
import Lox.Proofs.Machine.Stack
import Mathlib.Logic.Relation

namespace Lox
set_option autoImplicit true

mutual

/-- The environments that are still to be left, the innermost first, when `h` is current. -/
def ValueCont.opened : ValueCont → Handle → List Handle
  | .unary _ _ k, h | .left _ _ _ k, h | .right _ _ _ k, h | .logical _ _ k, h | .assign _ _ k, h
  | .callee _ _ k, h | .argument _ _ _ _ k, h | .get _ k, h | .setObject _ _ k, h
  | .setValue _ _ k, h => k.opened h
  | .discard k, h | .print k, h | .define _ k, h | .branch _ _ k, h | .test _ _ k, h
  | .ret k, h => k.opened h

def DoneCont.opened : DoneCont → Handle → List Handle
  | .program _, _ => []
  | .sequence _ k, h | .again _ _ k, h => k.opened h
  | .leaveBlock outer k, h => h :: k.opened outer
  | .leaveCall outer receiver _ k, h => h :: (receiver.toList ++ k.opened outer)

end

def Cont.opened : Cont → Handle → List Handle
  | .value k => k.opened
  | .done k => k.opened

theorem ValueCont.opened_enclosing (k : ValueCont) (h : Handle) :
    k.enclosing.opened h = k.opened h := by
  induction k using ValueCont.rec (motive_2 := fun _ => True) with
  | unary _ _ _ ih => exact ih
  | left _ _ _ _ ih => exact ih
  | right _ _ _ _ ih => exact ih
  | logical _ _ _ ih => exact ih
  | assign _ _ _ ih => exact ih
  | callee _ _ _ ih => exact ih
  | argument _ _ _ _ _ ih => exact ih
  | get _ _ ih => exact ih
  | setObject _ _ _ ih => exact ih
  | setValue _ _ _ ih => exact ih
  | discard => rfl
  | print => rfl
  | define => rfl
  | branch => rfl
  | test => rfl
  | ret => rfl
  | _ => trivial

theorem Cont.Ends.opened {c : Cont} {control : Control} (h : c.Ends control) (i : Handle) :
    control.cont.opened i = c.opened i := by
  cases c with
  | value k =>
    rcases h with ⟨v, rfl⟩ | ⟨fault, rfl⟩
    · rfl
    · exact k.opened_enclosing i
  | done k =>
    obtain ⟨c, rfl⟩ := h
    rfl

/-- Environments that are open, of which `h` is the current one: each is there, and the inner ones
are newer. -/
structure Arena.Opened (a : Arena) (h : Handle) (hs : List Handle) : Prop where
  head : hs.headD globals = h
  sorted : hs.Pairwise (· > ·)
  live : ∀ i ∈ hs, ∃ e, a.get? i = some e

theorem Arena.Opened.le {a : Arena} (ho : a.Opened h hs) (hi : i ∈ hs) : i ≤ h := by
  obtain ⟨hhead, hsorted, _⟩ := ho
  cases hs with
  | nil => cases hi
  | cons j hs =>
    cases hhead
    rcases List.mem_cons.1 hi with rfl | hi
    · exact Nat.le_refl _
    · exact Nat.le_of_lt (List.rel_of_pairwise_cons hsorted hi)

theorem Arena.Opened.cons {a : Arena} (ho : a.Opened outer hs) (hg : a.get? h = some e)
    (hlt : outer < h) : a.Opened h (h :: hs) := by
  refine ⟨rfl, List.pairwise_cons.2 ⟨fun i hi => ?_, ho.sorted⟩, ?_⟩
  · exact Nat.lt_of_le_of_lt (ho.le hi) hlt
  · exact List.forall_mem_cons.2 ⟨⟨e, hg⟩, ho.live⟩

mutual

theorem ValueCont.Fits.opened (hk : ValueCont.Fits w h zs Γ k) (hc : w.Chain h zs Ss) :
    w.arena.Opened h (k.opened h) := by
  cases hk with
  | unary hk => exact hk.opened hc
  | left _ hk => exact hk.opened hc
  | right _ hk => exact hk.opened hc
  | logical _ hk => exact hk.opened hc
  | assign _ hk => exact hk.opened hc
  | callee _ hk => exact hk.opened hc
  | argument _ _ _ hk => exact hk.opened hc
  | get hk => exact hk.opened hc
  | setObject _ hk => exact hk.opened hc
  | setValue _ hk => exact hk.opened hc
  | discard hk _ => exact hk.opened hc
  | print hk _ => exact hk.opened hc
  | define _ hk _ => exact hk.opened hc
  | branch _ hk _ => exact hk.opened hc
  | test _ hk _ => exact hk.opened hc
  | ret hk => exact hk.opened hc

theorem DoneCont.Fits.opened (hk : DoneCont.Fits w h zs Γ k) (hc : w.Chain h zs Ss) :
    w.arena.Opened h (k.opened h) := by
  cases hk with
  | program =>
    cases hc with
    | globals => exact ⟨rfl, .nil, fun i hi => nomatch hi⟩
  | sequence _ hk => exact hk.opened hc
  | again _ hk _ => exact hk.opened hc
  | leaveBlock hlt hk hout =>
    obtain ⟨e, hg⟩ := hc.live
    exact (hk.opened hout).cons hg hlt
  | leaveFunction hlt hk hout =>
    obtain ⟨e, hg⟩ := hc.live
    exact (hk.opened hout).cons hg hlt
  | leaveMethod hlt hlt' hg he _ hk hout =>
    obtain ⟨f, hself⟩ := hc.outer_live hg he
    exact ((hk.opened hout).cons hself hlt).cons hg hlt'

end

theorem Store.assign_eq_ok {s s' : Store} (hc : s.arena.Chain W env zs Ss)
    (h : s.assign env x ref v = .ok s') :
    ∃ i e, s.arena.Encloses i env ∧ s.arena.get? i = some e ∧
      s' = { s with arena := s.arena.put i { e with values := e.values.set x v } } := by
  cases ref with
  | bound d =>
    cases ha : s.arena.ancestor env d with
    | error f => rw [Store.assign, Arena.assignAt, ha] at h; cases h
    | ok found =>
      rw [Store.assign, Arena.assignAt, ha] at h
      cases h
      have hout := Arena.outward_of_ancestor ha
      exact ⟨_, _, hout.encloses, hout.get?, rfl⟩
  | free =>
    obtain ⟨e, hg, he⟩ := hc.globals_live
    have hn := Arena.nearest_globals hg he x
    cases hv : e.values.get? x with
    | none => rw [hv] at hn; rw [Store.assign, Arena.assign, hn] at h; cases h
    | some u =>
      rw [hv] at hn
      rw [Store.assign, Arena.assign, hn] at h
      cases h
      exact ⟨_, _, hc.encloses_globals, hg, rfl⟩

structure Nest where
  arena : Arena
  opened : List Handle

namespace Nest

def env (N : Nest) : Handle := N.opened.headD globals

/-- A variable is written, or an environment is entered. -/
inductive Grow : Nest → Nest → Prop where
  | write {N : Nest} {h : Handle} {e : Environment} {x : String} {v : Value} :
      N.arena.Encloses h N.env → N.arena.get? h = some e →
      Grow N ⟨N.arena.put h { e with values := e.values.set x v }, N.opened⟩
  | enter {N : Nest} : outer = N.env ∨ N.arena.Kept outer →
      Grow N ⟨(N.arena.new (some outer) values).2, N.arena.next :: N.opened⟩

abbrev Grows : Nest → Nest → Prop := Relation.ReflTransGen Grow

theorem Grows.of_eq {N N' : Nest} (h : N' = N) : N.Grows N' := h ▸ .refl

/-- The innermost environment is left, and released. It is newer than `floor`. -/
inductive Pop (floor : Handle) : Nest → Nest → Prop where
  | leave {a : Arena} {h : Handle} {e : Environment} {hs : List Handle} :
      a.get? h = some e → floor < h → Pop floor ⟨a, h :: hs⟩ ⟨if e.captured then a else a.drop h, hs⟩

abbrev Pops (floor : Handle) : Nest → Nest → Prop := Relation.ReflTransGen (Pop floor)

end Nest

def Control.declares : Control → Bool
  | .exec (.funDecl _) _ | .exec (.classDecl _ _) _ => true
  | _ => false

namespace Machine

variable {P : List (Program Binding)} {W : Roles} {E : ArenaFault → Prop} {m m' : Machine}
  {zs : List (Zone Binding)} {Ss : List Scope} {Γ Γ' : Context} {v : Value} {args : List Value}

def nestOver (m : Machine) (c : Cont) : Nest := ⟨m.store.arena, c.opened m.env⟩

def nest (m : Machine) : Nest := m.nestOver m.control.cont

/-- The next step captures an environment: a function or a class is declared in it, or in one that
it encloses. -/
def Captures (m : Machine) (i : Handle) : Prop :=
  m.control.declares = true ∧ m.store.arena.Encloses i m.env

/-- The machine when the environments that the next step captures are marked. -/
def captured (m : Machine) : Nest :=
  if m.control.declares then ⟨(m.store.arena.capture m.env).1, m.nest.opened⟩ else m.nest

/-- What a step does to the arena and to the environments that are open. -/
def Turns (m m' : Machine) : Prop :=
  m.captured.Grows m'.nest ∨ m.captured.Pops m'.env m'.nest

theorem fail_nest (m : Machine) (fault : Fault) (k : ValueCont) :
    (m.fail fault k.enclosing).nest = m.nestOver (.value k) :=
  congrArg (Nest.mk m.store.arena) (k.opened_enclosing m.env)

theorem readRef_nest (m : Machine) (name : Ident) (ref : Binding) (k : ValueCont) :
    (m.readRef name ref k).nest = m.nestOver (.value k) := by
  rw [readRef]
  split
  · rfl
  · apply fail_nest

theorem evalStep_nest (m : Machine) (e : Expr Binding) (k : ValueCont) :
    (m.evalStep e k).nest = m.nestOver (.value k) := by
  cases e with
  | read => apply readRef_nest
  | receiver => apply readRef_nest
  | _ => rfl

theorem operate_nest (m : Machine) (result : Except RuntimeFault Value) (pos : Pos)
    (k : ValueCont) : (m.operate result pos k).nest = m.nestOver (.value k) := by
  cases result with
  | ok => rfl
  | error => apply fail_nest

theorem getStep_nest (m : Machine) (v : Value) (name : Ident) (k : ValueCont) :
    (m.valueStep v (.get name k)).nest = m.nestOver (.value k) := by
  cases v with
  | object i =>
    rw [valueStep]
    split
    · rename_i v store hp
      have harena : store.arena = m.store.arena := by
        rw [Store.property?] at hp
        split at hp
        · cases hp
          rfl
        · split at hp
          · cases hp
            rfl
          · cases hp
      exact congrArg (Nest.mk · _) harena
    · apply fail_nest
  | _ => exact fail_nest m _ k

theorem setObjectStep_nest (m : Machine) (v : Value) (name : Ident) (value : Expr Binding)
    (k : ValueCont) : (m.valueStep v (.setObject name value k)).nest = m.nestOver (.value k) := by
  cases v with
  | object i => rfl
  | _ => exact fail_nest m _ k

theorem define_grows (hhead : (k.opened m.env).headD globals = m.env)
    (hg : m.store.arena.get? m.env = some e) (name : Ident) (v : Value) :
    (m.nestOver (.done k)).Grows (m.define name v k).nest := by
  rw [define, Store.define_eq_ok hg]
  apply Relation.ReflTransGen.single
  apply Nest.Grow.write (N := m.nestOver (.done k))
  · rw [Nest.env, nestOver, Cont.opened, hhead]
    exact .refl
  · exact hg

theorem assignRef_grows (hc : m.store.arena.Chain W m.env zs Ss)
    (hhead : (k.opened m.env).headD globals = m.env) (name : Ident) (ref : Binding) (v : Value) :
    (m.nestOver (.value k)).Grows (m.assignRef name ref v k).nest := by
  cases hassign : m.store.assign m.env name.name ref v with
  | error fault =>
    rw [assignRef, hassign, fail_nest]
  | ok store =>
    obtain ⟨h, e, henc, hg, rfl⟩ := Store.assign_eq_ok hc hassign
    rw [assignRef, hassign]
    apply Relation.ReflTransGen.single
    apply Nest.Grow.write (N := m.nestOver (.value k))
    · rw [Nest.env, nestOver, Cont.opened, hhead]
      exact henc
    · exact hg

theorem capture_grows (hs : m.store.Fits P W) (hc : m.store.arena.Chain W m.env zs Ss)
    (hhead : (k.opened m.env).headD globals = m.env) (name : Ident) (v : Machine → Value) :
    Nest.Grows ⟨(m.store.arena.capture m.env).1, k.opened m.env⟩
      (m.capture k fun m => { m with store := m.store.fresh.2 }.define name (v m) k).nest := by
  obtain ⟨hnone, hkept, _⟩ := World.Sound.capture hs.sound hc
  obtain ⟨e, hg, _⟩ := hkept.captured
  have hcap : m.store.arena.capture m.env = ((m.store.arena.capture m.env).1, none) :=
    Prod.ext rfl hnone
  rw [capture, hcap]
  exact define_grows (m := { m with store := { m.store with
    arena := (m.store.arena.capture m.env).1, nextId := m.store.nextId + 1 } }) hhead hg name _

theorem execStep_turns (hs : m.store.Fits P W) (hc : m.store.arena.Chain W m.env zs Ss)
    (hhead : (k.opened m.env).headD globals = m.env) (hctl : m.control = .exec s k) :
    m.Turns (m.execStep s k) := by
  obtain ⟨e, hg⟩ := hc.live
  cases s with
  | varDecl name init =>
    cases init with
    | none =>
      rw [Turns, captured, nest, hctl]
      exact .inl (define_grows hhead hg name .nil)
    | some =>
      rw [Turns, captured, nest, hctl]
      exact .inl .refl
  | block body =>
    rw [Turns, captured, nest, hctl]
    exact .inl (.single (.enter (.inl hhead.symm)))
  | funDecl decl =>
    have hcap : m.captured = ⟨(m.store.arena.capture m.env).1, k.opened m.env⟩ := by
      rw [captured, nest, hctl]
      rfl
    rw [Turns, hcap, execStep]
    exact .inl (capture_grows hs hc hhead decl.name
      fun m => .function m.store.fresh.1 ⟨decl, m.env⟩)
  | classDecl name methods =>
    have hcap : m.captured = ⟨(m.store.arena.capture m.env).1, k.opened m.env⟩ := by
      rw [captured, nest, hctl]
      rfl
    have hstep : m.execStep (.classDecl name methods) k = m.capture k fun m =>
        { m with store := m.store.fresh.2 }.define name (.cls ⟨m.store.fresh.1, name.name,
          .ofList (methods.map fun f : FunDecl Binding => (f.name.name, ⟨f, m.env⟩))⟩) k := rfl
    rw [Turns, hcap, hstep]
    exact .inl (capture_grows hs hc hhead name _)
  | ret pos value =>
    rw [Turns, captured, nest, hctl]
    cases value <;> exact .inl .refl
  | _ =>
    rw [Turns, captured, nest, hctl]
    exact .inl .refl

theorem enter_function_grows {c : Closure} (hc : m.store.arena.Kept c.env) :
    (m.nestOver (.value k)).Grows (m.enter c none args paren k).nest := by
  rw [enter]
  split
  · rw [raise, fail_nest]
  · exact .single (.enter (.inr hc))

theorem enter_method_grows {c : Closure} (hc : m.store.arena.Kept c.env) :
    (m.nestOver (.value k)).Grows
      (m.enter c (some i) args paren k).nest := by
  rw [enter]
  split
  · rw [raise, fail_nest]
  · exact (Relation.ReflTransGen.single (.enter (.inr hc))).tail (.enter (.inl rfl))

theorem checkArity_grows {go : Machine → Machine}
    (hgo : (m.nestOver (.value k)).Grows (go m).nest) :
    (m.nestOver (.value k)).Grows
      (m.checkArity arity args paren k go).nest := by
  rw [checkArity]
  split
  · exact hgo
  · rw [raise, fail_nest]

theorem callStep_grows (hv : v.Fits (m.store.world P W)) (args : List Value) (paren : Pos)
    (k : ValueCont) : (m.nestOver (.value k)).Grows
      (m.callStep v args paren k).nest := by
  cases v with
  | function id c =>
    apply checkArity_grows
    exact enter_function_grows hv.1
  | method id c i =>
    apply checkArity_grows
    exact enter_method_grows hv.1.1
  | cls c =>
    apply checkArity_grows
    cases hinit : c.initializer? with
    | none => exact .refl
    | some init =>
      exact enter_method_grows (m := { m with store := m.store.fresh.2 }) (hv _ _ hinit).2.1
  | _ => exact .of_eq (fail_nest m _ k)

theorem argumentStep_grows (hv : v.Fits (m.store.world P W)) (done : List Value)
    (rest : List (Expr Binding)) (paren : Pos) (k : ValueCont) :
    (m.nestOver (.value k)).Grows
      (m.argumentStep v done rest paren k).nest := by
  cases rest with
  | nil => exact callStep_grows hv _ paren k
  | cons => exact .refl

theorem valueStep_grows (hc : m.store.arena.Chain W m.env zs Ss)
    (hk : ValueCont.Fits (m.store.world P W) m.env zs Γ k) (hv : v.Fits (m.store.world P W)) :
    (m.nestOver (.value k)).Grows (m.valueStep v k).nest := by
  obtain ⟨e, hg⟩ := hc.live
  cases hk with
  | unary => exact .of_eq (operate_nest m _ _ _)
  | left => exact .refl
  | right => exact .of_eq (operate_nest m _ _ _)
  | logical => rw [valueStep]; split <;> exact .refl
  | assign _ hk => exact assignRef_grows hc (hk.opened hc).head _ _ v
  | @callee args _ _ _ k paren => exact argumentStep_grows hv [] args paren k
  | @argument callee done rest _ _ _ k paren hcallee =>
    exact argumentStep_grows hcallee (v :: done) rest paren k
  | get => exact .of_eq (getStep_nest m v _ _)
  | setObject => exact .of_eq (setObjectStep_nest m v _ _ _)
  | setValue => exact .refl
  | discard => exact .refl
  | print => exact .refl
  | define _ hk _ => exact define_grows (hk.opened hc).head hg _ v
  | @branch _ _ _ _ no => cases no <;> rw [valueStep] <;> split <;> exact .refl
  | test => rw [valueStep]; split <;> exact .refl
  | ret => exact .refl

theorem foldlM_release {a a' : Arena} {left : List Handle}
    (h : left.foldlM Arena.release a = .ok a') (hlt : ∀ i ∈ left, floor < i) (hs : List Handle) :
    Nest.Pops floor ⟨a, left ++ hs⟩ ⟨a', hs⟩ := by
  induction left generalizing a with
  | nil => cases h; exact .refl
  | cons i left ih =>
    cases hg : a.get? i with
    | none => simp [List.foldlM_cons, Arena.release, Arena.find, hg, bind, Except.bind] at h
    | some e =>
      rw [List.foldlM_cons, Arena.release_eq_ok hg] at h
      exact .head (.leave hg (hlt i List.mem_cons_self))
        (ih h fun j hj => hlt j (List.mem_cons_of_mem _ hj))

theorem leave_pops {left : List Handle} (h : m.leave outer left = (m', none))
    (hlt : ∀ i ∈ left, outer < i) (hs : List Handle) :
    Nest.Pops outer ⟨m.store.arena, left ++ hs⟩ ⟨m'.store.arena, hs⟩ := by
  rw [leave] at h
  split at h
  · rename_i a ha
    cases h
    exact foldlM_release ha hlt hs
  · cases h

theorem leaveCall_pops (receiver : Option Handle)
    (h : { m with depth := m.depth - 1 }.leave outer (m.env :: receiver.toList) = (m', none))
    (hlt : ∀ i ∈ m.env :: receiver.toList, outer < i)
    (hstep : m.completeStep c (.leaveCall outer receiver result k) = some n) :
    (m.nestOver (.done (.leaveCall outer receiver result k))).Pops n.env n.nest := by
  have hpops := leave_pops h hlt (k.opened outer)
  obtain ⟨hend, henv⟩ := leaveCall_ends hstep
  have hstore : n.store = m'.store := by
    rw [completeStep, h] at hstep
    cases c with
    | failing fault => cases hstep; rfl
    | normal => cases result <;> cases hstep <;> rfl
    | returning v => cases result <;> cases hstep <;> rfl
  have hnest : n.nest = ⟨m'.store.arena, k.opened outer⟩ := by
    rw [nest, nestOver, hend.opened, hstore, henv]
    rfl
  rw [hnest, henv]
  exact hpops

theorem completeStep_pops (hs : m.store.Fits P W) (hc : m.store.arena.Chain W m.env zs Ss)
    (hk : DoneCont.Fits (m.store.world P W) m.env zs Γ k)
    (hstep : m.completeStep c k = some n) : (m.nestOver (.done k)).Pops n.env n.nest := by
  cases hk with
  | @program _ rest =>
    cases c with
    | failing fault => cases hstep
    | normal => cases rest <;> cases hstep; exact .refl
    | returning v => cases rest <;> cases hstep; exact .refl
  | @sequence _ _ rest =>
    cases c with
    | normal => cases rest <;> cases hstep <;> exact .refl
    | returning v => cases hstep; exact .refl
    | failing fault => cases hstep; exact .refl
  | again => cases c <;> cases hstep <;> exact .refl
  | @leaveBlock outer _ _ _ k _ _ hlt =>
    obtain ⟨e, hg⟩ := hc.live
    obtain ⟨m', hm, _, rfl, _⟩ := leave_zone hs hg hlt
    rw [completeStep, hm] at hstep
    cases hstep
    exact leave_pops hm (List.forall_mem_singleton.2 hlt) (k.opened m'.env)
  | leaveFunction hlt =>
    obtain ⟨e, hg⟩ := hc.live
    obtain ⟨m', hm, _⟩ := leave_zone (m := { m with depth := m.depth - 1 }) hs hg hlt
    exact leaveCall_pops none hm (List.forall_mem_singleton.2 hlt) hstep
  | leaveMethod hlt hlt' hg he =>
    obtain ⟨f, hself⟩ := hc.outer_live hg he
    obtain ⟨m', hm, _⟩ := leave_method (m := { m with depth := m.depth - 1 }) hs hg hself hlt hlt'
    refine leaveCall_pops (some _) hm ?_ hstep
    exact List.forall_mem_cons.2 ⟨Nat.lt_trans hlt hlt', List.forall_mem_singleton.2 hlt⟩

/-- What a step does to the arena and to the environments that are open. -/
theorem Fits.turns (hm : m.Fits P W E) (hstep : m.step = some m') : m.Turns m' := by
  obtain ⟨hs, hctl⟩ := hm
  rw [Machine.step] at hstep
  generalize hcontrol : m.control = control at hctl hstep
  cases hctl with
  | @eval _ _ e k _ _ _ =>
    cases hstep
    rw [Turns, captured, nest, hcontrol]
    exact .inl (.of_eq (evalStep_nest m e k))
  | @exec _ _ s _ k _ hc hk _ =>
    cases hstep
    exact execStep_turns hs hc (hk.opened hc).head hcontrol
  | value hv hc hk =>
    cases hstep
    rw [Turns, captured, nest, hcontrol]
    exact .inl (valueStep_grows hc hk hv)
  | complete _ hc _ hk =>
    rw [Turns, captured, nest, hcontrol]
    exact .inr (completeStep_pops hs hc hk hstep)

end Machine

end Lox
