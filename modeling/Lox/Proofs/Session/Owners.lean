import Lox.Proofs.Grammar.Identifiers
import Lox.Proofs.Session.Effects
import Lox.Proofs.Session.Release

namespace Lox
set_option autoImplicit true

/-- For which bound method each call in progress runs, the innermost call first, and for which one
each function was made. -/
structure Receivers where
  calls : List (Option Bound) := []
  functions : Identity → Option Bound := fun _ => none

namespace Receivers

def current (r : Receivers) : Option Bound := r.calls.head?.join

def ofCall (r : Receivers) (n : Identity) : Value → Option Bound
  | .function j _ => r.functions j
  | v => v.bound? n

/-- What a step changes. One that begins a call increases the depth, and one that ends a call
decreases it. -/
def step (r : Receivers) (m m' : Machine) : Receivers where
  calls :=
    if m.depth < m'.depth then m.control.callee?.bind (r.ofCall m.store.nextId) :: r.calls
    else if m'.depth < m.depth then r.calls.tail
    else r.calls
  functions j :=
    match m.control with
    | .exec (.funDecl _) _ => if m.store.nextId = j then r.current else r.functions j
    | _ => r.functions j

def after : List Machine → Receivers
  | [] => {}
  | m :: past =>
    match m.step with
    | some m' => (after past).step m m'
    | none => after past

variable {r : Receivers} {m m' : Machine}

theorem after_cons (hstep : m.step = some m') (past : List Machine) :
    after (m :: past) = (after past).step m m' := by rw [after, hstep]

theorem calls_of_same (h : m'.depth = m.depth) : (r.step m m').calls = r.calls := by
  simp [step, h]

theorem calls_of_enter (h : m'.depth = m.depth + 1) :
    (r.step m m').calls = m.control.callee?.bind (r.ofCall m.store.nextId) :: r.calls := by
  simp [step, h]

theorem calls_of_leave (h : m'.depth = m.depth - 1) (hpos : m.depth ≠ 0) :
    (r.step m m').calls = r.calls.tail := by
  have hlt : m.depth - 1 < m.depth := Nat.sub_one_lt hpos
  simp [step, h, hlt, Nat.not_lt_of_lt hlt]

theorem functions_of_lt (h : j < m.store.nextId) : (r.step m m').functions j = r.functions j := by
  simp only [step]
  split
  · exact if_neg (Nat.ne_of_gt h)
  · rfl

theorem functions_of_funDecl (h : m.control = .exec (.funDecl decl) k) :
    (r.step m m').functions m.store.nextId = r.current := by
  simp [step, h]

end Receivers

/-- The bound method for which each environment was made. -/
abbrev Owners := Handle → Option Bound

namespace Owners

/-- The environments from `next` on are made for one bound method. -/
def extend (S : Owners) (next : Handle) (b : Option Bound) : Owners :=
  fun h => if h < next then S h else b

theorem extend_of_lt {S : Owners} (h : i < next) : S.extend next b i = S i := if_pos h

theorem extend_of_le {S : Owners} (h : next ≤ i) : S.extend next b i = b :=
  if_neg (Nat.not_lt_of_le h)

/-- The current environment `h` and those that are current again after the blocks and calls in
progress were made for the methods for which these calls run. -/
inductive Along (S : Owners) : Handle → List Frame → List (Option Bound) → Prop where
  | program : S h = none → Along S h [] []
  | block : outer < h → S h = S outer → Along S outer fs calls →
      Along S h (.block outer :: fs) calls
  | call : outer < h → Along S outer fs calls → Along S h (.call outer :: fs) (S h :: calls)

theorem Along.current (h : Along S i fs calls) : calls.head?.join = S i := by
  induction h with
  | program h => exact h.symm
  | block _ h _ ih => exact ih.trans h.symm
  | call => rfl

theorem Along.extend (h : Along S i fs calls) (hi : i < next) :
    Along (S.extend next b) i fs calls := by
  induction h with
  | program h => exact .program ((extend_of_lt hi).trans h)
  | block hlt h _ ih =>
    have hout := Nat.lt_trans hlt hi
    exact .block hlt (by rw [extend_of_lt hi, extend_of_lt hout, h]) (ih hout)
  | call hlt _ ih =>
    rw [← extend_of_lt (S := S) (b := b) hi]
    exact .call hlt (ih (Nat.lt_trans hlt hi))

end Owners

/-- An environment agrees with the method for which it was made: that of a receiver binds the
receiver and nothing else, and lies in the environment of its method, and any other one was made for
the same method as the one around it. -/
inductive Environment.Agrees (W : Roles) (S : Owners) (h : Handle) (e : Environment) : Prop where
  | globals : e.enclosing = none → W h = none → Agrees W S h e
  | receiver : W h = some .receiver → S h = some b → e.enclosing = some b.method.env →
      b.method.env < h → e.values = Bindings.empty.set receiverName (.object b.receiver) →
      Agrees W S h e
  | inner : W h ≠ some .receiver → e.enclosing = some outer → outer < h → S h = S outer →
      (∀ decl b, W h = some (.function decl) → W outer = some .receiver → S h = some b →
        b.method.decl = decl) → Agrees W S h e

theorem Environment.Agrees.keep {e e' : Environment} (ha : e.Agrees W S h) (hlt : h < next)
    (he : e'.enclosing = e.enclosing) (hv : W h = some .receiver → e'.values = e.values)
    (hW : ∀ i < next, W' i = W i) (hS : ∀ i < next, S' i = S i) : e'.Agrees W' S' h := by
  cases ha with
  | globals hnone hz => exact .globals (he.trans hnone) ((hW h hlt).trans hz)
  | receiver hz hb henc hout hvalues =>
    exact .receiver ((hW h hlt).trans hz) ((hS h hlt).trans hb) (he.trans henc) hout
      ((hv hz).trans hvalues)
  | inner hne henc hout hsame hmethod =>
    have houter := Nat.lt_trans hout hlt
    refine .inner (hW h hlt ▸ hne) (he.trans henc) hout ?_ fun decl b hz hz' hb => ?_
    · rw [hS h hlt, hS _ houter, hsame]
    · exact hmethod decl b (hW h hlt ▸ hz) (hW _ houter ▸ hz') (hS h hlt ▸ hb)

def Arena.Agrees (W : Roles) (S : Owners) (a : Arena) : Prop :=
  ∀ h e, a.get? h = some e → e.Agrees W S h

/-- A function runs for the method for which its environment was made, and an instance has an
identity that is used up. -/
def Value.Agrees (S : Owners) (r : Receivers) (n : Identity) : Value → Prop
  | .function j c => j < n ∧ r.functions j = S c.env
  | .method _ _ i | .object i => i.id < n
  | _ => True

/-- From the current environment outward, the first one with a receiver binds that of the method for
which the machine runs. -/
theorem Arena.Agrees.nearest {a : Arena} (ha : a.Agrees W S)
    (hc : a.Chain W h (inside ++ .function decl :: .receiver :: around) Ss)
    (hin : Zone.receiver ∉ inside) :
    ∃ i e b, a.ancestor h (inside.length + 1) = .ok (i, e) ∧ S h = some b ∧ b.method.decl = decl ∧
      e.values = Bindings.empty.set receiverName (.object b.receiver) := by
  induction inside generalizing h Ss with
  | nil =>
    cases hc with
    | @link _ outer e _ _ _ _ hg he _ hz _ hc =>
      cases hc with
      | @link _ _ e' _ _ _ _ hg' he' _ hz' _ _ =>
        have hanc : a.ancestor h 1 = .ok (outer, e') :=
          (ancestor_link hg he 0).trans (ancestor_zero hg')
        cases ha outer e' hg' with
        | globals _ hnone => cases hz'.symm.trans hnone
        | inner hne => exact absurd hz' hne
        | receiver _ hb _ _ hvalues =>
          cases ha h e hg with
          | globals hnone => cases he.symm.trans hnone
          | receiver hz₀ => cases hz.symm.trans hz₀
          | inner _ he₀ _ hsame hmethod =>
            cases he.symm.trans he₀
            have hown := hsame.trans hb
            exact ⟨outer, e', _, hanc, hown, hmethod decl _ hz hz' hown, hvalues⟩
  | cons z inside ih =>
    obtain ⟨hne, hin⟩ := not_or.1 (mt List.mem_cons.2 hin)
    cases hc with
    | @link _ outer e _ _ _ _ hg he _ hz _ hc =>
      obtain ⟨i, f, b, hanc, hb, hdecl, hvalues⟩ := ih hc hin
      have hanc' : a.ancestor h ((z :: inside).length + 1) = .ok (i, f) :=
        (ancestor_link hg he _).trans hanc
      cases ha h e hg with
      | globals hnone => cases he.symm.trans hnone
      | receiver hz₀ => exact absurd (Option.some.inj (hz₀.symm.trans hz)) hne
      | inner _ he₀ _ hsame =>
        cases he.symm.trans he₀
        exact ⟨i, f, b, hanc', hsame.trans hb, hdecl, hvalues⟩

theorem Control.zones_of_callee? {c : Control} (h : c.callee? = some v) : c.zones = v.zones := by
  unfold Control.callee? at h
  split at h <;> cases h <;> rfl

theorem Value.zones_of_bound? {v : Value} (h : v.bound? n = some b) :
    v.zones = [.receiver, .function b.method.decl] := by
  cases v with
  | method j c i => cases h; rfl
  | cls c =>
    obtain ⟨init, hinit, rfl⟩ := Option.map_eq_some_iff.1 h
    rw [Value.zones, hinit]
  | _ => cases h

theorem Value.carries_of_bound? {v : Value} (h : v.bound? n = some b) : v.Carries b.method := by
  cases v with
  | method j c i => cases h; exact .method
  | cls c =>
    obtain ⟨init, hinit, rfl⟩ := Option.map_eq_some_iff.1 h
    exact .cls hinit
  | _ => cases h

theorem Receivers.ofCall_of_bound? (r : Receivers) (h : v.bound? n = some b) :
    r.ofCall n v = some b := by
  cases v with
  | function => cases h
  | _ => exact h

theorem Stmt.mem_names_of_declared? {s : Stmt ρ} (h : s.declared? = some x) : x ∈ s.names := by
  cases s with
  | varDecl => cases h; exact List.mem_cons_self
  | funDecl => cases h; exact List.mem_cons_self
  | classDecl => cases h; exact List.mem_cons_self
  | _ => cases h

theorem Roles.setAll_of_lt {W : Roles} (h : i < n) : W.setAll n zs i = W i := by
  induction zs generalizing W n with
  | nil => rfl
  | cons z zs ih => exact (ih (Nat.lt_succ_of_lt h)).trans (if_neg (Nat.ne_of_gt h))

theorem Roles.setAll_head (W : Roles) (n : Handle) (z : Zone Binding) (zs : List (Zone Binding)) :
    W.setAll n (z :: zs) n = some z :=
  (setAll_of_lt (Nat.lt_succ_self n)).trans (set_self _ _ _)

namespace Machine

variable {P : List (Program Binding)} {W : Roles} {S : Owners} {E : ArenaFault → Prop}
  {m m' : Machine} {past : List Machine}

theorem Fits.env_lt (hm : m.Fits P W E) : m.env < m.store.arena.next := by
  obtain ⟨zs, Ss, hc⟩ := hm.chain
  exact hm.store.sound.lt_next hc

theorem Fits.step_zones (hm : m.Fits P W E) (hE : ∀ f, m.Misreads f → E f)
    (hstep : m.step = some m') :
    ∃ zones, (zones = [] ∨ zones = m.control.zones) ∧
      m'.store.arena.next = m.store.arena.next + zones.length ∧
      m'.Fits P (W.setAll m.store.arena.next zones) E := by
  rcases hm.step hE hstep with hfits | ⟨hnext, hfits⟩
  · refine ⟨[], .inl rfl, ?_, hfits⟩
    -- a new environment would have no zone
    have hold : m'.env < m.store.arena.next := by
      obtain ⟨zs, Ss, hc⟩ := hfits.chain
      generalize m'.env = h at hc ⊢
      cases hc with
      | globals => exact Nat.lt_of_le_of_lt (Nat.zero_le _) hm.env_lt
      | link _ _ _ hz => exact hm.store.sound.fresh _ _ hz
    cases (effect hstep).moves with
    | stay _ _ hnext => exact hnext
    | block _ henv => exact absurd hold (Nat.not_lt_of_le (Nat.le_of_eq henv.symm))
    | function _ henv => exact absurd hold (Nat.not_lt_of_le (Nat.le_of_eq henv.symm))
    | method _ _ henv => exact absurd hold (Nat.not_lt_of_le (henv ▸ Nat.le_succ _))
    | leaveBlock _ hnext => exact hnext
    | leaveCall _ hnext => exact hnext
  · exact ⟨_, .inr rfl, hnext, hfits⟩

theorem Recorded.setAll (hW : Recorded past W) (hstep : m.step = some m')
    (hzones : zones = [] ∨ zones = m.control.zones)
    (hnext : m'.store.arena.next = m.store.arena.next + zones.length) :
    Recorded (m :: past) (W.setAll m.store.arena.next zones) := by
  intro h z hz
  rcases Roles.setAll_eq_some W hz with hz | ⟨j, rfl, hj⟩
  · obtain ⟨m₀, hm₀, hopens⟩ := hW h z hz
    exact ⟨m₀, List.mem_cons_of_mem _ hm₀, hopens⟩
  · have hlt := (List.getElem?_eq_some_iff.1 hj).1
    refine ⟨m, List.mem_cons_self, m', j, hstep, hnext ▸ Nat.add_lt_add_left hlt _, rfl, ?_⟩
    rcases hzones with rfl | rfl
    · cases hj
    · exact hj

/-- The calls in progress, the values, the environments and the record of all environments for a
receiver agree on the methods for which they were made. -/
structure Knows (W : Roles) (S : Owners) (past : List Machine) (m : Machine) : Prop where
  calls : S.Along m.env m.control.frames (Receivers.after past).calls
  depth : m.depth = (Receivers.after past).calls.length
  values : ∀ v, m.Holds v → v.Agrees S (Receivers.after past) m.store.nextId
  arena : m.store.arena.Agrees W S
  record : ∀ m₀ ∈ past, ∀ h, m₀.Opens h .receiver → W h = some .receiver ∧ ∃ v b,
    m₀.control.callee? = some v ∧ v.bound? m₀.store.nextId = some b ∧ S h = some b

theorem Knows.current (hk : m.Knows W S past) : (Receivers.after past).current = S m.env :=
  hk.calls.current

/-- The owners of environments after a step. -/
def owners (S : Owners) (past : List Machine) (m : Machine) : Owners :=
  S.extend m.store.arena.next (Receivers.after (m :: past)).current

theorem owners_of_lt (h : i < m.store.arena.next) : m.owners S past i = S i := Owners.extend_of_lt h

theorem owners_of_le (h : m.store.arena.next ≤ i) :
    m.owners S past i = (Receivers.after (m :: past)).current := Owners.extend_of_le h

theorem calls_after_enter (hstep : m.step = some m') (hdepth : m'.depth = m.depth + 1)
    (past : List Machine) : (Receivers.after (m :: past)).calls =
      (Receivers.after (m :: past)).current :: (Receivers.after past).calls := by
  rw [Receivers.current, Receivers.after_cons hstep, Receivers.calls_of_enter hdepth]
  rfl

theorem current_after_call (hstep : m.step = some m') (hdepth : m'.depth = m.depth + 1)
    (hv : m.control.callee? = some v) (past : List Machine) :
    (Receivers.after (m :: past)).current = (Receivers.after past).ofCall m.store.nextId v := by
  rw [Receivers.current, Receivers.after_cons hstep, Receivers.calls_of_enter hdepth, hv]
  rfl

theorem calls_after_same (hstep : m.step = some m') (hdepth : m'.depth = m.depth)
    (past : List Machine) : (Receivers.after (m :: past)).calls = (Receivers.after past).calls := by
  rw [Receivers.after_cons hstep, Receivers.calls_of_same hdepth]

theorem Knows.calls_step (hk : m.Knows W S past) (hm : m.Fits P W E) (hstep : m.step = some m') :
    (m.owners S past).Along m'.env m'.control.frames (Receivers.after (m :: past)).calls ∧
      m'.depth = (Receivers.after (m :: past)).calls.length := by
  have hcalls : (m.owners S past).Along m.env m.control.frames (Receivers.after past).calls :=
    hk.calls.extend hm.env_lt
  have hentered : ∀ h, m.store.arena.next ≤ h → m'.depth = m.depth + 1 →
      (m.owners S past).Along h (.call m.env :: m.control.frames)
        (Receivers.after (m :: past)).calls ∧
      m'.depth = (Receivers.after (m :: past)).calls.length := by
    intro h hle hdepth
    rw [calls_after_enter hstep hdepth, ← owners_of_le (S := S) hle, hdepth, hk.depth]
    exact ⟨.call (Nat.lt_of_lt_of_le hm.env_lt hle) hcalls, rfl⟩
  cases (effect hstep).moves with
  | stay henv hframes _ hdepth =>
    rw [henv, hframes, calls_after_same hstep hdepth, hdepth]
    exact ⟨hcalls, hk.depth⟩
  | block _ henv hframes _ hdepth =>
    have hsame := calls_after_same hstep hdepth past
    rw [henv, hframes, hsame, hdepth]
    refine ⟨.block hm.env_lt ?_ hcalls, hk.depth⟩
    rw [owners_of_le (Nat.le_refl _), owners_of_lt hm.env_lt, Receivers.current, hsame]
    exact hk.current
  | function _ henv hframes _ hdepth =>
    rw [henv, hframes]
    exact hentered _ (Nat.le_refl _) hdepth
  | method _ _ henv hframes _ hdepth =>
    rw [henv, hframes]
    exact hentered _ (Nat.le_succ _) hdepth
  | leaveBlock hframes _ hdepth =>
    rw [hframes] at hcalls
    rw [calls_after_same hstep hdepth, hdepth]
    cases hcalls with
    | block _ _ hcalls => exact ⟨hcalls, hk.depth⟩
  | leaveCall hframes _ hdepth =>
    have hlen := hk.depth
    rw [hframes] at hcalls
    rw [Receivers.after_cons hstep]
    generalize hr : (Receivers.after past).calls = calls at hcalls hlen
    cases hcalls with
    | call _ hcalls =>
      rw [Receivers.calls_of_leave hdepth (by rw [hlen]; nofun), hr, hdepth, hlen]
      exact ⟨hcalls, rfl⟩

theorem Fits.closure_lt (hm : m.Fits P W E) (hv : m.Holds v) (hc : v.Carries c) :
    c.env < m.store.arena.next := by
  obtain ⟨e, hg, _⟩ := ((hm.holds hv).kept hc).captured
  exact hm.store.sound.below _ e hg

theorem holds_callee (h : m.control.callee? = some v) : m.Holds v := by
  refine .control ?_
  generalize m.control = control at h
  unfold Control.callee? at h
  split at h
  · cases h
    exact List.mem_cons_self
  · cases h
    exact List.mem_cons_of_mem _ List.mem_cons_self
  · cases h

theorem Knows.values_step (hk : m.Knows W S past) (hm : m.Fits P W E) (hstep : m.step = some m')
    (hv : m'.Holds v) :
    v.Agrees (m.owners S past) (Receivers.after (m :: past)) m'.store.nextId := by
  have heff := effect hstep
  have hold : ∀ i : Instance, i.id < m.store.nextId → i.id < m'.store.nextId :=
    fun i hi => Nat.lt_of_lt_of_le hi heff.ids
  rw [Receivers.after_cons hstep]
  cases heff.values v hv with
  | held hv =>
    have hagrees := hk.values v hv
    cases v with
    | function j c =>
      refine ⟨Nat.lt_of_lt_of_le hagrees.1 heff.ids, ?_⟩
      rw [Receivers.functions_of_lt hagrees.1, owners_of_lt (hm.closure_lt hv .function)]
      exact hagrees.2
    | method j c i => exact hold i hagrees
    | object i => exact hold i hagrees
    | _ => trivial
  | plain hp =>
    cases v with
    | nil => trivial
    | bool => trivial
    | number => trivial
    | string => trivial
    | _ => cases hp
  | function hctl hlt =>
    refine ⟨hlt, ?_⟩
    rw [Receivers.functions_of_funDecl hctl, owners_of_lt hm.env_lt, hk.current]
  | cls => trivial
  | method hi => exact hold _ (hk.values _ hi)
  | object hlt => exact hlt
  | receiver hi => exact hold _ (hk.values _ hi)

/-- Nothing is assigned to the receiver, and nothing is declared under its name. -/
theorem Fits.target_ne (hm : m.Fits P W E)
    (hP : ∀ Q ∈ P, receiverName ∉ Program.identifiers Q) :
    m.control.target? ≠ some receiverName := by
  obtain ⟨_, hctl⟩ := hm
  intro htarget
  generalize m.control = control at hctl htarget
  cases hctl with
  | eval => cases htarget
  | @exec _ _ s _ _ hsite =>
    exact hsite.receiverName_not_mem hP (s.names_subset (Stmt.mem_names_of_declared? htarget))
  | value _ _ hk =>
    cases hk with
    | assign hsite =>
      exact hsite.receiverName_not_mem hP (List.mem_cons.2 (.inl (Option.some.inj htarget).symm))
    | define hsite =>
      exact hsite.receiverName_not_mem hP (List.mem_cons.2 (.inl (Option.some.inj htarget).symm))
    | _ => cases htarget
  | complete => cases htarget

theorem Fits.receiver_values (hm : m.Fits P W E) (hm' : m'.Fits P W' E)
    (hP : ∀ Q ∈ P, receiverName ∉ Program.identifiers Q) (hstep : m.step = some m')
    (hlt : h < m.store.arena.next) (hg' : m'.store.arena.get? h = some e')
    (hz : W' h = some .receiver) :
    ∃ e, m.store.arena.get? h = some e ∧ e'.values = e.values := by
  obtain ⟨e, hg, hsame | ⟨x, v, htarget, hset⟩⟩ := (effect hstep).old h e' hlt hg'
  · exact ⟨e, hg, hsame⟩
  · have hx : e'.values.contains x = true := by simp [hset]
    have hscope := hm'.store.sound.names h e' .receiver x hg' hz hx
    rcases (Zone.contains_scope _ x).1 hscope with hx | ⟨s, hs, _⟩
    · cases List.mem_singleton.1 hx
      exact (hm.target_ne hP htarget).elim
    · cases hs

theorem Knows.block_agrees (hk : m.Knows W S past) (hm : m.Fits P W E) (hstep : m.step = some m')
    (hdepth : m'.depth = m.depth) (body : List (Stmt Binding)) :
    Environment.Agrees (W.setAll m.store.arena.next [.block body]) (m.owners S past)
      m.store.arena.next { enclosing := some m.env } := by
  have hz : W.setAll m.store.arena.next [.block body] m.store.arena.next = some (.block body) :=
    Roles.setAll_head _ _ _ _
  refine .inner (by rw [hz]; nofun) rfl hm.env_lt ?_ fun decl b hz' => ?_
  · rw [owners_of_le (Nat.le_refl _), owners_of_lt hm.env_lt, Receivers.current,
      calls_after_same hstep hdepth]
    exact hk.current
  · cases hz.symm.trans hz'

theorem Knows.function_agrees (hk : m.Knows W S past) (hm : m.Fits P W E)
    (hstep : m.step = some m') (hdepth : m'.depth = m.depth + 1)
    (hcallee : m.control.callee? = some (.function j c)) (values : Bindings Value) :
    Environment.Agrees (W.setAll m.store.arena.next [.function c.decl]) (m.owners S past)
      m.store.arena.next { enclosing := some c.env, values } := by
  have hheld := holds_callee hcallee
  have henv : c.env < m.store.arena.next := hm.closure_lt hheld .function
  have hz : W.setAll m.store.arena.next [.function c.decl] m.store.arena.next =
      some (.function c.decl) := Roles.setAll_head _ _ _ _
  refine .inner (by rw [hz]; nofun) rfl henv ?_ fun decl b _ hz' => ?_
  · rw [owners_of_le (Nat.le_refl _), owners_of_lt henv, current_after_call hstep hdepth hcallee]
    exact (hk.values _ hheld).2
  -- a function statement does not stand directly in a class
  · obtain ⟨_, zs, Γ, hsite, hchain⟩ := hm.holds hheld
    have hrole : W c.env = zs.head? := hchain.role hm.store.sound.globals
    rw [Roles.setAll_of_lt henv, hrole] at hz'
    exact (hsite.head_ne_receiver hz').elim

theorem owners_of_bound (hstep : m.step = some m') (hdepth : m'.depth = m.depth + 1)
    (hcallee : m.control.callee? = some v) (hbound : v.bound? m.store.nextId = some b)
    (hle : m.store.arena.next ≤ i) : m.owners S past i = some b := by
  rw [owners_of_le hle, current_after_call hstep hdepth hcallee]
  exact Receivers.ofCall_of_bound? _ hbound

theorem Fits.receiver_agrees (hm : m.Fits P W E) (hstep : m.step = some m')
    (hdepth : m'.depth = m.depth + 1) (hcallee : m.control.callee? = some v)
    (hbound : v.bound? m.store.nextId = some b) :
    Environment.Agrees (W.setAll m.store.arena.next [.receiver, .function b.method.decl])
      (m.owners S past) m.store.arena.next
      { enclosing := some b.method.env
        values := Bindings.empty.set receiverName (.object b.receiver) } := by
  refine .receiver (Roles.setAll_head _ _ _ _)
    (owners_of_bound hstep hdepth hcallee hbound (Nat.le_refl _)) rfl ?_ rfl
  exact hm.closure_lt (holds_callee hcallee) (Value.carries_of_bound? hbound)

theorem method_agrees (W : Roles) (hstep : m.step = some m') (hdepth : m'.depth = m.depth + 1)
    (hcallee : m.control.callee? = some v) (hbound : v.bound? m.store.nextId = some b)
    (values : Bindings Value) :
    Environment.Agrees (W.setAll m.store.arena.next [.receiver, .function b.method.decl])
      (m.owners S past) (m.store.arena.next + 1)
      { enclosing := some m.store.arena.next, values } := by
  have hz : W.setAll m.store.arena.next [.receiver, .function b.method.decl]
      (m.store.arena.next + 1) = some (.function b.method.decl) := Roles.set_self _ _ _
  have hown : ∀ i, m.store.arena.next ≤ i → m.owners S past i = some b := fun i hi =>
    owners_of_bound hstep hdepth hcallee hbound hi
  refine .inner (by rw [hz]; nofun) rfl (Nat.lt_succ_self _) ?_ fun decl b' hz' _ hb' => ?_
  · rw [hown _ (Nat.le_succ _), hown _ (Nat.le_refl _)]
  · cases hz.symm.trans hz'
    cases (hown _ (Nat.le_succ _)).symm.trans hb'
    rfl

theorem Knows.new_agrees (hk : m.Knows W S past) (hm : m.Fits P W E) (hstep : m.step = some m')
    (hzones : m'.store.arena.next ≠ m.store.arena.next → zones = m.control.zones)
    (hle : m.store.arena.next ≤ h) (hlt : h < m'.store.arena.next)
    (hg : m'.store.arena.get? h = some e) :
    e.Agrees (W.setAll m.store.arena.next zones) (m.owners S past) h := by
  have hzones := hzones (Nat.ne_of_gt (Nat.lt_of_le_of_lt hle hlt))
  cases (effect hstep).moves with
  | stay _ _ hnext => exact absurd hlt (Nat.not_lt_of_le (hnext ▸ hle))
  | leaveBlock _ hnext => exact absurd hlt (Nat.not_lt_of_le (hnext ▸ hle))
  | leaveCall _ hnext => exact absurd hlt (Nat.not_lt_of_le (hnext ▸ hle))
  | @block body k hctl _ _ harena hdepth =>
    rw [harena] at hg hlt
    cases Nat.le_antisymm (Nat.le_of_lt_succ hlt) hle
    rw [Arena.get?_new, if_pos rfl] at hg
    cases hg
    rw [hzones, hctl]
    exact hk.block_agrees hm hstep hdepth body
  | @function j c params hcallee _ _ harena hdepth =>
    rw [harena] at hg hlt
    cases Nat.le_antisymm (Nat.le_of_lt_succ hlt) hle
    rw [Arena.get?_new, if_pos rfl] at hg
    cases hg
    rw [hzones, Control.zones_of_callee? hcallee]
    exact hk.function_agrees hm hstep hdepth hcallee params
  | @method v b params hcallee hbound _ _ harena hdepth =>
    rw [hzones, Control.zones_of_callee? hcallee, Value.zones_of_bound? hbound]
    rw [harena, Arena.get?_new] at hg
    split at hg
    · rename_i hh
      cases hg
      exact hh ▸ method_agrees W hstep hdepth hcallee hbound params
    · rw [Arena.get?_new] at hg
      split at hg
      · rename_i hh
        cases hg
        exact hh ▸ hm.receiver_agrees hstep hdepth hcallee hbound
      · exact absurd (hm.store.sound.below h e hg) (Nat.not_lt_of_le hle)

theorem Knows.arena_step (hk : m.Knows W S past) (hm : m.Fits P W E)
    (hP : ∀ Q ∈ P, receiverName ∉ Program.identifiers Q) (hstep : m.step = some m')
    (hzones : m'.store.arena.next ≠ m.store.arena.next → zones = m.control.zones)
    (hm' : m'.Fits P (W.setAll m.store.arena.next zones) E) :
    m'.store.arena.Agrees (W.setAll m.store.arena.next zones) (m.owners S past) := by
  intro h e' hg'
  by_cases hlt : h < m.store.arena.next
  · obtain ⟨e, hg, he⟩ := (hm.step_keeps hstep).1.linked h hlt e' hg'
    refine (hk.arena h e hg).keep hlt he.symm (fun hz => ?_) (fun i hi => Roles.setAll_of_lt hi)
      fun i hi => owners_of_lt hi
    obtain ⟨e₀, hg₀, hvalues⟩ :=
      hm.receiver_values hm' hP hstep hlt hg' ((Roles.setAll_of_lt hlt).trans hz)
    cases hg.symm.trans hg₀
    exact hvalues
  · exact hk.new_agrees hm hstep hzones (Nat.le_of_not_lt hlt) (hm'.store.sound.below h e' hg') hg'

theorem Opens.bound (ho : m.Opens h .receiver) :
    ∃ m' v b e, m.step = some m' ∧ m'.depth = m.depth + 1 ∧ h = m.store.arena.next ∧
      m.control.callee? = some v ∧ v.bound? m.store.nextId = some b ∧
      m'.store.arena.get? h = some e ∧ e.enclosing = some b.method.env ∧
      e.values = Bindings.empty.set receiverName (.object b.receiver) := by
  obtain ⟨m', i, hstep, hlt, rfl, hz⟩ := ho
  have hnot : m'.store.arena.next ≠ m.store.arena.next := fun hnext =>
    Nat.not_lt_of_le (Nat.le_add_right _ i) (hnext ▸ hlt)
  cases (effect hstep).moves with
  | stay _ _ hnext => exact (hnot hnext).elim
  | leaveBlock _ hnext => exact (hnot hnext).elim
  | leaveCall _ hnext => exact (hnot hnext).elim
  | block hctl =>
    rw [hctl] at hz
    cases i <;> cases hz
  | function hcallee =>
    rw [Control.zones_of_callee? hcallee] at hz
    cases i <;> cases hz
  | @method v b params hcallee hbound _ _ harena hdepth =>
    rw [Control.zones_of_callee? hcallee, Value.zones_of_bound? hbound] at hz
    have hi : i = 0 := by
      cases i with
      | zero => rfl
      | succ i => cases i <;> cases hz
    subst hi
    let e : Environment :=
      { enclosing := some b.method.env
        values := Bindings.empty.set receiverName (.object b.receiver) }
    refine ⟨m', v, b, e, hstep, hdepth, rfl, hcallee, hbound, ?_, rfl, rfl⟩
    rw [harena]
    exact (Arena.get?_new_of_lt (Nat.lt_succ_self _)).trans
      ((Arena.get?_new _ _ _ _).trans (if_pos rfl))

theorem Knows.record_step (hk : m.Knows W S past) (hm : m.Fits P W E)
    (hzones : m'.store.arena.next ≠ m.store.arena.next → zones = m.control.zones)
    (hstep : m.step = some m') (hmem : m₀ ∈ m :: past) (ho : m₀.Opens h .receiver) :
    W.setAll m.store.arena.next zones h = some .receiver ∧ ∃ v b, m₀.control.callee? = some v ∧
      v.bound? m₀.store.nextId = some b ∧ m.owners S past h = some b := by
  rcases List.mem_cons.1 hmem with rfl | hmem
  · obtain ⟨m₁, v, b, _, hstep₁, hdepth, rfl, hcallee, hbound, _⟩ := ho.bound
    cases hstep.symm.trans hstep₁
    refine ⟨?_, v, b, hcallee, hbound, owners_of_bound hstep hdepth hcallee hbound (Nat.le_refl _)⟩
    obtain ⟨m₂, _, hstep₂, hlt, _⟩ := ho
    cases hstep.symm.trans hstep₂
    rw [hzones (Nat.ne_of_gt hlt), Control.zones_of_callee? hcallee, Value.zones_of_bound? hbound]
    exact Roles.setAll_head _ _ _ _
  · obtain ⟨hz, v, b, hcallee, hbound, hown⟩ := hk.record m₀ hmem h ho
    have hlt := hm.store.sound.fresh h _ hz
    exact ⟨(Roles.setAll_of_lt hlt).trans hz, v, b, hcallee, hbound, (owners_of_lt hlt).trans hown⟩

theorem Knows.step (hk : m.Knows W S past) (hm : m.Fits P W fun _ => True) (hW : Recorded past W)
    (hP : ∀ Q ∈ P, receiverName ∉ Program.identifiers Q) (hstep : m.step = some m') :
    ∃ W' S', m'.Fits P W' (fun _ => True) ∧ Recorded (m :: past) W' ∧
      m'.Knows W' S' (m :: past) := by
  obtain ⟨zones, hzones, hnext, hm'⟩ := hm.step_zones (fun _ _ => trivial) hstep
  have hentered : m'.store.arena.next ≠ m.store.arena.next → zones = m.control.zones := by
    refine fun hne => hzones.resolve_left ?_
    rintro rfl
    exact hne hnext
  obtain ⟨hcalls, hdepth⟩ := hk.calls_step hm hstep
  exact ⟨_, m.owners S past, hm', hW.setAll hstep hzones hnext, hcalls, hdepth,
    fun v => hk.values_step hm hstep, hk.arena_step hm hP hstep hentered hm',
    fun m₀ hmem h => hk.record_step hm hentered hstep hmem⟩

theorem Knows.run (hk : m.Knows W S past) (hm : m.Fits P W fun _ => True) (hW : Recorded past W)
    (hP : ∀ Q ∈ P, receiverName ∉ Program.identifiers Q) (n : Nat) :
    ∃ W' S', (m.run n).Fits P W' (fun _ => True) ∧ Recorded (m.trace n ++ past) W' ∧
      (m.run n).Knows W' S' (m.trace n ++ past) := by
  induction n generalizing m W S past with
  | zero => exact ⟨W, S, hm, hW, hk⟩
  | succ n ih =>
    rw [Machine.run, trace]
    cases hstep : m.step with
    | none => exact ⟨W, S, hm, hW, hk⟩
    | some m' =>
      obtain ⟨W', S', hm', hW', hk'⟩ := hk.step hm hW hP hstep
      have hrun := ih hk' hm' hW'
      simpa using hrun

theorem Knows.restart (hk : m.Knows W S past) (hframes : m.control.frames = [])
    (Q : Program Binding) : (Machine.start m.store m.env Q).Knows W S past := by
  have hcalls := hk.calls
  rw [hframes] at hcalls
  refine ⟨hcalls, ?_, fun v hv => hk.values v ?_, hk.arena, hk.record⟩
  · generalize (Receivers.after past).calls = calls at hcalls
    cases hcalls
    rfl
  · cases hv with
    | stored hv => exact .stored hv
    | control hv => cases hv

theorem frames_of_outcome (hend : m.outcome ≠ .unfinished) : m.control.frames = [] := by
  rw [outcome] at hend
  split at hend
  · rename_i hctl
    rw [hctl]
    rfl
  · rename_i hctl
    rw [hctl]
    rfl
  · exact (hend rfl).elim

end Machine

namespace Session

variable {s : Session} {programs : List (Program Binding)} {past : List Machine}

theorem History.receiverName_not_mem (h : History s programs past) :
    ∀ P ∈ programs, receiverName ∉ P.identifiers := by
  induction h with
  | new => exact fun P hP => nomatch hP
  | stopped _ _ ih => exact ih
  | executed _ hacc _ ih =>
    exact List.forall_mem_cons.2 ⟨receiverName_not_mem_identifiers hacc.read, ih⟩

theorem knows_new (interactive : Bool) :
    (Machine.start (new interactive).store (new interactive).env []).Knows (fun _ => none)
      (fun _ => none) [] where
  calls := .program rfl
  depth := rfl
  values := by
    intro v hv
    cases hv with
    | stored hv =>
      cases hv with
      | bound hg hx =>
        obtain ⟨_, rfl⟩ := get?_emptyStore hg
        simp at hx
      | field i hx => simp [Machine.start, new, emptyStore, Store.fieldsOf] at hx
    | control hv => cases hv
  arena := by
    intro h e hg
    obtain ⟨_, rfl⟩ := get?_emptyStore hg
    exact .globals rfl rfl
  record := fun m₀ hm₀ => by cases hm₀

theorem History.knows (h : History s programs past) :
    ∃ W S, s.Fits programs W ∧ Machine.Recorded past W ∧
      (Machine.start s.store s.env []).Knows W S past := by
  induction h with
  | new interactive =>
    exact ⟨_, _, fits_new interactive, (fun h z hz => nomatch hz), knows_new interactive⟩
  | @stopped s programs past source limit _ hrej ih =>
    obtain ⟨W, S, hs, hW, hk⟩ := ih
    obtain ⟨hstore, henv, _⟩ := run_of_not_accepts hrej limit
    exact ⟨W, S, ⟨hstore ▸ hs.store, by rw [hstore, henv]; exact hs.current⟩, hW,
      by rwa [hstore, henv]⟩
  | @executed s programs past source tree limit hist hacc hend ih =>
    obtain ⟨W, S, hs, hW, hk⟩ := ih
    have hP := Program.accepted_resolve hacc.proper
    have hnames := (History.executed hist hacc hend).receiverName_not_mem
    obtain ⟨W', S', hm, hW', hk'⟩ :=
      (hk.restart rfl tree.resolve).run (hs.start hP) hW hnames limit
    rw [hacc.run_eq] at hend ⊢
    obtain ⟨hstore, henv⟩ := store_execute limit s.begin tree.resolve
    have hend := outcome_of_answer hend
    rw [store_begin, env_begin] at hstore henv hend
    refine ⟨W', S', ⟨hstore ▸ hm.store, ?_⟩, hW', ?_⟩ <;> rw [hstore, henv]
    · exact hm.globals_current hend
    · exact hk'.restart (Machine.frames_of_outcome hend) []

theorem Moment.knows (h : Moment programs past m) :
    ∃ W S, m.Fits programs W (fun _ => True) ∧ Machine.Recorded past W ∧ m.Knows W S past := by
  cases h with
  | intro hist hacc n =>
    obtain ⟨W, S, hs, hW, hk⟩ := hist.knows
    refine (hk.restart rfl _).run (hs.start (Program.accepted_resolve hacc.proper)) hW ?_ n
    exact List.forall_mem_cons.2
      ⟨receiverName_not_mem_identifiers hacc.read, hist.receiverName_not_mem⟩

end Session

end Lox
