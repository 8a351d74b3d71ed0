import Lox.Proofs.Alike.Step
import Lox.Proofs.Session.LocalReads
import Lox.Proofs.Session.Release

namespace Lox
set_option autoImplicit true

/-- The renaming of each environment fits the zone it was made for. -/
def Renamings.Suits (T : Renamings) (W : Roles) : Prop :=
  ∀ h z σ, W h = some z → T h = some σ → z.Fixes (σ 0)

variable {ι : Type} {R : ι → Likeness} {T T' : Renamings} {W : Roles} {E : ArenaFault → Prop}
  {programs : List (Program Binding)}

namespace Machine

variable {m m' n n' : Machine}

/-- A variable that is read in vain is a function that its scope may leave out. -/
theorem Fits.guards_of_misread (hm : m.Fits programs W E)
    (hP : ∀ P ∈ programs, ∀ D ∈ Program.declarations P, D.Regular)
    (hctl : m.control = .eval (.read name (.bound d)) k)
    (hread : m.store.read m.env name.name (.bound d) = .error f) :
    ∃ i e z, m.store.arena.ancestor m.env d = .ok (i, e) ∧ W i = some z ∧
      z.GuardsFunction name.name := by
  have hfits := hm.control
  rw [hctl] at hfits
  cases hfits with
  | @eval zs Γ _ _ hsite hc _ =>
    have hbind := (hsite.proper hm.store.sound.accepted).binding rfl
    obtain ⟨S, hS, hx, _⟩ := Context.binding_eq_bound hbind
    obtain ⟨i, e, z, ha, _, hz, hW, hhas⟩ := hc.ancestor hS
    refine ⟨i, e, z, ha, hW, ?_⟩
    rw [Store.read_bound ha] at hread
    rcases hhas _ (hsite.read_ready hm.store.sound.accepted hS hx) with hb | hguard
    · obtain ⟨v, hv⟩ := Bindings.contains_iff.1 hb
      rw [hv] at hread
      cases hread
    · exact hguard.function (hsite.zone_regular hP (List.mem_of_getElem? hz))

theorem Alike.keepsMissing (h : m.Alike R T m') (hm : m.Fits programs W E)
    (hP : ∀ P ∈ programs, ∀ D ∈ Program.declarations P, D.Regular) (hT : T.Suits W) :
    m.KeepsMissing T := by
  intro name d k f σ hctl hread hσ
  obtain ⟨i, e, z, ha, hz, hguards⟩ := hm.guards_of_misread hP hctl hread
  obtain ⟨_, hl, _⟩ := h
  have hancestor := hl.store.arena.ancestor hσ d
  rw [ha] at hancestor
  generalize m'.store.arena.ancestor m.env d = found at hancestor
  cases hancestor with
  | ok hfound =>
    obtain ⟨_, τ, hτ, hτσ, _⟩ := hfound
    have hfix := hT i z τ hz hτ name.name hguards
    rwa [hτσ] at hfix

/-- Renamings are added for the zones that a step enters, and these are the roles of the new
environments. -/
theorem Suits.follow (hT : T.Suits W) (ha : m.store.arena.Alike R T a)
    (hW : ∀ h z, W h = some z → h < m.store.arena.next)
    (hgrown : T'.Grown T m.store.arena.next m.control.zones)
    (hfollows : Follows programs W E m.control.zones m n) :
    ∃ W', n.Fits programs W' E ∧ T'.Suits W' := by
  rcases hfollows with hfits | ⟨_, hfits⟩
  · refine ⟨W, hfits, fun h z σ hz hσ => ?_⟩
    rcases hgrown.made h σ hσ with hold | ⟨j, z', _, rfl, _⟩
    · exact hT h z σ hz hold
    · exact absurd (hW _ z hz) (Nat.not_lt_of_le (Nat.le_add_right _ _))
  · refine ⟨_, hfits, fun h z σ hz hσ => ?_⟩
    rcases Roles.setAll_eq_some W hz with hz | ⟨j, rfl, hj⟩
    · rcases hgrown.made h σ hσ with hold | ⟨j, z', _, rfl, _⟩
      · exact hT h z σ hz hold
      · exact absurd (hW _ z hz) (Nat.not_lt_of_le (Nat.le_add_right _ _))
    · rcases hgrown.made _ σ hσ with hold | ⟨j', z', hj', heq, hfix⟩
      · exact absurd (ha.fresh _ σ hold) (Nat.not_lt_of_le (Nat.le_add_right _ _))
      · cases Nat.add_left_cancel heq
        cases hj.symm.trans hj'
        exact hfix

/-- Machines that are alike stay so as long as they run. -/
theorem Alike.run (h : m.Alike R T m') (hm : m.Fits programs W E) (hE : ∀ f, E f)
    (hP : ∀ P ∈ programs, ∀ D ∈ Program.declarations P, D.Regular) (hT : T.Suits W) (n : Nat) :
    ∃ T', (m.run n).Alike R T' (m'.run n) := by
  induction n generalizing m m' T W with
  | zero => exact ⟨T, h⟩
  | succ n ih =>
    have hstep := h.step (h.keepsMissing hm hP hT)
    rw [Machine.run, Machine.run]
    generalize hs : m.step = o, m'.step = o' at hstep
    cases hstep with
    | none => exact ⟨T, h⟩
    | some htogether =>
      obtain ⟨T', hgrown, h'⟩ := htogether
      obtain ⟨_, hl, _⟩ := h
      obtain ⟨W', hm', hT'⟩ := Suits.follow hT hl.store.arena hm.store.sound.fresh hgrown
        (hm.step (fun f _ => hE f) hs)
      exact ih h' hm' hT'

end Machine

inductive Machine.Outcome.Alike (R : ι → Likeness) : Outcome → Outcome → Prop where
  | finished : Alike R .finished .finished
  | failed : f.Alike R f' → Alike R (.failed f) (.failed f')
  | unfinished : Alike R .unfinished .unfinished

theorem Machine.Alike.outcome {m m' : Machine} (h : m.Alike R T m') :
    Outcome.Alike R m.outcome m'.outcome := by
  obtain ⟨_, _, hctl⟩ := h
  unfold Machine.outcome
  generalize m.control = c, m'.control = c' at hctl
  cases hctl with
  | eval => exact .unfinished
  | exec => exact .unfinished
  | value => exact .unfinished
  | complete hc hk =>
    cases hk with
    | program hrest =>
      cases hc with
      | failing hf => exact .failed hf
      | normal =>
        cases hrest with
        | nil => exact .finished
        | cons => exact .unfinished
      | returning =>
        cases hrest with
        | nil => exact .finished
        | cons => exact .unfinished
    | sequence => cases hc <;> exact .unfinished
    | again => cases hc <;> exact .unfinished
    | leaveBlock => cases hc <;> exact .unfinished
    | leaveCall => cases hc <;> exact .unfinished

/-- All code of the programs is alike to itself. -/
structure CodeAlike (R : ι → Likeness) (programs : List (Program Binding)) : Prop where
  function : Site programs zs Γ (.stmt (.funDecl f)) → ∃ i, FunDecl.Alike (R i) .none f f
  method : Site programs zs Γ (.stmt (.classDecl name methods)) → f ∈ methods →
    ∃ i, FunDecl.Alike (R i) .none f f

/-- The environments there are, none with a renaming. -/
def Arena.unrenamed (a : Arena) : Renamings := fun h => if h < a.next then some .none else none

theorem Arena.unrenamed_eq_some {a : Arena} (h : a.unrenamed i = some σ) :
    i < a.next ∧ σ = .none := by
  unfold unrenamed at h
  split at h
  · cases h
    exact ⟨‹_›, rfl⟩
  · cases h

namespace World

variable {w : World}

theorem Sound.unrenamed (hw : w.Sound) (hk : w.arena.Kept h) :
    w.arena.unrenamed h = some .none := by
  obtain ⟨e, hg, _⟩ := hk.captured
  exact if_pos (hw.below h e hg)

variable (hw : w.Sound) (hR : CodeAlike R w.programs)
include hw hR

theorem alike_function {c : Closure} (hc : c.IsFunction w) :
    c.Alike R w.arena.unrenamed id c := by
  obtain ⟨hk, zs, Γ, hsite, _⟩ := hc
  obtain ⟨i, hf⟩ := hR.function hsite
  exact ⟨rfl, i, .none, hw.unrenamed hk, hf⟩

theorem alike_method {c : Closure} (hc : c.IsMethod w) :
    c.AlikeMethod R w.arena.unrenamed c := by
  obtain ⟨hk, zs, Γ, name, methods, hsite, hmem, _⟩ := hc
  obtain ⟨i, hf⟩ := hR.method hsite hmem
  refine ⟨rfl, i, .none, hw.unrenamed hk, ?_⟩
  rw [Renaming.push_none]
  exact hf

theorem alike_class {c : ClassObject} (hc : c.Fits w) : c.Alike R w.arena.unrenamed c := by
  refine ⟨rfl, rfl, fun x => ?_⟩
  change Option.Rel _ (c.methods.get? x) (c.methods.get? x)
  cases hm : c.methods.get? x with
  | none => exact .none
  | some f => exact .some (alike_method hw hR (hc x f hm).2)

theorem alike_value {v : Value} (hv : v.Fits w) : v.Alike R w.arena.unrenamed v := by
  cases v with
  | nil => exact .nil
  | bool => exact .bool
  | number => exact .number
  | string => exact .string
  | function n c => exact .function (alike_function hw hR hv)
  | method n c i => exact .method (alike_method hw hR hv.1) ⟨rfl, alike_class hw hR hv.2⟩
  | cls c => exact .cls (alike_class hw hR hv)
  | object i => exact .object ⟨rfl, alike_class hw hR hv⟩

theorem alike_bindings {b : Bindings Value} (hb : ∀ x v, b.get? x = some v → v.Fits w) :
    b.Alike (Value.Alike R w.arena.unrenamed) 1 b := by
  intro x
  change Option.Rel _ (b.get? x) (b.get? x)
  cases hv : b.get? x with
  | none => exact .none
  | some v => exact .some (alike_value hw hR (hb x v hv))

end World

theorem Store.Fits.alike {s : Store} (hs : s.Fits programs W) (hR : CodeAlike R programs)
    (hc : s.arena.Chain W globals [] []) (ht : Nest.Tidy ⟨s.arena, []⟩) :
    s.Alike R s.arena.unrenamed s := by
  have hw := hs.sound
  obtain ⟨g, hg, hnone⟩ := hc.globals_live
  refine ⟨⟨rfl, rfl, fun h => ?_, fun h σ hσ => (Arena.unrenamed_eq_some hσ).1, ?_, ?_⟩, ?_, rfl⟩
  · cases hh : s.arena.get? h with
    | none => exact .none
    | some e =>
      have hbelow := hw.below h e hh
      refine .some ⟨.none, if_pos hbelow, rfl, rfl, fun o ho => ?_, ?_⟩
      · rcases ht h e hh with hcap | rfl | hopen
        · exact hw.unrenamed ((hw.closed h e hh hcap).enclosing hh ho)
        · cases hg.symm.trans hh
          cases ho.symm.trans hnone
        · cases hopen
      · exact World.alike_bindings hw hR fun x v hv => hw.values h e x v hh hv
  · intro h σ d hσ
    rw [(Arena.unrenamed_eq_some hσ).2]
    exact .inl rfl
  · exact if_pos (hw.below globals g hg)
  · rintro ⟨id, c⟩ ⟨id', c'⟩ rfl
    exact World.alike_bindings hw hR fun x v hv => hs.fields ⟨id', c⟩ x v hv

theorem Arena.unrenamed_suits (a : Arena) (W : Roles) : a.unrenamed.Suits W := by
  intro h z σ _ hσ x _
  rw [(unrenamed_eq_some hσ).2]
  rfl

/-- Lines that differ at most in the place where an error of the program is said to be. -/
inductive Output.Alike (R : ι → Likeness) : Output → Output → Prop where
  | text : Output.Alike R (.text line) (.text line)
  | error : (R i).place p p' → Output.Alike R (.diagnostic (.runtimeError p.line message))
      (.diagnostic (.runtimeError p'.line message))

structure Run.Alike (R : ι → Likeness) (r r' : Run) : Prop where
  store : ∃ T, r.session.store.Alike R T r'.session.store
  env : r'.session.env = r.session.env
  output : List.Forall₂ (Output.Alike R) r.output r'.output
  answer : r'.answer = r.answer

namespace Session

variable {s : Session} {past : List Machine} {P P' : Program Binding}

theorem execute_alike {T : Renamings} (h : ((Machine.start s.store s.env P).run n).Alike R T
    ((Machine.start s.store s.env P').run n)) :
    (s.execute n P).Alike R (s.execute n P') := by
  have hout := h.outcome
  obtain ⟨σ, hl, _⟩ := h
  have htext : List.Forall₂ (Output.Alike R)
      (((Machine.start s.store s.env P).run n).printed.reverse.map .text)
      (((Machine.start s.store s.env P').run n).printed.reverse.map .text) := by
    rw [hl.printed, List.forall₂_map_left_iff, List.forall₂_map_right_iff, List.forall₂_same]
    exact fun _ _ => .text
  unfold execute
  generalize (Machine.start s.store s.env P).run n = m,
    (Machine.start s.store s.env P').run n = m' at hout hl htext
  dsimp only
  generalize m.outcome = o, m'.outcome = o' at hout
  cases hout with
  | finished => exact ⟨⟨T, hl.store⟩, hl.env, htext, rfl⟩
  | unfinished => exact ⟨⟨T, hl.store⟩, hl.env, htext, rfl⟩
  | failed hf =>
    cases hf with
    | escape => exact ⟨⟨T, hl.store⟩, hl.env, htext, rfl⟩
    | error hp =>
      exact ⟨⟨T, hl.store⟩, hl.env, List.rel_append htext (.cons (.error hp) .nil), rfl⟩

/-- From the same session, alike programs run alike. -/
theorem History.run_alike (hist : History s programs past) (hacc : P.Accepted)
    (hreg : ∀ D ∈ P.declarations, D.Regular) (hR : CodeAlike R programs)
    (hP : Stmt.AlikeAll (R i) .none P P') (n : Nat) :
    ∃ T, ((Machine.start s.store s.env P).run n).Alike R T
      ((Machine.start s.store s.env P').run n) := by
  obtain ⟨W, hs, _⟩ := hist.fits
  have hcurrent := hs.current
  rw [hs.env_eq] at hcurrent
  have hstore := hs.store.alike hR hcurrent hist.released.1
  have hstart : (Machine.start s.store s.env P).Alike R s.store.arena.unrenamed
      (Machine.start s.store s.env P') := by
    refine ⟨.none, ⟨hstore, rfl, ?_, rfl, rfl⟩, .complete .normal (.program hP)⟩
    change s.store.arena.unrenamed s.env = _
    rw [hs.env_eq]
    exact hstore.arena.globals
  exact hstart.run (hs.start (E := fun _ => True) hacc) (fun _ => trivial)
    (List.forall_mem_cons.2 ⟨hreg, hist.regular⟩) (Arena.unrenamed_suits _ W) n

theorem History.execute_alike (hist : History s programs past) (hacc : P.Accepted)
    (hreg : ∀ D ∈ P.declarations, D.Regular) (hR : CodeAlike R programs)
    (hP : Stmt.AlikeAll (R i) .none P P') (n : Nat) :
    (s.begin.execute n P).Alike R (s.begin.execute n P') := by
  obtain ⟨T, h⟩ := hist.run_alike hacc hreg hR hP n
  rw [← store_begin, ← env_begin] at h
  exact Session.execute_alike h

end Session

end Lox
