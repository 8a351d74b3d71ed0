import Lox.Proofs.Arena.Capture
import Lox.Proofs.Scope.Resolved

namespace Lox
set_option autoImplicit true

structure World where
  programs : List (Program Binding)
  arena : Arena
  roles : Roles

/-- The environments around a piece of code, from `h` outward. -/
abbrev World.Chain (w : World) (h : Handle) (zs : List (Zone Binding)) (Ss : List Scope) : Prop :=
  w.arena.Chain w.roles h zs Ss

/-- A later world, with the environments up to `b` and the captured ones still there. -/
structure World.Later (b : Handle) (w w' : World) : Prop where
  programs : w.programs ⊆ w'.programs
  keeps : w.arena.Keeps b w'.arena
  roles : w'.roles.Extends w.roles

theorem World.Later.mono (h : World.Later b w w') (hb : b' ≤ b) : World.Later b' w w' :=
  ⟨h.programs, h.keeps.mono hb, h.roles⟩

theorem World.Later.trans (h : World.Later b w w') (h' : World.Later b w' w'') :
    World.Later b w w'' :=
  ⟨List.Subset.trans h.programs h'.programs, h.keeps.trans h'.keeps,
    fun i z hz => h'.roles i z (h.roles i z hz)⟩

theorem World.Later.chain (h : World.Later b w w') (hc : w.Chain i zs Ss) (hi : i ≤ b) :
    w'.Chain i zs Ss := hc.keep h.keeps h.roles hi

namespace Closure

def IsFunction (w : World) (c : Closure) : Prop :=
  w.arena.Kept c.env ∧ ∃ zs Γ, Site w.programs zs Γ (.stmt (.funDecl c.decl)) ∧
    w.Chain c.env zs (Γ.mark c.decl.name.name .ready).scopes

/-- The closure of a method, which stands in the environment around its class. -/
def IsMethod (w : World) (c : Closure) : Prop :=
  w.arena.Kept c.env ∧ ∃ zs Γ name methods, Site w.programs zs Γ (.stmt (.classDecl name methods)) ∧
    c.decl ∈ methods ∧ w.Chain c.env zs (Γ.mark name.name .ready).scopes

theorem IsFunction.later {c : Closure} (h : c.IsFunction w) (hw : World.Later b w w') :
    c.IsFunction w' := by
  obtain ⟨hk, zs, Γ, hs, hc⟩ := h
  exact ⟨hk.keep hw.keeps, zs, Γ, hs.mono hw.programs, hc.keep_captured hk hw.keeps hw.roles⟩

theorem IsMethod.later {c : Closure} (h : c.IsMethod w) (hw : World.Later b w w') :
    c.IsMethod w' := by
  obtain ⟨hk, zs, Γ, name, methods, hs, hd, hc⟩ := h
  exact ⟨hk.keep hw.keeps, zs, Γ, name, methods, hs.mono hw.programs, hd,
    hc.keep_captured hk hw.keeps hw.roles⟩

end Closure

/-- All methods of a class stand in a class, each under its own name. -/
def ClassObject.Fits (w : World) (c : ClassObject) : Prop :=
  ∀ name m, c.methods.get? name = some m → m.decl.name.name = name ∧ m.IsMethod w

theorem ClassObject.Fits.later {c : ClassObject} (h : c.Fits w) (hw : World.Later b w w') :
    c.Fits w' := fun name m hm => ⟨(h name m hm).1, (h name m hm).2.later hw⟩

/-- No function in a value lacks its environment. -/
def Value.Fits (w : World) : Value → Prop
  | .function _ c => c.IsFunction w
  | .method _ c i => c.IsMethod w ∧ i.cls.Fits w
  | .cls c => c.Fits w
  | .object i => i.cls.Fits w
  | .nil | .bool _ | .number _ | .string _ => True

theorem Value.Fits.later {v : Value} (h : v.Fits w) (hw : World.Later b w w') : v.Fits w' := by
  cases v with
  | nil => trivial
  | bool => trivial
  | number => trivial
  | string => trivial
  | function => exact Closure.IsFunction.later h hw
  | method => exact ⟨h.1.later hw, h.2.later hw⟩
  | cls => exact ClassObject.Fits.later h hw
  | object => exact ClassObject.Fits.later h hw

/-- What holds of all environments. -/
structure World.Sound (w : World) : Prop where
  accepted : ∀ P ∈ w.programs, P.Accepted
  below : w.arena.Below
  closed : w.arena.Closed
  values : ∀ h e x v, w.arena.get? h = some e → e.values.get? x = some v → v.Fits w
  /-- An environment binds no name that its zone does not declare. -/
  names : ∀ h e z x, w.arena.get? h = some e → w.roles h = some z → e.values.contains x = true →
    z.scope.contains x = true
  fresh : ∀ h z, w.roles h = some z → h < w.arena.next
  globals : w.roles globals = none

def Roles.set (W : Roles) (h : Handle) (z : Zone Binding) : Roles :=
  fun i => if h = i then some z else W i

@[simp] theorem Roles.set_self (W : Roles) (h : Handle) (z : Zone Binding) :
    W.set h z h = some z := if_pos rfl

theorem Roles.set_extends {W : Roles} (hW : ∀ i z, W i = some z → i < h) (z : Zone Binding) :
    (W.set h z).Extends W := by
  intro i z' hz
  rw [set, if_neg (Nat.ne_of_gt (hW i z' hz)), hz]

namespace World

variable {w : World} {h b : Handle} {e : Environment} {v : Value} {zs : List (Zone Binding)}
  {Ss : List Scope}

def define (w : World) (h : Handle) (e : Environment) (x : String) (v : Value) : World :=
  { w with arena := w.arena.put h { e with values := e.values.set x v } }

theorem later_define (hg : w.arena.get? h = some e) (b : Handle) (x : String) (v : Value) :
    Later b w (w.define h e x v) :=
  ⟨List.Subset.refl _, Arena.keeps_put b hg (e.grows_set x v), .refl _⟩

/-- The value need fit only when it is bound: a function can refer to itself. -/
theorem Sound.define (hw : w.Sound) (hg : w.arena.get? h = some e)
    (hv : v.Fits (w.define h e x v))
    (hx : ∀ z, w.roles h = some z → z.scope.contains x = true) : (w.define h e x v).Sound where
  accepted := hw.accepted
  below := hw.below.put hg _
  closed := by
    intro i f hi hc
    have hk := hw.closed i
    simp only [World.define, Arena.get?_put] at hi
    split at hi
    · rename_i hhi
      subst hhi
      cases hi
      exact (hk e hg hc).keep (later_define hg h x v).keeps
    · exact (hk f hi hc).keep (later_define hg h x v).keeps
  values := by
    intro i f y u hi hu
    simp only [World.define, Arena.get?_put] at hi
    split at hi
    · cases hi
      rw [Bindings.get?_set] at hu
      split at hu
      · cases hu
        exact hv
      · exact (hw.values h e y u hg hu).later (later_define hg h x v)
    · exact (hw.values i f y u hi hu).later (later_define hg h x v)
  names := by
    intro i f z y hi hz hy
    simp only [World.define, Arena.get?_put] at hi
    split at hi
    · rename_i hhi
      subst hhi
      cases hi
      simp only [Bindings.contains_set, Bool.or_eq_true, decide_eq_true_eq] at hy
      rcases hy with rfl | hy
      · exact hx z hz
      · exact hw.names h e z y hg hz hy
    · exact hw.names i f z y hi hz hy
  fresh := hw.fresh
  globals := hw.globals

def enter (w : World) (outer : Handle) (values : Bindings Value) (z : Zone Binding) : World :=
  { w with
    arena := (w.arena.new (some outer) values).2
    roles := w.roles.set w.arena.next z }

theorem Sound.later_enter (hw : w.Sound) (b outer : Handle) (values : Bindings Value)
    (z : Zone Binding) : Later b w (w.enter outer values z) :=
  ⟨List.Subset.refl _, Arena.keeps_new hw.below b _ _, Roles.set_extends hw.fresh z⟩

theorem Sound.enter {z : Zone Binding} {vals : Bindings Value} (hw : w.Sound)
    (hv : ∀ x v, vals.get? x = some v → Value.Fits w v)
    (hx : ∀ x, vals.contains x = true → z.scope.contains x = true)
    (hg : Lox.globals < w.arena.next) : (w.enter outer vals z).Sound where
  accepted := hw.accepted
  below := hw.below.new _ _
  closed := by
    intro i f hi hc
    simp only [World.enter, Arena.get?_new] at hi
    split at hi
    · cases hi
      cases hc
    · exact (hw.closed i f hi hc).keep (hw.later_enter i outer vals z).keeps
  values := by
    intro i f y u hi hu
    simp only [World.enter, Arena.get?_new] at hi
    split at hi
    · cases hi
      exact (hv y u hu).later (hw.later_enter i outer vals z)
    · exact (hw.values i f y u hi hu).later (hw.later_enter i outer vals z)
  names := by
    intro i f z' y hi hz hy
    simp only [World.enter, Arena.get?_new, Roles.set] at hi hz
    split at hi
    · rename_i hi'
      rw [if_pos hi'] at hz
      cases hz
      cases hi
      exact hx y hy
    · rename_i hi'
      rw [if_neg hi'] at hz
      exact hw.names i f z' y hi hz hy
  fresh := by
    intro i z' hz
    simp only [World.enter, Roles.set] at hz
    split at hz
    · rename_i hi
      exact hi ▸ Nat.lt_succ_self _
    · exact Nat.lt_succ_of_lt (hw.fresh i z' hz)
  globals := by
    simp only [World.enter, Roles.set]
    rw [if_neg (Nat.ne_of_gt hg)]
    exact hw.globals

def capture (w : World) (h : Handle) : World := { w with arena := (w.arena.capture h).1 }

theorem later_capture (b : Handle) (w : World) (h : Handle) : Later b w (w.capture h) :=
  ⟨List.Subset.refl _, Arena.keeps_captureUpTo b _ _ _, .refl _⟩

theorem Sound.capture (hw : w.Sound) (hc : w.Chain h zs Ss) :
    (w.arena.capture h).2 = none ∧ (w.capture h).arena.Kept h ∧ (w.capture h).Sound := by
  obtain ⟨hnone, hk, hnew⟩ := Arena.Chain.captureUpTo hc (fun i _ e => hw.closed i e)
    (Nat.lt_succ_of_lt hc.length_lt_size)
  have hlater := later_capture h w h
  -- an environment is the one before but for its mark
  have hsame : ∀ i f, (w.capture h).arena.get? i = some f →
      ∃ f₀, w.arena.get? i = some f₀ ∧ f.values = f₀.values := by
    intro i f hi
    obtain ⟨c, hget⟩ := Arena.get?_captureUpTo w.arena (w.arena.size + 1) h i
    obtain ⟨f₀, hf₀, rfl⟩ := Option.map_eq_some_iff.1 (hget.symm.trans hi)
    exact ⟨f₀, hf₀, rfl⟩
  refine ⟨hnone, hk, hw.accepted, ?_, ?_, ?_, ?_, ?_, hw.globals⟩
  · intro i f hi
    obtain ⟨f₀, hf₀, _⟩ := hsame i f hi
    exact Nat.lt_of_lt_of_eq (hw.below i f₀ hf₀) (Arena.next_captureUpTo _ _ _).symm
  · intro i f hi hci
    rcases hnew i f hi hci with ⟨f₀, hf₀, hc₀⟩ | hki
    · exact (hw.closed i f₀ hf₀ hc₀).keep hlater.keeps
    · exact hki
  · intro i f x u hi hu
    obtain ⟨f₀, hf₀, hval⟩ := hsame i f hi
    exact (hw.values i f₀ x u hf₀ (hval ▸ hu)).later hlater
  · intro i f z x hi hz hx
    obtain ⟨f₀, hf₀, hval⟩ := hsame i f hi
    exact hw.names i f₀ z x hf₀ hz (hval ▸ hx)
  · intro i z hz
    exact Nat.lt_of_lt_of_eq (hw.fresh i z hz) (Arena.next_captureUpTo _ _ _).symm

def release (w : World) (h : Handle) (e : Environment) : World :=
  { w with arena := if e.captured then w.arena else w.arena.drop h }

theorem later_release (hg : w.arena.get? h = some e) (hb : b < h) : Later b w (w.release h e) :=
  ⟨List.Subset.refl _, Arena.keeps_release hg hb, .refl _⟩

theorem get?_release (hi : (w.release h e).arena.get? i = some f) : w.arena.get? i = some f := by
  simp only [World.release] at hi
  split at hi
  · exact hi
  · rw [Arena.get?_drop] at hi
    split at hi
    · cases hi
    · exact hi

theorem Sound.release (hw : w.Sound) (hg : w.arena.get? h = some e) (hb : b < h) :
    (w.release h e).Sound where
  accepted := hw.accepted
  below := by
    have hdrop := hw.below.drop h
    simp only [World.release]
    split
    · exact hw.below
    · exact hdrop
  closed := fun i f hi hc => (hw.closed i f (get?_release hi) hc).keep (later_release hg hb).keeps
  values := fun i f x u hi hu =>
    (hw.values i f x u (get?_release hi) hu).later (later_release hg hb)
  names := fun i f z x hi => hw.names i f z x (get?_release hi)
  fresh := by
    intro i z hz
    have hlt := hw.fresh i z hz
    simp only [World.release]
    split <;> exact hlt
  globals := hw.globals

end World

end Lox
