import Lox.Proofs.Alike.Tree
import Lox.Proofs.Machine.Access

namespace Lox
set_option autoImplicit true

/-- The renamings of the scopes around what runs in each environment. -/
abbrev Renamings := Handle → Option Renaming

namespace Renamings

def Extends (T' T : Renamings) : Prop := ∀ h σ, T h = some σ → T' h = some σ

theorem Extends.refl (T : Renamings) : T.Extends T := fun _ _ => id

theorem Extends.trans {T T' T'' : Renamings} (h' : T''.Extends T') (h : T'.Extends T) :
    T''.Extends T := fun i σ hi => h' i σ (h i σ hi)

def set (T : Renamings) (h : Handle) (σ : Renaming) : Renamings :=
  fun i => if h = i then some σ else T i

@[simp] theorem set_self (T : Renamings) (h : Handle) (σ : Renaming) : T.set h σ h = some σ :=
  if_pos rfl

theorem set_extends {T : Renamings} (hT : ∀ i σ, T i = some σ → i < h) (σ : Renaming) :
    (T.set h σ).Extends T := by
  intro i τ hi
  rw [set, if_neg (Nat.ne_of_gt (hT i τ hi)), hi]

end Renamings

/-- Results that are the same fault, or correspond. -/
inductive Agree (V : α → β → Prop) : Except ε α → Except ε β → Prop where
  | ok : V a b → Agree V (.ok a) (.ok b)
  | error : Agree V (.error f) (.error f)

theorem Agree.bind {x : Except ε α} {x' : Except ε β} {f : α → Except ε γ} {f' : β → Except ε δ}
    (h : Agree V x x') (hf : ∀ a b, V a b → Agree U (f a) (f' b)) :
    Agree U (x >>= f) (x' >>= f') := by
  cases h with
  | ok hv => exact hf _ _ hv
  | error => exact .error

theorem Rel.mono {V U : α → β → Prop} (h : Option.Rel V o o') (hV : ∀ v v', V v v' → U v v') :
    Option.Rel U o o' := by
  cases h with
  | none => exact .none
  | some hv => exact .some (hV _ _ hv)

theorem Rel.isSome {V : α → β → Prop} (h : Option.Rel V o o') : o'.isSome = o.isSome := by
  cases h <;> rfl

/-- Bindings of which the second has every name renamed. -/
def Bindings.Alike (V : α → β → Prop) (θ : Equiv.Perm String) (b : Bindings α) (b' : Bindings β) :
    Prop := ∀ x, Option.Rel V (b.get? x) (b'.get? (θ x))

namespace Bindings.Alike

variable {V : α → β → Prop} {θ : Equiv.Perm String} {b : Bindings α} {b' : Bindings β}

theorem empty (V : α → β → Prop) (θ : Equiv.Perm String) : Alike V θ ⟨[]⟩ ⟨[]⟩ := fun _ => .none

theorem set (h : Alike V θ b b') (hv : V v v') (n : String) :
    Alike V θ (b.set n v) (b'.set (θ n) v') := by
  intro x
  rw [get?_set, get?_set]
  by_cases hx : n = x
  · subst hx
    rw [if_pos rfl, if_pos rfl]
    exact .some hv
  · rw [if_neg hx, if_neg fun h => hx (θ.injective h)]
    exact h x

theorem ofList {l : List (String × α)} {l' : List (String × β)}
    (h : List.Forall₂ (fun p p' => p'.1 = θ p.1 ∧ V p.2 p'.2) l l') :
    Alike V θ (Bindings.ofList l) (Bindings.ofList l') := by
  -- the entries that are left are bound on top of what is alike already
  have hfold : ∀ b b', Alike V θ b b' →
      Alike V θ (l.foldl (fun b p => b.set p.1 p.2) b)
        (l'.foldl (fun b p => b.set p.1 p.2) b') := by
    induction h with
    | nil => exact fun b b' hb => hb
    | cons hp _ ih =>
      intro b b' hb
      obtain ⟨hname, hv⟩ := hp
      simp only [List.foldl_cons, hname]
      exact ih _ _ (hb.set hv _)
  exact hfold _ _ (empty V θ)

theorem mono (h : Alike V θ b b') (hV : ∀ v v', V v v' → U v v') : Alike U θ b b' :=
  fun x => Rel.mono (h x) hV

end Bindings.Alike

section
variable {ι : Type} (R : ι → Likeness) (T : Renamings)

/-- Closures in the same environment, whose code is alike. That of a method stands further in. -/
structure Closure.Alike (inward : Renaming → Renaming) (c c' : Closure) : Prop where
  env : c'.env = c.env
  decl : ∃ i σ, T c.env = some σ ∧ FunDecl.Alike (R i) (inward σ) c.decl c'.decl

abbrev Closure.AlikeMethod (c c' : Closure) : Prop := c.Alike R T (Renaming.push 1) c'

structure ClassObject.Alike (c c' : ClassObject) : Prop where
  id : c'.id = c.id
  name : c'.name = c.name
  methods : c.methods.Alike (Closure.AlikeMethod R T) 1 c'.methods

structure Instance.Alike (i i' : Instance) : Prop where
  id : i'.id = i.id
  cls : i.cls.Alike R T i'.cls

inductive Value.Alike : Value → Value → Prop where
  | nil : Value.Alike .nil .nil
  | bool : Value.Alike (.bool b) (.bool b)
  | number : Value.Alike (.number x) (.number x)
  | string : Value.Alike (.string s) (.string s)
  | function : c.Alike R T id c' → Value.Alike (.function n c) (.function n c')
  | method : c.AlikeMethod R T c' → i.Alike R T i' → Value.Alike (.method n c i) (.method n c' i')
  | cls : c.Alike R T c' → Value.Alike (.cls c) (.cls c')
  | object : i.Alike R T i' → Value.Alike (.object i) (.object i')

/-- Environments inside the same one. -/
structure Environment.Alike (σ : Renaming) (e e' : Environment) : Prop where
  enclosing : e'.enclosing = e.enclosing
  captured : e'.captured = e.captured
  outer : ∀ o, e.enclosing = some o → T o = some σ.outer
  values : e.values.Alike (Value.Alike R T) (σ 0) e'.values

structure Arena.Alike (a a' : Arena) : Prop where
  next : a'.next = a.next
  size : a'.size = a.size
  envs : ∀ h, Option.Rel (fun e e' => ∃ σ, T h = some σ ∧ e.Alike R T σ e') (a.get? h) (a'.get? h)
  fresh : ∀ h σ, T h = some σ → h < a.next
  allowed : ∀ h σ d, T h = some σ → σ d = 1 ∨ ∃ i, (R i).renames (σ d)
  globals : T globals = some .none

structure Store.Alike (s s' : Store) : Prop where
  arena : s.arena.Alike R T s'.arena
  fields : ∀ i i' : Instance, i'.id = i.id →
    (s.fieldsOf i).Alike (Value.Alike R T) 1 (s'.fieldsOf i')
  nextId : s'.nextId = s.nextId

end

variable {ι : Type} {R : ι → Likeness} {T T' : Renamings} {σ : Renaming}

theorem Closure.Alike.mono {c c' : Closure} (h : c.Alike R T inward c') (hT : T'.Extends T) :
    c.Alike R T' inward c' := by
  obtain ⟨henv, i, σ, hσ, hdecl⟩ := h
  exact ⟨henv, i, σ, hT _ _ hσ, hdecl⟩

theorem ClassObject.Alike.mono {c c' : ClassObject} (h : c.Alike R T c') (hT : T'.Extends T) :
    c.Alike R T' c' := ⟨h.id, h.name, h.methods.mono fun _ _ hm => Closure.Alike.mono hm hT⟩

theorem Instance.Alike.mono {i i' : Instance} (h : i.Alike R T i') (hT : T'.Extends T) :
    i.Alike R T' i' := ⟨h.id, h.cls.mono hT⟩

theorem Value.Alike.mono {v v' : Value} (h : v.Alike R T v') (hT : T'.Extends T) :
    v.Alike R T' v' := by
  cases h with
  | nil => exact .nil
  | bool => exact .bool
  | number => exact .number
  | string => exact .string
  | function hc => exact .function (hc.mono hT)
  | method hc hi => exact .method (Closure.Alike.mono hc hT) (hi.mono hT)
  | cls hc => exact .cls (hc.mono hT)
  | object hi => exact .object (hi.mono hT)

theorem Environment.Alike.mono {e e' : Environment} (h : e.Alike R T σ e') (hT : T'.Extends T) :
    e.Alike R T' σ e' :=
  ⟨h.enclosing, h.captured, fun o ho => hT _ _ (h.outer o ho),
    h.values.mono fun _ _ hv => hv.mono hT⟩

theorem Environment.Alike.set {e e' : Environment} (h : e.Alike R T σ e') (hv : v.Alike R T v')
    (hn : n' = σ 0 n) :
    Environment.Alike R T σ { e with values := e.values.set n v }
      { e' with values := e'.values.set n' v' } :=
  ⟨h.enclosing, h.captured, h.outer, hn ▸ h.values.set hv n⟩

namespace Arena

theorem size_put (a : Arena) (h : Handle) (e : Environment) :
    (a.put h e).size = if (a.get? h).isSome then a.size else a.size + 1 := by
  simp [size, put, get?, Std.TreeMap.size_insert]

theorem size_drop (a : Arena) (h : Handle) :
    (a.drop h).size = if (a.get? h).isSome then a.size - 1 else a.size := by
  simp [size, drop, get?, Std.TreeMap.size_erase]

namespace Alike

variable {a a' : Arena} {h : Handle} {e e' : Environment}

theorem isSome (ha : a.Alike R T a') (h : Handle) : (a'.get? h).isSome = (a.get? h).isSome :=
  Rel.isSome (ha.envs h)

theorem find (ha : a.Alike R T a') (hσ : T h = some σ) :
    Agree (Environment.Alike R T σ) (a.find h) (a'.find h) := by
  have henv := ha.envs h
  unfold Arena.find
  generalize a.get? h = o, a'.get? h = o' at henv
  cases henv with
  | none => exact .error
  | some he =>
    obtain ⟨τ, hτ, he⟩ := he
    cases hσ.symm.trans hτ
    exact .ok he

theorem put (ha : a.Alike R T a') (hσ : T h = some σ) (he : e.Alike R T σ e') :
    (a.put h e).Alike R T (a'.put h e') where
  next := ha.next
  size := by rw [size_put, size_put, ha.isSome, ha.size]
  envs := by
    intro i
    rw [get?_put, get?_put]
    split
    · rename_i hi
      exact .some ⟨σ, hi ▸ hσ, he⟩
    · exact ha.envs i
  fresh := ha.fresh
  allowed := ha.allowed
  globals := ha.globals

theorem drop (ha : a.Alike R T a') (h : Handle) : (a.drop h).Alike R T (a'.drop h) where
  next := ha.next
  size := by rw [size_drop, size_drop, ha.isSome, ha.size]
  envs := by
    intro i
    rw [get?_drop, get?_drop]
    split
    · exact .none
    · exact ha.envs i
  fresh := ha.fresh
  allowed := ha.allowed
  globals := ha.globals

theorem set_extends (ha : a.Alike R T a') (σ : Renaming) : (T.set a.next σ).Extends T :=
  Renamings.set_extends ha.fresh σ

theorem new {values values' : Bindings Value} (ha : a.Alike R T a') (ho : T outer = some σ)
    (hθ : θ = 1 ∨ ∃ i, (R i).renames θ) (hv : values.Alike (Value.Alike R T) θ values') :
    (a.new (some outer) values).2.Alike R (T.set a.next (σ.push θ))
      (a'.new (some outer) values').2 where
  next := congrArg (· + 1) ha.next
  size := by
    change (a'.put a'.next _).size = (a.put a.next _).size
    rw [size_put, size_put, ha.next, ha.isSome, ha.size]
  envs := by
    intro i
    rw [get?_new, get?_new, ha.next]
    have hT := ha.set_extends (σ.push θ)
    split
    · rename_i hi
      refine .some ⟨σ.push θ, hi ▸ T.set_self _ _, rfl, rfl, fun o heq => ?_, ?_⟩
      · cases heq
        exact hT _ _ ho
      · exact hv.mono fun _ _ h => h.mono hT
    · refine Rel.mono (ha.envs i) fun e e' he => ?_
      obtain ⟨τ, hτ, he⟩ := he
      exact ⟨τ, hT _ _ hτ, he.mono hT⟩
  fresh := by
    intro i τ hτ
    rw [Renamings.set] at hτ
    split at hτ
    · rename_i hi
      exact hi ▸ Nat.lt_succ_self _
    · exact Nat.lt_succ_of_lt (ha.fresh i τ hτ)
  allowed := by
    intro i τ d hτ
    rw [Renamings.set] at hτ
    split at hτ
    · cases hτ
      cases d with
      | zero => exact hθ
      | succ d => exact ha.allowed outer σ d ho
    · exact ha.allowed i τ d hτ
  globals := ha.set_extends _ _ _ ha.globals

theorem captureUpTo (ha : a.Alike R T a') (n : Nat) (h : Handle) :
    (a.captureUpTo n h).1.Alike R T (a'.captureUpTo n h).1 ∧
      (a'.captureUpTo n h).2 = (a.captureUpTo n h).2 := by
  induction n generalizing a a' h with
  | zero => exact ⟨ha, rfl⟩
  | succ n ih =>
    have henv := ha.envs h
    generalize hg : a.get? h = o, hg' : a'.get? h = o' at henv
    cases henv with
    | none =>
      rw [captureUpTo_missing hg, captureUpTo_missing hg']
      exact ⟨ha, rfl⟩
    | @some e e' he =>
      obtain ⟨σ, hσ, he⟩ := he
      cases hc : e.captured with
      | true =>
        rw [captureUpTo_captured hg hc, captureUpTo_captured hg' (he.captured.trans hc)]
        exact ⟨ha, rfl⟩
      | false =>
        have hmark : (e.mark true).Alike R T σ (e'.mark true) :=
          ⟨he.enclosing, by simp [Environment.mark], he.outer, he.values⟩
        have hput := ha.put hσ hmark
        rw [captureUpTo_step hg hc, captureUpTo_step hg' (he.captured.trans hc), he.enclosing]
        cases e.enclosing with
        | none => exact ⟨hput, rfl⟩
        | some outer => exact ih hput outer

theorem capture (ha : a.Alike R T a') (hh : h' = h) :
    (a.capture h).1.Alike R T (a'.capture h').1 ∧ (a'.capture h').2 = (a.capture h).2 := by
  rw [Arena.capture, Arena.capture, hh, ha.size]
  exact ha.captureUpTo _ h

theorem release (ha : a.Alike R T a') (h : Handle) :
    Agree (Arena.Alike R T) (a.release h) (a'.release h) := by
  have henv := ha.envs h
  generalize hg : a.get? h = o, hg' : a'.get? h = o' at henv
  cases henv with
  | none =>
    rw [Arena.release, Arena.release, Arena.find, Arena.find, hg, hg']
    exact .error
  | some he =>
    obtain ⟨σ, hσ, he⟩ := he
    rw [release_eq_ok hg, release_eq_ok hg', he.captured]
    split
    · exact .ok ha
    · exact .ok (ha.drop h)

theorem releaseAll (ha : a.Alike R T a') (left : List Handle) :
    Agree (Arena.Alike R T) (left.foldlM Arena.release a) (left.foldlM Arena.release a') := by
  induction left generalizing a a' with
  | nil => exact .ok ha
  | cons h left ih =>
    rw [List.foldlM_cons, List.foldlM_cons]
    exact (ha.release h).bind fun _ _ hb => ih hb

theorem ancestor (ha : a.Alike R T a') (hσ : T h = some σ) (d : Nat) :
    Agree (fun p p' => p'.1 = p.1 ∧ ∃ τ, T p.1 = some τ ∧ τ 0 = σ d ∧ p.2.Alike R T τ p'.2)
      (a.ancestor h d) (a'.ancestor h d) := by
  induction d generalizing h σ with
  | zero => exact (ha.find hσ).bind fun _ _ he => .ok ⟨rfl, σ, hσ, rfl, he⟩
  | succ d ih =>
    refine (ha.find hσ).bind fun e e' he => ?_
    rw [he.enclosing]
    cases ho : e.enclosing with
    | none => exact .error
    | some outer => exact ih (he.outer outer ho)

/-- Outside all renamed scopes a name is looked up as it is. -/
theorem nearestUpTo (ha : a.Alike R T a') (hσ : T h = some .none) (x : String) (n : Nat) :
    Agree (fun p p' => p'.1 = p.1 ∧ T p.1 = some .none ∧ p.2.1.Alike R T .none p'.2.1 ∧
      p.2.2.Alike R T p'.2.2) (a.nearestUpTo x n h) (a'.nearestUpTo x n h) := by
  induction n generalizing h with
  | zero => exact .error
  | succ n ih =>
    refine (ha.find hσ).bind fun e e' he => ?_
    have hx : Option.Rel (Value.Alike R T) (e.values.get? x) (e'.values.get? x) := he.values x
    generalize e.values.get? x = o, e'.values.get? x = o' at hx
    cases hx with
    | some hv => exact .ok ⟨rfl, hσ, he, hv⟩
    | none =>
      rw [he.enclosing]
      cases ho : e.enclosing with
      | none => exact .error
      | some outer => exact ih (he.outer outer ho)

theorem nearest (ha : a.Alike R T a') (x : String) :
    Agree (fun p p' => p'.1 = p.1 ∧ T p.1 = some .none ∧ p.2.1.Alike R T .none p'.2.1 ∧
      p.2.2.Alike R T p'.2.2) (a.nearest Lox.globals x) (a'.nearest Lox.globals x) := by
  rw [Arena.nearest, Arena.nearest, ha.size]
  exact ha.nearestUpTo ha.globals x _

end Alike

end Arena

namespace Store.Alike

variable {s s' : Store} {env : Handle} {v v' : Value}

theorem of_arena (hs : s.Alike R T s') (ha : Arena.Alike R T a a') :
    Store.Alike R T { s with arena := a } { s' with arena := a' } := ⟨ha, hs.fields, hs.nextId⟩

/-- A name that is not found has to be the same on both sides. -/
theorem read {n : String} (hs : s.Alike R T s') (henv : env' = env) (hσ : T env = some σ)
    (hn : n' = σ.along ref n) (hmiss : ∀ f, s.read env n ref = .error f → σ.along ref n = n) :
    Agree (Value.Alike R T) (s.read env n ref) (s'.read env' n' ref) := by
  rw [henv]
  cases ref with
  | free =>
    rw [hn]
    exact (hs.arena.nearest n).bind fun _ _ h => .ok h.2.2.2
  | bound d =>
    have hd := hs.arena.ancestor hσ d
    generalize hp : s.arena.ancestor env d = p, hp' : s'.arena.ancestor env d = p' at hd
    cases hd with
    | error =>
      rw [Store.read, Store.read, Arena.getAt, Arena.getAt, hp, hp']
      exact .error
    | ok h =>
      obtain ⟨_, τ, _, hτ, he⟩ := h
      have hx := he.values n
      rw [hτ] at hx
      rw [read_bound hp] at hmiss ⊢
      rw [read_bound hp', hn]
      change Option.Rel _ _ (Bindings.get? _ (σ.along (.bound d) n)) at hx
      generalize Bindings.get? _ n = o, Bindings.get? _ (σ.along _ n) = o' at hx hmiss
      cases hx with
      | some hv => exact .ok hv
      | none =>
        have hfix := hmiss _ rfl
        simp only [hfix]
        exact .error

theorem assign {n : String} (hs : s.Alike R T s') (henv : env' = env) (hσ : T env = some σ)
    (hn : n' = σ.along ref n) (hv : v.Alike R T v') :
    Agree (Store.Alike R T) (s.assign env n ref v) (s'.assign env' n' ref v') := by
  rw [henv, hn]
  have hstore : ∀ a a', Arena.Alike R T a a' →
      Agree (ε := ArenaFault) (Store.Alike R T) (.ok { s with arena := a })
        (.ok { s' with arena := a' }) := fun a a' ha => .ok (hs.of_arena ha)
  cases ref with
  | free =>
    refine Agree.bind (V := Arena.Alike R T) ?_ hstore
    refine (hs.arena.nearest n).bind fun p p' h => ?_
    obtain ⟨home, e, u⟩ := p
    obtain ⟨home', e', u'⟩ := p'
    obtain ⟨rfl, hnone, he, _⟩ := h
    exact .ok (hs.arena.put hnone (he.set hv rfl))
  | bound d =>
    refine Agree.bind (V := Arena.Alike R T) ?_ hstore
    refine (hs.arena.ancestor hσ d).bind fun p p' h => ?_
    obtain ⟨home, e⟩ := p
    obtain ⟨home', e'⟩ := p'
    obtain ⟨rfl, τ, hp, hτ, he⟩ := h
    exact .ok (hs.arena.put hp (he.set hv (by rw [hτ]; rfl)))

theorem define (hs : s.Alike R T s') (henv : env' = env) (hσ : T env = some σ) (hn : n' = σ 0 n)
    (hv : v.Alike R T v') :
    Agree (Store.Alike R T) (s.define env n v) (s'.define env' n' v') := by
  rw [henv]
  refine Agree.bind (V := Arena.Alike R T) ?_ fun a a' ha => .ok (hs.of_arena ha)
  exact (hs.arena.find hσ).bind fun e e' he => .ok (hs.arena.put hσ (he.set hv hn))

theorem fresh (hs : s.Alike R T s') : s.fresh.2.Alike R T s'.fresh.2 :=
  ⟨hs.arena, hs.fields, congrArg (· + 1) hs.nextId⟩

theorem setField {i i' : Instance} (hs : s.Alike R T s') (hi : i'.id = i.id) (hv : v.Alike R T v')
    (x : String) : (s.setField i x v).Alike R T (s'.setField i' x v') where
  arena := hs.arena
  fields := by
    intro j j' hj
    rw [fieldsOf_setField, fieldsOf_setField, hi, hj]
    split
    · exact (hs.fields i i' hi).set hv x
    · exact hs.fields j j' hj
  nextId := hs.nextId

theorem property? {i i' : Instance} (hs : s.Alike R T s') (hi : i.Alike R T i') (x : String) :
    Option.Rel (fun p p' => p.1.Alike R T p'.1 ∧ p.2.Alike R T p'.2)
      (s.property? i x) (s'.property? i' x) := by
  have hfield : Option.Rel _ ((s.fieldsOf i).get? x) ((s'.fieldsOf i').get? x) :=
    hs.fields i i' hi.id x
  have hmethod : Option.Rel _ (i.cls.methods.get? x) (i'.cls.methods.get? x) := hi.cls.methods x
  unfold Store.property?
  generalize (s.fieldsOf i).get? x = o, (s'.fieldsOf i').get? x = o' at hfield
  generalize i.cls.methods.get? x = p, i'.cls.methods.get? x = p' at hmethod
  cases hfield with
  | some hv => exact .some ⟨hv, hs⟩
  | none =>
    cases hmethod with
    | none => exact .none
    | some hm =>
      refine .some ⟨?_, hs.fresh⟩
      rw [hs.nextId]
      exact .method hm hi

end Store.Alike

end Lox
