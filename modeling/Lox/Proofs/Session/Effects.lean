import Lox.Proofs.Session.Closures

namespace Lox
set_option autoImplicit true

/-- A method together with the instance it is bound to. -/
structure Bound where
  method : Closure
  receiver : Instance

/-- The bound method that a call of a value runs, if it runs one. A class binds its initializer to
the new instance, which has the identity `n`. -/
def Value.bound? (n : Identity) : Value → Option Bound
  | .method _ c i => some ⟨c, i⟩
  | .cls c => c.initializer?.map fun init => ⟨init, ⟨n, c⟩⟩
  | _ => none

def Value.plain : Value → Bool
  | .nil | .bool _ | .number _ | .string _ => true
  | _ => false

theorem UnaryOp.plain_apply {op : UnaryOp} (h : op.apply v = .ok u) : u.plain = true := by
  cases op with
  | negate => cases v <;> cases h; rfl
  | not => cases h; rfl

theorem BinaryOp.plain_apply {op : BinaryOp} (h : op.apply a b = .ok u) : u.plain = true := by
  unfold BinaryOp.apply at h
  split at h
  · cases h; rfl
  · cases h; rfl
  · split at h
    · cases h
    · split at h
      · cases h
        cases op <;> rfl
      · cases h; rfl
      · cases h
      · cases h

/-- The value that is called next, if its arguments fit. -/
def Control.callee? : Control → Option Value
  | .value v (.callee [] _ _) => some v
  | .value _ (.argument callee _ [] _ _) => some callee
  | _ => none

def Control.target? : Control → Option String
  | .value _ (.assign name _ _) | .value _ (.define name _) => some name.name
  | .exec s _ => s.declared?
  | _ => none

/-- A block or a call in progress, with the environment that is current after it. -/
inductive Frame where
  | block (outer : Handle)
  | call (outer : Handle)

mutual

def ValueCont.frames : ValueCont → List Frame
  | .unary _ _ k | .left _ _ _ k | .right _ _ _ k | .logical _ _ k | .assign _ _ k | .callee _ _ k
  | .argument _ _ _ _ k | .get _ k | .setObject _ _ k | .setValue _ _ k => k.frames
  | .discard k | .print k | .define _ k | .branch _ _ k | .test _ _ k | .ret k => k.frames

def DoneCont.frames : DoneCont → List Frame
  | .program _ => []
  | .sequence _ k | .again _ _ k => k.frames
  | .leaveBlock outer k => .block outer :: k.frames
  | .leaveCall outer _ _ k => .call outer :: k.frames

end

def Control.frames : Control → List Frame
  | .eval _ k | .value _ k => k.frames
  | .exec _ k | .complete _ k => k.frames

theorem ValueCont.enclosing_parts (k : ValueCont) :
    k.enclosing.frames = k.frames ∧ k.enclosing.values ⊆ k.values := by
  induction k using ValueCont.rec (motive_2 := fun _ => True) with
  | unary _ _ _ ih => exact ih
  | left _ _ _ _ ih => exact ih
  | right _ _ _ _ ih => exact ⟨ih.1, List.subset_cons_of_subset _ ih.2⟩
  | logical _ _ _ ih => exact ih
  | assign _ _ _ ih => exact ih
  | callee _ _ _ ih => exact ih
  | argument _ _ _ _ _ ih =>
    exact ⟨ih.1, List.subset_cons_of_subset _ (List.subset_append_of_subset_right _ ih.2)⟩
  | get _ _ ih => exact ih
  | setObject _ _ _ ih => exact ih
  | setValue _ _ _ ih => exact ⟨ih.1, List.subset_cons_of_subset _ ih.2⟩
  | discard => exact ⟨rfl, List.Subset.refl _⟩
  | print => exact ⟨rfl, List.Subset.refl _⟩
  | define => exact ⟨rfl, List.Subset.refl _⟩
  | branch => exact ⟨rfl, List.Subset.refl _⟩
  | test => exact ⟨rfl, List.Subset.refl _⟩
  | ret => exact ⟨rfl, List.Subset.refl _⟩
  | _ => trivial

namespace Arena

variable {a a' a'' : Arena}

/-- Every environment was there before, with the same bindings. -/
structure Restricts (a a' : Arena) : Prop where
  next : a'.next = a.next
  values : ∀ h e', a'.get? h = some e' → ∃ e, a.get? h = some e ∧ e'.values = e.values

theorem Restricts.refl (a : Arena) : Restricts a a := ⟨rfl, fun _ e he => ⟨e, he, rfl⟩⟩

theorem Restricts.trans (h : Restricts a a') (h' : Restricts a' a'') : Restricts a a'' := by
  refine ⟨h'.next.trans h.next, fun i e'' he'' => ?_⟩
  obtain ⟨e', he', hval'⟩ := h'.values i e'' he''
  obtain ⟨e, he, hval⟩ := h.values i e' he'
  exact ⟨e, he, hval'.trans hval⟩

theorem restricts_capture (a : Arena) (h : Handle) : Restricts a (a.capture h).1 := by
  refine ⟨next_captureUpTo _ _ _, fun i e' he' => ?_⟩
  obtain ⟨c, hget⟩ := get?_captureUpTo a (a.size + 1) h i
  obtain ⟨e, he, rfl⟩ := Option.map_eq_some_iff.1 (hget.symm.trans he')
  exact ⟨e, he, rfl⟩

theorem restricts_release (h : a.release i = .ok a') : Restricts a a' := by
  cases hg : a.get? i with
  | none => simp [release, find, hg, bind, Except.bind] at h
  | some e =>
    rw [release_eq_ok hg] at h
    cases h
    split
    · exact .refl _
    · refine ⟨rfl, fun j f hf => ?_⟩
      rw [get?_drop] at hf
      split at hf
      · cases hf
      · exact ⟨f, hf, rfl⟩

theorem restricts_releaseAll {left : List Handle} (h : left.foldlM release a = .ok a') :
    Restricts a a' := by
  induction left generalizing a with
  | nil => cases h; exact .refl _
  | cons i left ih =>
    rw [List.foldlM_cons] at h
    cases hr : a.release i with
    | error f => rw [hr] at h; cases h
    | ok a₁ =>
      rw [hr] at h
      exact (restricts_release hr).trans (ih h)

theorem get?_new_of_lt {outer : Option Handle} {values : Bindings Value} (h : i < a.next) :
    (a.new outer values).2.get? i = a.get? i := by
  rw [get?_new, if_neg (Nat.ne_of_gt h)]

theorem get?_of_nearest (h : a.nearestUpTo x n i = .ok (j, e, v)) :
    a.get? j = some e ∧ e.values.get? x = some v := by
  induction n generalizing i with
  | zero => cases h
  | succ n ih =>
    cases hg : a.get? i with
    | none => simp [nearestUpTo, find, hg, bind, Except.bind] at h
    | some f =>
      rw [nearestUpTo, find_eq_ok hg] at h
      simp only [bind, Except.bind] at h
      cases hv : f.values.get? x with
      | some u =>
        rw [hv] at h
        cases h
        exact ⟨hg, hv⟩
      | none =>
        rw [hv] at h
        cases ho : f.enclosing with
        | none => rw [ho] at h; cases h
        | some outer => rw [ho] at h; exact ih h

end Arena

namespace Store

variable {s s' : Store}

theorem holds_of_read (h : s.read env x ref = .ok v) : s.Holds v := by
  cases ref with
  | bound d =>
    cases ha : s.arena.ancestor env d with
    | error f => rw [Store.read, Arena.getAt, ha] at h; cases h
    | ok found =>
      rw [read_bound ha] at h
      cases hv : found.2.values.get? x with
      | none => rw [hv] at h; cases h
      | some u =>
        rw [hv] at h
        cases h
        exact .bound (Arena.outward_of_ancestor ha).get? hv
  | free =>
    cases hn : s.arena.nearest globals x with
    | error f => rw [Store.read, Arena.get, hn] at h; cases h
    | ok found =>
      obtain ⟨i, e, u⟩ := found
      rw [Store.read, Arena.get, hn] at h
      cases h
      obtain ⟨hg, hv⟩ := Arena.get?_of_nearest hn
      exact .bound hg hv

theorem holds_of_new (hv : s'.Holds v) (harena : s'.arena = (s.arena.new outer values).2)
    (hfields : s'.fields = s.fields) : s.Holds v ∨ ∃ x, values.get? x = some v := by
  cases hv with
  | bound hg hx =>
    rw [harena, Arena.get?_new] at hg
    split at hg
    · cases hg
      exact .inr ⟨_, hx⟩
    · exact .inl (.bound hg hx)
  | field i hx =>
    rw [fieldsOf, hfields] at hx
    exact .inl (.field i hx)

/-- A name is bound to a value in one of the environments. -/
def Puts (s : Store) (x : String) (v : Value) (s' : Store) : Prop :=
  ∃ h e, s.arena.get? h = some e ∧
    s' = { s with arena := s.arena.put h { e with values := e.values.set x v } }

theorem puts_of_assign (h : s.assign env x ref v = .ok s') : s.Puts x v s' := by
  cases ref with
  | bound d =>
    cases ha : s.arena.ancestor env d with
    | error f => rw [Store.assign, Arena.assignAt, ha] at h; cases h
    | ok found =>
      rw [Store.assign, Arena.assignAt, ha] at h
      cases h
      exact ⟨_, _, (Arena.outward_of_ancestor ha).get?, rfl⟩
  | free =>
    cases hn : s.arena.nearest globals x with
    | error f => rw [Store.assign, Arena.assign, hn] at h; cases h
    | ok found =>
      rw [Store.assign, Arena.assign, hn] at h
      cases h
      exact ⟨_, _, (Arena.get?_of_nearest hn).1, rfl⟩

theorem puts_of_define (h : s.define env x v = .ok s') : s.Puts x v s' := by
  cases hg : s.arena.get? env with
  | none => simp [Store.define, Arena.define, Arena.find, hg, bind, Except.bind] at h
  | some e =>
    rw [define_eq_ok hg] at h
    cases h
    exact ⟨env, e, hg, rfl⟩

end Store

namespace Machine

/-- The values that a step can leave behind: those that exist before it, and those that it makes.
What it makes with a new identity has one below `n`. -/
inductive Yields (m : Machine) (n : Identity) : Value → Prop where
  | held : m.Holds v → Yields m n v
  | plain : v.plain = true → Yields m n v
  | function : m.control = .exec (.funDecl decl) k → m.store.nextId < n →
      Yields m n (.function m.store.nextId ⟨decl, m.env⟩)
  | cls : Yields m n (.cls c)
  | method : m.Holds (.object i) → Yields m n (.method j c i)
  | object : m.store.nextId < n → Yields m n (.object ⟨m.store.nextId, c⟩)
  | receiver : m.Holds (.method j c i) → Yields m n (.object i)

/-- How the current environment changes with the blocks and calls in progress, and which
environments are made. -/
inductive Moves (m m' : Machine) : Prop where
  | stay : m'.env = m.env → m'.control.frames = m.control.frames →
      m'.store.arena.next = m.store.arena.next → m'.depth = m.depth → Moves m m'
  | block : m.control = .exec (.block body) k → m'.env = m.store.arena.next →
      m'.control.frames = .block m.env :: m.control.frames →
      m'.store.arena = (m.store.arena.new (some m.env)).2 → m'.depth = m.depth → Moves m m'
  | function : m.control.callee? = some (.function j c) → m'.env = m.store.arena.next →
      m'.control.frames = .call m.env :: m.control.frames →
      m'.store.arena = (m.store.arena.new (some c.env) params).2 → m'.depth = m.depth + 1 →
      Moves m m'
  | method : m.control.callee? = some v → v.bound? m.store.nextId = some b →
      m'.env = m.store.arena.next + 1 → m'.control.frames = .call m.env :: m.control.frames →
      m'.store.arena = ((m.store.arena.new (some b.method.env)
        (Bindings.empty.set receiverName (.object b.receiver))).2.new
          (some m.store.arena.next) params).2 → m'.depth = m.depth + 1 → Moves m m'
  | leaveBlock : m.control.frames = .block m'.env :: m'.control.frames →
      m'.store.arena.next = m.store.arena.next → m'.depth = m.depth → Moves m m'
  | leaveCall : m.control.frames = .call m'.env :: m'.control.frames →
      m'.store.arena.next = m.store.arena.next → m'.depth = m.depth - 1 → Moves m m'

/-- What a step does. -/
structure Effect (m m' : Machine) : Prop where
  ids : m.store.nextId ≤ m'.store.nextId
  values : ∀ v, m'.Holds v → m.Yields m'.store.nextId v
  /-- An environment that was there before changes only where a name is assigned or declared. -/
  old : ∀ h e', h < m.store.arena.next → m'.store.arena.get? h = some e' →
    ∃ e, m.store.arena.get? h = some e ∧ (e'.values = e.values ∨
      ∃ x v, m.control.target? = some x ∧ e'.values = e.values.set x v)
  moves : m.Moves m'

variable {m m' : Machine} {n : Identity}

/-- A state that differs in no more than captured environments and identities that are used up. -/
structure Like (m m₁ : Machine) : Prop where
  env : m₁.env = m.env
  depth : m₁.depth = m.depth
  ids : m.store.nextId ≤ m₁.store.nextId
  fields : m₁.store.fields = m.store.fields
  arena : m.store.arena.Restricts m₁.store.arena

theorem Like.refl (m : Machine) : m.Like m := ⟨rfl, rfl, Nat.le_refl _, rfl, .refl _⟩

theorem Like.fresh (h : m.Like m₁) : m.Like { m₁ with store := m₁.store.fresh.2 } :=
  ⟨h.env, h.depth, Nat.le_succ_of_le h.ids, h.fields, h.arena⟩

theorem holds_of_restricts (harena : m.store.arena.Restricts s.arena)
    (hfields : s.fields = m.store.fields) (hv : Store.Holds s v) : m.Holds v := by
  cases hv with
  | bound hg hx =>
    obtain ⟨e, hg', hval⟩ := harena.values _ _ hg
    exact .stored (.bound hg' (hval ▸ hx))
  | field i hx =>
    rw [Store.fieldsOf, hfields] at hx
    exact .stored (.field i hx)

theorem Like.holds (h : m.Like m₁) (hv : m₁.store.Holds v) : m.Holds v :=
  holds_of_restricts h.arena h.fields hv

theorem Like.effect (h : m.Like m₁) {c : Control} (hframes : c.frames = m.control.frames)
    (hvalues : ∀ v ∈ c.values, m.Yields m₁.store.nextId v) :
    m.Effect { m₁ with control := c } := by
  refine ⟨h.ids, fun v hv => ?_, fun i e' _ hg => ?_, .stay h.env hframes h.arena.next h.depth⟩
  · cases hv with
    | stored hv => exact .held (h.holds hv)
    | control hv => exact hvalues v hv
  · obtain ⟨e, hg', hval⟩ := h.arena.values _ _ hg
    exact ⟨e, hg', .inl hval⟩

theorem Like.effect_put (h : m.Like m₁) {c : Control} (hput : m₁.store.Puts x v s)
    (hx : m.control.target? = some x) (hv : m.Yields m₁.store.nextId v)
    (hframes : c.frames = m.control.frames)
    (hvalues : ∀ v ∈ c.values, m.Yields m₁.store.nextId v) :
    m.Effect { m₁ with store := s, control := c } := by
  obtain ⟨i, e, hg, rfl⟩ := hput
  refine ⟨h.ids, fun u hu => ?_, fun j f' _ hf => ?_, .stay h.env hframes h.arena.next h.depth⟩
  · cases hu with
    | stored hu =>
      cases hu with
      | @bound j f y _ hf hy =>
        rw [Arena.get?_put] at hf
        split at hf
        · cases hf
          rw [Bindings.get?_set] at hy
          split at hy
          · cases hy
            exact hv
          · exact .held (h.holds (.bound hg hy))
        · exact .held (h.holds (.bound hf hy))
      | field j hy => exact .held (h.holds (.field j hy))
    | control hu => exact hvalues u hu
  · rw [Arena.get?_put] at hf
    split at hf
    · rename_i hij
      subst hij
      cases hf
      obtain ⟨e₀, hg₀, hval⟩ := h.arena.values _ _ hg
      exact ⟨e₀, hg₀, .inr ⟨x, v, hx, congrArg (Bindings.set · x v) hval⟩⟩
    · obtain ⟨f, hf', hval⟩ := h.arena.values _ _ hf
      exact ⟨f, hf', .inl hval⟩

/-- A continuation that was there before. -/
structure Retains (m : Machine) (frames : List Frame) (values : List Value) : Prop where
  frames : frames = m.control.frames
  values : ∀ v ∈ values, m.Holds v

variable {m₁ : Machine} {k : ValueCont}

theorem Retains.yields (h : m.Retains fs vs) : ∀ v ∈ vs, m.Yields n v :=
  fun v hv => .held (h.values v hv)

theorem Retains.tail (h : m.Retains fs (v :: vs)) : m.Retains fs vs :=
  ⟨h.frames, fun u hu => h.values u (List.mem_cons_of_mem _ hu)⟩

theorem effect_give (h : m.Like m₁) (hk : m.Retains k.frames k.values)
    (hv : m.Yields m₁.store.nextId v) : m.Effect (m₁.give v k) :=
  h.effect (c := .value v k) hk.frames (List.forall_mem_cons.2 ⟨hv, hk.yields⟩)

theorem effect_complete {k : DoneCont} (h : m.Like m₁) (hk : m.Retains k.frames k.values)
    (hc : ∀ v, c = .returning v → m.Yields m₁.store.nextId v) : m.Effect (m₁.complete c k) := by
  refine h.effect (c := .complete c k) hk.frames ?_
  cases c with
  | normal => exact hk.yields
  | failing => exact hk.yields
  | returning v => exact List.forall_mem_cons.2 ⟨hc v rfl, hk.yields⟩

theorem effect_fail (h : m.Like m₁) (hk : m.Retains k.frames k.values) (fault : Fault) :
    m.Effect (m₁.fail fault k.enclosing) := by
  obtain ⟨hframes, hvalues⟩ := k.enclosing_parts
  exact h.effect (c := .complete (.failing fault) k.enclosing) (hframes.trans hk.frames)
    fun v hv => hk.yields v (hvalues hv)

theorem effect_readRef (hk : m.Retains k.frames k.values) (name : Ident) (ref : Binding) :
    m.Effect (m.readRef name ref k) := by
  rw [readRef]
  split
  · rename_i v hv
    exact effect_give (.refl m) hk (.held (.stored (Store.holds_of_read hv)))
  · exact effect_fail (.refl m) hk _

theorem effect_assignRef (hk : m.Retains k.frames k.values) (hv : m.Holds v) (ref : Binding)
    (hx : m.control.target? = some name.name) : m.Effect (m.assignRef name ref v k) := by
  rw [assignRef]
  split
  · rename_i s hs
    exact (Like.refl m).effect_put (c := .value v k) (Store.puts_of_assign hs) hx (.held hv)
      hk.frames (List.forall_mem_cons.2 ⟨.held hv, hk.yields⟩)
  · exact effect_fail (.refl m) hk _

theorem effect_define {k : DoneCont} (h : m.Like m₁) (hk : m.Retains k.frames k.values)
    (hv : m.Yields m₁.store.nextId v) (hx : m.control.target? = some name.name) :
    m.Effect (m₁.define name v k) := by
  rw [define]
  split
  · rename_i s hs
    exact h.effect_put (c := .complete .normal k) (Store.puts_of_define hs) hx hv hk.frames
      hk.yields
  · exact effect_complete h hk fun v hv => by cases hv

theorem effect_capture {k : DoneCont} {go : Machine → Machine} (hk : m.Retains k.frames k.values)
    (hgo : ∀ m₁ : Machine, m.Like m₁ → m₁.store.nextId = m.store.nextId → m.Effect (go m₁)) :
    m.Effect (m.capture k go) := by
  have hlike :
      m.Like { m with store := { m.store with arena := (m.store.arena.capture m.env).1 } } :=
    ⟨rfl, rfl, Nat.le_refl _, rfl, Arena.restricts_capture _ _⟩
  simp only [capture]
  split
  · exact hgo _ hlike rfl
  · exact effect_complete hlike hk fun v hv => by cases hv

theorem effect_evalStep (hctl : m.control = .eval e k) : m.Effect (m.evalStep e k) := by
  have hk : m.Retains k.frames k.values := ⟨by rw [hctl]; rfl, fun v hv => .control (by rwa [hctl])⟩
  cases e with
  | literal l => exact effect_give (.refl m) hk (.plain (by cases l <;> rfl))
  | read name ref => exact effect_readRef hk name ref
  | receiver pos ref => exact effect_readRef hk _ ref
  | _ => exact (Like.refl m).effect hk.frames hk.yields

theorem effect_execStep {k : DoneCont} (hctl : m.control = .exec s k) :
    m.Effect (m.execStep s k) := by
  have hk : m.Retains k.frames k.values := ⟨by rw [hctl]; rfl, fun v hv => .control (by rwa [hctl])⟩
  cases s with
  | varDecl name init =>
    cases init with
    | none => exact effect_define (.refl m) hk (.plain rfl) (by rw [hctl]; rfl)
    | some e => exact (Like.refl m).effect hk.frames hk.yields
  | block body =>
    refine ⟨Nat.le_refl _, fun v hv => ?_,
      fun i e' hi hg => ⟨e', (Arena.get?_new_of_lt hi).symm.trans hg, .inl rfl⟩,
      .block hctl rfl (congrArg _ hk.frames) rfl rfl⟩
    cases hv with
    | stored hv =>
      have hold := Store.holds_of_new (s := m.store) hv rfl rfl
      exact .held (.stored (hold.resolve_right (by simp)))
    | control hv => exact hk.yields v hv
  | funDecl decl =>
    rw [execStep]
    refine effect_capture hk fun m₁ hlike hid => ?_
    refine effect_define hlike.fresh hk ?_ (by rw [hctl]; rfl)
    rw [hid, hlike.env]
    exact .function hctl (Nat.lt_succ_self _)
  | ret pos value =>
    cases value with
    | none => exact effect_complete (.refl m) hk fun v hv => by cases hv; exact .plain rfl
    | some e => exact (Like.refl m).effect hk.frames hk.yields
  | classDecl name methods =>
    rw [execStep]
    refine effect_capture hk fun m₁ hlike _ => ?_
    exact effect_define hlike.fresh hk .cls (by rw [hctl]; rfl)
  | _ => exact (Like.refl m).effect hk.frames hk.yields

theorem effect_enter {args : List Value} {c : Closure} {receiver : Option Instance}
    (hn : m.store.nextId ≤ n) (hk : m.Retains k.frames k.values) (hargs : ∀ u ∈ args, m.Holds u)
    (hcallee : m.control.callee? = some v)
    (hnone : receiver = none → ∃ j, v = .function j c)
    (hsome : ∀ i, receiver = some i → v.bound? m.store.nextId = some ⟨c, i⟩ ∧
      m.Yields n (.object i)) :
    m.Effect ({ m with store := { m.store with nextId := n } }.enter c receiver args paren k) := by
  have hparams : ∀ x u, (World.params c.decl args).get? x = some u → m.Holds u := fun x u hu =>
    hargs u (List.of_mem_zip (Bindings.mem_of_get?_ofList hu)).2
  have hlike : m.Like { m with store := { m.store with nextId := n } } :=
    ⟨rfl, rfl, hn, rfl, .refl _⟩
  rw [enter]
  split
  · exact effect_fail hlike hk _
  · cases receiver with
    | none =>
      obtain ⟨j, rfl⟩ := hnone rfl
      refine ⟨hn, fun u hu => ?_,
        fun i e' hi hg => ⟨e', (Arena.get?_new_of_lt hi).symm.trans hg, .inl rfl⟩,
        .function hcallee rfl (congrArg _ hk.frames) rfl rfl⟩
      cases hu with
      | stored hu =>
        rcases Store.holds_of_new (s := m.store) hu rfl rfl with hu | ⟨x, hx⟩
        · exact .held (.stored hu)
        · exact .held (hparams x u hx)
      | control hu => exact hk.yields u hu
    | some i =>
      obtain ⟨hbound, hobject⟩ := hsome i rfl
      refine ⟨hn, fun u hu => ?_, fun j e' hj hg => ⟨e', ?_, .inl rfl⟩,
        .method hcallee hbound rfl (congrArg _ hk.frames) rfl rfl⟩
      · cases hu with
        | stored hu =>
          let self : Store := { m.store with arena := (m.store.arena.new (some c.env)
            (Bindings.empty.set receiverName (.object i))).2 }
          rcases Store.holds_of_new (s := self) hu rfl rfl with hu | ⟨x, hx⟩
          · rcases Store.holds_of_new (s := m.store) hu rfl rfl with hu | ⟨x, hx⟩
            · exact .held (.stored hu)
            · rw [Bindings.get?_set] at hx
              split at hx
              · cases hx
                exact hobject
              · simp at hx
          · exact .held (hparams x u hx)
        | control hu =>
          rcases List.mem_append.1 hu with hu | hu
          · obtain ⟨i', hmem, rfl⟩ := List.mem_map.1 hu
            split at hmem
            · cases List.mem_singleton.1 hmem
              exact hobject
            · cases hmem
          · exact hk.yields u hu
      · rw [← Arena.get?_new_of_lt hj]
        exact (Arena.get?_new_of_lt (Nat.lt_succ_of_lt hj)).symm.trans hg

theorem effect_checkArity {go : Machine → Machine} (hk : m.Retains k.frames k.values)
    (hgo : m.Effect (go m)) (arity : Nat) (args : List Value) (paren : Pos) :
    m.Effect (m.checkArity arity args paren k go) := by
  rw [checkArity]
  split
  · exact hgo
  · exact effect_fail (.refl m) hk _

theorem effect_callStep {args : List Value} (hk : m.Retains k.frames k.values)
    (hv : m.Holds v) (hargs : ∀ u ∈ args, m.Holds u) (hcallee : m.control.callee? = some v)
    (paren : Pos) : m.Effect (m.callStep v args paren k) := by
  cases v with
  | function j c =>
    rw [callStep]
    refine effect_checkArity hk ?_ _ _ _
    exact effect_enter (Nat.le_refl _) hk hargs hcallee (fun _ => ⟨j, rfl⟩) fun i hi => by cases hi
  | method j c i =>
    rw [callStep]
    refine effect_checkArity hk ?_ _ _ _
    refine effect_enter (Nat.le_refl _) hk hargs hcallee (fun h => by cases h) fun i' hi => ?_
    cases hi
    exact ⟨rfl, .receiver hv⟩
  | cls c =>
    rw [callStep]
    refine effect_checkArity hk ?_ _ _ _
    have hobject : m.Yields (m.store.nextId + 1) (.object ⟨m.store.nextId, c⟩) :=
      .object (Nat.lt_succ_self _)
    cases hinit : c.initializer? with
    | none => exact effect_give (Like.refl m).fresh hk hobject
    | some init =>
      refine effect_enter (Nat.le_succ _) hk hargs hcallee (fun h => by cases h) fun i hi => ?_
      cases hi
      exact ⟨by rw [Value.bound?, hinit]; rfl, hobject⟩
  | _ => exact effect_fail (.refl m) hk _

theorem effect_argumentStep {done : List Value} {rest : List (Expr Binding)}
    (hk : m.Retains k.frames k.values) (hv : m.Holds v) (hdone : ∀ u ∈ done, m.Holds u)
    (hcallee : rest = [] → m.control.callee? = some v) (paren : Pos) :
    m.Effect (m.argumentStep v done rest paren k) := by
  cases rest with
  | nil =>
    exact effect_callStep hk hv (fun u hu => hdone u (List.mem_reverse.1 hu)) (hcallee rfl) paren
  | cons e rest =>
    refine (Like.refl m).effect hk.frames (List.forall_mem_cons.2 ⟨.held hv, ?_⟩)
    exact List.forall_mem_append.2 ⟨fun u hu => .held (hdone u hu), hk.yields⟩

theorem effect_operate (hk : m.Retains k.frames k.values)
    (hv : ∀ v, result = .ok v → v.plain = true) (pos : Pos) :
    m.Effect (m.operate result pos k) := by
  cases result with
  | ok v => exact effect_give (.refl m) hk (.plain (hv v rfl))
  | error fault => exact effect_fail (.refl m) hk _

theorem effect_get (hk : m.Retains k.frames k.values) (hv : m.Holds v) (name : Ident) :
    m.Effect (m.valueStep v (.get name k)) := by
  cases v with
  | object i =>
    rw [valueStep]
    split
    · rename_i u s hp
      rw [Store.property?] at hp
      split at hp
      · rename_i u hu
        cases hp
        exact effect_give (.refl m) hk (.held (.stored (.field i hu)))
      · split at hp
        · cases hp
          exact effect_give (Like.refl m).fresh hk (.method hv)
        · cases hp
    · exact effect_fail (.refl m) hk _
  | _ => exact effect_fail (.refl m) hk _

theorem effect_setField (hk : m.Retains k.frames k.values) (hv : m.Holds v) (target : Instance)
    (name : String) : m.Effect ({ m with store := m.store.setField target name v }.give v k) := by
  refine ⟨Nat.le_refl _, fun u hu => ?_, fun i e hi hg => ⟨e, hg, .inl rfl⟩,
    .stay rfl hk.frames rfl rfl⟩
  cases hu with
  | stored hu =>
    cases hu with
    | bound hg hx => exact .held (.stored (.bound hg hx))
    | field i hx =>
      simp only [give, Store.fieldsOf_setField] at hx
      split at hx
      · rw [Bindings.get?_set] at hx
        split at hx
        · cases hx
          exact .held hv
        · exact .held (.stored (.field target hx))
      · exact .held (.stored (.field i hx))
  | control hu => exact List.forall_mem_cons.2 ⟨.held hv, hk.yields⟩ u hu

theorem effect_valueStep (hctl : m.control = .value v k) : m.Effect (m.valueStep v k) := by
  have hvk : m.Retains k.frames (v :: k.values) :=
    ⟨by rw [hctl]; rfl, fun u hu => .control (by rwa [hctl])⟩
  have hv : m.Holds v := hvk.values v List.mem_cons_self
  have hk := hvk.tail
  cases k with
  | unary op pos k => exact effect_operate (k := k) hk (fun _ => UnaryOp.plain_apply) pos
  | left op pos right k =>
    exact (Like.refl m).effect hk.frames (List.forall_mem_cons.2 ⟨.held hv, hk.yields⟩)
  | right left op pos k =>
    exact effect_operate (k := k) hk.tail (fun _ => BinaryOp.plain_apply) pos
  | logical op right k =>
    rw [valueStep]
    split
    · exact effect_give (k := k) (.refl m) hk (.held hv)
    · exact (Like.refl m).effect hk.frames hk.yields
  | assign name ref k => exact effect_assignRef (k := k) hk hv ref (by rw [hctl]; rfl)
  | callee args paren k =>
    refine effect_argumentStep (k := k) hk hv (List.forall_mem_nil _) (fun h => ?_) paren
    rw [hctl, h]
    rfl
  | argument callee done rest paren k =>
    obtain ⟨hdone, hk'⟩ := List.forall_mem_append.1 hk.tail.values
    refine effect_argumentStep (k := k) ⟨hk.frames, hk'⟩ (hk.values _ List.mem_cons_self)
      (List.forall_mem_cons.2 ⟨hv, hdone⟩) (fun h => ?_) paren
    rw [hctl, h]
    rfl
  | get name k => exact effect_get (k := k) hk hv name
  | setObject name value k =>
    cases v with
    | object i =>
      exact (Like.refl m).effect hk.frames (List.forall_mem_cons.2 ⟨.held hv, hk.yields⟩)
    | _ => exact effect_fail (k := k) (.refl m) hk _
  | setValue target name k => exact effect_setField (k := k) hk.tail hv target name.name
  | print k =>
    exact effect_complete (k := k) ⟨rfl, rfl, Nat.le_refl _, rfl, .refl _⟩ hk
      fun v hv => by cases hv
  | define name k => exact effect_define (k := k) (.refl m) hk (.held hv) (by rw [hctl]; rfl)
  | branch yes no k =>
    cases no <;> rw [valueStep] <;> split <;> exact (Like.refl m).effect hk.frames hk.yields
  | test condition body k =>
    rw [valueStep]
    split <;> exact (Like.refl m).effect hk.frames hk.yields
  | discard k => exact (Like.refl m).effect hk.frames hk.yields
  | ret k => exact (Like.refl m).effect hk.frames hvk.yields

theorem leave_restricts (m : Machine) (outer : Handle) (left : List Handle) :
    (m.leave outer left).1.env = outer ∧ (m.leave outer left).1.depth = m.depth ∧
      (m.leave outer left).1.store.nextId = m.store.nextId ∧
      (m.leave outer left).1.store.fields = m.store.fields ∧
      m.store.arena.Restricts (m.leave outer left).1.store.arena := by
  rw [leave]
  split
  · rename_i a ha
    exact ⟨rfl, rfl, rfl, rfl, Arena.restricts_releaseAll ha⟩
  · exact ⟨rfl, rfl, rfl, rfl, .refl _⟩

theorem effect_leave {m₀ : Machine} {c : Control} (hleave : m₀.leave outer left = (m₁, fault))
    (hstore : m₀.store = m.store)
    (hmoves : m₁.env = outer → m₁.depth = m₀.depth → m₁.store.arena.next = m.store.arena.next →
      m.Moves { m₁ with control := c })
    (hvalues : ∀ v ∈ c.values, m.Yields m.store.nextId v) : m.Effect { m₁ with control := c } := by
  obtain ⟨henv, hdepth, hid, hfields, harena⟩ := leave_restricts m₀ outer left
  rw [hleave] at henv hdepth hid hfields harena
  rw [hstore] at hid hfields harena
  refine ⟨Nat.le_of_eq hid.symm, fun v hv => ?_, fun i e' _ hg => ?_,
    hmoves henv hdepth harena.next⟩
  · cases hv with
    | stored hv => exact .held (holds_of_restricts harena hfields hv)
    | control hv => exact hid ▸ hvalues v hv
  · obtain ⟨e, hg', hval⟩ := harena.values i e' hg
    exact ⟨e, hg', .inl hval⟩

theorem effect_leaveCall {c : Completion} {result : Option Instance}
    (hk : m.Retains (.call outer :: k.frames) (result.toList.map .object ++ k.values))
    (hc : ∀ v, c = .returning v → m.Yields m.store.nextId v)
    (hstep : m.completeStep c (.leaveCall outer receiver result k) = some m') : m.Effect m' := by
  obtain ⟨hresult, hvalues⟩ := List.forall_mem_append.1 hk.values
  obtain ⟨hframes', hvalues'⟩ := k.enclosing_parts
  obtain ⟨m₁, fault, hleave⟩ : ∃ m₁ fault, { m with depth := m.depth - 1 }.leave outer
      (m.env :: receiver.toList) = (m₁, fault) := ⟨_, _, rfl⟩
  have hleft : ∀ control : Control, control.frames = k.frames →
      (∀ v ∈ control.values, m.Yields m.store.nextId v) →
      m.Effect { m₁ with control } := by
    intro control hframes hyields
    refine effect_leave hleave rfl (fun henv hdepth hnext => .leaveCall ?_ hnext hdepth) hyields
    rw [henv, hframes]
    exact hk.frames.symm
  have hfail : ∀ fault, m.Effect (m₁.fail fault k.enclosing) := fun fault =>
    hleft (.complete (.failing fault) _) hframes' fun v hv => .held (hvalues v (hvalues' hv))
  have hgive : ∀ v, m.Yields m.store.nextId v → m.Effect (m₁.give v k) := fun v hv =>
    hleft (.value v k) rfl (List.forall_mem_cons.2 ⟨hv, fun u hu => .held (hvalues u hu)⟩)
  have hobject : ∀ i ∈ result, m.Yields m.store.nextId (.object i) := fun i hi =>
    .held (hresult _ (List.mem_map_of_mem (Option.mem_toList.2 hi)))
  rw [completeStep, hleave] at hstep
  cases fault with
  | some fault => cases hstep; exact hfail _
  | none =>
    cases c with
    | failing => cases hstep; exact hfail _
    | normal =>
      cases result with
      | none => cases hstep; exact hgive _ (.plain rfl)
      | some i => cases hstep; exact hgive _ (hobject i rfl)
    | returning v =>
      cases result with
      | none => cases hstep; exact hgive _ (hc v rfl)
      | some i => cases hstep; exact hgive _ (hobject i rfl)

theorem effect_completeStep {k : DoneCont} (hctl : m.control = .complete c k)
    (hstep : m.completeStep c k = some m') : m.Effect m' := by
  have hc : ∀ v, c = .returning v → m.Yields m.store.nextId v := by
    rintro v rfl
    exact .held (.control (by rw [hctl]; exact List.mem_cons_self))
  have hk : m.Retains k.frames k.values := by
    refine ⟨by rw [hctl]; rfl, fun v hv => .control ?_⟩
    rw [hctl]
    cases c with
    | returning u => exact List.mem_cons_of_mem _ hv
    | _ => exact hv
  cases k with
  | program rest =>
    cases c with
    | failing => cases hstep
    | _ =>
      cases rest with
      | nil => cases hstep
      | cons s rest =>
        cases hstep
        exact (Like.refl m).effect hk.frames hk.yields
  | sequence rest k =>
    have hk : m.Retains k.frames k.values := hk
    cases c with
    | normal => cases rest <;> cases hstep <;> exact (Like.refl m).effect hk.frames hk.yields
    | returning => cases hstep; exact effect_complete (.refl m) hk hc
    | failing => cases hstep; exact effect_complete (.refl m) hk hc
  | again condition body k =>
    have hk : m.Retains k.frames k.values := hk
    cases c with
    | normal => cases hstep; exact (Like.refl m).effect hk.frames hk.yields
    | returning => cases hstep; exact effect_complete (.refl m) hk hc
    | failing => cases hstep; exact effect_complete (.refl m) hk hc
  | leaveBlock outer k =>
    rw [completeStep] at hstep
    split at hstep
    · rename_i m₁ hleave
      cases hstep
      refine effect_leave (c := .complete c k) hleave rfl (fun henv hdepth hnext => ?_) ?_
      · exact .leaveBlock (by rw [henv]; exact hk.frames.symm) hnext hdepth
      · cases c with
        | returning v => exact List.forall_mem_cons.2 ⟨hc v rfl, hk.yields⟩
        | _ => exact hk.yields
    · rename_i m₁ fault hleave
      cases hstep
      refine effect_leave (c := .complete _ k) hleave rfl (fun henv hdepth hnext => ?_) hk.yields
      exact .leaveBlock (by rw [henv]; exact hk.frames.symm) hnext hdepth
  | leaveCall outer receiver result k => exact effect_leaveCall hk hc hstep

/-- What each step does. -/
theorem effect (hstep : m.step = some m') : m.Effect m' := by
  rw [Machine.step] at hstep
  cases hctl : m.control with
  | eval e k =>
    rw [hctl] at hstep
    cases hstep
    exact effect_evalStep hctl
  | exec s k =>
    rw [hctl] at hstep
    cases hstep
    exact effect_execStep hctl
  | value v k =>
    rw [hctl] at hstep
    cases hstep
    exact effect_valueStep hctl
  | complete c k =>
    rw [hctl] at hstep
    exact effect_completeStep hctl hstep

end Machine

end Lox
