import Lox.Proofs.Scope.Returns
import Lox.Scope.Reference

namespace Lox
set_option autoImplicit true

namespace Context

def leave (Γ : Context) : Context := { Γ with scopes := Γ.scopes.tail }

def setFunction (Γ : Context) (kind : Enclosing) : Context := { Γ with function := kind }

def setInClass (Γ : Context) (inClass : Bool) : Context := { Γ with inClass }

end Context

/-- Where a walk has come to: the context there, the references entered on the way and the misuses
reported on the way. -/
structure Walk where
  context : Context := {}
  entries : List Reference := []
  misuses : List Misuse := []

namespace Walk

def add (w : Walk) (entries : List Reference) (misuses : List Misuse) : Walk :=
  { w with entries := w.entries ++ entries, misuses := w.misuses ++ misuses }

def goTo (w : Walk) (Γ : Context) : Walk := { w with context := Γ }

def push (w : Walk) (scope : Scope) : Walk := w.goTo (w.context.enter scope)

def pop (w : Walk) : Walk := w.goTo w.context.leave

def setFunction (w : Walk) (kind : Enclosing) : Walk := w.goTo (w.context.setFunction kind)

def setInClass (w : Walk) (inClass : Bool) : Walk := w.goTo (w.context.setInClass inClass)

def declare (w : Walk) (name : Ident) : Walk :=
  (w.add [] (w.context.redeclared name)).goTo (w.context.mark name.name .pending)

def define (w : Walk) (name : Ident) : Walk := w.goTo (w.context.mark name.name .ready)

def params (w : Walk) (params : List Ident) : Walk :=
  params.foldl (fun w p => (w.declare p).define p) w

def record (w : Walk) (kind : ReferenceKind) (name : String) (pos : Pos) : Walk :=
  w.add ((w.context.binding name).entry kind name pos) []

end Walk

section
variable {ρ : Type}

mutual

def Expr.walk : Expr ρ → Walk → Walk
  | .literal _, w => w
  | .grouping inner, w => inner.walk w
  | .unary _ _ operand, w => operand.walk w
  | .binary left _ _ right, w => right.walk (left.walk w)
  | .logical left _ right, w => right.walk (left.walk w)
  | .read name _, w =>
    let w := if w.context.status? name.name = some .pending then
      w.add [] [⟨.ownInitializer, name.name, name.pos.line⟩] else w
    w.record .read name.name name.pos
  | .assign name _ value, w => (value.walk w).record .assign name.name name.pos
  | .call callee args _, w => Expr.walkAll args (callee.walk w)
  | .get object _, w => object.walk w
  | .set object _ value, w => object.walk (value.walk w)
  | .receiver pos _, w =>
    if w.context.inClass then w.record .receiver receiverName pos
    else w.add [] [⟨.receiverOutside, receiverName, pos.line⟩]

def Expr.walkAll : List (Expr ρ) → Walk → Walk
  | [], w => w
  | e :: rest, w => Expr.walkAll rest (e.walk w)

end

mutual

def Stmt.walk : Stmt ρ → Walk → Walk
  | .expression e, w => e.walk w
  | .print e, w => e.walk w
  | .varDecl name none, w => (w.declare name).define name
  | .varDecl name (some init), w => (init.walk (w.declare name)).define name
  | .block body, w => (Stmt.walkAll body (w.push {})).pop
  | .branch condition yes none, w => yes.walk (condition.walk w)
  | .branch condition yes (some no), w => no.walk (yes.walk (condition.walk w))
  | .loop condition body, w => body.walk (condition.walk w)
  | .funDecl decl, w => decl.walk .function ((w.declare decl.name).define decl.name)
  | .ret pos none, w => w.add [] (w.context.returnMisuses pos false)
  | .ret pos (some value), w => value.walk (w.add [] (w.context.returnMisuses pos true))
  | .classDecl name methods, w =>
    let inside := (((w.declare name).define name).setInClass true).push
      (Bindings.empty.set receiverName .ready)
    (FunDecl.walkAll methods inside).pop.setInClass w.context.inClass

def Stmt.walkAll : List (Stmt ρ) → Walk → Walk
  | [], w => w
  | s :: rest, w => Stmt.walkAll rest (s.walk w)

def FunDecl.walk (kind : Enclosing) : FunDecl ρ → Walk → Walk
  | ⟨_, params, body⟩, w =>
    let inside := ((w.setFunction kind).push {}).params params
    (Stmt.walkAll body inside).pop.setFunction w.context.function

def FunDecl.walkAll : List (FunDecl ρ) → Walk → Walk
  | [], w => w
  | f :: rest, w => FunDecl.walkAll rest (f.walk (Context.methodKind f.name.name) w)

end

end

theorem Bindings.setEntry_setEntry (name : String) (a b : α) (entries : List (String × α)) :
    setEntry name b (setEntry name a entries) = setEntry name b entries := by
  induction entries with
  | nil => simp [setEntry]
  | cons entry rest ih =>
    obtain ⟨n, v⟩ := entry
    by_cases hn : n = name
    · simp [setEntry, hn]
    · simp [setEntry, hn, ih]

namespace Context

theorem mark_mark (Γ : Context) (x : String) (a b : Status) :
    (Γ.mark x a).mark x b = Γ.mark x b := by
  cases h : Γ.scopes with
  | nil => simp only [mark, h]
  | cons S Ss => simp only [mark, h, Bindings.set, Bindings.setEntry_setEntry]

theorem inClass_mark (Γ : Context) (x : String) (status : Status) :
    (Γ.mark x status).inClass = Γ.inClass := by
  rw [mark]
  split <;> rfl

theorem declare_eq (Γ : Context) (names : List String) :
    Γ.declare names = { Γ with scopes := Γ.scopes.modifyHead (Scope.declare · names) } := by
  obtain ⟨scopes, kind, inClass⟩ := Γ
  induction names generalizing scopes with
  | nil => cases scopes <;> rfl
  | cons x names ih => cases scopes <;> exact ih _

theorem leave_declare (Γ : Context) (names : List String) : (Γ.declare names).leave = Γ.leave := by
  obtain ⟨scopes, kind, inClass⟩ := Γ
  rw [declare_eq]
  cases scopes <;> rfl

theorem leave_body (Γ : Context) (kind : Enclosing) (params : List Ident) (body : List (Stmt ρ)) :
    ((Γ.body kind params).afterAll body).leave = Γ.setFunction kind := by
  rw [afterAll_eq_declare, leave_declare, Context.body, params_eq_declare, leave_declare]
  rfl

end Context

namespace Walk

@[simp] theorem add_nil (w : Walk) : w.add [] [] = w := by simp [add]

@[simp] theorem add_add (w : Walk) (es es' : List Reference) (ms ms' : List Misuse) :
    (w.add es ms).add es' ms' = w.add (es ++ es') (ms ++ ms') := by
  simp [add]

@[simp] theorem context_add (w : Walk) (es : List Reference) (ms : List Misuse) :
    (w.add es ms).context = w.context := rfl

@[simp] theorem context_goTo (w : Walk) (Γ : Context) : (w.goTo Γ).context = Γ := rfl

@[simp] theorem goTo_context (w : Walk) : w.goTo w.context = w := rfl

@[simp] theorem goTo_goTo (w : Walk) (Γ Δ : Context) : (w.goTo Γ).goTo Δ = w.goTo Δ := rfl

@[simp] theorem goTo_add (w : Walk) (Γ : Context) (es : List Reference) (ms : List Misuse) :
    (w.goTo Γ).add es ms = (w.add es ms).goTo Γ := rfl

theorem define_declare (w : Walk) (name : Ident) : (w.declare name).define name =
    (w.add [] (w.context.redeclared name)).goTo (w.context.mark name.name .ready) := by
  simp only [define, declare, goTo_goTo, context_goTo, Context.mark_mark]

theorem params_eq (w : Walk) (ps : List Ident) :
    w.params ps = (w.add [] (w.context.redeclaredParams ps)).goTo (w.context.params ps) := by
  induction ps generalizing w with
  | nil => simp [params, Context.redeclaredParams, Context.params]
  | cons p ps ih =>
    rw [show w.params (p :: ps) = ((w.declare p).define p).params ps from rfl, ih, define_declare]
    simp [Context.redeclaredParams, Context.params]

end Walk

theorem Expr.walk_eq (e : Expr ρ) (w : Walk) :
    e.walk w = w.add (e.resolve w.context).references (e.misuses w.context) := by
  induction e using Expr.rec (motive_2 := fun args => ∀ w : Walk, Expr.walkAll args w =
    w.add (Expr.referencesAll (Expr.resolveAll w.context args)) (Expr.misusesAll w.context args))
    generalizing w with
  | literal => simp [walk, resolve, references, misuses]
  | grouping inner ih => exact ih w
  | unary op pos operand ih => exact ih w
  | binary left op pos right ihl ihr => simp [walk, ihl, ihr, resolve, references, misuses]
  | logical left op right ihl ihr => simp [walk, ihl, ihr, resolve, references, misuses]
  | read name ref =>
    simp only [walk, Walk.record, resolve, references, misuses]
    split <;> simp
  | assign name ref value ih => simp [walk, ih, Walk.record, resolve, references, misuses]
  | call callee args paren ihc iha => simp [walk, ihc, iha, resolve, references, misuses]
  | get object name ih => exact ih w
  | set object name value iho ihv => simp [walk, iho, ihv, resolve, references, misuses]
  | receiver pos ref =>
    simp only [walk, Walk.record, resolve, references, misuses]
    split <;> simp [Binding.entry]
  | nil => simp [walkAll, resolveAll, referencesAll, misusesAll]
  | cons e args ihe iha => simp [walkAll, ihe, iha, resolveAll, referencesAll, misusesAll]

/-- The walk through a statement goes on behind it, with its references and misuses added. -/
def Stmt.Walks (s : Stmt ρ) : Prop :=
  ∀ w : Walk, s.walk w = (w.add (s.resolve w.context).references (s.misuses w.context)).goTo
    (w.context.after s)

theorem Stmt.walkAll_eq_of {body : List (Stmt ρ)} (h : ∀ s ∈ body, s.Walks) (w : Walk) :
    Stmt.walkAll body w = (w.add (Stmt.referencesAll (Stmt.resolveAll w.context body))
      (Stmt.misusesAll w.context body)).goTo (w.context.afterAll body) := by
  induction body generalizing w with
  | nil => simp [walkAll, resolveAll, referencesAll, misusesAll, Context.afterAll]
  | cons s rest ih =>
    obtain ⟨hs, hrest⟩ := List.forall_mem_cons.1 h
    rw [walkAll, hs w, ih hrest]
    simp [resolveAll, referencesAll, misusesAll, Context.afterAll]

theorem FunDecl.walk_eq_of {f : FunDecl ρ} (h : ∀ s ∈ f.body, s.Walks) (kind : Enclosing)
    (w : Walk) : f.walk kind w =
      w.add (f.resolve w.context kind).references (f.misuses w.context kind) := by
  obtain ⟨name, params, body⟩ := f
  have hinside : ((w.setFunction kind).push {}).params params =
      (w.add [] ((w.context.enterFunction kind).redeclaredParams params)).goTo
        (w.context.body kind params) := Walk.params_eq _ params
  rw [walk, hinside, Stmt.walkAll_eq_of h, Walk.pop, Walk.context_goTo, Walk.context_goTo,
    Context.leave_body, Walk.goTo_add, Walk.add_add]
  rfl

theorem FunDecl.walkAll_eq_of {methods : List (FunDecl ρ)}
    (h : ∀ f ∈ methods, ∀ s ∈ f.body, s.Walks) (w : Walk) : FunDecl.walkAll methods w =
      w.add (FunDecl.referencesAll (FunDecl.resolveAll w.context methods))
        (FunDecl.misusesAll w.context methods) := by
  induction methods generalizing w with
  | nil => simp [walkAll, resolveAll, referencesAll, misusesAll]
  | cons f rest ih =>
    obtain ⟨hf, hrest⟩ := List.forall_mem_cons.1 h
    rw [walkAll, FunDecl.walk_eq_of hf, ih hrest]
    simp [resolveAll, referencesAll, misusesAll]

/-- The walk enters what is noted in the resolved statement, reports what is misused in it, and puts
the stack and the kinds back. -/
theorem Stmt.walk_eq (s : Stmt ρ) : s.Walks := by
  induction s using Stmt.induction with
  | expression e => exact e.walk_eq
  | print e => exact e.walk_eq
  | varDecl name init =>
    intro w
    cases init with
    | none => exact w.define_declare name
    | some e =>
      rw [walk, e.walk_eq]
      simp [Walk.declare, Walk.define, Context.mark_mark, resolve, references, misuses,
        Context.after]
  | block body ih =>
    intro w
    rw [walk, Stmt.walkAll_eq_of ih, Walk.pop, Walk.context_goTo, Context.afterAll_eq_declare,
      Context.leave_declare]
    rfl
  | branch c yes no ihy ihn =>
    intro w
    cases no with
    | none =>
      rw [walk, c.walk_eq, ihy]
      simp [resolve, references, misuses, Context.after]
    | some no =>
      rw [walk, c.walk_eq, ihy, ihn no rfl]
      simp [resolve, references, misuses, Context.after]
  | loop c body ih =>
    intro w
    rw [walk, c.walk_eq, ih]
    simp [resolve, references, misuses, Context.after]
  | funDecl decl ih =>
    intro w
    rw [walk, FunDecl.walk_eq_of ih, Walk.define_declare]
    simp [resolve, references, misuses, Context.after]
  | ret pos value =>
    intro w
    cases value with
    | none => rfl
    | some e =>
      rw [walk, e.walk_eq, Walk.add_add]
      rfl
  | classDecl name methods ih =>
    intro w
    rw [walk, FunDecl.walkAll_eq_of ih, Walk.define_declare]
    simp only [Walk.setInClass, Walk.push, Walk.pop, Walk.context_goTo, Walk.goTo_add,
      Walk.goTo_goTo, Walk.add_add, List.nil_append]
    rw [← w.context.inClass_mark name.name .ready]
    rfl

end Lox
