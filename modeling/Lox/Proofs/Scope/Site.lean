import Lox.Proofs.Scope.Names
import Mathlib.Data.List.Forall2

namespace Lox
set_option autoImplicit true

/-- A part of the source that has a scope of its own. -/
inductive Zone (ρ : Type) where
  | block (body : List (Stmt ρ))
  | function (decl : FunDecl ρ)
  /-- The scope of the receiver, around the methods of a class. -/
  | receiver

namespace Zone

def body : Zone ρ → List (Stmt ρ)
  | block body => body
  | function decl => decl.body
  | receiver => []

/-- The scope that resolution has built up when it leaves a zone. -/
def scope : Zone ρ → Scope
  | block body => (({} : Context).enter.afterAll body).inner
  | function decl => ((({} : Context).body .function decl.params).afterAll decl.body).inner
  | receiver => ({} : Context).enterClass.inner

def given : Zone ρ → List String
  | block _ => []
  | function decl => decl.params.map (·.name)
  | receiver => [receiverName]

theorem contains_scope (z : Zone ρ) (x : String) :
    z.scope.contains x = true ↔ x ∈ z.given ∨ ∃ s ∈ z.body, x ∈ s.names := by
  cases z with
  | block body =>
    rw [scope, Context.afterAll_eq_declare, Context.inner,
      Context.scopes_declare (rfl : ({} : Context).enter.scopes = [{}]), List.headD_cons,
      Scope.contains_declare]
    simp [given, Zone.body]
  | function decl =>
    rw [scope, Context.afterAll_eq_declare, Context.inner,
      Context.scopes_declare (Context.scopes_body _ _ _), List.headD_cons, Scope.contains_declare,
      Scope.contains_declare]
    simp [given, Zone.body, or_comm]
  | receiver =>
    simp [scope, Context.inner, Context.enterClass, Context.enter, Bindings.empty, given, Zone.body,
      eq_comm]

end Zone

/-- A statement stands under another: it is one of its branches or its body, with nothing but
branches and loops between. -/
inductive Stmt.Under : Stmt ρ → Stmt ρ → Prop where
  | yes : Under yes (.branch c yes no)
  | no : Under no (.branch c yes (some no))
  | body : Under body (.loop c body)
  | trans : Under s t → Under t u → Under s u

def Stmt.declared? : Stmt ρ → Option String
  | .varDecl name _ => some name.name
  | .funDecl decl => some decl.name.name
  | .classDecl name _ => some name.name
  | _ => none

theorem Stmt.exists_declared (s : Stmt ρ) (x : String) (hx : x ∈ s.names) :
    s.declared? = some x ∨ ∃ t : Stmt ρ, t.Under s ∧ t.declared? = some x := by
  fun_induction Stmt.names s with
  | case1 name init => exact .inl (by simpa [declared?, eq_comm] using hx)
  | case2 decl => exact .inl (by simpa [declared?, eq_comm] using hx)
  | case3 name methods => exact .inl (by simpa [declared?, eq_comm] using hx)
  | case4 c yes ih =>
    rcases ih hx with h | ⟨t, ht, h⟩
    · exact .inr ⟨yes, .yes, h⟩
    · exact .inr ⟨t, ht.trans .yes, h⟩
  | case5 c yes no ihy ihn =>
    rcases List.mem_append.1 hx with hx | hx
    · rcases ihy hx with h | ⟨t, ht, h⟩
      · exact .inr ⟨yes, .yes, h⟩
      · exact .inr ⟨t, ht.trans .yes, h⟩
    · rcases ihn hx with h | ⟨t, ht, h⟩
      · exact .inr ⟨no, .no, h⟩
      · exact .inr ⟨t, ht.trans .no, h⟩
  | case6 c body ih =>
    rcases ih hx with h | ⟨t, ht, h⟩
    · exact .inr ⟨body, .body, h⟩
    · exact .inr ⟨t, ht.trans .body, h⟩
  | case7 => cases hx
  | case8 => cases hx
  | case9 => cases hx
  | case10 => cases hx

/-- A zone declares a name under a branch or a loop, so that its declaration may never be executed.
-/
def Zone.Guards (z : Zone ρ) (x : String) : Prop :=
  ∃ s ∈ z.body, ∃ t : Stmt ρ, t.Under s ∧ t.declared? = some x

/-- What can stand at a site. A row is what is left of the statements of a zone. -/
inductive Code (ρ : Type) where
  | row (body : List (Stmt ρ))
  | stmt (s : Stmt ρ)
  | expr (e : Expr ρ)

def Expr.parts : Expr ρ → List (Expr ρ)
  | .literal _ | .read .. | .receiver .. => []
  | .grouping e | .unary _ _ e | .assign _ _ e | .get e _ => [e]
  | .binary left _ _ right | .logical left _ right => [left, right]
  | .call callee args _ => callee :: args
  | .set object _ value => [object, value]

/-- The expression directly inside a statement, with the context in which it stands. -/
def Stmt.clause? (Γ : Context) : Stmt ρ → Option (Context × Expr ρ)
  | .expression e | .print e | .branch e _ _ | .loop e _ | .ret _ (some e) => some (Γ, e)
  | .varDecl name (some e) => some (Γ.mark name.name .pending, e)
  | _ => none

theorem Stmt.clause?_cases {s : Stmt ρ} (h : s.clause? Γ = some (Δ, e)) :
    Δ = Γ ∨ ∃ name, s = .varDecl name (some e) ∧ Δ = Γ.mark name.name .pending := by
  cases s with
  | varDecl name init =>
    cases init with
    | none => cases h
    | some e => cases h; exact .inr ⟨name, rfl, rfl⟩
  | ret pos value =>
    cases value with
    | none => cases h
    | some e => cases h; exact .inl rfl
  | expression => cases h; exact .inl rfl
  | print => cases h; exact .inl rfl
  | branch => cases h; exact .inl rfl
  | loop => cases h; exact .inl rfl
  | block => cases h
  | funDecl => cases h
  | classDecl => cases h

/-- Where code stands in one of the programs: the zones around it, the innermost first, and the
context with which resolution comes there. -/
inductive Site (programs : List (Program ρ)) : List (Zone ρ) → Context → Code ρ → Prop where
  | program : P ∈ programs → Site programs [] {} (.row P)
  | next : Site programs zs Γ (.row (s :: rest)) → Site programs zs (Γ.after s) (.row rest)
  | first : Site programs zs Γ (.row (s :: rest)) → Site programs zs Γ (.stmt s)
  | yes : Site programs zs Γ (.stmt (.branch c yes no)) → Site programs zs Γ (.stmt yes)
  | no : Site programs zs Γ (.stmt (.branch c yes (some no))) →
      Site programs zs (Γ.after yes) (.stmt no)
  | loop : Site programs zs Γ (.stmt (.loop c body)) → Site programs zs Γ (.stmt body)
  | block : Site programs zs Γ (.stmt (.block body)) →
      Site programs (.block body :: zs) Γ.enter (.row body)
  | function : Site programs zs Γ (.stmt (.funDecl decl)) →
      Site programs (.function decl :: zs)
        ((Γ.mark decl.name.name .ready).body .function decl.params) (.row decl.body)
  | method : Site programs zs Γ (.stmt (.classDecl name methods)) → decl ∈ methods →
      Site programs (.function decl :: .receiver :: zs)
        ((Γ.mark name.name .ready).enterClass.body (Context.methodKind decl.name.name) decl.params)
        (.row decl.body)
  | clause : Site programs zs Γ (.stmt s) → s.clause? Γ = some (Δ, e) →
      Site programs zs Δ (.expr e)
  | part : Site programs zs Γ (.expr e) → e' ∈ e.parts → Site programs zs Γ (.expr e')

theorem Site.mono (h : Site programs zs Γ c) (hsub : programs ⊆ others) :
    Site others zs Γ c := by
  induction h with
  | program hP => exact .program (hsub hP)
  | next _ ih => exact ih.next
  | first _ ih => exact ih.first
  | yes _ ih => exact ih.yes
  | no _ ih => exact ih.no
  | loop _ ih => exact ih.loop
  | block _ ih => exact ih.block
  | function _ ih => exact ih.function
  | method _ hd ih => exact ih.method hd
  | clause _ hc ih => exact ih.clause hc
  | part _ hp ih => exact ih.part hp

/-- How code stands in the innermost zone: a row is a part of it, and a statement is one of it or
stands under one of it. -/
def InZone (zs : List (Zone ρ)) : Code ρ → Prop
  | .row body => ∀ z ∈ zs.head?, ∀ s ∈ body, s ∈ z.body
  | .stmt s => ∀ z ∈ zs.head?, s ∈ z.body ∨ ∃ t ∈ z.body, s.Under t
  | .expr _ => True

theorem InZone.under (h : InZone zs (.stmt t)) (hs : Stmt.Under s t) :
    ∀ z ∈ zs.head?, ∃ t ∈ z.body, s.Under t := by
  intro z hz
  rcases h z hz with ht | ⟨u, hu, htu⟩
  · exact ⟨_, ht, hs⟩
  · exact ⟨u, hu, hs.trans htu⟩

theorem Site.in_zone (h : Site programs zs Γ c) : InZone zs c := by
  induction h with
  | program => simp [InZone]
  | next _ ih => exact fun z hz s hs => ih z hz s (List.mem_cons_of_mem _ hs)
  | first _ ih => exact fun z hz => .inl (ih z hz _ List.mem_cons_self)
  | yes _ ih => exact fun z hz => .inr (ih.under .yes z hz)
  | no _ ih => exact fun z hz => .inr (ih.under .no z hz)
  | loop _ ih => exact fun z hz => .inr (ih.under .body z hz)
  | block =>
    intro z hz s hs
    cases hz
    exact hs
  | function =>
    intro z hz s hs
    cases hz
    exact hs
  | method =>
    intro z hz s hs
    cases hz
    exact hs
  | clause => trivial
  | part => trivial

theorem Site.guards (h : Site programs (z :: zs) Γ (.stmt t)) (hs : Stmt.Under s t)
    (hx : x ∈ s.names) : z.Guards x := by
  obtain ⟨u, hu, hsu⟩ := h.in_zone.under hs z rfl
  rcases s.exists_declared x hx with hd | ⟨v, hv, hd⟩
  · exact ⟨u, hu, s, hsu, hd⟩
  · exact ⟨u, hu, v, hv.trans hsu, hd⟩

theorem Stmt.Under.names {s t : Stmt ρ} (h : s.Under t) : s.names ⊆ t.names := by
  induction h with
  | @yes yes c no =>
    cases no with
    | none => exact List.Subset.refl _
    | some no => exact List.subset_append_left _ _
  | no => exact List.subset_append_right _ _
  | body => exact List.Subset.refl _
  | trans _ _ ihs iht => exact List.Subset.trans ihs iht

theorem Site.declares (h : Site programs zs Γ (.stmt s)) (hx : x ∈ s.names) :
    ∀ z ∈ zs.head?, z.scope.contains x = true := by
  intro z hz
  rw [z.contains_scope]
  rcases h.in_zone z hz with hs | ⟨t, ht, hst⟩
  · exact .inr ⟨s, hs, hx⟩
  · exact .inr ⟨t, ht, hst.names hx⟩

/-- A scope holds no more names than its zone declares. -/
def Scope.Within (S : Scope) (z : Zone ρ) : Prop :=
  ∀ x, S.contains x = true → z.scope.contains x = true

theorem Zone.given_within (z : Zone ρ) : Scope.Within (Scope.declare {} z.given) z := by
  intro x hx
  rw [z.contains_scope]
  rcases (Scope.contains_declare _ _ _).1 hx with hx | hx
  · exact .inl hx
  · simp at hx

theorem Context.within_declare {Γ : Context} {zs : List (Zone ρ)}
    (h : List.Forall₂ Scope.Within Γ.scopes zs)
    (hx : ∀ z ∈ zs.head?, ∀ x ∈ names, z.scope.contains x = true) :
    List.Forall₂ Scope.Within (Γ.declare names).scopes zs := by
  generalize hS : Γ.scopes = scopes at h
  cases h with
  | nil => rw [declare_of_nil hS, hS]; exact .nil
  | cons hz hzs =>
    rw [scopes_declare hS]
    refine .cons (fun x hc => ?_) hzs
    rcases (Scope.contains_declare _ _ _).1 hc with hn | hc
    · exact hx _ rfl x hn
    · exact hz x hc

theorem Context.within_mark {Γ : Context} {zs : List (Zone ρ)}
    (h : List.Forall₂ Scope.Within Γ.scopes zs)
    (hx : ∀ z ∈ zs.head?, z.scope.contains x = true) :
    List.Forall₂ Scope.Within (Γ.mark x status).scopes zs := by
  generalize hS : Γ.scopes = scopes at h
  cases h with
  | nil => rw [mark_of_nil hS, hS]; exact .nil
  | cons hz hzs =>
    rw [scopes_mark hS]
    refine .cons (fun y hc => ?_) hzs
    simp only [Bindings.contains_set, Bool.or_eq_true, decide_eq_true_eq] at hc
    rcases hc with rfl | hc
    · exact hx _ rfl
    · exact hz y hc

/-- The scopes at a site belong to the zones around it, one to one. -/
theorem Site.within (h : Site programs zs Γ c) : List.Forall₂ Scope.Within Γ.scopes zs := by
  induction h with
  | program => exact .nil
  | next h ih =>
    rw [Context.after_eq_declare]
    exact Context.within_declare ih fun z hz x hx => h.first.declares hx z hz
  | first _ ih => exact ih
  | yes _ ih => exact ih
  | no h ih =>
    rw [Context.after_eq_declare]
    exact Context.within_declare ih fun z hz x hx => h.yes.declares hx z hz
  | loop _ ih => exact ih
  | @block _ _ body _ ih => exact .cons (Zone.block body).given_within ih
  | @function _ _ decl h ih =>
    rw [Context.scopes_body]
    exact .cons (Zone.function decl).given_within
      (Context.within_mark ih (h.declares List.mem_cons_self))
  | @method _ _ name methods decl h hd ih =>
    rw [Context.scopes_body]
    exact .cons (Zone.function decl).given_within (.cons Zone.receiver.given_within
      (Context.within_mark ih (h.declares List.mem_cons_self)))
  | clause h hc ih =>
    rcases Stmt.clause?_cases hc with rfl | ⟨name, rfl, rfl⟩
    · exact ih
    · exact Context.within_mark ih (h.declares List.mem_cons_self)
  | part _ _ ih => exact ih

theorem Site.within_at {d : Nat} (h : Site programs zs Γ c) (hS : Γ.scopes[d]? = some S)
    (hz : zs[d]? = some z) : Scope.Within S z := by
  obtain ⟨hd, rfl⟩ := List.getElem?_eq_some_iff.1 hS
  obtain ⟨hd', rfl⟩ := List.getElem?_eq_some_iff.1 hz
  exact h.within.get hd hd'

theorem Site.length (h : Site programs zs Γ c) : Γ.scopes.length = zs.length := h.within.length_eq

end Lox
