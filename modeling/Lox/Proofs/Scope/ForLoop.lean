import Lox.Proofs.Grammar.Completeness
import Lox.Proofs.Scope.Mentions
import Lox.Proofs.Scope.Walk

namespace Lox
set_option autoImplicit true

/-- A reference from one scope further inside. -/
def Binding.farther : Binding → Binding
  | .free => .free
  | .bound distance => .bound (distance + 1)

def Mention.farther (m : Mention Binding) : Mention Binding := { m with note := m.note.farther }

namespace Context

variable (Γ : Context) {x : String}

theorem binding_enter : Γ.enter.binding x = (Γ.binding x).farther := by
  rw [binding, binding, enter, List.findIdx?_cons, Bindings.contains_nil]
  cases Γ.scopes.findIdx? (·.contains x) <;> rfl

theorem binding_mark_self (h : Γ.scopes = S :: Ss) (status : Status) :
    (Γ.mark x status).binding x = .bound 0 := by
  rw [binding, scopes_mark h, List.findIdx?_cons, Bindings.contains_set, decide_eq_true rfl]
  rfl

theorem binding_mark_of_ne (h : y ≠ x) (status : Status) :
    (Γ.mark y status).binding x = Γ.binding x := by
  cases hscopes : Γ.scopes with
  | nil => rw [mark_of_nil hscopes]
  | cons S Ss =>
    rw [binding, binding, scopes_mark hscopes, hscopes, List.findIdx?_cons, List.findIdx?_cons,
      Bindings.contains_set, decide_eq_false h, Bool.false_or]

theorem binding_declare (h : x ∉ names) : (Γ.declare names).binding x = Γ.binding x := by
  induction names generalizing Γ with
  | nil => rfl
  | cons y names ih =>
    obtain ⟨hy, hx⟩ := not_or.1 (mt List.mem_cons.2 h)
    exact (ih (Γ.mark y .ready) hx).trans (Γ.binding_mark_of_ne (Ne.symm hy) _)

end Context

theorem Mention.filter_farther {y : String} {note note' : Binding}
    (h : y = x → note' = note.farther) (kind : ReferenceKind) (pos : Pos) :
    [Mention.mk kind y pos note'].filter (·.name = x) =
      ([Mention.mk kind y pos note].filter (·.name = x)).map Mention.farther := by
  by_cases hx : y = x
  · simp [hx, h hx, farther]
  · simp [hx]

theorem Expr.mentions_farther {Γ Γ' : Context} (hx : Γ'.binding x = (Γ.binding x).farther)
    (hin : Γ'.inClass = Γ.inClass) (e : Expr ρ) :
    (e.resolve Γ').mentions.filter (·.name = x) =
      ((e.resolve Γ).mentions.filter (·.name = x)).map Mention.farther := by
  induction e using Expr.rec (motive_2 := fun args =>
    (Expr.mentionsAll (Expr.resolveAll Γ' args)).filter (·.name = x) =
      ((Expr.mentionsAll (Expr.resolveAll Γ args)).filter (·.name = x)).map Mention.farther) with
  | literal => rfl
  | grouping inner ih => exact ih
  | unary op pos operand ih => exact ih
  | binary left op pos right ihl ihr =>
    simp only [resolve, mentions, List.filter_append, List.map_append, ihl, ihr]
  | logical left op right ihl ihr =>
    simp only [resolve, mentions, List.filter_append, List.map_append, ihl, ihr]
  | read name ref =>
    apply Mention.filter_farther
    rintro rfl
    exact hx
  | assign name ref value ih =>
    rw [resolve, resolve, mentions, mentions, List.filter_append, List.filter_append,
      List.map_append, ih]
    congr 1
    apply Mention.filter_farther
    rintro rfl
    exact hx
  | call callee args paren ihc iha =>
    simp only [resolve, mentions, List.filter_append, List.map_append, ihc, iha]
  | get object name ih => exact ih
  | set object name value iho ihv =>
    simp only [resolve, mentions, List.filter_append, List.map_append, iho, ihv]
  | receiver pos ref =>
    apply Mention.filter_farther
    rintro rfl
    rw [hin]
    split
    · exact hx
    · rfl
  | nil => rfl
  | cons e args ihe iha =>
    simp only [resolveAll, mentionsAll, List.filter_append, List.map_append, ihe, iha]

/-- A for loop. The initializer and the increment may be missing. -/
structure ForLoop (ρ : Type) where
  start : Option (Stmt ρ)
  condition : Expr ρ
  increment : Option (Expr ρ)
  body : Stmt ρ

namespace ForLoop

variable {ρ : Type} (L : ForLoop ρ) (Γ : Context) {x : String}

def round : Stmt ρ := L.increment.elim L.body fun e => .block [L.body, .expression e]

def loop : Stmt ρ := .loop L.condition L.round

def toStmt : Stmt ρ := L.start.elim L.loop fun s => .block [s, L.loop]

def around : Context := L.start.elim Γ fun s => Γ.enter.after s

def aroundBody : Context := L.increment.elim (L.around Γ) fun _ => (L.around Γ).enter

def aroundIncrement : Context := (L.aroundBody Γ).after L.body

def resolve : ForLoop Binding where
  start := L.start.map (·.resolve Γ.enter)
  condition := L.condition.resolve (L.around Γ)
  increment := L.increment.map (·.resolve (L.aroundIncrement Γ))
  body := L.body.resolve (L.aroundBody Γ)

theorem resolve_toStmt : L.toStmt.resolve Γ = (L.resolve Γ).toStmt := by
  obtain ⟨start, condition, increment, body⟩ := L
  cases start <;> cases increment <;> rfl

/-- From the increment all that the body does not declare is one scope farther away than from the
condition. -/
theorem binding_aroundIncrement (he : L.increment = some e) (hx : x ∉ L.body.names) :
    (L.aroundIncrement Γ).binding x = ((L.around Γ).binding x).farther := by
  rw [aroundIncrement, aroundBody, he, Context.after_eq_declare, Context.binding_declare _ hx]
  exact Context.binding_enter _

theorem inClass_aroundIncrement : (L.aroundIncrement Γ).inClass = (L.around Γ).inClass := by
  rw [aroundIncrement, Context.after_eq_declare, Context.declare_eq, aroundBody]
  cases L.increment <;> rfl

theorem binding_around (h : L.start = some (.varDecl name init)) :
    (L.around Γ).binding name.name = .bound 0 := by
  rw [around, h]
  exact Context.binding_mark_self Γ.enter rfl _

theorem after_toStmt (h : L.start = some s) : Γ.after L.toStmt = Γ := by
  rw [toStmt, h]
  rfl

end ForLoop

namespace Grammar

/-- The tokens behind the word `for` begin with the clauses of a for loop. A condition that is
missing is always true. -/
inductive IsForLoop (nearest dangling : Bool) :
    List Token → ForLoop Unresolved → List Token → Prop where
  | intro : IsForStart ts start us → IsOptional us condition (⟨.symbol .semicolon, r⟩ :: vs) →
      IsOptional vs increment (⟨.symbol .rightParen, q⟩ :: xs) →
      IsStmt nearest dangling xs body rest →
      IsForLoop nearest dangling (⟨.symbol .leftParen, p⟩ :: ts)
        ⟨start, condition.getD (.literal (.bool true)), increment, body⟩ rest

theorem IsStmt.exists_forLoop
    (h : IsStmt nearest dangling (⟨.keyword .forWord, o⟩ :: ts) s rest) :
    ∃ L, IsForLoop nearest dangling ts L rest ∧ s = L.toStmt := by
  cases h with
  | expression h =>
    cases h with
    | intro h =>
      have hfirst : startsExpr (.keyword .forWord) = false := rfl
      exact absurd rfl (h.not_first hfirst _ rfl)
  | forLoop hstart hcondition hincrement hbody =>
    exact ⟨_, .intro hstart hcondition hincrement hbody, rfl⟩

end Grammar

end Lox
