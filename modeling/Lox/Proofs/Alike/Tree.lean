import Lox.Proofs.Scope.Declarations
import Mathlib.Algebra.Group.End

namespace Lox
set_option autoImplicit true

/-- In what two programs may differ: the places of corresponding words, and how the names of a scope
are renamed. -/
structure Likeness where
  place : Pos → Pos → Prop
  renames : Equiv.Perm String → Prop

/-- The renamings of the scopes around a place, the innermost first. -/
abbrev Renaming := Nat → Equiv.Perm String

namespace Renaming

def none : Renaming := fun _ => 1

def push (θ : Equiv.Perm String) (σ : Renaming) : Renaming
  | 0 => θ
  | d + 1 => σ d

def outer (σ : Renaming) : Renaming := fun d => σ (d + 1)

def along (σ : Renaming) : Binding → Equiv.Perm String
  | .free => 1
  | .bound d => σ d

@[simp] theorem push_none : none.push 1 = none := by
  funext d
  cases d <;> rfl

@[simp] theorem along_none (ref : Binding) : none.along ref = 1 := by
  cases ref <;> rfl

end Renaming

structure Ident.Alike (R : Likeness) (θ : Equiv.Perm String) (i i' : Ident) : Prop where
  name : i'.name = θ i.name
  place : R.place i.pos i'.pos

mutual

inductive Expr.Alike (R : Likeness) (σ : Renaming) : Expr Binding → Expr Binding → Prop where
  | literal : Expr.Alike R σ (.literal value) (.literal value)
  | grouping : Expr.Alike R σ e e' → Expr.Alike R σ (.grouping e) (.grouping e')
  | unary : R.place p p' → Expr.Alike R σ e e' → Expr.Alike R σ (.unary op p e) (.unary op p' e')
  | binary : R.place p p' → Expr.Alike R σ l l' → Expr.Alike R σ r r' →
      Expr.Alike R σ (.binary l op p r) (.binary l' op p' r')
  | logical : Expr.Alike R σ l l' → Expr.Alike R σ r r' →
      Expr.Alike R σ (.logical l op r) (.logical l' op r')
  | read : Ident.Alike R (σ.along ref) n n' → Expr.Alike R σ (.read n ref) (.read n' ref)
  | assign : Ident.Alike R (σ.along ref) n n' → Expr.Alike R σ e e' →
      Expr.Alike R σ (.assign n ref e) (.assign n' ref e')
  | call : R.place p p' → Expr.Alike R σ c c' → Expr.AlikeAll R σ args args' →
      Expr.Alike R σ (.call c args p) (.call c' args' p')
  | get : Ident.Alike R 1 n n' → Expr.Alike R σ e e' → Expr.Alike R σ (.get e n) (.get e' n')
  | set : Ident.Alike R 1 n n' → Expr.Alike R σ e e' → Expr.Alike R σ v v' →
      Expr.Alike R σ (.set e n v) (.set e' n' v')
  | receiver : R.place p p' → σ.along ref receiverName = receiverName →
      Expr.Alike R σ (.receiver p ref) (.receiver p' ref)

inductive Expr.AlikeAll (R : Likeness) (σ : Renaming) :
    List (Expr Binding) → List (Expr Binding) → Prop where
  | nil : Expr.AlikeAll R σ [] []
  | cons : Expr.Alike R σ e e' → Expr.AlikeAll R σ es es' → Expr.AlikeAll R σ (e :: es) (e' :: es')

end

mutual

/-- The names of functions and classes stay, since they are seen in what a program writes. -/
inductive Stmt.Alike (R : Likeness) : Renaming → Stmt Binding → Stmt Binding → Prop where
  | expression : Expr.Alike R σ e e' → Stmt.Alike R σ (.expression e) (.expression e')
  | print : Expr.Alike R σ e e' → Stmt.Alike R σ (.print e) (.print e')
  | varDecl : Ident.Alike R (σ 0) n n' → Stmt.Alike R σ (.varDecl n none) (.varDecl n' none)
  | varInit : Ident.Alike R (σ 0) n n' → Expr.Alike R σ e e' →
      Stmt.Alike R σ (.varDecl n (some e)) (.varDecl n' (some e'))
  | block : R.renames θ → Stmt.AlikeAll R (σ.push θ) body body' →
      Stmt.Alike R σ (.block body) (.block body')
  | branch : Expr.Alike R σ c c' → Stmt.Alike R σ yes yes' →
      Stmt.Alike R σ (.branch c yes none) (.branch c' yes' none)
  | branchElse : Expr.Alike R σ c c' → Stmt.Alike R σ yes yes' → Stmt.Alike R σ no no' →
      Stmt.Alike R σ (.branch c yes (some no)) (.branch c' yes' (some no'))
  | loop : Expr.Alike R σ c c' → Stmt.Alike R σ body body' →
      Stmt.Alike R σ (.loop c body) (.loop c' body')
  | funDecl : σ 0 decl.name.name = decl.name.name → FunDecl.Alike R σ decl decl' →
      Stmt.Alike R σ (.funDecl decl) (.funDecl decl')
  | ret : R.place p p' → Stmt.Alike R σ (.ret p none) (.ret p' none)
  | retValue : R.place p p' → Expr.Alike R σ e e' →
      Stmt.Alike R σ (.ret p (some e)) (.ret p' (some e'))
  | classDecl : σ 0 n.name = n.name → Ident.Alike R 1 n n' →
      FunDecl.AlikeAll R (σ.push 1) methods methods' →
      Stmt.Alike R σ (.classDecl n methods) (.classDecl n' methods')

inductive Stmt.AlikeAll (R : Likeness) : Renaming → List (Stmt Binding) → List (Stmt Binding) → Prop
    where
  | nil : Stmt.AlikeAll R σ [] []
  | cons : Stmt.Alike R σ s s' → Stmt.AlikeAll R σ ss ss' → Stmt.AlikeAll R σ (s :: ss) (s' :: ss')

inductive FunDecl.Alike (R : Likeness) : Renaming → FunDecl Binding → FunDecl Binding → Prop where
  | mk : Ident.Alike R 1 n n' → R.renames θ → List.Forall₂ (Ident.Alike R θ) params params' →
      Stmt.AlikeAll R (σ.push θ) body body' →
      FunDecl.Alike R σ ⟨n, params, body⟩ ⟨n', params', body'⟩

inductive FunDecl.AlikeAll (R : Likeness) :
    Renaming → List (FunDecl Binding) → List (FunDecl Binding) → Prop where
  | none : FunDecl.AlikeAll R σ [] []
  | more : FunDecl.Alike R σ f f' → FunDecl.AlikeAll R σ fs fs' →
      FunDecl.AlikeAll R σ (f :: fs) (f' :: fs')

end

theorem Stmt.Under.alike {s t t' : Stmt Binding} (h : s.Under t) (ht : Stmt.Alike R σ t t') :
    ∃ s', Stmt.Alike R σ s s' := by
  induction h generalizing t' with
  | yes =>
    cases ht with
    | branch _ hyes => exact ⟨_, hyes⟩
    | branchElse _ hyes _ => exact ⟨_, hyes⟩
  | no =>
    cases ht with
    | branchElse _ _ hno => exact ⟨_, hno⟩
  | body =>
    cases ht with
    | loop _ hbody => exact ⟨_, hbody⟩
  | trans _ _ ihs iht =>
    obtain ⟨u, hu⟩ := iht ht
    exact ihs hu

theorem Stmt.AlikeAll.of_mem (h : Stmt.AlikeAll R σ body body') (hs : s ∈ body) :
    ∃ s', Stmt.Alike R σ s s' := by
  induction body generalizing body' with
  | nil => cases hs
  | cons t rest ih =>
    cases h with
    | cons ht hrest =>
      rcases List.mem_cons.1 hs with rfl | hs
      · exact ⟨_, ht⟩
      · exact ih hrest hs

theorem FunDecl.AlikeAll.forall₂ (h : FunDecl.AlikeAll R σ fs fs') :
    List.Forall₂ (FunDecl.Alike R σ) fs fs' := by
  induction fs generalizing fs' with
  | nil =>
    cases h
    exact .nil
  | cons f rest ih =>
    cases h with
    | more hf hrest => exact .cons hf (ih hrest)

theorem FunDecl.Alike.name_eq {f f' : FunDecl Binding} (h : FunDecl.Alike R σ f f') :
    f'.name.name = f.name.name := by
  cases h with
  | mk hname => exact hname.name

/-- A renaming of a zone leaves the functions alone whose declaration may be left out. -/
def Zone.Fixes (z : Zone Binding) (θ : Equiv.Perm String) : Prop :=
  ∀ x, z.GuardsFunction x → θ x = x

theorem Zone.fixes_of_alike {z : Zone Binding} (h : Stmt.AlikeAll R σ z.body body') :
    z.Fixes (σ 0) := by
  intro x ⟨s, hs, decl, hunder, hx⟩
  obtain ⟨s', hs'⟩ := h.of_mem hs
  obtain ⟨t, ht⟩ := hunder.alike hs'
  cases ht with
  | funDecl hfix _ => rwa [hx] at hfix

end Lox
