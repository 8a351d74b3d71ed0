import Lox.Tree

namespace Lox
set_option autoImplicit true

/-- Induction on a statement, with what is nested in it in lists given by membership. -/
@[elab_as_elim]
theorem Stmt.induction {motive : Stmt ρ → Prop}
    (expression : ∀ e, motive (.expression e))
    (print : ∀ e, motive (.print e))
    (varDecl : ∀ name init, motive (.varDecl name init))
    (block : ∀ body, (∀ s ∈ body, motive s) → motive (.block body))
    (branch : ∀ c yes no, motive yes → (∀ s ∈ no, motive s) → motive (.branch c yes no))
    (loop : ∀ c body, motive body → motive (.loop c body))
    (funDecl : ∀ decl, (∀ s ∈ decl.body, motive s) → motive (.funDecl decl))
    (ret : ∀ pos value, motive (.ret pos value))
    (classDecl : ∀ name methods, (∀ f ∈ methods, ∀ s ∈ f.body, motive s) →
      motive (.classDecl name methods))
    (s : Stmt ρ) : motive s :=
  Stmt.rec (motive_1 := motive) (motive_2 := fun f => ∀ s ∈ f.body, motive s)
    (motive_3 := fun body => ∀ s ∈ body, motive s) (motive_4 := fun no => ∀ s ∈ no, motive s)
    (motive_5 := fun methods => ∀ f ∈ methods, ∀ s ∈ f.body, motive s)
    expression print varDecl block branch loop funDecl ret classDecl
    (fun _ _ _ ih => ih)
    (fun _ h => nomatch h) (fun _ _ ih ihs => List.forall_mem_cons.2 ⟨ih, ihs⟩)
    (fun _ h => nomatch h) (fun _ ih _ h => Option.some.inj h ▸ ih)
    (fun _ h => nomatch h) (fun _ _ ih ihs => List.forall_mem_cons.2 ⟨ih, ihs⟩) s

end Lox
