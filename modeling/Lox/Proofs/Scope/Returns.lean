import Lox.Proofs.Scope.Resolved

namespace Lox
set_option autoImplicit true

/-- The returns of a statement, but for those of functions and classes declared in it, are allowed
in a function of the kind `F`: an initializer returns no value, and outside of functions there is no
return. -/
inductive Stmt.ReturnsIn (F : Enclosing) : Stmt ρ → Prop where
  | expression : ReturnsIn F (.expression e)
  | print : ReturnsIn F (.print e)
  | varDecl : ReturnsIn F (.varDecl name init)
  | block : (∀ s ∈ body, ReturnsIn F s) → ReturnsIn F (.block body)
  | branch : ReturnsIn F yes → (∀ s ∈ no, ReturnsIn F s) → ReturnsIn F (.branch c yes no)
  | loop : ReturnsIn F body → ReturnsIn F (.loop c body)
  | funDecl : ReturnsIn F (.funDecl decl)
  | ret : F ≠ .none → (F = .initializer → value = none) → ReturnsIn F (.ret pos value)
  | classDecl : ReturnsIn F (.classDecl name methods)

namespace Context

@[simp] theorem function_mark (Γ : Context) (x : String) (status : Status) :
    (Γ.mark x status).function = Γ.function := by
  rw [mark]
  split <;> rfl

@[simp] theorem function_declare (Γ : Context) (names : List String) :
    (Γ.declare names).function = Γ.function := by
  induction names generalizing Γ with
  | nil => rfl
  | cons x names ih => exact (ih _).trans (Γ.function_mark x .ready)

@[simp] theorem function_after (Γ : Context) (s : Stmt ρ) : (Γ.after s).function = Γ.function := by
  rw [after_eq_declare, function_declare]

@[simp] theorem function_body (Γ : Context) (kind : Enclosing) (params : List Ident) :
    (Γ.body kind params).function = kind := by
  rw [body, params_eq_declare, function_declare]
  rfl

theorem allowed_of_returnMisuses {Γ : Context} (h : Γ.returnMisuses pos hasValue = []) :
    Γ.function ≠ .none ∧ (Γ.function = .initializer → hasValue = false) := by
  unfold returnMisuses at h
  split at h
  · cases h
  · rename_i hkind
    rw [hkind]
    cases hasValue with
    | true => cases h
    | false => exact ⟨nofun, fun _ => rfl⟩
  · rename_i hnone hinit
    exact ⟨hnone, fun hkind => absurd hkind hinit⟩

end Context

theorem Stmt.returnsIn_all {body : List (Stmt ρ)}
    (h : ∀ s ∈ body, ∀ Γ, Stmt.misuses Γ s = [] → s.ReturnsIn Γ.function)
    (hbody : Stmt.misusesAll Γ body = []) : ∀ s ∈ body, s.ReturnsIn Γ.function := by
  induction body generalizing Γ with
  | nil => exact List.forall_mem_nil _
  | cons s rest ih =>
    obtain ⟨hs, hrest⟩ := List.forall_mem_cons.1 h
    obtain ⟨hfirst, hnext⟩ := List.append_eq_nil_iff.1 hbody
    have hrest := ih hrest hnext
    rw [Context.function_after] at hrest
    exact List.forall_mem_cons.2 ⟨hs Γ hfirst, hrest⟩

/-- Without a misuse every return is allowed where it stands. -/
theorem Stmt.returnsIn_of_misuses (s : Stmt ρ) (Γ : Context) (h : s.misuses Γ = []) :
    s.ReturnsIn Γ.function := by
  induction s using Stmt.induction generalizing Γ with
  | expression => exact .expression
  | print => exact .print
  | varDecl => exact .varDecl
  | block body ih => exact .block (Stmt.returnsIn_all (Γ := Γ.enter) ih h)
  | branch c yes no ihy ihn =>
    cases no with
    | none => exact .branch (ihy Γ (List.append_eq_nil_iff.1 h).2) (fun s hs => by cases hs)
    | some no =>
      obtain ⟨hfirst, hno⟩ := List.append_eq_nil_iff.1 h
      have hno := ihn no rfl _ hno
      rw [Context.function_after] at hno
      refine .branch (ihy Γ (List.append_eq_nil_iff.1 hfirst).2) fun s hs => ?_
      cases hs
      exact hno
  | loop c body ih => exact .loop (ih Γ (List.append_eq_nil_iff.1 h).2)
  | funDecl => exact .funDecl
  | ret pos value =>
    cases value with
    | none =>
      obtain ⟨hsome, _⟩ := Context.allowed_of_returnMisuses h
      exact .ret hsome fun _ => rfl
    | some e =>
      obtain ⟨hsome, hinit⟩ := Context.allowed_of_returnMisuses (List.append_eq_nil_iff.1 h).1
      exact .ret hsome fun hkind => by cases hinit hkind
  | classDecl => exact .classDecl

theorem Site.returnsIn (hP : ∀ P ∈ programs, Program.Accepted P)
    (h : Site programs zs Γ (.row body)) : ∀ s ∈ body, s.ReturnsIn Γ.function :=
  Stmt.returnsIn_all (fun s _ Γ => s.returnsIn_of_misuses Γ) (h.proper hP).proper

end Lox
