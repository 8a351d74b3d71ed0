import Lox.Proofs.Scope.Site

namespace Lox
set_option autoImplicit true

theorem Expr.resolve_resolve (Γ Δ : Context) (e : Expr ρ) :
    (e.resolve Δ).resolve Γ = e.resolve Γ := by
  induction e using Expr.rec (motive_2 := fun args =>
    Expr.resolveAll Γ (Expr.resolveAll Δ args) = Expr.resolveAll Γ args) with
  | literal => rfl
  | grouping inner ih => simp only [Expr.resolve, ih]
  | unary op pos operand ih => simp only [Expr.resolve, ih]
  | binary left op pos right ihl ihr => simp only [Expr.resolve, ihl, ihr]
  | logical left op right ihl ihr => simp only [Expr.resolve, ihl, ihr]
  | read => rfl
  | assign name ref value ih => simp only [Expr.resolve, ih]
  | call callee args paren ihc iha => simp only [Expr.resolve, ihc, iha]
  | get object name ih => simp only [Expr.resolve, ih]
  | set object name value iho ihv => simp only [Expr.resolve, iho, ihv]
  | receiver => rfl
  | nil => rfl
  | cons e args ihe iha => simp only [Expr.resolveAll, ihe, iha]

theorem Expr.misuses_resolve (Γ Δ : Context) (e : Expr ρ) :
    (e.resolve Δ).misuses Γ = e.misuses Γ := by
  induction e using Expr.rec (motive_2 := fun args =>
    Expr.misusesAll Γ (Expr.resolveAll Δ args) = Expr.misusesAll Γ args) with
  | literal => rfl
  | grouping inner ih => simp only [Expr.resolve, Expr.misuses, ih]
  | unary op pos operand ih => simp only [Expr.resolve, Expr.misuses, ih]
  | binary left op pos right ihl ihr => simp only [Expr.resolve, Expr.misuses, ihl, ihr]
  | logical left op right ihl ihr => simp only [Expr.resolve, Expr.misuses, ihl, ihr]
  | read => rfl
  | assign name ref value ih => simp only [Expr.resolve, Expr.misuses, ih]
  | call callee args paren ihc iha => simp only [Expr.resolve, Expr.misuses, ihc, iha]
  | get object name ih => simp only [Expr.resolve, Expr.misuses, ih]
  | set object name value iho ihv => simp only [Expr.resolve, Expr.misuses, iho, ihv]
  | receiver => rfl
  | nil => rfl
  | cons e args ihe iha => simp only [Expr.resolveAll, Expr.misusesAll, ihe, iha]

theorem Stmt.names_resolve (Δ : Context) (s : Stmt ρ) : (s.resolve Δ).names = s.names := by
  fun_induction Stmt.names s generalizing Δ with
  | case1 => rfl
  | case2 decl => cases decl; rfl
  | case3 => rfl
  | case4 c yes ih => simp only [Stmt.resolve, Stmt.names, ih]
  | case5 c yes no ihy ihn => simp only [Stmt.resolve, Stmt.names, ihy, ihn]
  | case6 c body ih => simp only [Stmt.resolve, Stmt.names, ih]
  | case7 => rfl
  | case8 => rfl
  | case9 => rfl
  | case10 => rfl

@[simp] theorem Context.after_resolve (Γ Δ : Context) (s : Stmt ρ) :
    Γ.after (s.resolve Δ) = Γ.after s := by
  rw [after_eq_declare, after_eq_declare, s.names_resolve]

@[simp] theorem FunDecl.name_resolve (Δ : Context) (kind : Enclosing) (f : FunDecl ρ) :
    (f.resolve Δ kind).name = f.name := by
  cases f; rfl

theorem Stmt.resolveAll_resolveAll {body : List (Stmt ρ)}
    (h : ∀ s ∈ body, ∀ Γ Δ, (Stmt.resolve Δ s).resolve Γ = s.resolve Γ) (Γ Δ : Context) :
    Stmt.resolveAll Γ (Stmt.resolveAll Δ body) = Stmt.resolveAll Γ body := by
  induction body generalizing Γ Δ with
  | nil => rfl
  | cons s rest ih =>
    obtain ⟨hs, hrest⟩ := List.forall_mem_cons.1 h
    simp only [Stmt.resolveAll, hs, ih hrest, Context.after_resolve]

theorem FunDecl.resolve_resolve {f : FunDecl ρ}
    (h : ∀ s ∈ f.body, ∀ Γ Δ, (Stmt.resolve Δ s).resolve Γ = s.resolve Γ) (Γ Δ : Context)
    (kind kind' : Enclosing) : (f.resolve Δ kind').resolve Γ kind = f.resolve Γ kind := by
  cases f
  simp only [FunDecl.resolve, Stmt.resolveAll_resolveAll h]

theorem Stmt.resolve_resolve (Γ Δ : Context) (s : Stmt ρ) :
    (s.resolve Δ).resolve Γ = s.resolve Γ := by
  induction s using Stmt.induction generalizing Γ Δ with
  | expression e => simp only [Stmt.resolve, e.resolve_resolve]
  | print e => simp only [Stmt.resolve, e.resolve_resolve]
  | varDecl name init => cases init <;> simp [Stmt.resolve, Expr.resolve_resolve]
  | block body ih => simp only [Stmt.resolve, Stmt.resolveAll_resolveAll ih]
  | branch c yes no ihy ihn =>
    cases no with
    | none => simp only [Stmt.resolve, c.resolve_resolve, ihy]
    | some no => simp only [Stmt.resolve, c.resolve_resolve, ihy, ihn no rfl, Context.after_resolve]
  | loop c body ih => simp only [Stmt.resolve, c.resolve_resolve, ih]
  | funDecl decl ih => simp only [Stmt.resolve, FunDecl.name_resolve, FunDecl.resolve_resolve ih]
  | ret pos value => cases value <;> simp [Stmt.resolve, Expr.resolve_resolve]
  | classDecl name methods ih =>
    simp only [Stmt.resolve]
    congr 1
    induction methods with
    | nil => rfl
    | cons f rest ihr =>
      obtain ⟨hf, hrest⟩ := List.forall_mem_cons.1 ih
      simp only [FunDecl.resolveAll, FunDecl.name_resolve, FunDecl.resolve_resolve hf, ihr hrest]

theorem Stmt.misusesAll_resolveAll {body : List (Stmt ρ)}
    (h : ∀ s ∈ body, ∀ Γ Δ, (Stmt.resolve Δ s).misuses Γ = s.misuses Γ) (Γ Δ : Context) :
    Stmt.misusesAll Γ (Stmt.resolveAll Δ body) = Stmt.misusesAll Γ body := by
  induction body generalizing Γ Δ with
  | nil => rfl
  | cons s rest ih =>
    obtain ⟨hs, hrest⟩ := List.forall_mem_cons.1 h
    simp only [Stmt.resolveAll, Stmt.misusesAll, hs, ih hrest, Context.after_resolve]

theorem FunDecl.misuses_resolve {f : FunDecl ρ}
    (h : ∀ s ∈ f.body, ∀ Γ Δ, (Stmt.resolve Δ s).misuses Γ = s.misuses Γ) (Γ Δ : Context)
    (kind kind' : Enclosing) : (f.resolve Δ kind').misuses Γ kind = f.misuses Γ kind := by
  cases f
  simp only [FunDecl.resolve, FunDecl.misuses, Stmt.misusesAll_resolveAll h]

theorem Stmt.misuses_resolve (Γ Δ : Context) (s : Stmt ρ) :
    (s.resolve Δ).misuses Γ = s.misuses Γ := by
  induction s using Stmt.induction generalizing Γ Δ with
  | expression e => simp only [Stmt.resolve, Stmt.misuses, e.misuses_resolve]
  | print e => simp only [Stmt.resolve, Stmt.misuses, e.misuses_resolve]
  | varDecl name init => cases init <;> simp [Stmt.resolve, Stmt.misuses, Expr.misuses_resolve]
  | block body ih => simp only [Stmt.resolve, Stmt.misuses, Stmt.misusesAll_resolveAll ih]
  | branch c yes no ihy ihn =>
    cases no with
    | none => simp only [Stmt.resolve, Stmt.misuses, c.misuses_resolve, ihy]
    | some no =>
      simp only [Stmt.resolve, Stmt.misuses, c.misuses_resolve, ihy, ihn no rfl,
        Context.after_resolve]
  | loop c body ih => simp only [Stmt.resolve, Stmt.misuses, c.misuses_resolve, ih]
  | funDecl decl ih =>
    simp only [Stmt.resolve, Stmt.misuses, FunDecl.name_resolve, FunDecl.misuses_resolve ih]
  | ret pos value => cases value <;> simp [Stmt.resolve, Stmt.misuses, Expr.misuses_resolve]
  | classDecl name methods ih =>
    simp only [Stmt.resolve, Stmt.misuses]
    congr 1
    induction methods with
    | nil => rfl
    | cons f rest ihr =>
      obtain ⟨hf, hrest⟩ := List.forall_mem_cons.1 ih
      simp only [FunDecl.resolveAll, FunDecl.misusesAll, FunDecl.name_resolve,
        FunDecl.misuses_resolve hf, ihr hrest]

structure Program.Accepted (P : Program Binding) : Prop where
  resolved : P.resolve = P
  proper : P.misuses = []

theorem Program.accepted_resolve {P : Program ρ} (h : P.misuses = []) : P.resolve.Accepted where
  resolved := Stmt.resolveAll_resolveAll (fun s _ Γ Δ => s.resolve_resolve Γ Δ) _ _
  proper := (Stmt.misusesAll_resolveAll (fun s _ Γ Δ => s.misuses_resolve Γ Δ) _ _).trans h

theorem Stmt.resolveAll_append (Γ : Context) (ss ts : List (Stmt ρ)) :
    Stmt.resolveAll Γ (ss ++ ts) =
      Stmt.resolveAll Γ ss ++ Stmt.resolveAll (Γ.afterAll ss) ts := by
  induction ss generalizing Γ with
  | nil => rfl
  | cons s rest ih =>
    rw [List.cons_append, Stmt.resolveAll, Stmt.resolveAll, ih]
    rfl

theorem Stmt.misusesAll_append (Γ : Context) (ss ts : List (Stmt ρ)) :
    Stmt.misusesAll Γ (ss ++ ts) =
      Stmt.misusesAll Γ ss ++ Stmt.misusesAll (Γ.afterAll ss) ts := by
  induction ss generalizing Γ with
  | nil => rfl
  | cons s rest ih =>
    rw [List.cons_append, Stmt.misusesAll, Stmt.misusesAll, ih, List.append_assoc]
    rfl

def Code.resolve (Γ : Context) : Code ρ → Code Binding
  | .row body => .row (Stmt.resolveAll Γ body)
  | .stmt s => .stmt (s.resolve Γ)
  | .expr e => .expr (e.resolve Γ)

def Code.misuses (Γ : Context) : Code ρ → List Misuse
  | .row body => Stmt.misusesAll Γ body
  | .stmt s => s.misuses Γ
  | .expr e => e.misuses Γ

/-- Code that is resolved in its context and misuses nothing there. -/
structure Code.Proper (Γ : Context) (c : Code Binding) : Prop where
  resolved : c.resolve Γ = c
  proper : c.misuses Γ = []

theorem Expr.proper_of_mem {args : List (Expr Binding)} (hr : Expr.resolveAll Γ args = args)
    (hm : Expr.misusesAll Γ args = []) (he : e ∈ args) : Code.Proper Γ (.expr e) := by
  induction args with
  | nil => cases he
  | cons a rest ih =>
    simp only [Expr.resolveAll, List.cons.injEq] at hr
    simp only [Expr.misusesAll, List.append_eq_nil_iff] at hm
    rcases List.mem_cons.1 he with rfl | he
    · exact ⟨congrArg _ hr.1, hm.1⟩
    · exact ih hr.2 hm.2 he

theorem Code.Proper.part (h : Code.Proper Γ (.expr e)) (hp : e' ∈ e.parts) :
    Code.Proper Γ (.expr e') := by
  obtain ⟨hr, hm⟩ := h
  simp only [Code.resolve, Code.expr.injEq] at hr
  simp only [Code.misuses] at hm
  cases e with
  | literal => cases hp
  | read => cases hp
  | receiver => cases hp
  | grouping inner =>
    cases List.mem_singleton.1 hp
    exact ⟨congrArg _ (Expr.grouping.inj hr), hm⟩
  | unary op pos operand =>
    cases List.mem_singleton.1 hp
    exact ⟨congrArg _ (Expr.unary.inj hr).2.2, hm⟩
  | assign name ref value =>
    cases List.mem_singleton.1 hp
    exact ⟨congrArg _ (Expr.assign.inj hr).2.2, hm⟩
  | get object name =>
    cases List.mem_singleton.1 hp
    exact ⟨congrArg _ (Expr.get.inj hr).1, hm⟩
  | binary left op pos right =>
    obtain ⟨hl, _, _, hr⟩ := Expr.binary.inj hr
    obtain ⟨hml, hmr⟩ := List.append_eq_nil_iff.1 hm
    rcases List.mem_pair.1 hp with rfl | rfl
    · exact ⟨congrArg _ hl, hml⟩
    · exact ⟨congrArg _ hr, hmr⟩
  | logical left op right =>
    obtain ⟨hl, _, hr⟩ := Expr.logical.inj hr
    obtain ⟨hml, hmr⟩ := List.append_eq_nil_iff.1 hm
    rcases List.mem_pair.1 hp with rfl | rfl
    · exact ⟨congrArg _ hl, hml⟩
    · exact ⟨congrArg _ hr, hmr⟩
  | call callee args paren =>
    obtain ⟨hc, ha, _⟩ := Expr.call.inj hr
    obtain ⟨hmc, hma⟩ := List.append_eq_nil_iff.1 hm
    rcases List.mem_cons.1 hp with rfl | hp
    · exact ⟨congrArg _ hc, hmc⟩
    · exact Expr.proper_of_mem ha hma hp
  | set object name value =>
    obtain ⟨ho, _, hv⟩ := Expr.set.inj hr
    obtain ⟨hmv, hmo⟩ := List.append_eq_nil_iff.1 hm
    rcases List.mem_pair.1 hp with rfl | rfl
    · exact ⟨congrArg _ ho, hmo⟩
    · exact ⟨congrArg _ hv, hmv⟩

theorem Code.Proper.clause (h : Code.Proper Γ (.stmt s)) (hc : s.clause? Γ = some (Δ, e)) :
    Code.Proper Δ (.expr e) := by
  obtain ⟨hr, hm⟩ := h
  simp only [Code.resolve, Code.stmt.injEq] at hr
  simp only [Code.misuses] at hm
  cases s with
  | expression => cases hc; exact ⟨congrArg _ (Stmt.expression.inj hr), hm⟩
  | print => cases hc; exact ⟨congrArg _ (Stmt.print.inj hr), hm⟩
  | varDecl name init =>
    cases init with
    | none => cases hc
    | some init =>
      cases hc
      exact ⟨congrArg _ (Option.some.inj (Stmt.varDecl.inj hr).2), (List.append_eq_nil_iff.1 hm).2⟩
  | block => cases hc
  | branch c yes no =>
    cases hc
    cases no with
    | none => exact ⟨congrArg _ (Stmt.branch.inj hr).1, (List.append_eq_nil_iff.1 hm).1⟩
    | some no =>
      exact ⟨congrArg _ (Stmt.branch.inj hr).1,
        (List.append_eq_nil_iff.1 (List.append_eq_nil_iff.1 hm).1).1⟩
  | loop c body =>
    cases hc
    exact ⟨congrArg _ (Stmt.loop.inj hr).1, (List.append_eq_nil_iff.1 hm).1⟩
  | funDecl => cases hc
  | ret pos value =>
    cases value with
    | none => cases hc
    | some value =>
      cases hc
      exact ⟨congrArg _ (Option.some.inj (Stmt.ret.inj hr).2), (List.append_eq_nil_iff.1 hm).2⟩
  | classDecl => cases hc

theorem FunDecl.proper_body {f : FunDecl Binding} (hr : f.resolve Γ kind = f)
    (hm : f.misuses Γ kind = []) : Code.Proper (Γ.body kind f.params) (.row f.body) := by
  cases f
  exact ⟨congrArg _ (FunDecl.mk.inj hr).2.2, (List.append_eq_nil_iff.1 hm).2⟩

theorem FunDecl.proper_of_mem {methods : List (FunDecl Binding)}
    (hr : FunDecl.resolveAll Γ methods = methods) (hm : FunDecl.misusesAll Γ methods = [])
    (hf : f ∈ methods) :
    Code.Proper (Γ.body (Context.methodKind f.name.name) f.params) (.row f.body) := by
  induction methods with
  | nil => cases hf
  | cons g rest ih =>
    simp only [FunDecl.resolveAll, List.cons.injEq] at hr
    simp only [FunDecl.misusesAll, List.append_eq_nil_iff] at hm
    rcases List.mem_cons.1 hf with rfl | hf
    · exact FunDecl.proper_body hr.1 hm.1
    · exact ih hr.2 hm.2 hf

theorem Site.proper (hP : ∀ P ∈ programs, Program.Accepted P) (h : Site programs zs Γ c) :
    c.Proper Γ := by
  induction h with
  | program hp => exact ⟨congrArg _ (hP _ hp).resolved, (hP _ hp).proper⟩
  | next _ ih =>
    obtain ⟨hr, hm⟩ := ih
    simp only [Code.resolve, Stmt.resolveAll, Code.row.injEq, List.cons.injEq] at hr
    exact ⟨congrArg _ hr.2, (List.append_eq_nil_iff.1 hm).2⟩
  | first _ ih =>
    obtain ⟨hr, hm⟩ := ih
    simp only [Code.resolve, Stmt.resolveAll, Code.row.injEq, List.cons.injEq] at hr
    exact ⟨congrArg _ hr.1, (List.append_eq_nil_iff.1 hm).1⟩
  | @yes _ _ c yes no _ ih =>
    obtain ⟨hr, hm⟩ := ih
    cases no with
    | none =>
      exact ⟨congrArg _ (Stmt.branch.inj (Code.stmt.inj hr)).2.1, (List.append_eq_nil_iff.1 hm).2⟩
    | some no =>
      exact ⟨congrArg _ (Stmt.branch.inj (Code.stmt.inj hr)).2.1,
        (List.append_eq_nil_iff.1 (List.append_eq_nil_iff.1 hm).1).2⟩
  | no _ ih =>
    obtain ⟨hr, hm⟩ := ih
    exact ⟨congrArg _ (Option.some.inj (Stmt.branch.inj (Code.stmt.inj hr)).2.2),
      (List.append_eq_nil_iff.1 hm).2⟩
  | loop _ ih =>
    obtain ⟨hr, hm⟩ := ih
    exact ⟨congrArg _ (Stmt.loop.inj (Code.stmt.inj hr)).2, (List.append_eq_nil_iff.1 hm).2⟩
  | block _ ih =>
    obtain ⟨hr, hm⟩ := ih
    exact ⟨congrArg _ (Stmt.block.inj (Code.stmt.inj hr)), hm⟩
  | function _ ih =>
    obtain ⟨hr, hm⟩ := ih
    exact FunDecl.proper_body (Stmt.funDecl.inj (Code.stmt.inj hr)) (List.append_eq_nil_iff.1 hm).2
  | method _ hf ih =>
    obtain ⟨hr, hm⟩ := ih
    exact FunDecl.proper_of_mem (Stmt.classDecl.inj (Code.stmt.inj hr)).2
      (List.append_eq_nil_iff.1 hm).2 hf
  | clause _ hc ih => exact ih.clause hc
  | part _ hp ih => exact ih.part hp

theorem Context.binding_eq_bound {Γ : Context} (h : Γ.binding x = .bound d) :
    ∃ S, Γ.scopes[d]? = some S ∧ S.contains x = true ∧
      ∀ i < d, ∀ T, Γ.scopes[i]? = some T → T.contains x = false := by
  unfold binding at h
  split at h
  · rename_i i hi
    cases h
    obtain ⟨hd, hS, hnear⟩ := List.findIdx?_eq_some_iff_getElem.1 hi
    refine ⟨_, List.getElem?_eq_getElem hd, hS, fun i hi T hT => ?_⟩
    obtain ⟨_, rfl⟩ := List.getElem?_eq_some_iff.1 hT
    exact Bool.eq_false_iff.2 (hnear i hi)
  · cases h

/-- The name to which an expression refers, with the note on it. -/
def Code.reference? : Code ρ → Option (String × ρ)
  | .expr (.read name ref) => some (name.name, ref)
  | .expr (.assign name ref _) => some (name.name, ref)
  | .expr (.receiver _ ref) => some (receiverName, ref)
  | _ => none

/-- What is noted at a reference is the nearest scope that has the name. -/
theorem Code.Proper.binding {code : Code Binding} (h : code.Proper Γ)
    (href : code.reference? = some (x, .bound d)) : Γ.binding x = .bound d := by
  obtain ⟨hr, _⟩ := h
  cases code with
  | row => cases href
  | stmt => cases href
  | expr e =>
    have hr := Code.expr.inj hr
    cases e <;> cases href
    · exact (Expr.read.inj hr).2
    · exact (Expr.assign.inj hr).2.1
    · have hr := (Expr.receiver.inj hr).2
      split at hr
      · exact hr
      · cases hr

/-- A scope all of whose names are ready. -/
def Scope.Settled (S : Scope) : Prop := ∀ x, S.get? x ≠ some .pending

theorem Scope.Settled.declare {S : Scope} (h : S.Settled) (names : List String) :
    (S.declare names).Settled := by
  intro x
  rw [get?_declare]
  split
  · simp
  · exact h x

theorem Scope.settled_nil : Scope.Settled {} := by
  intro x hx
  simp at hx

theorem Context.settled_declare {Γ : Context} (h : ∀ S ∈ Γ.scopes, Scope.Settled S)
    (names : List String) :
    ∀ S ∈ (Γ.declare names).scopes, Scope.Settled S := by
  cases hS : Γ.scopes with
  | nil => rw [declare_of_nil hS]; exact h
  | cons S Ss =>
    rw [hS] at h
    obtain ⟨hS', hSs⟩ := List.forall_mem_cons.1 h
    rw [scopes_declare hS]
    exact List.forall_mem_cons.2 ⟨hS'.declare names, hSs⟩

/-- Only the innermost scope can have a name that is not ready, and only in an initializer. -/
def Code.SettledIn (Γ : Context) : Code ρ → Prop
  | .row _ | .stmt _ => ∀ S ∈ Γ.scopes, Scope.Settled S
  | .expr _ => ∀ S ∈ Γ.scopes.tail, Scope.Settled S

theorem Site.settled (h : Site programs zs Γ c) : c.SettledIn Γ := by
  induction h with
  | program => exact fun S hS => nomatch hS
  | next _ ih =>
    rw [Context.after_eq_declare]
    exact Context.settled_declare ih _
  | first _ ih => exact ih
  | yes _ ih => exact ih
  | no _ ih =>
    rw [Context.after_eq_declare]
    exact Context.settled_declare ih _
  | loop _ ih => exact ih
  | block _ ih => exact List.forall_mem_cons.2 ⟨Scope.settled_nil, ih⟩
  | @function _ _ decl _ ih =>
    rw [Code.SettledIn, Context.scopes_body]
    exact List.forall_mem_cons.2 ⟨Scope.settled_nil.declare _,
      Context.settled_declare ih [decl.name.name]⟩
  | @method _ _ name _ _ _ _ ih =>
    rw [Code.SettledIn, Context.scopes_body]
    exact List.forall_mem_cons.2 ⟨Scope.settled_nil.declare _, List.forall_mem_cons.2
      ⟨Scope.settled_nil.declare [receiverName],
        Context.settled_declare ih [name.name]⟩⟩
  | @clause _ Γ s _ _ _ hc ih =>
    have htail : ∀ S ∈ Γ.scopes.tail, Scope.Settled S := fun S hS => ih S (List.mem_of_mem_tail hS)
    rcases Stmt.clause?_cases hc with rfl | ⟨name, -, rfl⟩
    · exact htail
    · cases hS : Γ.scopes with
      | nil => rw [Code.SettledIn, Context.mark_of_nil hS]; exact htail
      | cons S Ss => rw [hS] at htail; rw [Code.SettledIn, Context.scopes_mark hS]; exact htail
  | part _ _ ih => exact ih

end Lox
