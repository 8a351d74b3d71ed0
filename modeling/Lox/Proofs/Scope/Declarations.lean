import Lox.Proofs.Scope.Resolved

namespace Lox
set_option autoImplicit true

inductive DeclarationKind where
  | variable | function | cls | parameter
deriving DecidableEq, Repr

structure Declaration where
  kind : DeclarationKind
  name : String
  /-- The name is not a global. -/
  inScope : Bool
  /-- The declaration is a branch or the body of a loop, possibly of several, with no block between.
  -/
  guarded : Bool
deriving DecidableEq, Repr

mutual

def Stmt.declarations (inScope guarded : Bool) : Stmt ρ → List Declaration
  | .varDecl name _ => [⟨.variable, name.name, inScope, guarded⟩]
  | .funDecl decl => ⟨.function, decl.name.name, inScope, guarded⟩ :: decl.declarations
  | .classDecl name methods =>
    ⟨.cls, name.name, inScope, guarded⟩ :: FunDecl.declarationsAll methods
  | .block body => Stmt.declarationsAll true body
  | .branch _ yes none => yes.declarations inScope true
  | .branch _ yes (some no) => yes.declarations inScope true ++ no.declarations inScope true
  | .loop _ body => body.declarations inScope true
  | .expression _ | .print _ | .ret _ _ => []

def Stmt.declarationsAll (inScope : Bool) : List (Stmt ρ) → List Declaration
  | [] => []
  | s :: rest => s.declarations inScope false ++ Stmt.declarationsAll inScope rest

def FunDecl.declarations : FunDecl ρ → List Declaration
  | ⟨_, params, body⟩ =>
    params.map (⟨.parameter, ·.name, true, false⟩) ++ Stmt.declarationsAll true body

def FunDecl.declarationsAll : List (FunDecl ρ) → List Declaration
  | [] => []
  | f :: rest => f.declarations ++ FunDecl.declarationsAll rest

end

def Program.declarations (P : Program ρ) : List Declaration := Stmt.declarationsAll false P

theorem Stmt.declarations_subset {body : List (Stmt ρ)} (hs : s ∈ body) (inScope : Bool) :
    s.declarations inScope false ⊆ Stmt.declarationsAll inScope body := by
  induction body with
  | nil => cases hs
  | cons t rest ih =>
    rw [Stmt.declarationsAll]
    rcases List.mem_cons.1 hs with rfl | hs
    · exact List.subset_append_left _ _
    · exact List.subset_append_of_subset_right _ (ih hs)

theorem FunDecl.declarations_subset {methods : List (FunDecl ρ)} (hf : f ∈ methods) :
    f.declarations ⊆ FunDecl.declarationsAll methods := by
  induction methods with
  | nil => cases hf
  | cons g rest ih =>
    rw [FunDecl.declarationsAll]
    rcases List.mem_cons.1 hf with rfl | hf
    · exact List.subset_append_left _ _
    · exact List.subset_append_of_subset_right _ (ih hf)

theorem FunDecl.body_declarations_subset (f : FunDecl ρ) :
    Stmt.declarationsAll true f.body ⊆ f.declarations := by
  cases f
  exact List.subset_append_right _ _

theorem Stmt.declarationsAll_resolveAll {body : List (Stmt ρ)}
    (h : ∀ s ∈ body, ∀ Γ i g, (Stmt.resolve Γ s).declarations i g = s.declarations i g)
    (Γ : Context) (i : Bool) :
    Stmt.declarationsAll i (Stmt.resolveAll Γ body) = Stmt.declarationsAll i body := by
  induction body generalizing Γ with
  | nil => rfl
  | cons s rest ih =>
    obtain ⟨hs, hrest⟩ := List.forall_mem_cons.1 h
    simp only [Stmt.resolveAll, Stmt.declarationsAll, hs, ih hrest]

theorem FunDecl.declarations_resolve {f : FunDecl ρ}
    (h : ∀ s ∈ f.body, ∀ Γ i g, (Stmt.resolve Γ s).declarations i g = s.declarations i g)
    (Γ : Context) (kind : Enclosing) : (f.resolve Γ kind).declarations = f.declarations := by
  cases f
  simp only [FunDecl.resolve, FunDecl.declarations, Stmt.declarationsAll_resolveAll h]

theorem Stmt.declarations_resolve (Γ : Context) (s : Stmt ρ) (i g : Bool) :
    (s.resolve Γ).declarations i g = s.declarations i g := by
  induction s using Stmt.induction generalizing Γ i g with
  | expression => rfl
  | print => rfl
  | varDecl name init => cases init <;> rfl
  | block body ih => simp only [Stmt.resolve, Stmt.declarations, Stmt.declarationsAll_resolveAll ih]
  | branch c yes no ihy ihn =>
    cases no with
    | none => simp only [Stmt.resolve, Stmt.declarations, ihy]
    | some no => simp only [Stmt.resolve, Stmt.declarations, ihy, ihn no rfl]
  | loop c body ih => simp only [Stmt.resolve, Stmt.declarations, ih]
  | funDecl decl ih =>
    simp only [Stmt.resolve, Stmt.declarations, FunDecl.name_resolve,
      FunDecl.declarations_resolve ih]
  | ret pos value => cases value <;> rfl
  | classDecl name methods ih =>
    simp only [Stmt.resolve, Stmt.declarations]
    congr 1
    induction methods with
    | nil => rfl
    | cons f rest ihr =>
      obtain ⟨hf, hrest⟩ := List.forall_mem_cons.1 ih
      simp only [FunDecl.resolveAll, FunDecl.declarationsAll, FunDecl.declarations_resolve hf,
        ihr hrest]

theorem Program.declarations_resolve (P : Program ρ) : P.resolve.declarations = P.declarations :=
  Stmt.declarationsAll_resolveAll (fun s _ Γ i g => s.declarations_resolve Γ i g) _ _

theorem Stmt.Under.declarations {s t : Stmt ρ} (h : s.Under t) (i g : Bool) :
    s.declarations i true ⊆ t.declarations i g := by
  induction h generalizing g with
  | @yes yes c no =>
    cases no with
    | none => exact List.Subset.refl _
    | some no => exact List.subset_append_left _ _
  | no => exact List.subset_append_right _ _
  | body => exact List.Subset.refl _
  | trans _ _ ihs iht => exact List.Subset.trans (ihs true) (iht g)

theorem Stmt.mem_declarations {s : Stmt ρ} (h : s.declared? = some x) (i g : Bool) :
    ∃ kind, ⟨kind, x, i, g⟩ ∈ s.declarations i g ∧
      (kind = .function → ∃ decl, s = .funDecl decl ∧ decl.name.name = x) := by
  cases s with
  | varDecl name init =>
    cases h
    exact ⟨_, List.mem_cons_self, nofun⟩
  | funDecl decl =>
    cases h
    exact ⟨_, List.mem_cons_self, fun _ => ⟨decl, rfl, rfl⟩⟩
  | classDecl name methods =>
    cases h
    exact ⟨_, List.mem_cons_self, nofun⟩
  | _ => cases h

/-- What a zone declares, and all that is declared inside it. -/
def Zone.declarations : Zone ρ → List Declaration
  | block body => Stmt.declarationsAll true body
  | function decl => decl.declarations
  | receiver => []

theorem Zone.body_declarations_subset (z : Zone ρ) :
    Stmt.declarationsAll true z.body ⊆ z.declarations := by
  cases z with
  | block => exact List.Subset.refl _
  | function decl => exact decl.body_declarations_subset
  | receiver => exact List.Subset.refl _

/-- Whether names declared in the innermost of some zones are in a scope. -/
def Zone.inScope (zs : List (Zone ρ)) : Bool := !zs.isEmpty

/-- What stands at a site declares what is in a list. -/
def Code.DeclaresIn (Ds : List Declaration) (zs : List (Zone ρ)) : Code ρ → Prop
  | .row body => Stmt.declarationsAll (Zone.inScope zs) body ⊆ Ds
  | .stmt s => ∃ g, s.declarations (Zone.inScope zs) g ⊆ Ds
  | .expr _ => True

theorem Site.declarations (h : Site [P] zs Γ c) :
    c.DeclaresIn P.declarations zs ∧ ∀ z ∈ zs, z.declarations ⊆ P.declarations := by
  induction h with
  | program hP =>
    cases List.mem_singleton.1 hP
    exact ⟨List.Subset.refl _, fun z hz => nomatch hz⟩
  | next _ ih => exact ⟨(List.append_subset.1 ih.1).2, ih.2⟩
  | first _ ih => exact ⟨⟨false, (List.append_subset.1 ih.1).1⟩, ih.2⟩
  | yes _ ih =>
    obtain ⟨⟨g, hg⟩, hzs⟩ := ih
    exact ⟨⟨true, List.Subset.trans (Stmt.Under.yes.declarations _ g) hg⟩, hzs⟩
  | no _ ih =>
    obtain ⟨⟨g, hg⟩, hzs⟩ := ih
    exact ⟨⟨true, List.Subset.trans (Stmt.Under.no.declarations _ g) hg⟩, hzs⟩
  | loop _ ih =>
    obtain ⟨⟨g, hg⟩, hzs⟩ := ih
    exact ⟨⟨true, List.Subset.trans (Stmt.Under.body.declarations _ g) hg⟩, hzs⟩
  | block _ ih =>
    obtain ⟨⟨g, hg⟩, hzs⟩ := ih
    exact ⟨hg, List.forall_mem_cons.2 ⟨hg, hzs⟩⟩
  | @function _ _ decl _ ih =>
    obtain ⟨⟨g, hg⟩, hzs⟩ := ih
    have hdecl := List.subset_of_cons_subset hg
    exact ⟨List.Subset.trans decl.body_declarations_subset hdecl,
      List.forall_mem_cons.2 ⟨hdecl, hzs⟩⟩
  | @method _ _ name methods decl _ hd ih =>
    obtain ⟨⟨g, hg⟩, hzs⟩ := ih
    have hdecl := List.Subset.trans (FunDecl.declarations_subset hd) (List.subset_of_cons_subset hg)
    exact ⟨List.Subset.trans decl.body_declarations_subset hdecl,
      List.forall_mem_cons.2 ⟨hdecl, List.forall_mem_cons.2 ⟨List.nil_subset _, hzs⟩⟩⟩
  | clause _ _ ih => exact ⟨trivial, ih.2⟩
  | part _ _ ih => exact ⟨trivial, ih.2⟩

theorem Site.own_program (h : Site programs zs Γ c) : ∃ P ∈ programs, Site [P] zs Γ c := by
  induction h with
  | @program P hP => exact ⟨P, hP, .program List.mem_cons_self⟩
  | next _ ih => exact ih.imp fun _ h => ⟨h.1, h.2.next⟩
  | first _ ih => exact ih.imp fun _ h => ⟨h.1, h.2.first⟩
  | yes _ ih => exact ih.imp fun _ h => ⟨h.1, h.2.yes⟩
  | no _ ih => exact ih.imp fun _ h => ⟨h.1, h.2.no⟩
  | loop _ ih => exact ih.imp fun _ h => ⟨h.1, h.2.loop⟩
  | block _ ih => exact ih.imp fun _ h => ⟨h.1, h.2.block⟩
  | function _ ih => exact ih.imp fun _ h => ⟨h.1, h.2.function⟩
  | method _ hd ih => exact ih.imp fun _ h => ⟨h.1, h.2.method hd⟩
  | clause _ hc ih => exact ih.imp fun _ h => ⟨h.1, h.2.clause hc⟩
  | part _ hp ih => exact ih.imp fun _ h => ⟨h.1, h.2.part hp⟩

/-- A declaration that a source text can contain: only a function is declared in a branch or a loop
without a block, and nothing is declared under the name of the receiver. -/
structure Declaration.Regular (D : Declaration) : Prop where
  guarded : D.guarded = true → D.kind = .function
  name : D.name ≠ receiverName

/-- A zone declares a function under a branch or a loop, with no block between. -/
def Zone.GuardsFunction (z : Zone ρ) (x : String) : Prop :=
  ∃ s ∈ z.body, ∃ decl, (Stmt.funDecl decl).Under s ∧ decl.name.name = x

theorem Zone.under_declarations_subset {z : Zone ρ} (hs : s ∈ z.body) (ht : Stmt.Under t s) :
    t.declarations true true ⊆ z.declarations :=
  List.Subset.trans (ht.declarations true false)
    (List.Subset.trans (Stmt.declarations_subset hs true) z.body_declarations_subset)

theorem Zone.Guards.function {z : Zone ρ} (h : z.Guards x)
    (hz : ∀ D ∈ z.declarations, D.Regular) : z.GuardsFunction x := by
  obtain ⟨s, hs, t, ht, hx⟩ := h
  obtain ⟨kind, hmem, hkind⟩ := Stmt.mem_declarations hx true true
  have hregular := hz _ (z.under_declarations_subset hs ht hmem)
  obtain ⟨decl, rfl, hname⟩ := hkind (hregular.guarded rfl)
  exact ⟨s, hs, decl, ht, hname⟩

/-- Every function that is not global is declared directly in a block or in the body of a function.
-/
def Program.FunctionsDirect (P : Program ρ) : Prop :=
  ∀ D ∈ P.declarations, D.kind = .function → D.inScope = true → D.guarded = false

instance (P : Program ρ) : Decidable P.FunctionsDirect :=
  inferInstanceAs (Decidable (∀ D ∈ P.declarations, _))

theorem Program.FunctionsDirect.resolve {P : Program ρ} (hP : P.FunctionsDirect) :
    P.resolve.FunctionsDirect := by
  rw [FunctionsDirect, declarations_resolve]
  exact hP

theorem Program.FunctionsDirect.not_guards {P : Program ρ} (hP : P.FunctionsDirect)
    (h : Site [P] zs Γ c) (hz : z ∈ zs) : ¬z.GuardsFunction x := by
  intro ⟨s, hs, decl, hd, hx⟩
  have hmem := z.under_declarations_subset hs hd List.mem_cons_self
  cases hP _ (h.declarations.2 z hz hmem) rfl rfl

theorem Stmt.exists_mem_declarations {s : Stmt ρ} (hx : x ∈ s.names) (i g : Bool) :
    ∃ D ∈ s.declarations i g, D.name = x := by
  rcases s.exists_declared x hx with hd | ⟨t, ht, hd⟩
  · obtain ⟨kind, hmem, _⟩ := Stmt.mem_declarations hd i g
    exact ⟨_, hmem, rfl⟩
  · obtain ⟨kind, hmem, _⟩ := Stmt.mem_declarations hd i true
    exact ⟨_, ht.declarations i g hmem, rfl⟩

/-- The name of the receiver belongs to no other zone. -/
theorem Zone.eq_receiver {z : Zone ρ} (hz : ∀ D ∈ z.declarations, D.Regular)
    (h : z.scope.contains receiverName = true) : z = .receiver := by
  have hbody : ∀ s ∈ z.body, receiverName ∉ s.names := by
    intro s hs hx
    obtain ⟨D, hD, hname⟩ := Stmt.exists_mem_declarations hx true false
    have hsub := List.Subset.trans (Stmt.declarations_subset hs true) z.body_declarations_subset
    exact (hz D (hsub hD)).name hname
  rcases z.contains_scope receiverName |>.1 h with hgiven | ⟨s, hs, hx⟩
  · cases z with
    | block => cases hgiven
    | function decl =>
      obtain ⟨p, hp, hname⟩ := List.mem_map.1 hgiven
      have hmem : ⟨.parameter, p.name, true, false⟩ ∈ decl.declarations := by
        cases decl
        exact List.mem_append_left _ (List.mem_map.2 ⟨p, hp, rfl⟩)
      exact ((hz _ hmem).name hname).elim
    | receiver => rfl
  · exact (hbody s hs hx).elim

/-- Code never stands in the zone of a receiver itself, but in a method there. -/
theorem Site.head_ne_receiver (h : Site programs zs Γ c) : zs.head? ≠ some .receiver := by
  induction h with
  | program => exact nofun
  | next _ ih => exact ih
  | first _ ih => exact ih
  | yes _ ih => exact ih
  | no _ ih => exact ih
  | loop _ ih => exact ih
  | block => exact nofun
  | function => exact nofun
  | method => exact nofun
  | clause _ _ ih => exact ih
  | part _ _ ih => exact ih

/-- Inside a class there is a scope with the receiver. -/
def Context.HasReceiver (Γ : Context) : Prop :=
  Γ.inClass = true → ∃ S ∈ Γ.scopes, S.contains receiverName = true

theorem Context.HasReceiver.mark {Γ : Context} (h : Γ.HasReceiver) (x : String) (status : Status) :
    (Γ.mark x status).HasReceiver := by
  intro hin
  cases hS : Γ.scopes with
  | nil =>
    rw [mark_of_nil hS] at hin ⊢
    exact h hin
  | cons S Ss =>
    rw [scopes_mark hS]
    rw [Context.mark, hS] at hin
    obtain ⟨T, hT, hx⟩ := h hin
    rw [hS] at hT
    rcases List.mem_cons.1 hT with rfl | hT
    · exact ⟨_, List.mem_cons_self, by rw [Bindings.contains_set, hx, Bool.or_true]⟩
    · exact ⟨T, List.mem_cons_of_mem _ hT, hx⟩

theorem Context.HasReceiver.declare {Γ : Context} (h : Γ.HasReceiver) (names : List String) :
    (Γ.declare names).HasReceiver := by
  induction names generalizing Γ with
  | nil => exact h
  | cons x names ih => exact ih (h.mark x .ready)

theorem Context.HasReceiver.enter {Γ : Context} (h : Γ.HasReceiver) : Γ.enter.HasReceiver := by
  intro hin
  obtain ⟨S, hS, hx⟩ := h hin
  exact ⟨S, List.mem_cons_of_mem _ hS, hx⟩

theorem Context.HasReceiver.body {Γ : Context} (h : Γ.HasReceiver) (kind : Enclosing)
    (params : List Ident) : (Γ.body kind params).HasReceiver := by
  rw [Context.body, params_eq_declare]
  exact HasReceiver.declare (Γ := Γ.enterFunction kind) h.enter _

theorem Site.hasReceiver (h : Site programs zs Γ c) : Γ.HasReceiver := by
  induction h with
  | program => exact nofun
  | next _ ih =>
    rw [Context.after_eq_declare]
    exact ih.declare _
  | first _ ih => exact ih
  | yes _ ih => exact ih
  | no _ ih =>
    rw [Context.after_eq_declare]
    exact ih.declare _
  | loop _ ih => exact ih
  | block _ ih => exact ih.enter
  | function _ ih => exact (ih.mark _ _).body _ _
  | method => exact .body (fun _ => ⟨_, List.mem_cons_self, by decide⟩) _ _
  | clause _ hc ih =>
    rcases Stmt.clause?_cases hc with rfl | ⟨name, rfl, rfl⟩
    · exact ih
    · exact ih.mark _ _
  | part _ _ ih => exact ih

theorem Site.receiver_bound (hP : ∀ P ∈ programs, Program.Accepted P)
    (h : Site programs zs Γ (.expr (.receiver pos ref))) : ∃ d, ref = .bound d := by
  obtain ⟨hr, hm⟩ := h.proper hP
  have hin : Γ.inClass = true := by
    by_contra hout
    simp [Code.misuses, Expr.misuses, hout] at hm
  have hr := (Expr.receiver.inj (Code.expr.inj hr)).2
  rw [if_pos hin] at hr
  obtain ⟨S, hS, hx⟩ := h.hasReceiver hin
  unfold Context.binding at hr
  split at hr
  · rename_i d _
    exact ⟨d, hr.symm⟩
  · rename_i hnone
    rw [List.findIdx?_eq_none_iff.1 hnone S hS] at hx
    cases hx

end Lox
