import Lox.Proofs.Alike.Map
import Lox.Proofs.Alike.Resolve
import Lox.Proofs.Tree.Rename
import Lox.Scope.Reference

namespace Lox
set_option autoImplicit true

/-- Words stay on their lines, and `x` may be called `y`. -/
def Likeness.onLines (x y : String) : Likeness where
  place p p' := p'.line = p.line
  renames θ := θ = 1 ∨ θ = Equiv.swap x y

/-- The renaming of one scope. -/
def Renaming.only (d : Nat) (θ : Equiv.Perm String) : Renaming := fun i => if i = d then θ else 1

namespace Renaming

theorem push_only (d : Nat) (θ : Equiv.Perm String) : (only d θ).push 1 = only (d + 1) θ := by
  funext i
  cases i with
  | zero => rfl
  | succ i => simp [push, only]

theorem only_zero (θ : Equiv.Perm String) : only 0 θ = none.push θ := by
  funext i
  cases i with
  | zero => rfl
  | succ i => rfl

end Renaming

variable {x y : String}

theorem Likeness.onLines_one : (onLines x y).renames 1 := .inl rfl

theorem Ident.alike_same (i : Ident) : Ident.Alike (.onLines x y) 1 i i := ⟨rfl, rfl⟩

theorem Expr.alike_same (e : Expr Binding) : Expr.Alike (.onLines x y) .none e e :=
  e.alike_self fun _ _ => rfl

theorem Stmt.alike_same (s : Stmt Binding) : Stmt.Alike (.onLines x y) .none s s :=
  s.alike_self Likeness.onLines_one fun _ _ => rfl

theorem FunDecl.alike_same (f : FunDecl Binding) : FunDecl.Alike (.onLines x y) .none f f :=
  f.alike_self Likeness.onLines_one fun _ _ => rfl

theorem Ident.alike_rename {i : Ident} (hy : y ≠ i.name) :
    Ident.Alike (.onLines x y) (Equiv.swap x y) i (i.rename x y) := by
  rw [rename]
  split
  · rename_i hx
    exact ⟨by rw [hx, Equiv.swap_apply_left], rfl⟩
  · rename_i hx
    exact ⟨(Equiv.swap_apply_of_ne_of_ne hx hy.symm).symm, rfl⟩

theorem Ident.alike_along {i : Ident} (hy : y ≠ i.name) (ref : Binding) :
    Ident.Alike (.onLines x y) ((Renaming.only d (Equiv.swap x y)).along ref) i
      (if ref = .bound d then i.rename x y else i) := by
  split
  · rename_i href
    rw [href, Renaming.along, Renaming.only, if_pos rfl]
    exact alike_rename hy
  · rename_i href
    have hone : (Renaming.only d (Equiv.swap x y)).along ref = 1 := by
      cases ref with
      | free => rfl
      | bound i => exact if_neg fun h => href (congrArg _ h)
    rw [hone]
    exact alike_same i

section
variable (hx : x ≠ receiverName) (hr : y ≠ receiverName)
include hx hr

theorem Renaming.only_receiver (d : Nat) (ref : Binding) :
    (only d (Equiv.swap x y)).along ref receiverName = receiverName := by
  cases ref with
  | free => rfl
  | bound i =>
    rw [along, only]
    split
    · exact Equiv.swap_apply_of_ne_of_ne hx.symm hr.symm
    · rfl

theorem Expr.alike_rename (e : Expr Binding) (hy : y ∉ e.identifiers) :
    Expr.Alike (.onLines x y) (.only d (Equiv.swap x y)) e (e.rename x y d) := by
  induction e using Expr.rec (motive_2 := fun args => y ∉ Expr.identifiersAll args →
    Expr.AlikeAll (.onLines x y) (.only d (Equiv.swap x y)) args (Expr.renameAll x y d args)) with
  | literal => exact .literal
  | grouping inner ih => exact .grouping (ih hy)
  | unary op pos operand ih => exact .unary rfl (ih hy)
  | binary left op pos right ihl ihr =>
    obtain ⟨hl, hr⟩ := not_or.1 (mt List.mem_append.2 hy)
    exact .binary rfl (ihl hl) (ihr hr)
  | logical left op right ihl ihr =>
    obtain ⟨hl, hr⟩ := not_or.1 (mt List.mem_append.2 hy)
    exact .logical (ihl hl) (ihr hr)
  | read name ref => exact .read (Ident.alike_along (mt List.mem_singleton.2 hy) ref)
  | assign name ref value ih =>
    obtain ⟨hn, hv⟩ := not_or.1 (mt List.mem_cons.2 hy)
    exact .assign (Ident.alike_along hn ref) (ih hv)
  | call callee args paren ihc iha =>
    obtain ⟨hc, ha⟩ := not_or.1 (mt List.mem_append.2 hy)
    exact .call rfl (ihc hc) (iha ha)
  | get object name ih =>
    obtain ⟨ho, _⟩ := not_or.1 (mt List.mem_append.2 hy)
    exact .get name.alike_same (ih ho)
  | set object name value iho ihv =>
    obtain ⟨ho, hnv⟩ := not_or.1 (mt List.mem_append.2 hy)
    obtain ⟨_, hv⟩ := not_or.1 (mt List.mem_cons.2 hnv)
    exact .set name.alike_same (iho ho) (ihv hv)
  | receiver pos ref => exact .receiver rfl (Renaming.only_receiver hx hr d ref)
  | nil => exact .nil
  | cons e args ihe iha =>
    rename_i hy
    obtain ⟨he, ha⟩ := not_or.1 (mt List.mem_append.2 hy)
    exact .cons (ihe he) (iha ha)

end

/-- If a statement declares `x`, it does so as a variable. -/
def Stmt.NamesVar (x : String) (s : Stmt ρ) : Prop :=
  x ∈ s.names → ∃ name init, s = .varDecl name init

theorem Stmt.alikeAll_rename {body : List (Stmt Binding)}
    (ih : ∀ s ∈ body, ∀ d, y ∉ Stmt.identifiers s → (d = 0 → Stmt.NamesVar x s) →
      Stmt.Alike (.onLines x y) (.only d (Equiv.swap x y)) s (s.rename x y d))
    (hy : y ∉ Stmt.identifiersAll body) (hvar : d = 0 → ∀ s ∈ body, s.NamesVar x) :
    Stmt.AlikeAll (.onLines x y) (.only d (Equiv.swap x y)) body (Stmt.renameAll x y d body) := by
  induction body with
  | nil => exact .nil
  | cons s rest ihr =>
    obtain ⟨ihs, ihrest⟩ := List.forall_mem_cons.1 ih
    obtain ⟨hs, hrest⟩ := not_or.1 (mt List.mem_append.2 hy)
    refine .cons (ihs d hs fun hd => hvar hd s List.mem_cons_self) (ihr ihrest hrest fun hd => ?_)
    exact (List.forall_mem_cons.1 (hvar hd)).2

theorem FunDecl.alike_rename_of {f : FunDecl Binding}
    (ih : ∀ s ∈ f.body, ∀ d, y ∉ Stmt.identifiers s → (d = 0 → Stmt.NamesVar x s) →
      Stmt.Alike (.onLines x y) (.only d (Equiv.swap x y)) s (s.rename x y d))
    (hy : y ∉ f.identifiers) (d : Nat) :
    FunDecl.Alike (.onLines x y) (.only d (Equiv.swap x y)) f (f.rename x y d) := by
  obtain ⟨name, params, body⟩ := f
  obtain ⟨_, hy⟩ := not_or.1 (mt List.mem_cons.2 hy)
  obtain ⟨_, hbody⟩ := not_or.1 (mt List.mem_append.2 hy)
  refine .mk name.alike_same (.inl rfl) ?_ ?_
  · exact List.forall₂_same.2 fun i _ => i.alike_same
  · rw [Renaming.push_only]
    exact Stmt.alikeAll_rename ih hbody nofun

theorem FunDecl.alikeAll_rename {fs : List (FunDecl Binding)}
    (ih : ∀ f ∈ fs, ∀ s ∈ f.body, ∀ d, y ∉ Stmt.identifiers s → (d = 0 → Stmt.NamesVar x s) →
      Stmt.Alike (.onLines x y) (.only d (Equiv.swap x y)) s (s.rename x y d))
    (hy : y ∉ FunDecl.identifiersAll fs) (d : Nat) :
    FunDecl.AlikeAll (.onLines x y) (.only d (Equiv.swap x y)) fs (FunDecl.renameAll x y d fs) := by
  induction fs with
  | nil => exact .none
  | cons f rest ihr =>
    obtain ⟨ihf, ihrest⟩ := List.forall_mem_cons.1 ih
    obtain ⟨hf, hrest⟩ := not_or.1 (mt List.mem_append.2 hy)
    exact .more (FunDecl.alike_rename_of ihf hf d) (ihr ihrest hrest)

theorem Renaming.only_fixes (hy : y ≠ z) (hz : d = 0 → x ≠ z) :
    only d (Equiv.swap x y) 0 z = z := by
  rw [only]
  split
  · rename_i hd
    exact Equiv.swap_apply_of_ne_of_ne (hz hd.symm).symm hy.symm
  · rfl

section
variable (hx : x ≠ receiverName) (hr : y ≠ receiverName)
include hx hr

theorem Stmt.alike_rename (s : Stmt Binding) (d : Nat) (hy : y ∉ s.identifiers)
    (hvar : d = 0 → s.NamesVar x) :
    Stmt.Alike (.onLines x y) (.only d (Equiv.swap x y)) s (s.rename x y d) := by
  induction s using Stmt.induction generalizing d with
  | expression e => exact .expression (e.alike_rename hx hr hy)
  | print e => exact .print (e.alike_rename hx hr hy)
  | varDecl name init =>
    have hname (hn : y ≠ name.name) : Ident.Alike (.onLines x y)
        (Renaming.only d (Equiv.swap x y) 0) name (if d = 0 then name.rename x y else name) := by
      have halong := name.alike_along (x := x) (d := d) hn (.bound 0)
      simpa only [Renaming.along, Binding.bound.injEq, @eq_comm _ 0 d] using halong
    cases init with
    | none => exact .varDecl (hname (mt List.mem_singleton.2 hy))
    | some e =>
      obtain ⟨hn, he⟩ := not_or.1 (mt List.mem_cons.2 hy)
      exact .varInit (hname hn) (e.alike_rename hx hr he)
  | block body ih =>
    refine .block (.inl rfl) ?_
    rw [Renaming.push_only]
    exact Stmt.alikeAll_rename ih hy fun hd => absurd hd (Nat.succ_ne_zero d)
  | branch c yes no ihy ihn =>
    -- a branch is no variable, so that nothing in it declares the name
    cases no with
    | none =>
      obtain ⟨hc, hyes⟩ := not_or.1 (mt List.mem_append.2 hy)
      refine .branch (c.alike_rename hx hr hc) (ihy d hyes fun hd hmem => ?_)
      obtain ⟨_, _, h⟩ := hvar hd hmem
      cases h
    | some no =>
      obtain ⟨hcy, hno⟩ := not_or.1 (mt List.mem_append.2 hy)
      obtain ⟨hc, hyes⟩ := not_or.1 (mt List.mem_append.2 hcy)
      refine .branchElse (c.alike_rename hx hr hc) (ihy d hyes fun hd hmem => ?_)
        (ihn no rfl d hno fun hd hmem => ?_)
      · obtain ⟨_, _, h⟩ := hvar hd (List.mem_append_left _ hmem)
        cases h
      · obtain ⟨_, _, h⟩ := hvar hd (List.mem_append_right _ hmem)
        cases h
  | loop c body ih =>
    obtain ⟨hc, hbody⟩ := not_or.1 (mt List.mem_append.2 hy)
    refine .loop (c.alike_rename hx hr hc) (ih d hbody fun hd hmem => ?_)
    obtain ⟨_, _, h⟩ := hvar hd hmem
    cases h
  | funDecl decl ih =>
    refine .funDecl (Renaming.only_fixes (fun h => ?_) fun hd h => ?_)
      (FunDecl.alike_rename_of ih hy d)
    · exact hy (Stmt.names_subset (.funDecl decl) (List.mem_singleton.2 h))
    · obtain ⟨_, _, h⟩ := hvar hd (List.mem_singleton.2 h)
      cases h
  | ret pos value =>
    cases value with
    | none => exact .ret rfl
    | some e => exact .retValue rfl (e.alike_rename hx hr hy)
  | classDecl name methods ih =>
    obtain ⟨hn, hmethods⟩ := not_or.1 (mt List.mem_cons.2 hy)
    refine .classDecl (Renaming.only_fixes hn fun hd h => ?_) name.alike_same ?_
    · obtain ⟨_, _, h⟩ := hvar hd (List.mem_singleton.2 h)
      cases h
    · rw [Renaming.push_only]
      exact FunDecl.alikeAll_rename ih hmethods (d + 1)

theorem Stmt.alikeAll_renameAll {body : List (Stmt Binding)} (hy : y ∉ Stmt.identifiersAll body)
    (hvar : ∀ s ∈ body, s.NamesVar x) :
    Stmt.AlikeAll (.onLines x y) (Renaming.none.push (Equiv.swap x y)) body
      (Stmt.renameAll x y 0 body) := by
  rw [← Renaming.only_zero]
  exact Stmt.alikeAll_rename (fun s _ d => s.alike_rename hx hr d) hy fun _ => hvar

end

theorem Context.isSome_status?_declare {Γ : Context} (hS : Γ.scopes = S :: Ss)
    (names : List String) (x : String) :
    ((Γ.declare names).status? x).isSome = true ↔ x ∈ names ∨ (Γ.status? x).isSome = true := by
  simp only [Context.status?, scopes_declare hS, hS]
  exact Scope.contains_declare S names x

theorem Context.status?_of_redeclared {Γ : Context} {name : Ident} (h : Γ.redeclared name = []) :
    ¬(Γ.status? name.name).isSome = true := by
  intro hsome
  rw [Context.redeclared, if_pos hsome] at h
  cases h

theorem Stmt.not_mem_names {Γ : Context} {s : Stmt ρ} (h : (Γ.status? x).isSome = true)
    (hm : s.misuses Γ = []) : x ∉ s.names := by
  obtain ⟨S, Ss, hS⟩ : ∃ S Ss, Γ.scopes = S :: Ss := by
    cases hS : Γ.scopes with
    | nil => simp [Context.status?, hS] at h
    | cons S Ss => exact ⟨S, Ss, rfl⟩
  intro hmem
  fun_induction Stmt.names s generalizing Γ S with
  | case1 name init =>
    cases List.mem_singleton.1 hmem
    cases init with
    | none => exact Context.status?_of_redeclared hm h
    | some e => exact Context.status?_of_redeclared (List.append_eq_nil_iff.1 hm).1 h
  | case2 decl =>
    cases List.mem_singleton.1 hmem
    exact Context.status?_of_redeclared (List.append_eq_nil_iff.1 hm).1 h
  | case3 name methods =>
    cases List.mem_singleton.1 hmem
    exact Context.status?_of_redeclared (List.append_eq_nil_iff.1 hm).1 h
  | case4 c yes ih => exact ih h (List.append_eq_nil_iff.1 hm).2 S hS hmem
  | case5 c yes no ihy ihn =>
    obtain ⟨hm, hno⟩ := List.append_eq_nil_iff.1 hm
    rcases List.mem_append.1 hmem with hmem | hmem
    · exact ihy h (List.append_eq_nil_iff.1 hm).2 S hS hmem
    · rw [Context.after_eq_declare] at hno
      exact ihn ((Context.isSome_status?_declare hS _ _).2 (.inr h)) hno _
        (Context.scopes_declare hS _) hmem
  | case6 c body ih => exact ih h (List.append_eq_nil_iff.1 hm).2 S hS hmem
  | case7 => cases hmem
  | case8 => cases hmem
  | case9 => cases hmem
  | case10 => cases hmem

theorem Stmt.not_mem_names_all {Γ : Context} {body : List (Stmt ρ)} (hS : Γ.scopes = S :: Ss)
    (h : (Γ.status? x).isSome = true) (hm : Stmt.misusesAll Γ body = []) :
    ∀ s ∈ body, x ∉ s.names := by
  induction body generalizing Γ S with
  | nil => exact fun s hs => nomatch hs
  | cons s rest ih =>
    obtain ⟨hs, hrest⟩ := List.append_eq_nil_iff.1 hm
    rw [Context.after_eq_declare] at hrest
    refine List.forall_mem_cons.2 ⟨Stmt.not_mem_names h hs, ?_⟩
    have hstatus := (Context.isSome_status?_declare hS s.names x).2 (.inr h)
    exact ih (Context.scopes_declare hS _) hstatus hrest

/-- A variable of a scope is declared there only once. -/
theorem Stmt.DeclareVar.namesVar {Γ : Context} {body : List (Stmt ρ)}
    (hvar : Stmt.DeclareVar x body) (hS : Γ.scopes = S :: Ss) (hm : Stmt.misusesAll Γ body = []) :
    ∀ s ∈ body, s.NamesVar x := by
  obtain ⟨name, init, hmem, rfl⟩ := hvar
  induction body generalizing Γ S with
  | nil => cases hmem
  | cons s rest ih =>
    obtain ⟨hs, hrest⟩ := List.append_eq_nil_iff.1 hm
    rw [Context.after_eq_declare] at hrest
    have hS' := Context.scopes_declare hS s.names
    by_cases hx : name.name ∈ s.names
    · have hlater := Stmt.not_mem_names_all hS'
        ((Context.isSome_status?_declare hS _ _).2 (.inl hx)) hrest
      rcases List.mem_cons.1 hmem with rfl | hmem
      · refine List.forall_mem_cons.2 ⟨fun _ => ⟨name, init, rfl⟩, fun t ht hx => ?_⟩
        exact absurd hx (hlater t ht)
      · exact absurd List.mem_cons_self (hlater _ hmem)
    · rcases List.mem_cons.1 hmem with rfl | hmem
      · exact absurd List.mem_cons_self hx
      · exact List.forall_mem_cons.2 ⟨fun h => absurd h hx, ih hS' hrest hmem⟩

theorem FunDecl.DeclaresVar.namesVar {Γ : Context} {f : FunDecl ρ} (hvar : f.DeclaresVar x)
    (hm : f.misuses Γ kind = []) : ∀ s ∈ f.body, s.NamesVar x := by
  obtain ⟨name, params, body⟩ := f
  obtain ⟨_, hm⟩ := List.append_eq_nil_iff.1 hm
  have hS := Γ.scopes_body kind params
  rcases hvar with hparam | hvar
  · intro s hs hx
    refine absurd hx (Stmt.not_mem_names_all hS ?_ hm s hs)
    rw [Context.body, Context.params_eq_declare]
    exact (Context.isSome_status?_declare rfl _ _).2 (.inl hparam)
  · exact hvar.namesVar hS hm

section
variable (hx : x ≠ receiverName) (hr : y ≠ receiverName)
include hx hr

theorem FunDecl.alike_renameOwn {f : FunDecl Binding} (hy : y ∉ f.identifiers)
    (hvar : ∀ s ∈ f.body, s.NamesVar x) :
    FunDecl.Alike (.onLines x y) .none f (f.renameOwn x y) := by
  obtain ⟨name, params, body⟩ := f
  obtain ⟨_, hy⟩ := not_or.1 (mt List.mem_cons.2 hy)
  obtain ⟨hparams, hbody⟩ := not_or.1 (mt List.mem_append.2 hy)
  refine .mk name.alike_same (.inr rfl) ?_ (Stmt.alikeAll_renameAll hx hr hbody hvar)
  rw [List.forall₂_map_right_iff, List.forall₂_same]
  exact fun i hi => Ident.alike_rename fun h => hparams (h ▸ List.mem_map_of_mem hi)

end

theorem Stmt.alikeAll_replace {ss ts : List (Stmt Binding)}
    (h : Stmt.Alike (.onLines x y) .none s s') :
    Stmt.AlikeAll (.onLines x y) .none (ss ++ s :: ts) (ss ++ s' :: ts) := by
  induction ss with
  | nil => exact .cons h (Program.alike_self Likeness.onLines_one ts fun _ _ => rfl)
  | cons t rest ih => exact .cons t.alike_same ih

theorem FunDecl.alikeAll_replace {fs gs : List (FunDecl Binding)}
    (h : FunDecl.Alike (.onLines x y) .none f f') :
    FunDecl.AlikeAll (.onLines x y) .none (fs ++ f :: gs) (fs ++ f' :: gs) := by
  induction fs with
  | nil =>
    refine .more h ?_
    induction gs with
    | nil => exact .none
    | cons g rest ih => exact .more g.alike_same ih
  | cons g rest ih => exact .more g.alike_same ih

theorem Stmt.identifiersAll_append (ss ts : List (Stmt ρ)) :
    Stmt.identifiersAll (ss ++ ts) = Stmt.identifiersAll ss ++ Stmt.identifiersAll ts := by
  induction ss with
  | nil => rfl
  | cons s rest ih => rw [List.cons_append, Stmt.identifiersAll, Stmt.identifiersAll, ih,
      List.append_assoc]

theorem FunDecl.identifiersAll_append (fs gs : List (FunDecl ρ)) :
    FunDecl.identifiersAll (fs ++ gs) =
      FunDecl.identifiersAll fs ++ FunDecl.identifiersAll gs := by
  induction fs with
  | nil => rfl
  | cons f rest ih => rw [List.cons_append, FunDecl.identifiersAll, FunDecl.identifiersAll, ih,
      List.append_assoc]

theorem FunDecl.misusesAll_append (Γ : Context) (fs gs : List (FunDecl ρ)) :
    FunDecl.misusesAll Γ (fs ++ gs) = FunDecl.misusesAll Γ fs ++ FunDecl.misusesAll Γ gs := by
  induction fs with
  | nil => rfl
  | cons f rest ih => rw [List.cons_append, FunDecl.misusesAll, FunDecl.misusesAll, ih,
      List.append_assoc]

theorem Stmt.not_mem_identifiers {ss ts : List (Stmt ρ)}
    (h : y ∉ Stmt.identifiersAll (ss ++ s :: ts)) : y ∉ s.identifiers := by
  rw [Stmt.identifiersAll_append, Stmt.identifiersAll, List.mem_append, List.mem_append] at h
  exact fun hs => h (.inr (.inl hs))

theorem FunDecl.not_mem_identifiers {fs gs : List (FunDecl ρ)}
    (h : y ∉ FunDecl.identifiersAll (fs ++ f :: gs)) : y ∉ f.identifiers := by
  rw [FunDecl.identifiersAll_append, FunDecl.identifiersAll, List.mem_append,
    List.mem_append] at h
  exact fun hf => h (.inr (.inl hf))

theorem Stmt.misuses_of_all {ss ts : List (Stmt ρ)}
    (h : Stmt.misusesAll Γ (ss ++ s :: ts) = []) : s.misuses (Γ.afterAll ss) = [] := by
  rw [Stmt.misusesAll_append, Stmt.misusesAll] at h
  exact (List.append_eq_nil_iff.1 (List.append_eq_nil_iff.1 h).2).1

theorem FunDecl.misuses_of_all {fs gs : List (FunDecl ρ)}
    (h : FunDecl.misusesAll Γ (fs ++ f :: gs) = []) :
    f.misuses Γ (Context.methodKind f.name.name) = [] := by
  rw [FunDecl.misusesAll_append, FunDecl.misusesAll] at h
  exact (List.append_eq_nil_iff.1 (List.append_eq_nil_iff.1 h).2).1

theorem FunDecl.alike_replace {name : Ident} {params : List Ident}
    (h : Stmt.Alike (.onLines x y) .none s s') :
    FunDecl.Alike (.onLines x y) .none ⟨name, params, ss ++ s :: ts⟩
      ⟨name, params, ss ++ s' :: ts⟩ := by
  refine .mk name.alike_same (.inl rfl) (List.forall₂_same.2 fun i _ => i.alike_same) ?_
  rw [Renaming.push_none]
  exact Stmt.alikeAll_replace h

/-- A statement is alike to itself with a variable renamed. -/
theorem Stmt.Renames.alike (h : Stmt.Renames x y s s') (hx : x ≠ receiverName)
    (hr : y ≠ receiverName) (hm : s.misuses Γ = []) (hy : y ∉ s.identifiers) :
    Stmt.Alike (.onLines x y) .none s s' := by
  induction h generalizing Γ with
  | block hvar =>
    exact .block (.inr rfl) (Stmt.alikeAll_renameAll hx hr hy (hvar.namesVar rfl hm))
  | function hvar =>
    obtain ⟨_, hm⟩ := List.append_eq_nil_iff.1 hm
    exact .funDecl rfl (FunDecl.alike_renameOwn hx hr hy (hvar.namesVar hm))
  | @method name fs f gs hvar =>
    obtain ⟨_, hm⟩ := List.append_eq_nil_iff.1 hm
    obtain ⟨_, hy⟩ := not_or.1 (mt List.mem_cons.2 hy)
    have hown := FunDecl.alike_renameOwn hx hr (FunDecl.not_mem_identifiers hy)
      (hvar.namesVar (FunDecl.misuses_of_all hm))
    refine .classDecl rfl name.alike_same ?_
    rw [Renaming.push_none]
    exact FunDecl.alikeAll_replace hown
  | inBlock _ ih =>
    refine .block (.inl rfl) ?_
    rw [Renaming.push_none]
    exact Stmt.alikeAll_replace (ih (Stmt.misuses_of_all hm) (Stmt.not_mem_identifiers hy))
  | inFunction _ ih =>
    obtain ⟨_, hm⟩ := List.append_eq_nil_iff.1 hm
    obtain ⟨_, hm⟩ := List.append_eq_nil_iff.1 hm
    obtain ⟨_, hy⟩ := not_or.1 (mt List.mem_cons.2 hy)
    obtain ⟨_, hy⟩ := not_or.1 (mt List.mem_append.2 hy)
    have hs := ih (Stmt.misuses_of_all hm) (Stmt.not_mem_identifiers hy)
    exact .funDecl rfl (FunDecl.alike_replace hs)
  | @inMethod s s' name fs n params ss ts gs _ ih =>
    obtain ⟨_, hm⟩ := List.append_eq_nil_iff.1 hm
    obtain ⟨_, hm⟩ := List.append_eq_nil_iff.1 (FunDecl.misuses_of_all hm)
    have hy := FunDecl.not_mem_identifiers (not_or.1 (mt List.mem_cons.2 hy)).2
    obtain ⟨_, hy⟩ := not_or.1 (mt List.mem_cons.2 hy)
    obtain ⟨_, hy⟩ := not_or.1 (mt List.mem_append.2 hy)
    have hs := ih (Stmt.misuses_of_all hm) (Stmt.not_mem_identifiers hy)
    refine .classDecl rfl name.alike_same ?_
    rw [Renaming.push_none]
    exact FunDecl.alikeAll_replace (FunDecl.alike_replace hs)
  | @yes yes yes' c no _ ih =>
    cases no with
    | none =>
      obtain ⟨_, hm⟩ := List.append_eq_nil_iff.1 hm
      obtain ⟨_, hy⟩ := not_or.1 (mt List.mem_append.2 hy)
      exact .branch c.alike_same (ih hm hy)
    | some no =>
      obtain ⟨hm, _⟩ := List.append_eq_nil_iff.1 hm
      obtain ⟨hy, _⟩ := not_or.1 (mt List.mem_append.2 hy)
      have hyes := ih (List.append_eq_nil_iff.1 hm).2 (not_or.1 (mt List.mem_append.2 hy)).2
      exact .branchElse c.alike_same hyes no.alike_same
  | @no no no' c yes _ ih =>
    have hno := ih (List.append_eq_nil_iff.1 hm).2 (not_or.1 (mt List.mem_append.2 hy)).2
    exact .branchElse c.alike_same yes.alike_same hno
  | @loop body body' c _ ih =>
    have hbody := ih (List.append_eq_nil_iff.1 hm).2 (not_or.1 (mt List.mem_append.2 hy)).2
    exact .loop c.alike_same hbody

theorem Program.Renames.alike {P P' : Program Binding} (h : P.Renames x y P')
    (hP : P.misuses = []) (hreg : ∀ D ∈ P.declarations, D.Regular) (hr : y ≠ receiverName)
    (hy : y ∉ P.identifiers) : Stmt.AlikeAll (.onLines x y) .none P P' := by
  cases h with
  | intro hs =>
    obtain ⟨D, hD, rfl⟩ := hs.declares false false
    have hx := hreg D
      (Stmt.declarations_subset (List.mem_append_right _ List.mem_cons_self) false hD)
    apply Stmt.alikeAll_replace
    exact hs.alike hx.name hr (Stmt.misuses_of_all hP) (Stmt.not_mem_identifiers hy)

/-- A fresh name cannot be mistaken for another one. -/
theorem Likeness.onLines_coherent (hr : y ≠ receiverName) :
    (onLines x y).Coherent (· ≠ y) := by
  have hswap : ∀ u v, u ≠ y → v ≠ y → u = Equiv.swap x y v → u = v := by
    intro u v hu hv h
    by_cases hx : v = x
    · rw [hx, Equiv.swap_apply_left] at h
      exact absurd h hu
    · rwa [Equiv.swap_apply_of_ne_of_ne hx hv] at h
  refine ⟨onLines_one, fun θ φ hθ hφ u v hu hv h => ?_, hr.symm⟩
  rcases hθ with rfl | rfl
  · rcases hφ with rfl | rfl
    · exact h
    · exact hswap u v hu hv h
  · rcases hφ with rfl | rfl
    · exact (hswap v u hv hu h.symm).symm
    · exact (Equiv.swap x y).injective h

/-- The kind of a reference, and how many scopes outward it points. -/
def Reference.target (r : Reference) : ReferenceKind × Nat := (r.kind, r.distance)

theorem Binding.entry_target (ref : Binding) (kind : ReferenceKind) (n n' : String) (p p' : Pos) :
    (ref.entry kind n' p').map (·.target) = (ref.entry kind n p).map (·.target) := by
  cases ref <;> rfl

theorem Expr.Alike.references (h : Expr.Alike L σ e e') :
    e'.references.map (·.target) = e.references.map (·.target) := by
  induction h using Expr.Alike.rec (motive_2 := fun es es' _ =>
    (Expr.referencesAll es').map (·.target) = (Expr.referencesAll es).map (·.target)) with
  | literal => rfl
  | grouping _ ih => exact ih
  | unary _ _ ih => exact ih
  | binary _ _ _ ihl ihr => simp only [Expr.references, List.map_append, ihl, ihr]
  | logical _ _ ihl ihr => simp only [Expr.references, List.map_append, ihl, ihr]
  | @read ref => exact ref.entry_target _ _ _ _ _
  | @assign ref n n' _ _ _ _ ih =>
    simp only [Expr.references, List.map_append, ih, ref.entry_target _ n.name n'.name n.pos n'.pos]
  | call _ _ _ ihc iha => simp only [Expr.references, List.map_append, ihc, iha]
  | get _ _ ih => exact ih
  | set _ _ _ iho ihv => simp only [Expr.references, List.map_append, iho, ihv]
  | @receiver _ _ ref => exact ref.entry_target _ _ _ _ _
  | nil => rfl
  | cons _ _ ihe ihes => simp only [Expr.referencesAll, List.map_append, ihe, ihes]

theorem Stmt.AlikeAll.references (h : Stmt.AlikeAll L σ ss ss') :
    (Stmt.referencesAll ss').map (·.target) = (Stmt.referencesAll ss).map (·.target) := by
  induction h using Stmt.AlikeAll.rec
    (motive_1 := fun _ s s' _ => s'.references.map (·.target) = s.references.map (·.target))
    (motive_3 := fun _ f f' _ => f'.references.map (·.target) = f.references.map (·.target))
    (motive_4 := fun _ fs fs' _ =>
      (FunDecl.referencesAll fs').map (·.target) = (FunDecl.referencesAll fs).map (·.target)) with
  | expression he => exact he.references
  | print he => exact he.references
  | varDecl => rfl
  | varInit _ he => exact he.references
  | block _ _ ih => exact ih
  | branch hc _ ih => simp only [Stmt.references, List.map_append, hc.references, ih]
  | branchElse hc _ _ ihy ihn =>
    simp only [Stmt.references, List.map_append, hc.references, ihy, ihn]
  | loop hc _ ih => simp only [Stmt.references, List.map_append, hc.references, ih]
  | funDecl _ _ ih => exact ih
  | ret => rfl
  | retValue _ he => exact he.references
  | classDecl _ _ _ ih => exact ih
  | nil => rfl
  | cons _ _ ihs ihss => simp only [Stmt.referencesAll, List.map_append, ihs, ihss]
  | mk _ _ _ _ ih => exact ih
  | none => rfl
  | more _ _ ihf ihfs => simp only [FunDecl.referencesAll, List.map_append, ihf, ihfs]

end Lox
