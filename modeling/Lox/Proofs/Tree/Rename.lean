import Lox.Proofs.Scope.Declarations

namespace Lox
set_option autoImplicit true

def Ident.rename (x y : String) (i : Ident) : Ident := if i.name = x then ⟨y, i.pos⟩ else i

mutual

/-- The references to `x` in the scope that lies `d` scopes outward are made references to `y`. -/
def Expr.rename (x y : String) (d : Nat) : Expr Binding → Expr Binding
  | .literal value => .literal value
  | .grouping inner => .grouping (inner.rename x y d)
  | .unary op pos operand => .unary op pos (operand.rename x y d)
  | .binary left op pos right => .binary (left.rename x y d) op pos (right.rename x y d)
  | .logical left op right => .logical (left.rename x y d) op (right.rename x y d)
  | .read name ref => .read (if ref = .bound d then name.rename x y else name) ref
  | .assign name ref value =>
    .assign (if ref = .bound d then name.rename x y else name) ref (value.rename x y d)
  | .call callee args paren => .call (callee.rename x y d) (Expr.renameAll x y d args) paren
  | .get object name => .get (object.rename x y d) name
  | .set object name value => .set (object.rename x y d) name (value.rename x y d)
  | .receiver pos ref => .receiver pos ref

def Expr.renameAll (x y : String) (d : Nat) : List (Expr Binding) → List (Expr Binding)
  | [] => []
  | e :: rest => e.rename x y d :: Expr.renameAll x y d rest

end

mutual

/-- In the scope itself, where `d` is zero, the variable is declared under its new name. -/
def Stmt.rename (x y : String) (d : Nat) : Stmt Binding → Stmt Binding
  | .expression e => .expression (e.rename x y d)
  | .print e => .print (e.rename x y d)
  | .varDecl name init =>
    .varDecl (if d = 0 then name.rename x y else name) (init.map (·.rename x y d))
  | .block body => .block (Stmt.renameAll x y (d + 1) body)
  | .branch condition yes none => .branch (condition.rename x y d) (yes.rename x y d) none
  | .branch condition yes (some no) =>
    .branch (condition.rename x y d) (yes.rename x y d) (some (no.rename x y d))
  | .loop condition body => .loop (condition.rename x y d) (body.rename x y d)
  | .funDecl decl => .funDecl (decl.rename x y d)
  | .ret pos value => .ret pos (value.map (·.rename x y d))
  | .classDecl name methods => .classDecl name (FunDecl.renameAll x y (d + 1) methods)

def Stmt.renameAll (x y : String) (d : Nat) : List (Stmt Binding) → List (Stmt Binding)
  | [] => []
  | s :: rest => s.rename x y d :: Stmt.renameAll x y d rest

def FunDecl.rename (x y : String) (d : Nat) : FunDecl Binding → FunDecl Binding
  | ⟨name, params, body⟩ => ⟨name, params, Stmt.renameAll x y (d + 1) body⟩

def FunDecl.renameAll (x y : String) (d : Nat) : List (FunDecl Binding) → List (FunDecl Binding)
  | [] => []
  | f :: rest => f.rename x y d :: FunDecl.renameAll x y d rest

end

/-- Statements declare a variable in the scope they stand in. -/
def Stmt.DeclareVar (x : String) (body : List (Stmt ρ)) : Prop :=
  ∃ name init, Stmt.varDecl name init ∈ body ∧ name.name = x

namespace FunDecl

/-- A function has a parameter or a variable `x`. -/
def DeclaresVar (x : String) (f : FunDecl ρ) : Prop :=
  x ∈ f.params.map (·.name) ∨ Stmt.DeclareVar x f.body

def renameOwn (x y : String) (f : FunDecl Binding) : FunDecl Binding :=
  ⟨f.name, f.params.map (·.rename x y), Stmt.renameAll x y 0 f.body⟩

end FunDecl

/-- A variable `x` of one block or function in a statement is renamed to `y`. -/
inductive Stmt.Renames (x y : String) : Stmt Binding → Stmt Binding → Prop where
  | block : Stmt.DeclareVar x body → Renames x y (.block body) (.block (Stmt.renameAll x y 0 body))
  | function : f.DeclaresVar x → Renames x y (.funDecl f) (.funDecl (f.renameOwn x y))
  | method : f.DeclaresVar x →
      Renames x y (.classDecl name (fs ++ f :: gs)) (.classDecl name (fs ++ f.renameOwn x y :: gs))
  | inBlock : Renames x y s s' →
      Renames x y (.block (ss ++ s :: ts)) (.block (ss ++ s' :: ts))
  | inFunction : Renames x y s s' →
      Renames x y (.funDecl ⟨name, params, ss ++ s :: ts⟩) (.funDecl ⟨name, params, ss ++ s' :: ts⟩)
  | inMethod : Renames x y s s' →
      Renames x y (.classDecl name (fs ++ ⟨n, params, ss ++ s :: ts⟩ :: gs))
        (.classDecl name (fs ++ ⟨n, params, ss ++ s' :: ts⟩ :: gs))
  | yes : Renames x y yes yes' → Renames x y (.branch c yes no) (.branch c yes' no)
  | no : Renames x y no no' → Renames x y (.branch c yes (some no)) (.branch c yes (some no'))
  | loop : Renames x y body body' → Renames x y (.loop c body) (.loop c body')

/-- A variable `x` of one block or function in a program is renamed to `y`. -/
inductive Program.Renames (x y : String) : Program Binding → Program Binding → Prop where
  | intro : Stmt.Renames x y s s' → Program.Renames x y (ss ++ s :: ts) (ss ++ s' :: ts)

variable {x y : String}

theorem Stmt.declares_of_declareVar {body : List (Stmt ρ)} (h : Stmt.DeclareVar x body)
    (i : Bool) : ∃ D ∈ Stmt.declarationsAll i body, D.name = x := by
  obtain ⟨name, init, hmem, rfl⟩ := h
  exact ⟨_, Stmt.declarations_subset hmem i List.mem_cons_self, rfl⟩

theorem FunDecl.DeclaresVar.declares {f : FunDecl ρ} (h : f.DeclaresVar x) :
    ∃ D ∈ f.declarations, D.name = x := by
  obtain ⟨name, params, body⟩ := f
  rcases h with hparam | hvar
  · obtain ⟨p, hp, rfl⟩ := List.mem_map.1 hparam
    exact ⟨_, List.mem_append_left _ (List.mem_map_of_mem hp), rfl⟩
  · obtain ⟨D, hD, hname⟩ := Stmt.declares_of_declareVar hvar true
    exact ⟨D, List.mem_append_right _ hD, hname⟩

/-- What is renamed is declared. -/
theorem Stmt.Renames.declares (h : Stmt.Renames x y s s') (i g : Bool) :
    ∃ D ∈ s.declarations i g, D.name = x := by
  have hrow (ss ts : List (Stmt Binding)) (s : Stmt Binding) (i : Bool) :
      s.declarations i false ⊆ Stmt.declarationsAll i (ss ++ s :: ts) :=
    Stmt.declarations_subset (List.mem_append_right _ List.mem_cons_self) i
  have hmethods (fs gs : List (FunDecl Binding)) (f : FunDecl Binding) :
      f.declarations ⊆ FunDecl.declarationsAll (fs ++ f :: gs) :=
    FunDecl.declarations_subset (List.mem_append_right _ List.mem_cons_self)
  induction h generalizing i g with
  | block hvar => exact Stmt.declares_of_declareVar hvar true
  | function hvar =>
    obtain ⟨D, hD, hname⟩ := hvar.declares
    exact ⟨D, List.mem_cons_of_mem _ hD, hname⟩
  | method hvar =>
    obtain ⟨D, hD, hname⟩ := hvar.declares
    exact ⟨D, List.mem_cons_of_mem _ (hmethods _ _ _ hD), hname⟩
  | inBlock _ ih =>
    obtain ⟨D, hD, hname⟩ := ih true false
    exact ⟨D, hrow _ _ _ _ hD, hname⟩
  | inFunction _ ih =>
    obtain ⟨D, hD, hname⟩ := ih true false
    exact ⟨D, List.mem_cons_of_mem _ (List.mem_append_right _ (hrow _ _ _ _ hD)), hname⟩
  | inMethod _ ih =>
    obtain ⟨D, hD, hname⟩ := ih true false
    refine ⟨D, List.mem_cons_of_mem _ (hmethods _ _ _ ?_), hname⟩
    exact List.mem_append_right _ (hrow _ _ _ _ hD)
  | yes _ ih =>
    obtain ⟨D, hD, hname⟩ := ih i true
    exact ⟨D, Stmt.Under.yes.declarations i g hD, hname⟩
  | no _ ih =>
    obtain ⟨D, hD, hname⟩ := ih i true
    exact ⟨D, Stmt.Under.no.declarations i g hD, hname⟩
  | loop _ ih => exact ih i true

theorem Stmt.mem_declarationsAll {body : List (Stmt ρ)} (h : D ∈ Stmt.declarationsAll i body) :
    ∃ s ∈ body, D ∈ s.declarations i false := by
  induction body with
  | nil => cases h
  | cons s rest ih =>
    rcases List.mem_append.1 h with h | h
    · exact ⟨s, List.mem_cons_self, h⟩
    · obtain ⟨t, ht, hD⟩ := ih h
      exact ⟨t, List.mem_cons_of_mem _ ht, hD⟩

theorem FunDecl.mem_declarationsAll {fs : List (FunDecl ρ)} (h : D ∈ FunDecl.declarationsAll fs) :
    ∃ f ∈ fs, D ∈ f.declarations := by
  induction fs with
  | nil => cases h
  | cons f rest ih =>
    rcases List.mem_append.1 h with h | h
    · exact ⟨f, List.mem_cons_self, h⟩
    · obtain ⟨g, hg, hD⟩ := ih h
      exact ⟨g, List.mem_cons_of_mem _ hg, hD⟩

/-- A declaration of a variable or a parameter in a scope, not under a branch or a loop. -/
structure Declaration.Local (D : Declaration) : Prop where
  kind : D.kind = .variable ∨ D.kind = .parameter
  inScope : D.inScope = true
  direct : D.guarded = false

/-- What a local declaration of a statement is: the statement itself, or one that can be renamed. -/
abbrev Stmt.Offers (y : String) (i g : Bool) (D : Declaration) (s : Stmt Binding) : Prop :=
  (∃ name init, s = .varDecl name init ∧ D = ⟨.variable, name.name, i, g⟩) ∨
    ∃ s', Stmt.Renames D.name y s s'

theorem Stmt.offers_row {body : List (Stmt Binding)} (hD : D ∈ Stmt.declarationsAll true body)
    (ih : ∀ s ∈ body, ∀ i g, D ∈ Stmt.declarations i g s → Stmt.Offers y i g D s) :
    Stmt.DeclareVar D.name body ∨
      ∃ ss s s' ts, body = ss ++ s :: ts ∧ Stmt.Renames D.name y s s' := by
  obtain ⟨s, hs, hD⟩ := Stmt.mem_declarationsAll hD
  rcases ih s hs true false hD with ⟨name, init, rfl, rfl⟩ | ⟨s', hren⟩
  · exact .inl ⟨name, init, hs, rfl⟩
  · obtain ⟨ss, ts, hbody⟩ := List.append_of_mem hs
    exact .inr ⟨ss, s, s', ts, hbody, hren⟩

theorem FunDecl.offers {f : FunDecl Binding} (hD : D ∈ f.declarations)
    (ih : ∀ s ∈ f.body, ∀ i g, D ∈ Stmt.declarations i g s → Stmt.Offers y i g D s) :
    f.DeclaresVar D.name ∨
      ∃ ss s s' ts, f = ⟨f.name, f.params, ss ++ s :: ts⟩ ∧ Stmt.Renames D.name y s s' := by
  obtain ⟨name, params, body⟩ := f
  rcases List.mem_append.1 hD with hparam | hD
  · obtain ⟨p, hp, rfl⟩ := List.mem_map.1 hparam
    exact .inl (.inl (List.mem_map_of_mem hp))
  · rcases Stmt.offers_row hD ih with hvar | ⟨ss, s, s', ts, hbody, hren⟩
    · exact .inl (.inr hvar)
    · exact .inr ⟨ss, s, s', ts, congrArg _ hbody, hren⟩

theorem Stmt.offers (hl : D.Local) (s : Stmt Binding) (i g : Bool) (hD : D ∈ s.declarations i g) :
    s.Offers y i g D := by
  have hfunction : ∀ x i g, D ≠ ⟨.function, x, i, g⟩ := by
    rintro x i g rfl
    rcases hl.kind with h | h <;> cases h
  have hclass : ∀ x i g, D ≠ ⟨.cls, x, i, g⟩ := by
    rintro x i g rfl
    rcases hl.kind with h | h <;> cases h
  -- nothing that is guarded is a local declaration
  have hguard : ∀ {s i}, Stmt.Offers y i true D s → ∃ s', Stmt.Renames D.name y s s' := by
    rintro s i (⟨name, init, rfl, rfl⟩ | hren)
    · cases hl.direct
    · exact hren
  induction s using Stmt.induction generalizing i g with
  | expression => cases hD
  | print => cases hD
  | ret => cases hD
  | varDecl name init => exact .inl ⟨name, init, rfl, List.mem_singleton.1 hD⟩
  | block body ih =>
    rcases Stmt.offers_row hD ih with hvar | ⟨ss, s, s', ts, rfl, hren⟩
    · exact .inr ⟨_, .block hvar⟩
    · exact .inr ⟨_, .inBlock hren⟩
  | branch c yes no ihy ihn =>
    cases no with
    | none =>
      obtain ⟨yes', hren⟩ := hguard (ihy i true hD)
      exact .inr ⟨_, .yes hren⟩
    | some no =>
      rcases List.mem_append.1 hD with hD | hD
      · obtain ⟨yes', hren⟩ := hguard (ihy i true hD)
        exact .inr ⟨_, .yes hren⟩
      · obtain ⟨no', hren⟩ := hguard (ihn no rfl i true hD)
        exact .inr ⟨_, .no hren⟩
  | loop c body ih =>
    obtain ⟨body', hren⟩ := hguard (ih i true hD)
    exact .inr ⟨_, .loop hren⟩
  | funDecl decl ih =>
    rcases List.mem_cons.1 hD with hD | hD
    · exact absurd hD (hfunction _ _ _)
    · rcases FunDecl.offers hD ih with hvar | ⟨ss, s, s', ts, hdecl, hren⟩
      · exact .inr ⟨_, .function hvar⟩
      · rw [hdecl]
        exact .inr ⟨_, .inFunction hren⟩
  | classDecl name methods ih =>
    rcases List.mem_cons.1 hD with hD | hD
    · exact absurd hD (hclass _ _ _)
    · obtain ⟨f, hf, hDf⟩ := FunDecl.mem_declarationsAll hD
      obtain ⟨fs, gs, rfl⟩ := List.append_of_mem hf
      rcases FunDecl.offers hDf (ih f hf) with hvar | ⟨ss, s, s', ts, hdecl, hren⟩
      · exact .inr ⟨_, .method hvar⟩
      · rw [hdecl]
        exact .inr ⟨_, .inMethod hren⟩

/-- Every local declaration can be renamed. -/
theorem Program.exists_renames {P : Program Binding} (hD : D ∈ P.declarations) (hl : D.Local)
    (y : String) : ∃ P', P.Renames D.name y P' := by
  obtain ⟨s, hs, hD⟩ := Stmt.mem_declarationsAll hD
  rcases Stmt.offers hl s false false hD with ⟨name, init, rfl, rfl⟩ | ⟨s', hren⟩
  · cases hl.inScope
  · obtain ⟨ss, ts, rfl⟩ := List.append_of_mem hs
    exact ⟨_, .intro hren⟩

end Lox
