import Lox.Proofs.Scope.Declarations

namespace Lox
set_option autoImplicit true

def Ident.move (f : Pos → Pos) (i : Ident) : Ident := ⟨i.name, f i.pos⟩

@[simp] theorem Ident.name_move (f : Pos → Pos) (i : Ident) : (i.move f).name = i.name := rfl

theorem Ident.map_name_move (f : Pos → Pos) (is : List Ident) :
    (is.map (·.move f)).map (·.name) = is.map (·.name) := by
  rw [List.map_map]
  rfl

variable {ρ ρ' : Type}

mutual

/-- A tree with every place moved by `f` and every note replaced by `g`. -/
def Expr.map (f : Pos → Pos) (g : ρ → ρ') : Expr ρ → Expr ρ'
  | .literal value => .literal value
  | .grouping inner => .grouping (inner.map f g)
  | .unary op pos operand => .unary op (f pos) (operand.map f g)
  | .binary left op pos right => .binary (left.map f g) op (f pos) (right.map f g)
  | .logical left op right => .logical (left.map f g) op (right.map f g)
  | .read name ref => .read (name.move f) (g ref)
  | .assign name ref value => .assign (name.move f) (g ref) (value.map f g)
  | .call callee args paren => .call (callee.map f g) (Expr.mapAll f g args) (f paren)
  | .get object name => .get (object.map f g) (name.move f)
  | .set object name value => .set (object.map f g) (name.move f) (value.map f g)
  | .receiver pos ref => .receiver (f pos) (g ref)

def Expr.mapAll (f : Pos → Pos) (g : ρ → ρ') : List (Expr ρ) → List (Expr ρ')
  | [] => []
  | e :: rest => e.map f g :: Expr.mapAll f g rest

end

mutual

def Stmt.map (f : Pos → Pos) (g : ρ → ρ') : Stmt ρ → Stmt ρ'
  | .expression e => .expression (e.map f g)
  | .print e => .print (e.map f g)
  | .varDecl name init => .varDecl (name.move f) (init.map (·.map f g))
  | .block body => .block (Stmt.mapAll f g body)
  | .branch condition yes none => .branch (condition.map f g) (yes.map f g) none
  | .branch condition yes (some no) =>
    .branch (condition.map f g) (yes.map f g) (some (no.map f g))
  | .loop condition body => .loop (condition.map f g) (body.map f g)
  | .funDecl decl => .funDecl (decl.map f g)
  | .ret pos value => .ret (f pos) (value.map (·.map f g))
  | .classDecl name methods => .classDecl (name.move f) (FunDecl.mapAll f g methods)

def Stmt.mapAll (f : Pos → Pos) (g : ρ → ρ') : List (Stmt ρ) → List (Stmt ρ')
  | [] => []
  | s :: rest => s.map f g :: Stmt.mapAll f g rest

def FunDecl.map (f : Pos → Pos) (g : ρ → ρ') : FunDecl ρ → FunDecl ρ'
  | ⟨name, params, body⟩ => ⟨name.move f, params.map (·.move f), Stmt.mapAll f g body⟩

def FunDecl.mapAll (f : Pos → Pos) (g : ρ → ρ') : List (FunDecl ρ) → List (FunDecl ρ')
  | [] => []
  | d :: rest => d.map f g :: FunDecl.mapAll f g rest

end

def Program.mapAll (f : Pos → Pos) (g : ρ → ρ') (P : Program ρ) : Program ρ' := Stmt.mapAll f g P

variable (f : Pos → Pos) (g : ρ → ρ')

section
variable {ρ : Type}

theorem Ident.map_move_id (is : List Ident) : is.map (·.move id) = is := List.map_id is

theorem Expr.map_id (e : Expr ρ) : e.map id id = e := by
  induction e using Expr.rec (motive_2 := fun args => Expr.mapAll id id args = args) with
  | literal => rfl
  | grouping inner ih => rw [Expr.map, ih]
  | unary op pos operand ih => rw [Expr.map, ih]; rfl
  | binary left op pos right ihl ihr => rw [Expr.map, ihl, ihr]; rfl
  | logical left op right ihl ihr => rw [Expr.map, ihl, ihr]
  | read => rfl
  | assign name ref value ih => rw [Expr.map, ih]; rfl
  | call callee args paren ihc iha => rw [Expr.map, ihc, iha]; rfl
  | get object name ih => rw [Expr.map, ih]; rfl
  | set object name value iho ihv => rw [Expr.map, iho, ihv]; rfl
  | receiver => rfl
  | nil => rfl
  | cons e args ihe iha => rw [Expr.mapAll, ihe, iha]

theorem Stmt.mapAll_id {body : List (Stmt ρ)} (h : ∀ s ∈ body, Stmt.map id id s = s) :
    Stmt.mapAll id id body = body := by
  induction body with
  | nil => rfl
  | cons s rest ih =>
    obtain ⟨hs, hrest⟩ := List.forall_mem_cons.1 h
    rw [Stmt.mapAll, hs, ih hrest]

theorem FunDecl.map_id {d : FunDecl ρ} (h : ∀ s ∈ d.body, Stmt.map id id s = s) :
    d.map id id = d := by
  cases d
  rw [FunDecl.map, Stmt.mapAll_id h, Ident.map_move_id]
  rfl

theorem Stmt.map_id (s : Stmt ρ) : s.map id id = s := by
  induction s using Stmt.induction with
  | expression e => rw [Stmt.map, e.map_id]
  | print e => rw [Stmt.map, e.map_id]
  | varDecl name init =>
    cases init with
    | none => rfl
    | some e => rw [Stmt.map, Option.map_some, e.map_id]; rfl
  | block body ih => rw [Stmt.map, Stmt.mapAll_id ih]
  | branch c yes no ihy ihn =>
    cases no with
    | none => rw [Stmt.map, c.map_id, ihy]
    | some no => rw [Stmt.map, c.map_id, ihy, ihn no rfl]
  | loop c body ih => rw [Stmt.map, c.map_id, ih]
  | funDecl decl ih => rw [Stmt.map, FunDecl.map_id ih]
  | ret pos value =>
    cases value with
    | none => rfl
    | some e => rw [Stmt.map, Option.map_some, e.map_id]; rfl
  | classDecl name methods ih =>
    rw [Stmt.map]
    congr 1
    induction methods with
    | nil => rfl
    | cons d rest ihr =>
      obtain ⟨hd, hrest⟩ := List.forall_mem_cons.1 ih
      rw [FunDecl.mapAll, FunDecl.map_id hd, ihr hrest]

theorem Program.mapAll_id (P : Program ρ) : P.mapAll id id = P := Stmt.mapAll_id fun s _ => s.map_id

end

@[simp] theorem FunDecl.name_map (d : FunDecl ρ) : (d.map f g).name = d.name.move f := by
  cases d
  rfl

theorem Stmt.names_map (s : Stmt ρ) : (s.map f g).names = s.names := by
  fun_induction Stmt.names s with
  | case1 => rfl
  | case2 decl => cases decl; rfl
  | case3 => rfl
  | case4 c yes ih => simp only [Stmt.map, Stmt.names, ih]
  | case5 c yes no ihy ihn => simp only [Stmt.map, Stmt.names, ihy, ihn]
  | case6 c body ih => simp only [Stmt.map, Stmt.names, ih]
  | case7 => rfl
  | case8 => rfl
  | case9 => rfl
  | case10 => rfl

@[simp] theorem Context.after_map (Γ : Context) (s : Stmt ρ) : Γ.after (s.map f g) = Γ.after s := by
  rw [after_eq_declare, after_eq_declare, s.names_map]

@[simp] theorem Context.body_map (Γ : Context) (kind : Enclosing) (params : List Ident) :
    Γ.body kind (params.map (·.move f)) = Γ.body kind params := by
  rw [Context.body, Context.body, params_eq_declare, params_eq_declare, Ident.map_name_move]

theorem Expr.resolve_map (Γ : Context) (e : Expr ρ) :
    (e.map f g).resolve Γ = (e.resolve Γ).map f id := by
  induction e using Expr.rec (motive_2 := fun args =>
    Expr.resolveAll Γ (Expr.mapAll f g args) = Expr.mapAll f id (Expr.resolveAll Γ args)) with
  | literal => rfl
  | grouping inner ih => simp only [Expr.map, Expr.resolve, ih]
  | unary op pos operand ih => simp only [Expr.map, Expr.resolve, ih]
  | binary left op pos right ihl ihr => simp only [Expr.map, Expr.resolve, ihl, ihr]
  | logical left op right ihl ihr => simp only [Expr.map, Expr.resolve, ihl, ihr]
  | read => rfl
  | assign name ref value ih => simp only [Expr.map, Expr.resolve, ih, Ident.name_move, id]
  | call callee args paren ihc iha => simp only [Expr.map, Expr.resolve, ihc, iha]
  | get object name ih => simp only [Expr.map, Expr.resolve, ih]
  | set object name value iho ihv => simp only [Expr.map, Expr.resolve, iho, ihv]
  | receiver => rfl
  | nil => rfl
  | cons e args ihe iha => simp only [Expr.mapAll, Expr.resolveAll, ihe, iha]

theorem Stmt.resolveAll_mapAll {body : List (Stmt ρ)}
    (h : ∀ s ∈ body, ∀ Γ, (Stmt.map f g s).resolve Γ = (s.resolve Γ).map f id) (Γ : Context) :
    Stmt.resolveAll Γ (Stmt.mapAll f g body) = Stmt.mapAll f id (Stmt.resolveAll Γ body) := by
  induction body generalizing Γ with
  | nil => rfl
  | cons s rest ih =>
    obtain ⟨hs, hrest⟩ := List.forall_mem_cons.1 h
    simp only [Stmt.mapAll, Stmt.resolveAll, hs, ih hrest, Context.after_map]

theorem FunDecl.resolve_map {d : FunDecl ρ}
    (h : ∀ s ∈ d.body, ∀ Γ, (Stmt.map f g s).resolve Γ = (s.resolve Γ).map f id) (Γ : Context)
    (kind : Enclosing) : (d.map f g).resolve Γ kind = (d.resolve Γ kind).map f id := by
  cases d
  simp only [FunDecl.map, FunDecl.resolve, Context.body_map, Stmt.resolveAll_mapAll f g h]

theorem Stmt.resolve_map (Γ : Context) (s : Stmt ρ) :
    (s.map f g).resolve Γ = (s.resolve Γ).map f id := by
  induction s using Stmt.induction generalizing Γ with
  | expression e => simp only [Stmt.map, Stmt.resolve, e.resolve_map]
  | print e => simp only [Stmt.map, Stmt.resolve, e.resolve_map]
  | varDecl name init => cases init <;> simp [Stmt.map, Stmt.resolve, Expr.resolve_map]
  | block body ih => simp only [Stmt.map, Stmt.resolve, Stmt.resolveAll_mapAll f g ih]
  | branch c yes no ihy ihn =>
    cases no with
    | none => simp only [Stmt.map, Stmt.resolve, c.resolve_map, ihy]
    | some no =>
      simp only [Stmt.map, Stmt.resolve, c.resolve_map, ihy, ihn no rfl, Context.after_map]
  | loop c body ih => simp only [Stmt.map, Stmt.resolve, c.resolve_map, ih]
  | funDecl decl ih =>
    simp only [Stmt.map, Stmt.resolve, FunDecl.name_map, Ident.name_move,
      FunDecl.resolve_map f g ih]
  | ret pos value => cases value <;> simp [Stmt.map, Stmt.resolve, Expr.resolve_map]
  | classDecl name methods ih =>
    simp only [Stmt.map, Stmt.resolve, Ident.name_move]
    congr 1
    induction methods with
    | nil => rfl
    | cons d rest ihr =>
      obtain ⟨hd, hrest⟩ := List.forall_mem_cons.1 ih
      simp only [FunDecl.mapAll, FunDecl.resolveAll, FunDecl.name_map, Ident.name_move,
        FunDecl.resolve_map f g hd, ihr hrest]

theorem Program.resolve_mapAll (P : Program ρ) : (P.mapAll f g).resolve = P.resolve.mapAll f id :=
  Stmt.resolveAll_mapAll f g (fun s _ Γ => s.resolve_map f g Γ) {}

theorem Context.redeclared_move (Γ : Context) (name : Ident) :
    Γ.redeclared (name.move f) = [] ↔ Γ.redeclared name = [] := by
  change (if (Γ.status? name.name).isSome then [_] else []) = [] ↔ Γ.redeclared name = []
  simp [Context.redeclared]

theorem Context.redeclaredParams_move (Γ : Context) (params : List Ident) :
    Γ.redeclaredParams (params.map (·.move f)) = [] ↔ Γ.redeclaredParams params = [] := by
  induction params generalizing Γ with
  | nil => rfl
  | cons p rest ih =>
    simp only [List.map_cons, Context.redeclaredParams, List.append_eq_nil_iff, Ident.name_move,
      Context.redeclared_move, ih]

theorem Context.returnMisuses_move (Γ : Context) (pos : Pos) (hasValue : Bool) :
    Γ.returnMisuses (f pos) hasValue = [] ↔ Γ.returnMisuses pos hasValue = [] := by
  unfold Context.returnMisuses
  split
  · simp
  · split <;> simp
  · rfl

theorem Expr.misuses_map (Γ : Context) (e : Expr ρ) :
    (e.map f g).misuses Γ = [] ↔ e.misuses Γ = [] := by
  induction e using Expr.rec (motive_2 := fun args =>
    Expr.misusesAll Γ (Expr.mapAll f g args) = [] ↔ Expr.misusesAll Γ args = []) with
  | literal => rfl
  | grouping inner ih => exact ih
  | unary op pos operand ih => exact ih
  | binary left op pos right ihl ihr =>
    simp only [Expr.map, Expr.misuses, List.append_eq_nil_iff, ihl, ihr]
  | logical left op right ihl ihr =>
    simp only [Expr.map, Expr.misuses, List.append_eq_nil_iff, ihl, ihr]
  | read name ref =>
    change (if Γ.status? name.name = some .pending then [_] else []) = [] ↔ _
    simp [Expr.misuses]
  | assign name ref value ih => exact ih
  | call callee args paren ihc iha =>
    simp only [Expr.map, Expr.misuses, List.append_eq_nil_iff, ihc, iha]
  | get object name ih => exact ih
  | set object name value iho ihv =>
    simp only [Expr.map, Expr.misuses, List.append_eq_nil_iff, iho, ihv]
  | receiver pos ref => simp [Expr.map, Expr.misuses]
  | nil => rfl
  | cons e args ihe iha =>
    simp only [Expr.mapAll, Expr.misusesAll, List.append_eq_nil_iff, ihe, iha]

theorem Stmt.misusesAll_mapAll {body : List (Stmt ρ)}
    (h : ∀ s ∈ body, ∀ Γ, (Stmt.map f g s).misuses Γ = [] ↔ s.misuses Γ = []) (Γ : Context) :
    Stmt.misusesAll Γ (Stmt.mapAll f g body) = [] ↔ Stmt.misusesAll Γ body = [] := by
  induction body generalizing Γ with
  | nil => rfl
  | cons s rest ih =>
    obtain ⟨hs, hrest⟩ := List.forall_mem_cons.1 h
    simp only [Stmt.mapAll, Stmt.misusesAll, List.append_eq_nil_iff, hs, ih hrest,
      Context.after_map]

theorem FunDecl.misuses_map {d : FunDecl ρ}
    (h : ∀ s ∈ d.body, ∀ Γ, (Stmt.map f g s).misuses Γ = [] ↔ s.misuses Γ = []) (Γ : Context)
    (kind : Enclosing) : (d.map f g).misuses Γ kind = [] ↔ d.misuses Γ kind = [] := by
  cases d
  simp only [FunDecl.map, FunDecl.misuses, List.append_eq_nil_iff, Context.body_map,
    Context.redeclaredParams_move, Stmt.misusesAll_mapAll f g h]

/-- Whether anything is misused does not depend on where it stands. -/
theorem Stmt.misuses_map (Γ : Context) (s : Stmt ρ) :
    (s.map f g).misuses Γ = [] ↔ s.misuses Γ = [] := by
  induction s using Stmt.induction generalizing Γ with
  | expression e => exact e.misuses_map f g Γ
  | print e => exact e.misuses_map f g Γ
  | varDecl name init =>
    cases init <;>
      simp [Stmt.map, Stmt.misuses, Expr.misuses_map, Context.redeclared_move]
  | block body ih => exact Stmt.misusesAll_mapAll f g ih _
  | branch c yes no ihy ihn =>
    cases no with
    | none => simp only [Stmt.map, Stmt.misuses, List.append_eq_nil_iff, c.misuses_map, ihy]
    | some no =>
      simp only [Stmt.map, Stmt.misuses, List.append_eq_nil_iff, c.misuses_map, ihy, ihn no rfl,
        Context.after_map]
  | loop c body ih => simp only [Stmt.map, Stmt.misuses, List.append_eq_nil_iff, c.misuses_map, ih]
  | funDecl decl ih =>
    simp only [Stmt.map, Stmt.misuses, List.append_eq_nil_iff, FunDecl.name_map, Ident.name_move,
      Context.redeclared_move, FunDecl.misuses_map f g ih]
  | ret pos value =>
    cases value <;>
      simp [Stmt.map, Stmt.misuses, Expr.misuses_map, Context.returnMisuses_move]
  | classDecl name methods ih =>
    simp only [Stmt.map, Stmt.misuses, List.append_eq_nil_iff, Context.redeclared_move,
      Ident.name_move]
    refine and_congr_right fun _ => ?_
    induction methods with
    | nil => rfl
    | cons d rest ihr =>
      obtain ⟨hd, hrest⟩ := List.forall_mem_cons.1 ih
      simp only [FunDecl.mapAll, FunDecl.misusesAll, List.append_eq_nil_iff, FunDecl.name_map,
        Ident.name_move, FunDecl.misuses_map f g hd, ihr hrest]

theorem Program.misuses_mapAll (P : Program ρ) : (P.mapAll f g).misuses = [] ↔ P.misuses = [] :=
  Stmt.misusesAll_mapAll f g (fun s _ Γ => s.misuses_map f g Γ) {}

theorem Stmt.declarationsAll_mapAll {body : List (Stmt ρ)}
    (h : ∀ s ∈ body, ∀ i b, (Stmt.map f g s).declarations i b = s.declarations i b) (i : Bool) :
    Stmt.declarationsAll i (Stmt.mapAll f g body) = Stmt.declarationsAll i body := by
  induction body with
  | nil => rfl
  | cons s rest ih =>
    obtain ⟨hs, hrest⟩ := List.forall_mem_cons.1 h
    simp only [Stmt.mapAll, Stmt.declarationsAll, hs, ih hrest]

theorem FunDecl.declarations_map {d : FunDecl ρ}
    (h : ∀ s ∈ d.body, ∀ i b, (Stmt.map f g s).declarations i b = s.declarations i b) :
    (d.map f g).declarations = d.declarations := by
  cases d
  simp only [FunDecl.map, FunDecl.declarations, Stmt.declarationsAll_mapAll f g h, List.map_map]
  rfl

theorem Stmt.declarations_map (s : Stmt ρ) (i b : Bool) :
    (s.map f g).declarations i b = s.declarations i b := by
  induction s using Stmt.induction generalizing i b with
  | expression => rfl
  | print => rfl
  | varDecl name init => cases init <;> rfl
  | block body ih => exact Stmt.declarationsAll_mapAll f g ih true
  | branch c yes no ihy ihn =>
    cases no with
    | none => exact ihy i true
    | some no => simp only [Stmt.map, Stmt.declarations, ihy, ihn no rfl]
  | loop c body ih => exact ih i true
  | funDecl decl ih =>
    simp only [Stmt.map, Stmt.declarations, FunDecl.name_map, Ident.name_move,
      FunDecl.declarations_map f g ih]
  | ret pos value => cases value <;> rfl
  | classDecl name methods ih =>
    simp only [Stmt.map, Stmt.declarations, Ident.name_move]
    congr 1
    induction methods with
    | nil => rfl
    | cons d rest ihr =>
      obtain ⟨hd, hrest⟩ := List.forall_mem_cons.1 ih
      simp only [FunDecl.mapAll, FunDecl.declarationsAll, FunDecl.declarations_map f g hd,
        ihr hrest]

theorem Program.declarations_mapAll (P : Program ρ) :
    (P.mapAll f g).declarations = P.declarations :=
  Stmt.declarationsAll_mapAll f g (fun s _ i b => s.declarations_map f g i b) false

end Lox
