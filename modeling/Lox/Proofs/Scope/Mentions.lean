import Lox.Proofs.Scope.Resolved
import Lox.Proofs.Tree
import Lox.Scope.Reference

namespace Lox
set_option autoImplicit true

/-- A reference in a tree, with the note on it. -/
structure Mention (ρ : Type) where
  kind : ReferenceKind
  name : String
  pos : Pos
  note : ρ

section
variable {ρ : Type}

mutual

/-- The references in an expression, in the order in which resolution meets them. -/
def Expr.mentions : Expr ρ → List (Mention ρ)
  | .literal _ => []
  | .grouping inner => inner.mentions
  | .unary _ _ operand => operand.mentions
  | .binary left _ _ right => left.mentions ++ right.mentions
  | .logical left _ right => left.mentions ++ right.mentions
  | .read name ref => [⟨.read, name.name, name.pos, ref⟩]
  | .assign name ref value => value.mentions ++ [⟨.assign, name.name, name.pos, ref⟩]
  | .call callee args _ => callee.mentions ++ Expr.mentionsAll args
  | .get object _ => object.mentions
  | .set object _ value => value.mentions ++ object.mentions
  | .receiver pos ref => [⟨.receiver, receiverName, pos, ref⟩]

def Expr.mentionsAll : List (Expr ρ) → List (Mention ρ)
  | [] => []
  | e :: rest => e.mentions ++ Expr.mentionsAll rest

end

mutual

def Stmt.mentions : Stmt ρ → List (Mention ρ)
  | .expression e => e.mentions
  | .print e => e.mentions
  | .varDecl _ none => []
  | .varDecl _ (some init) => init.mentions
  | .block body => Stmt.mentionsAll body
  | .branch condition yes none => condition.mentions ++ yes.mentions
  | .branch condition yes (some no) => condition.mentions ++ yes.mentions ++ no.mentions
  | .loop condition body => condition.mentions ++ body.mentions
  | .funDecl decl => decl.mentions
  | .ret _ none => []
  | .ret _ (some value) => value.mentions
  | .classDecl _ methods => FunDecl.mentionsAll methods

def Stmt.mentionsAll : List (Stmt ρ) → List (Mention ρ)
  | [] => []
  | s :: rest => s.mentions ++ Stmt.mentionsAll rest

def FunDecl.mentions : FunDecl ρ → List (Mention ρ)
  | ⟨_, _, body⟩ => Stmt.mentionsAll body

def FunDecl.mentionsAll : List (FunDecl ρ) → List (Mention ρ)
  | [] => []
  | f :: rest => f.mentions ++ FunDecl.mentionsAll rest

end

def Program.mentions (P : Program ρ) : List (Mention ρ) := Stmt.mentionsAll P

theorem FunDecl.mentions_eq (f : FunDecl ρ) : f.mentions = Stmt.mentionsAll f.body := by
  cases f
  rfl

end

def Mention.entry (m : Mention Binding) : List Reference := m.note.entry m.kind m.name m.pos

theorem Expr.references_eq (e : Expr Binding) : e.references = e.mentions.flatMap (·.entry) := by
  induction e using Expr.rec (motive_2 := fun args =>
    Expr.referencesAll args = (Expr.mentionsAll args).flatMap (·.entry)) with
  | literal => rfl
  | grouping inner ih => exact ih
  | unary op pos operand ih => exact ih
  | binary left op pos right ihl ihr => rw [references, mentions, List.flatMap_append, ihl, ihr]
  | logical left op right ihl ihr => rw [references, mentions, List.flatMap_append, ihl, ihr]
  | read name ref => exact (List.flatMap_singleton _ _).symm
  | assign name ref value ih =>
    rw [references, mentions, List.flatMap_append, ih, List.flatMap_singleton]
    rfl
  | call callee args paren ihc iha => rw [references, mentions, List.flatMap_append, ihc, iha]
  | get object name ih => exact ih
  | set object name value iho ihv => rw [references, mentions, List.flatMap_append, iho, ihv]
  | receiver pos ref => exact (List.flatMap_singleton _ _).symm
  | nil => rfl
  | cons e args ihe iha => rw [referencesAll, mentionsAll, List.flatMap_append, ihe, iha]

theorem Stmt.referencesAll_eq_of {body : List (Stmt Binding)}
    (ih : ∀ s ∈ body, Stmt.references s = s.mentions.flatMap (·.entry)) :
    Stmt.referencesAll body = (Stmt.mentionsAll body).flatMap (·.entry) := by
  induction body with
  | nil => rfl
  | cons s rest ihr =>
    obtain ⟨ihs, ihrest⟩ := List.forall_mem_cons.1 ih
    rw [referencesAll, mentionsAll, List.flatMap_append, ihs, ihr ihrest]

theorem FunDecl.references_eq_of {f : FunDecl Binding}
    (ih : ∀ s ∈ f.body, Stmt.references s = s.mentions.flatMap (·.entry)) :
    f.references = f.mentions.flatMap (·.entry) := by
  cases f
  exact Stmt.referencesAll_eq_of ih

theorem Stmt.references_eq (s : Stmt Binding) : s.references = s.mentions.flatMap (·.entry) := by
  induction s using Stmt.induction with
  | expression e => exact e.references_eq
  | print e => exact e.references_eq
  | varDecl name init =>
    cases init with
    | none => rfl
    | some e => exact e.references_eq
  | block body ih => exact referencesAll_eq_of ih
  | branch c yes no ihy ihn =>
    cases no with
    | none => rw [references, mentions, List.flatMap_append, c.references_eq, ihy]
    | some no =>
      rw [references, mentions, List.flatMap_append, List.flatMap_append, c.references_eq, ihy,
        ihn no rfl]
  | loop c body ih => rw [references, mentions, List.flatMap_append, c.references_eq, ih]
  | funDecl decl ih => exact FunDecl.references_eq_of ih
  | ret pos value =>
    cases value with
    | none => rfl
    | some e => exact e.references_eq
  | classDecl name methods ih =>
    rw [references, mentions]
    induction methods with
    | nil => rfl
    | cons f rest ihr =>
      obtain ⟨ihf, ihrest⟩ := List.forall_mem_cons.1 ih
      rw [FunDecl.referencesAll, FunDecl.mentionsAll, List.flatMap_append,
        FunDecl.references_eq_of ihf, ihr ihrest]

/-- The entries of a program are those of its references. -/
theorem Program.references_eq (P : Program Binding) :
    Stmt.referencesAll P = P.mentions.flatMap (·.entry) :=
  Stmt.referencesAll_eq_of fun s _ => s.references_eq

theorem Expr.places_mentions (Γ : Context) (e : Expr ρ) :
    (e.resolve Γ).mentions.map (·.pos) = e.mentions.map (·.pos) := by
  induction e using Expr.rec (motive_2 := fun args =>
    (Expr.mentionsAll (Expr.resolveAll Γ args)).map Mention.pos =
      (Expr.mentionsAll args).map Mention.pos) with
  | literal => rfl
  | grouping inner ih => exact ih
  | unary op pos operand ih => exact ih
  | binary left op pos right ihl ihr =>
    rw [resolve, mentions, mentions, List.map_append, List.map_append, ihl, ihr]
  | logical left op right ihl ihr =>
    rw [resolve, mentions, mentions, List.map_append, List.map_append, ihl, ihr]
  | read => rfl
  | assign name ref value ih =>
    rw [resolve, mentions, mentions, List.map_append, List.map_append, ih]
    rfl
  | call callee args paren ihc iha =>
    rw [resolve, mentions, mentions, List.map_append, List.map_append, ihc, iha]
  | get object name ih => exact ih
  | set object name value iho ihv =>
    rw [resolve, mentions, mentions, List.map_append, List.map_append, iho, ihv]
  | receiver => rfl
  | nil => rfl
  | cons e args ihe iha =>
    rw [resolveAll, mentionsAll, mentionsAll, List.map_append, List.map_append, ihe, iha]

theorem Stmt.places_mentionsAll_of {body : List (Stmt ρ)}
    (ih : ∀ s ∈ body, ∀ Γ, (Stmt.resolve Γ s).mentions.map (·.pos) = s.mentions.map (·.pos))
    (Γ : Context) :
    (Stmt.mentionsAll (Stmt.resolveAll Γ body)).map (·.pos) =
      (Stmt.mentionsAll body).map (·.pos) := by
  induction body generalizing Γ with
  | nil => rfl
  | cons s rest ihr =>
    obtain ⟨ihs, ihrest⟩ := List.forall_mem_cons.1 ih
    rw [resolveAll, mentionsAll, mentionsAll, List.map_append, List.map_append, ihs, ihr ihrest]

theorem FunDecl.places_mentions_of {f : FunDecl ρ}
    (ih : ∀ s ∈ f.body, ∀ Γ, (Stmt.resolve Γ s).mentions.map (·.pos) = s.mentions.map (·.pos))
    (Γ : Context) (kind : Enclosing) :
    (f.resolve Γ kind).mentions.map (·.pos) = f.mentions.map (·.pos) := by
  cases f
  exact Stmt.places_mentionsAll_of ih _

theorem Stmt.places_mentions (s : Stmt ρ) (Γ : Context) :
    (s.resolve Γ).mentions.map (·.pos) = s.mentions.map (·.pos) := by
  induction s using Stmt.induction generalizing Γ with
  | expression e => exact e.places_mentions Γ
  | print e => exact e.places_mentions Γ
  | varDecl name init =>
    cases init with
    | none => rfl
    | some e => exact e.places_mentions _
  | block body ih => exact places_mentionsAll_of ih _
  | branch c yes no ihy ihn =>
    cases no with
    | none =>
      rw [resolve, mentions, mentions, List.map_append, List.map_append, c.places_mentions, ihy]
    | some no =>
      rw [resolve, mentions, mentions, List.map_append, List.map_append, List.map_append,
        List.map_append, c.places_mentions, ihy, ihn no rfl]
  | loop c body ih =>
    rw [resolve, mentions, mentions, List.map_append, List.map_append, c.places_mentions, ih]
  | funDecl decl ih => exact FunDecl.places_mentions_of ih _ _
  | ret pos value =>
    cases value with
    | none => rfl
    | some e => exact e.places_mentions Γ
  | classDecl name methods ih =>
    rw [resolve, mentions, mentions]
    induction methods with
    | nil => rfl
    | cons f rest ihr =>
      obtain ⟨ihf, ihrest⟩ := List.forall_mem_cons.1 ih
      rw [FunDecl.resolveAll, FunDecl.mentionsAll, FunDecl.mentionsAll, List.map_append,
        List.map_append, FunDecl.places_mentions_of ihf, ihr ihrest]

theorem Program.places_mentions (P : Program ρ) :
    P.resolve.mentions.map (·.pos) = P.mentions.map (·.pos) :=
  Stmt.places_mentionsAll_of (fun s _ => s.places_mentions) {}

def Code.mention? : Code ρ → Option (Mention ρ)
  | .expr (.read name ref) => some ⟨.read, name.name, name.pos, ref⟩
  | .expr (.assign name ref _) => some ⟨.assign, name.name, name.pos, ref⟩
  | .expr (.receiver pos ref) => some ⟨.receiver, receiverName, pos, ref⟩
  | _ => none

def Code.mentions : Code ρ → List (Mention ρ)
  | .row body => Stmt.mentionsAll body
  | .stmt s => s.mentions
  | .expr e => e.mentions

theorem Code.mem_mentions {code : Code ρ} (h : code.mention? = some m) : m ∈ code.mentions := by
  cases code with
  | row => cases h
  | stmt => cases h
  | expr e =>
    cases e <;> cases h
    · exact List.mem_singleton_self _
    · exact List.mem_append_right _ (List.mem_singleton_self _)
    · exact List.mem_singleton_self _

theorem Expr.mentions_subset_all {args : List (Expr ρ)} (h : e ∈ args) :
    e.mentions ⊆ Expr.mentionsAll args := by
  induction args with
  | nil => cases h
  | cons a rest ih =>
    rcases List.mem_cons.1 h with rfl | h
    · exact List.subset_append_left _ _
    · exact List.subset_append_of_subset_right _ (ih h)

theorem Expr.part_mentions_subset {e : Expr ρ} (h : e' ∈ e.parts) : e'.mentions ⊆ e.mentions := by
  cases e with
  | literal => cases h
  | read => cases h
  | receiver => cases h
  | grouping inner => cases List.mem_singleton.1 h; exact List.Subset.refl _
  | unary op pos operand => cases List.mem_singleton.1 h; exact List.Subset.refl _
  | assign name ref value => cases List.mem_singleton.1 h; exact List.subset_append_left _ _
  | get object name => cases List.mem_singleton.1 h; exact List.Subset.refl _
  | binary left op pos right =>
    rcases List.mem_pair.1 h with rfl | rfl
    · exact List.subset_append_left _ _
    · exact List.subset_append_right _ _
  | logical left op right =>
    rcases List.mem_pair.1 h with rfl | rfl
    · exact List.subset_append_left _ _
    · exact List.subset_append_right _ _
  | set object name value =>
    rcases List.mem_pair.1 h with rfl | rfl
    · exact List.subset_append_right _ _
    · exact List.subset_append_left _ _
  | call callee args paren =>
    rcases List.mem_cons.1 h with rfl | h
    · exact List.subset_append_left _ _
    · exact List.subset_append_of_subset_right _ (Expr.mentions_subset_all h)

theorem Stmt.clause_mentions_subset {s : Stmt ρ} (h : s.clause? Γ = some (Δ, e)) :
    e.mentions ⊆ s.mentions := by
  cases s with
  | expression => cases h; exact List.Subset.refl _
  | print => cases h; exact List.Subset.refl _
  | varDecl name init =>
    cases init with
    | none => cases h
    | some e => cases h; exact List.Subset.refl _
  | branch c yes no =>
    cases h
    cases no with
    | none => exact List.subset_append_left _ _
    | some no => exact List.subset_append_of_subset_left _ (List.subset_append_left _ _)
  | loop c body => cases h; exact List.subset_append_left _ _
  | ret pos value =>
    cases value with
    | none => cases h
    | some e => cases h; exact List.Subset.refl _
  | block => cases h
  | funDecl => cases h
  | classDecl => cases h

theorem FunDecl.mentions_subset {methods : List (FunDecl ρ)} (hf : f ∈ methods) :
    f.mentions ⊆ FunDecl.mentionsAll methods := by
  induction methods with
  | nil => cases hf
  | cons g rest ih =>
    rcases List.mem_cons.1 hf with rfl | hf
    · exact List.subset_append_left _ _
    · exact List.subset_append_of_subset_right _ (ih hf)

theorem Site.mentions_subset (h : Site [P] zs Γ c) : c.mentions ⊆ P.mentions := by
  induction h with
  | program hP =>
    cases List.mem_singleton.1 hP
    exact List.Subset.refl _
  | next _ ih => exact (List.append_subset.1 ih).2
  | first _ ih => exact (List.append_subset.1 ih).1
  | @yes _ _ c yes no _ ih =>
    cases no with
    | none => exact (List.append_subset.1 ih).2
    | some no => exact (List.append_subset.1 (List.append_subset.1 ih).1).2
  | no _ ih => exact (List.append_subset.1 ih).2
  | loop _ ih => exact (List.append_subset.1 ih).2
  | block _ ih => exact ih
  | @function _ _ decl _ ih =>
    rw [Code.mentions, ← decl.mentions_eq]
    exact ih
  | @method _ _ name methods decl _ hd ih =>
    rw [Code.mentions, ← decl.mentions_eq]
    exact List.Subset.trans (FunDecl.mentions_subset hd) ih
  | clause _ hc ih => exact List.Subset.trans (Stmt.clause_mentions_subset hc) ih
  | part _ hp ih => exact List.Subset.trans (Expr.part_mentions_subset hp) ih

theorem Site.mem_mentions (h : Site [P] zs Γ code) (hm : code.mention? = some m) :
    m ∈ P.mentions := h.mentions_subset (Code.mem_mentions hm)

end Lox
