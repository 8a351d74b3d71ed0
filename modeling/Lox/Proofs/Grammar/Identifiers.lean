import Lox.Proofs.Compile
import Lox.Proofs.Grammar.Wording

namespace Lox
set_option autoImplicit true

/-- The names in a text, whether it can be read as a whole or not, are identifiers in it. -/
theorem worded_of_readProgram (hs : s ∈ (readProgram source).1) :
    Grammar.Worded (scan source).list.tokens s.identifiers := worded_parse _ hs

theorem receiverName_not_mem_identifiers (h : readProgram source = (tree, [])) :
    receiverName ∉ tree.resolve.identifiers := by
  intro hmem
  rw [Program.identifiers_resolve] at hmem
  have hworded : Grammar.Worded (scan source).list.tokens tree.identifiers :=
    Grammar.worded_body.2 fun s hs => worded_of_readProgram (h ▸ hs)
  obtain ⟨p, hp⟩ := hworded _ hmem
  have hfree := ofText?_of_mem_scan hp
  revert hfree
  decide

def Code.identifiers : Code ρ → List String
  | .row body => Stmt.identifiersAll body
  | .stmt s => s.identifiers
  | .expr e => e.identifiers

theorem Expr.identifiers_subset_all {args : List (Expr ρ)} (h : e ∈ args) :
    e.identifiers ⊆ Expr.identifiersAll args := by
  induction args with
  | nil => cases h
  | cons a rest ih =>
    rcases List.mem_cons.1 h with rfl | h
    · exact List.subset_append_left _ _
    · exact List.subset_append_of_subset_right _ (ih h)

theorem Expr.part_identifiers_subset {e : Expr ρ} (h : e' ∈ e.parts) :
    e'.identifiers ⊆ e.identifiers := by
  cases e with
  | literal => cases h
  | read => cases h
  | receiver => cases h
  | grouping inner => cases List.mem_singleton.1 h; exact List.Subset.refl _
  | unary op pos operand => cases List.mem_singleton.1 h; exact List.Subset.refl _
  | assign name ref value => cases List.mem_singleton.1 h; exact List.subset_cons_self _ _
  | get object name => cases List.mem_singleton.1 h; exact List.subset_append_left _ _
  | binary left op pos right =>
    rcases List.mem_pair.1 h with rfl | rfl
    · exact List.subset_append_left _ _
    · exact List.subset_append_right _ _
  | logical left op right =>
    rcases List.mem_pair.1 h with rfl | rfl
    · exact List.subset_append_left _ _
    · exact List.subset_append_right _ _
  | set object name value =>
    rcases List.mem_pair.1 h with rfl | rfl
    · exact List.subset_append_left _ _
    · exact List.subset_append_of_subset_right _ (List.subset_cons_self _ _)
  | call callee args paren =>
    rcases List.mem_cons.1 h with rfl | h
    · exact List.subset_append_left _ _
    · exact List.subset_append_of_subset_right _ (Expr.identifiers_subset_all h)

theorem Stmt.clause_identifiers_subset {s : Stmt ρ} (h : s.clause? Γ = some (Δ, e)) :
    e.identifiers ⊆ s.identifiers := by
  cases s with
  | expression => cases h; exact List.Subset.refl _
  | print => cases h; exact List.Subset.refl _
  | varDecl name init =>
    cases init with
    | none => cases h
    | some e => cases h; exact List.subset_cons_self _ _
  | branch c yes no =>
    cases h
    cases no with
    | none => exact List.subset_append_left _ _
    | some no => exact List.subset_append_of_subset_left _ (List.subset_append_left _ _)
  | loop c body => cases h; exact List.subset_append_left _ _
  | ret pos value =>
    cases value with
    | none => cases h
    | some e => cases h; exact List.Subset.refl _
  | block => cases h
  | funDecl => cases h
  | classDecl => cases h

theorem FunDecl.body_identifiers_subset (f : FunDecl ρ) :
    Stmt.identifiersAll f.body ⊆ f.identifiers := by
  cases f
  exact List.subset_cons_of_subset _ (List.subset_append_right _ _)

theorem FunDecl.identifiers_subset {methods : List (FunDecl ρ)} (hf : f ∈ methods) :
    f.identifiers ⊆ FunDecl.identifiersAll methods := by
  induction methods with
  | nil => cases hf
  | cons g rest ih =>
    rcases List.mem_cons.1 hf with rfl | hf
    · exact List.subset_append_left _ _
    · exact List.subset_append_of_subset_right _ (ih hf)

theorem Site.identifiers_subset (h : Site [P] zs Γ c) : c.identifiers ⊆ P.identifiers := by
  induction h with
  | program hP =>
    cases List.mem_singleton.1 hP
    exact List.Subset.refl _
  | next _ ih => exact (List.append_subset.1 ih).2
  | first _ ih => exact (List.append_subset.1 ih).1
  | @yes _ _ c yes no _ ih =>
    cases no with
    | none => exact (List.append_subset.1 ih).2
    | some no => exact (List.append_subset.1 (List.append_subset.1 ih).1).2
  | no _ ih => exact (List.append_subset.1 ih).2
  | loop _ ih => exact (List.append_subset.1 ih).2
  | block _ ih => exact ih
  | @function _ _ decl _ ih => exact List.Subset.trans decl.body_identifiers_subset ih
  | @method _ _ name methods decl _ hd ih =>
    have hmethods := List.Subset.trans (FunDecl.identifiers_subset hd) (List.cons_subset.1 ih).2
    exact List.Subset.trans decl.body_identifiers_subset hmethods
  | clause _ hc ih => exact List.Subset.trans (Stmt.clause_identifiers_subset hc) ih
  | part _ hp ih => exact List.Subset.trans (Expr.part_identifiers_subset hp) ih

theorem Site.receiverName_not_mem (h : Site programs zs Γ c)
    (hP : ∀ P ∈ programs, receiverName ∉ Program.identifiers P) : receiverName ∉ c.identifiers := by
  obtain ⟨P, hmem, hsite⟩ := h.own_program
  exact fun hname => hP P hmem (hsite.identifiers_subset hname)

end Lox
