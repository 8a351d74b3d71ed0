import Lox.Proofs.Grammar.Derivation
import Lox.Proofs.Scope.Declarations

namespace Lox.Grammar
set_option autoImplicit true

/-- A declaration comes from tokens. -/
structure Stated (ts : List Token) (D : Declaration) : Prop where
  guarded : D.guarded = true → D.kind = .function
  name : ∃ p, ⟨.identifier D.name, p⟩ ∈ ts

/-- Declarations come from tokens, and tokens are left behind them. -/
structure States (ts : List Token) (Ds : List Declaration) (rest : List Token) : Prop where
  left : rest ⊆ ts
  stated : ∀ D ∈ Ds, Stated ts D

theorem Stated.mono (h : Stated us D) (hsub : us ⊆ ts) : Stated ts D :=
  ⟨h.guarded, h.name.imp fun _ hp => hsub hp⟩

theorem States.nil (h : rest ⊆ ts) : States ts [] rest := ⟨h, fun _ hD => nomatch hD⟩

theorem States.cons (h : States ts Ds rest) (t : Token) : States (t :: ts) Ds rest :=
  ⟨List.subset_cons_of_subset t h.left,
    fun D hD => (h.stated D hD).mono (List.subset_cons_self t ts)⟩

theorem States.drop (h : States ts Ds (t :: rest)) : States ts Ds rest :=
  ⟨List.subset_of_cons_subset h.left, h.stated⟩

theorem States.append (h : States ts Ds us) (h' : States us Ds' rest) :
    States ts (Ds ++ Ds') rest :=
  ⟨List.Subset.trans h'.left h.left,
    List.forall_mem_append.2 ⟨h.stated, fun D hD => (h'.stated D hD).mono h.left⟩⟩

theorem States.name (h : States ts Ds rest) (hg : g = true → kind = .function)
    (hx : ∃ p, ⟨.identifier x, p⟩ ∈ ts) : States ts (⟨kind, x, i, g⟩ :: Ds) rest :=
  ⟨h.left, List.forall_mem_cons.2 ⟨⟨hg, hx⟩, h.stated⟩⟩

theorem IsExpr.subset (h : IsExpr l ts e rest) : rest ⊆ ts := by
  induction h using IsExpr.rec (motive_2 := fun ts _ rest _ => rest ⊆ ts) with
  | assign _ ih => exact List.subset_cons_of_subset _ (List.subset_cons_of_subset _ ih)
  | set _ _ ih ih' =>
    have hus := (List.cons_subset.1 (List.cons_subset.1 (List.cons_subset.1 ih).2).2).2
    exact List.Subset.trans ih' hus
  | tighter _ ih => exact ih
  | join _ _ _ ih ih' => exact List.Subset.trans ih' (List.cons_subset.1 ih).2
  | negate _ ih => exact List.subset_cons_of_subset _ ih
  | not _ ih => exact List.subset_cons_of_subset _ ih
  | call _ _ ih ih' => exact List.Subset.trans (List.cons_subset.1 ih').2 (List.cons_subset.1 ih).2
  | get _ ih => exact (List.cons_subset.1 (List.cons_subset.1 ih).2).2
  | atom => exact List.subset_cons_self _ _
  | grouping _ ih => exact List.subset_cons_of_subset _ (List.cons_subset.1 ih).2
  | none => exact List.Subset.refl _
  | one _ ih => exact ih
  | more _ _ _ _ ih ih' => exact List.Subset.trans ih' (List.cons_subset.1 ih).2

theorem IsOptional.subset (h : IsOptional ts e rest) : rest ⊆ ts := by
  cases h with
  | none => exact List.Subset.refl _
  | some h => exact h.subset

theorem IsParams.states (h : IsParams ts params rest) :
    States ts (params.map (⟨.parameter, ·.name, true, false⟩)) rest := by
  induction h with
  | none => exact .nil (List.Subset.refl _)
  | one =>
    exact .name (.nil (List.subset_cons_self _ _)) nofun ⟨_, List.mem_cons_self⟩
  | more _ _ _ ih =>
    rw [List.map_append]
    exact ih.drop.append (.name (.nil (List.subset_cons_self _ _)) nofun ⟨_, List.mem_cons_self⟩)

theorem IsVarDecl.states (h : IsVarDecl ts s rest) (i : Bool) :
    States ts (s.declarations i false) rest := by
  cases h with
  | plain =>
    have hrest : States rest [] rest := .nil (List.Subset.refl _)
    exact .cons (.name (g := false) ((hrest.cons _).cons _) nofun ⟨_, List.mem_cons_self⟩) _
  | init h =>
    have hrest := (States.nil h.subset).drop
    exact .cons (.name (g := false) ((hrest.cons _).cons _) nofun ⟨_, List.mem_cons_self⟩) _

theorem IsExprStmt.states (h : IsExprStmt ts s rest) (i g : Bool) :
    States ts (s.declarations i g) rest := by
  cases h with
  | intro h => exact (States.nil h.subset).drop

theorem IsForStart.states (h : IsForStart ts start rest) :
    States ts (start.elim [] (·.declarations true false)) rest := by
  cases h with
  | none => exact .nil (List.subset_cons_self _ _)
  | varDecl h => exact h.states true
  | expression h => exact h.states true false

theorem whileForm_states (hstart : States ts (start.elim [] (·.declarations true false)) us)
    (hbody : ∀ i g, States us (body.declarations i g) rest) (i g : Bool) :
    States ts ((whileForm start condition increment body).declarations i g) rest := by
  cases start with
  | none =>
    cases increment with
    | none => exact hstart.append (hbody i true)
    | some e => exact (hstart.append (hbody true false)).append (.nil (List.Subset.refl _))
  | some s =>
    have hnil : States rest [] rest := .nil (List.Subset.refl _)
    cases increment with
    | none => exact hstart.append ((hbody true true).append hnil)
    | some e => exact hstart.append (((hbody true false).append hnil).append hnil)

theorem IsFunction.name_mem (h : IsFunction nearest ts f rest) :
    ∃ p, ⟨.identifier f.name.name, p⟩ ∈ ts := by
  cases h with
  | intro => exact ⟨_, List.mem_cons_self⟩

theorem IsDecls.states (h : IsDecls nearest ts body rest) (i : Bool) :
    States ts (Stmt.declarationsAll i body) rest := by
  induction h using IsDecls.rec
    (motive_1 := fun _ ts s rest _ => ∀ i g, States ts (s.declarations i g) rest)
    (motive_2 := fun ts f rest _ => States ts f.declarations rest)
    (motive_3 := fun ts fs rest _ => States ts (FunDecl.declarationsAll fs) rest)
    (motive_4 := fun ts s rest _ => ∀ i, States ts (s.declarations i false) rest)
    generalizing i with
  | expression h => exact h.states _ _
  | funDecl h ih => exact .cons (.name ih (fun _ => rfl) h.name_mem) _
  | forLoop hstart hcondition hincrement _ ih =>
    have hclauses := (hstart.states.append (.nil hcondition.subset)).drop
    have hclauses := (hclauses.append (.nil hincrement.subset)).drop
    rw [List.append_nil, List.append_nil] at hclauses
    exact ((whileForm_states hclauses ih _ _).cons _).cons _
  | ifThen hc _ ih => exact (((States.nil hc.subset).drop.append (ih _ true)).cons _).cons _
  | ifElse hc _ _ _ ih ih' =>
    have hc' := (States.nil hc.subset).drop
    exact (((hc'.append (ih _ true)).drop.append (ih' _ true)).cons _).cons _
  | print h => exact (States.nil h.subset).drop.cons _
  | ret h => exact (States.nil h.subset).drop.cons _
  | loop hc _ ih => exact (((States.nil hc.subset).drop.append (ih _ true)).cons _).cons _
  | block _ ih => exact (ih true).drop.cons _
  | intro hparams _ ih => exact (((hparams.states.drop.drop.append (ih true)).drop.cons _).cons _)
  | nil => exact .nil (List.Subset.refl _)
  | cons _ _ ih ih' => exact ih.append ih'
  | classDecl _ ih =>
    have hmethods := ih.drop
    exact .cons (.name (g := false) ((hmethods.cons _).cons _) nofun ⟨_, List.mem_cons_self⟩) _
  | varDecl h => exact h.states _
  | statement _ ih => exact ih _ false
  | empty => exact .nil (List.Subset.refl _)
  | next _ _ ih ih' => exact (ih _).append (ih' _)

end Lox.Grammar
