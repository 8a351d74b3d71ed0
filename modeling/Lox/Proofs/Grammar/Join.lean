import Lox.Proofs.Compile
import Lox.Proofs.Grammar.Exact
import Lox.Proofs.Token.Join
import Lox.Proofs.Tree.Map

namespace Lox.Grammar
set_option autoImplicit true

/-- A change to token lists that moves every token and may put others behind them. -/
def Carries (f : Pos → Pos) (g : List Token → List Token) : Prop :=
  ∀ t ts, g (t :: ts) = t.move f :: g ts

theorem carries_map (f : Pos → Pos) : Carries f (List.map (·.move f)) := fun _ _ => rfl

theorem carries_append (us : List Token) : Carries id (· ++ us) := fun _ _ => rfl

variable {f : Pos → Pos} {g : List Token → List Token}

theorem Joins.carry (h : Joins l t op) (f : Pos → Pos) :
    ∃ op', Joins l (t.move f) op' ∧
      ∀ left right, (op left right).map f id = op' (left.map f id) (right.map f id) := by
  cases h with
  | or => exact ⟨_, .or, fun _ _ => rfl⟩
  | and => exact ⟨_, .and, fun _ _ => rfl⟩
  | binary h => exact ⟨_, .binary h, fun _ _ => rfl⟩

theorem IsAtom.carry (h : IsAtom t e) (f : Pos → Pos) : IsAtom (t.move f) (e.map f id) := by
  cases h with
  | trueWord => exact .trueWord
  | falseWord => exact .falseWord
  | nilWord => exact .nilWord
  | thisWord => exact .thisWord
  | number => exact .number
  | string => exact .string
  | identifier => exact .identifier

theorem mapAll_concat (args : List (Expr Unresolved)) (e : Expr Unresolved) :
    Expr.mapAll f id (args ++ [e]) = Expr.mapAll f id args ++ [e.map f id] := by
  induction args with
  | nil => rfl
  | cons a args ih => rw [List.cons_append, Expr.mapAll, ih]; rfl

theorem length_mapAll (args : List (Expr Unresolved)) :
    (Expr.mapAll f id args).length = args.length := by
  induction args with
  | nil => rfl
  | cons a args ih => rw [Expr.mapAll, List.length_cons, ih, List.length_cons]

section
variable (hg : Carries f g)
include hg

theorem IsExpr.carry (h : IsExpr l ts e rest) : IsExpr l (g ts) (e.map f id) (g rest) := by
  induction h using IsExpr.rec
    (motive_2 := fun ts args rest _ => IsArgs (g ts) (Expr.mapAll f id args) (g rest)) with
  | assign _ ih =>
    rw [hg, hg]
    exact .assign ih
  | set _ _ ih ih' =>
    rw [hg, hg, hg] at ih
    exact .set ih ih'
  | tighter _ ih => exact .tighter ih
  | join _ hop _ ih ih' =>
    obtain ⟨op', hop', heq⟩ := hop.carry f
    rw [hg] at ih
    rw [heq]
    exact .join ih hop' ih'
  | negate _ ih =>
    rw [hg]
    exact .negate ih
  | not _ ih =>
    rw [hg]
    exact .not ih
  | call _ _ ih ih' =>
    rw [hg] at ih ih'
    exact .call ih ih'
  | get _ ih =>
    rw [hg, hg] at ih
    exact .get ih
  | atom ha =>
    rw [hg]
    exact .atom (ha.carry f)
  | grouping _ ih =>
    rw [hg] at ih ⊢
    exact .grouping ih
  | none => exact .none
  | one _ ih => exact .one ih
  | more _ hne hlen _ ih ih' =>
    rw [hg] at ih
    rw [mapAll_concat]
    refine .more ih ?_ ?_ ih'
    · rw [← List.length_pos_iff_ne_nil, length_mapAll, List.length_pos_iff_ne_nil]
      exact hne
    · rw [length_mapAll]
      exact hlen

theorem IsOptional.carry (h : IsOptional ts e rest) :
    IsOptional (g ts) (e.map (·.map f id)) (g rest) := by
  cases h with
  | none => exact .none
  | some h => exact .some (h.carry hg)

theorem IsParams.carry (h : IsParams ts params rest) :
    IsParams (g ts) (params.map (·.move f)) (g rest) := by
  induction h with
  | none => exact .none
  | one =>
    rw [hg]
    exact .one
  | more _ hne hlen ih =>
    rw [hg, hg] at ih
    rw [List.map_append]
    refine .more ih ?_ ?_
    · rw [Ne, List.map_eq_nil_iff]
      exact hne
    · rw [List.length_map]
      exact hlen

theorem IsVarDecl.carry (h : IsVarDecl ts s rest) : IsVarDecl (g ts) (s.map f id) (g rest) := by
  cases h with
  | plain =>
    rw [hg, hg, hg]
    exact .plain
  | init h =>
    have h := h.carry hg
    rw [hg] at h
    rw [hg, hg, hg]
    exact .init h

theorem IsExprStmt.carry (h : IsExprStmt ts s rest) : IsExprStmt (g ts) (s.map f id) (g rest) := by
  cases h with
  | intro h =>
    have h := h.carry hg
    rw [hg] at h
    exact .intro h

theorem IsForStart.carry (h : IsForStart ts start rest) :
    IsForStart (g ts) (start.map (·.map f id)) (g rest) := by
  cases h with
  | none =>
    rw [hg]
    exact .none
  | varDecl h => exact .varDecl (h.carry hg)
  | expression h => exact .expression (h.carry hg)

omit hg in
theorem map_whileForm (start : Option (Stmt Unresolved))
    (condition increment : Option (Expr Unresolved)) (body : Stmt Unresolved) :
    (whileForm start condition increment body).map f id =
      whileForm (start.map (·.map f id)) (condition.map (·.map f id))
        (increment.map (·.map f id)) (body.map f id) := by
  cases start <;> cases condition <;> cases increment <;> rfl

/-- Moved tokens, with others behind them, derive the moved tree. -/
theorem IsDecls.carry (h : IsDecls nearest ts body rest) :
    IsDecls nearest (g ts) (Stmt.mapAll f id body) (g rest) := by
  induction h using IsDecls.rec
    (motive_1 := fun d ts s rest _ => IsStmt nearest d (g ts) (s.map f id) (g rest))
    (motive_2 := fun ts d rest _ => IsFunction nearest (g ts) (d.map f id) (g rest))
    (motive_3 := fun ts ds rest _ => IsMethods nearest (g ts) (FunDecl.mapAll f id ds) (g rest))
    (motive_4 := fun ts s rest _ => IsDecl nearest (g ts) (s.map f id) (g rest)) with
  | expression h => exact .expression (h.carry hg)
  | funDecl _ ih =>
    rw [hg]
    exact .funDecl ih
  | forLoop hstart hcondition hincrement _ ih =>
    have hcondition := hcondition.carry hg
    have hincrement := hincrement.carry hg
    rw [hg] at hcondition hincrement
    rw [hg, hg, map_whileForm]
    exact .forLoop (hstart.carry hg) hcondition hincrement ih
  | ifThen hc _ ih =>
    have hc := hc.carry hg
    rw [hg] at hc
    rw [hg, hg]
    exact .ifThen hc ih
  | ifElse hc _ hinner _ ih ih' =>
    have hc := hc.carry hg
    rw [hg] at hc ih
    rw [hg, hg]
    exact .ifElse hc ih hinner ih'
  | print h =>
    have h := h.carry hg
    rw [hg] at h
    rw [hg]
    exact .print h
  | ret h =>
    have h := h.carry hg
    rw [hg] at h
    rw [hg]
    exact .ret h
  | loop hc _ ih =>
    have hc := hc.carry hg
    rw [hg] at hc
    rw [hg, hg]
    exact .loop hc ih
  | block _ ih =>
    rw [hg] at ih ⊢
    exact .block ih
  | intro hparams _ ih =>
    have hparams := hparams.carry hg
    rw [hg, hg] at hparams
    rw [hg] at ih
    rw [hg, hg]
    exact .intro hparams ih
  | nil => exact .nil
  | cons _ _ ih ih' => exact .cons ih ih'
  | classDecl _ ih =>
    rw [hg] at ih
    rw [hg, hg, hg]
    exact .classDecl ih
  | varDecl h => exact .varDecl (h.carry hg)
  | statement _ ih => exact .statement ih
  | empty => exact .empty
  | next _ _ ih ih' => exact .next ih ih'

end

theorem IsDecls.append (h : IsDecls nearest ts body us) (h' : IsDecls nearest us body' rest) :
    IsDecls nearest ts (body ++ body') rest := by
  induction body generalizing ts with
  | nil =>
    cases h
    exact h'
  | cons s body ih =>
    cases h with
    | next hs hbody => exact .next hs (ih hbody)

theorem IsProgram.join (h : IsProgram nearest ts P) (h' : IsProgram nearest us P') (f : Pos → Pos) :
    IsProgram nearest (ts ++ us.map (·.move f)) (P ++ P'.mapAll f id) := by
  have hfirst := h.carry (carries_append (us.map (·.move f)))
  rw [← Program.mapAll, Program.mapAll_id] at hfirst
  exact hfirst.append (h'.carry (carries_map f))

end Lox.Grammar

namespace Lox

variable {a b : String} {A B : Program Grammar.Unresolved}

/-- Two texts that can be read, with a newline between them, are read as both programs. -/
theorem readProgram_join (ha : readProgram a = (A, [])) (hb : readProgram b = (B, [])) :
    readProgram (a ++ "\n" ++ b) = (A ++ B.mapAll (.below a) id, []) := by
  have herrors : ∀ {source tree}, readProgram source = (tree, []) → (scan source).errors = [] := by
    intro source tree h
    exact List.map_eq_nil_iff.1 (List.append_eq_nil_iff.1 (Prod.mk.inj h).2).1
  have hprogram := (isProgram_of_readProgram ha).join (isProgram_of_readProgram hb) (.below a)
  rw [readProgram, scan_join a b (closed_of_errors (herrors ha))]
  simp only [herrors ha, herrors hb, List.map_nil, List.append_nil]
  rw [Grammar.parse_of_isProgram hprogram]
  rfl

end Lox
