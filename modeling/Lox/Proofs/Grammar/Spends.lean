import Lox.Compile
import Lox.Proofs.Scope.Mentions
import Lox.Proofs.Token.Join
import Mathlib.Data.List.Nodup

namespace Lox
set_option autoImplicit true

namespace Parser

/-- A parser has places `given` at the start, and then those of the tokens it takes. What it gives
holds no more of them than are not left, however it ends. -/
def Spends (p : Parser α) (given : List Pos) (F : α → List Pos) : Prop :=
  ∀ ts q, ((p ts).result.elim [] F).count q + ((p ts).rest.map (·.pos)).count q ≤
    given.count q + (ts.map (·.pos)).count q

/-- A parser whose result holds no places. -/
def Skips (p : Parser α) : Prop := p.Spends [] fun _ => []

variable {p : Parser α} {f : α → Parser β} {given : List Pos} {F : α → List Pos} {G : β → List Pos}

theorem Spends.pure (h : ∀ q, (F a).count q ≤ given.count q) :
    (Pure.pure a : Parser α).Spends given F :=
  fun _ q => Nat.add_le_add_right (h q) _

theorem Spends.keep (F : α → List Pos) (a : α) : (Pure.pure a : Parser α).Spends (F a) F :=
  .pure fun _ => Nat.le_refl _

theorem Spends.fail (fault : SyntaxFault) : (fail fault : Parser α).Spends given F := by
  intro ts q
  simp only [Parser.fail, Option.elim_none, List.count_nil]
  omega

theorem Spends.bind (hp : p.Spends given F) (hf : ∀ a, (f a).Spends (F a) G) :
    (p >>= f).Spends given G := by
  intro ts q
  have hfirst := hp ts q
  simp only [Bind.bind, Parser.bind]
  rcases hreply : p ts with ⟨result, errors, rest⟩
  rw [hreply] at hfirst
  cases result with
  | none => exact hfirst
  | some a => exact Nat.le_trans (hf a rest q) hfirst

theorem Spends.after (hp : p.Spends [] F) (given : List Pos) :
    p.Spends given fun a => F a ++ given := by
  intro ts q
  have h := hp ts q
  cases hresult : (p ts).result with
  | none =>
    simp only [hresult, Option.elim_none, List.count_nil] at h ⊢
    omega
  | some a =>
    simp only [hresult, Option.elim_some, List.count_nil, List.count_append] at h ⊢
    omega

theorem Spends.map {g : α → β} (hp : p.Spends given fun a => G (g a)) :
    (g <$> p).Spends given G :=
  .bind hp fun _ => .keep _ _

theorem Spends.skip (hp : p.Skips) (hf : ∀ a, (f a).Spends given G) :
    (p >>= f).Spends given G := .bind (hp.after given) hf

theorem Skips.bind (hp : p.Skips) (hf : ∀ a, (f a).Skips) : (p >>= f).Skips := Spends.bind hp hf

theorem Skips.pure (a : α) : (Pure.pure a : Parser α).Skips := Spends.keep _ _

theorem Skips.take? (f : TokenKind → Option β) : (take? f).Skips := by
  intro ts q
  cases ts with
  | nil => exact Nat.le_refl _
  | cons t rest =>
    simp only [Parser.take?]
    cases f t.kind with
    | none => exact Nat.le_refl _
    | some b =>
      simp only [Option.elim_some, List.count_nil, List.map_cons, List.count_cons]
      omega

theorem Skips.expect (f : TokenKind → Option β) (fault : SyntaxFault) : (expect f fault).Skips := by
  refine .bind (.take? f) fun found => ?_
  cases found with
  | none => exact Spends.fail fault
  | some found => exact .pure found

theorem Skips.symbol (s : Symbol) (fault : SyntaxFault) : (symbol s fault).Skips :=
  Spends.map (Skips.expect _ fault)

theorem Skips.ident (fault : SyntaxFault) : (ident fault).Skips := .expect _ fault

theorem Skips.accept (kind : TokenKind) : (accept kind).Skips :=
  .bind (.take? _) fun _ => .pure _

theorem Skips.nextIs (kind : TokenKind) : (nextIs kind).Skips := fun _ _ => Nat.le_refl _

theorem Skips.peek : peek.Skips := fun _ _ => Nat.le_refl _

theorem Skips.report (fault : SyntaxFault) : (report fault).Skips := fun _ _ => Nat.le_refl _

theorem Skips.reportAt (fault : SyntaxFault) (token : Token) : (reportAt fault token).Skips :=
  fun _ _ => Nat.le_refl _

theorem Spends.iterate {step : α → Parser (Option α)}
    (hstep : ∀ a, (step a).Spends (F a) fun r => F (r.getD a)) (n : Nat) (a : α) :
    (iterate step n a).Spends (F a) F := by
  induction n generalizing a with
  | zero => exact .keep _ _
  | succ n ih =>
    refine .bind (hstep a) fun r => ?_
    cases r with
    | none => exact .keep _ _
    | some b => exact ih b

theorem Spends.recover {resume : List Token → List Token} (hresume : ∀ ts, resume ts <:+ ts)
    (hp : p.Spends given F) : (recover resume p).Spends given fun r => r.elim [] F := by
  intro ts q
  have h := hp ts q
  simp only [Parser.recover]
  rcases hreply : p ts with ⟨result, errors, rest⟩
  rw [hreply] at h
  cases result with
  | some a => exact h
  | none =>
    have hcount : ((resume rest).map (·.pos)).count q ≤ (rest.map (·.pos)).count q :=
      ((hresume rest).sublist.map _).count_le q
    simp only [Option.elim_none, Option.elim_some, List.count_nil] at h ⊢
    omega

end Parser

def Expr.spots (e : Expr ρ) : List Pos := e.mentions.map (·.pos)

def Expr.spotsAll (es : List (Expr ρ)) : List Pos := (Expr.mentionsAll es).map (·.pos)

def Stmt.spots (s : Stmt ρ) : List Pos := s.mentions.map (·.pos)

def Stmt.spotsAll (body : List (Stmt ρ)) : List Pos := (Stmt.mentionsAll body).map (·.pos)

def FunDecl.spots (f : FunDecl ρ) : List Pos := f.mentions.map (·.pos)

def FunDecl.spotsAll (fs : List (FunDecl ρ)) : List Pos := (FunDecl.mentionsAll fs).map (·.pos)

namespace Grammar
open Lox.Parser

theorem count_spotsAll (es : List (Expr ρ)) (e : Expr ρ) (q : Pos) :
    (Expr.spotsAll (es ++ [e])).count q = (Expr.spotsAll es).count q + e.spots.count q := by
  induction es with
  | nil => simp [Expr.spotsAll, Expr.spots, Expr.mentionsAll]
  | cons a es ih =>
    simp only [Expr.spotsAll, List.cons_append, Expr.mentionsAll, List.map_append,
      List.count_append] at ih ⊢
    omega

theorem spots_unary (ops : List (UnaryOp × Pos)) (e : Expr ρ) :
    (ops.foldl (fun e op => Expr.unary op.1 op.2 e) e).spots = e.spots := by
  induction ops generalizing e with
  | nil => rfl
  | cons op ops ih => exact ih _

theorem spends_atom : atom.Spends [] fun r => r.elim [] Expr.spots := by
  intro ts q
  cases ts with
  | nil => exact Nat.le_refl _
  | cons t rest =>
    simp only [atom]
    cases hatom : atom? t.pos t.kind with
    | none => exact Nat.le_refl _
    | some e =>
      have hspots : (Expr.spots e).count q ≤ [t.pos].count q := by
        unfold atom? at hatom
        split at hatom <;> cases hatom <;> simp [Expr.spots, Expr.mentions]
      simp only [Option.elim_some, List.map_cons, List.count_cons, List.count_nil] at hspots ⊢
      omega

variable {expr : Parser (Expr Unresolved)}

section
variable (he : expr.Spends [] Expr.spots)
include he

theorem spends_primary : (primary expr).Spends [] Expr.spots := by
  refine .bind spends_atom fun r => ?_
  cases r with
  | some e => exact .keep _ _
  | none =>
    refine .skip (.accept _) fun found => ?_
    split
    · exact .bind he fun inner => .skip (.symbol _ _) fun _ => .keep _ _
    · exact .fail _

theorem spends_argument (args : List (Expr Unresolved)) :
    (argument expr args).Spends (Expr.spotsAll args) Expr.spotsAll := by
  have hadd : (expr >>= fun e => pure (args ++ [e])).Spends (Expr.spotsAll args)
      Expr.spotsAll := by
    refine .bind (he.after _) fun e => .pure fun q => ?_
    rw [count_spotsAll, List.count_append]
    omega
  unfold argument
  split
  · exact .skip (.report _) fun _ => hadd
  · exact hadd

theorem spends_arguments (n : Nat) : (arguments n expr).Spends [] Expr.spotsAll := by
  refine .skip (.nextIs _) fun found => ?_
  split
  · exact .keep _ _
  · refine .bind (spends_argument he []) fun args => .iterate (fun args => ?_) n args
    refine .skip (.accept _) fun found => ?_
    split
    · exact .map (spends_argument he args)
    · exact .keep _ _

theorem spends_suffix? (n : Nat) (e : Expr Unresolved) :
    (suffix? n expr e).Spends e.spots fun r => (r.getD e).spots := by
  refine .skip (.accept _) fun found => ?_
  split
  · refine .bind ((spends_arguments he n).after _) fun args => .skip (.symbol _ _) fun paren =>
      .pure fun q => ?_
    simp only [Option.getD_some, Expr.spots, Expr.spotsAll, Expr.mentions, List.map_append,
      List.count_append]
    omega
  · refine .skip (.accept _) fun found => ?_
    split
    · exact .skip (.ident _) fun name => .keep _ _
    · exact .keep _ _

theorem spends_call (n : Nat) : (call n expr).Spends [] Expr.spots :=
  .bind (spends_primary he) fun e => .iterate (spends_suffix? he n) n e

theorem spends_unary (n : Nat) : (unary n expr).Spends [] Expr.spots := by
  have hops : (iterate nextUnary? n [] : Parser _).Skips := by
    apply Spends.iterate
    intro ops
    refine .skip (.take? _) fun found => ?_
    cases found <;> exact .keep _ _
  refine .skip hops fun ops => .bind (spends_call he n) fun operand => .pure fun q => ?_
  exact Nat.le_of_eq (congrArg _ (spots_unary ops operand))

omit he in
theorem spends_chain {ω : Type} {op? : TokenKind → Option ω}
    {join : Expr Unresolved → ω → Pos → Expr Unresolved → Expr Unresolved}
    {operand : Parser (Expr Unresolved)}
    (hjoin : ∀ left op pos right, (join left op pos right).spots = left.spots ++ right.spots)
    (h : operand.Spends [] Expr.spots) (n : Nat) :
    (chain op? join n operand).Spends [] Expr.spots := by
  refine .bind h fun first => .iterate (fun left => ?_) n first
  refine .skip (.take? _) fun found => ?_
  cases found with
  | none => exact .keep _ _
  | some found =>
    refine .bind (h.after _) fun right => .pure fun q => ?_
    rw [Option.getD_some, hjoin, List.count_append, List.count_append]
    omega

theorem spends_disjunction (n : Nat) : (disjunction n expr).Spends [] Expr.spots := by
  have hbinary : ∀ (left : Expr Unresolved) op pos right,
      (Expr.binary left op pos right).spots = left.spots ++ right.spots :=
    fun _ _ _ _ => List.map_append
  have hlogical : ∀ (left : Expr Unresolved) op right,
      (Expr.logical left op right).spots = left.spots ++ right.spots :=
    fun _ _ _ => List.map_append
  have hfactor : (factor n expr).Spends [] Expr.spots :=
    spends_chain hbinary (spends_unary he n) n
  have hterm : (term n expr).Spends [] Expr.spots := spends_chain hbinary hfactor n
  have hcomparison : (comparison n expr).Spends [] Expr.spots := spends_chain hbinary hterm n
  have hequality : (equality n expr).Spends [] Expr.spots := spends_chain hbinary hcomparison n
  exact spends_chain (fun left _ _ right => hlogical left .or right)
    (spends_chain (fun left _ _ right => hlogical left .and right) hequality n) n

omit he in
theorem spots_assignTo? (h : assignTo? target value = some e) (q : Pos) :
    e.spots.count q = target.spots.count q + value.spots.count q := by
  unfold assignTo? at h
  split at h
  · cases h
    simp only [Expr.spots, Expr.mentions, List.map_append, List.count_append, List.map_singleton]
    omega
  · cases h
    simp only [Expr.spots, Expr.mentions, List.map_append, List.count_append]
    omega
  · cases h

theorem spends_assignment (n : Nat) : (assignment n expr).Spends [] Expr.spots := by
  refine .bind (spends_disjunction he n) fun target => .skip (.take? _) fun found => ?_
  cases found with
  | none => exact .keep _ _
  | some found =>
    refine .bind (he.after _) fun value => ?_
    split
    · rename_i e hassign
      refine .pure fun q => ?_
      rw [spots_assignTo? hassign, List.count_append]
      omega
    · -- the value is lost
      refine .skip (.reportAt _ _) fun _ => .pure fun q => ?_
      rw [List.count_append]
      exact Nat.le_add_left _ _

end

theorem spends_expression (n : Nat) : (expression n : Parser _).Spends [] Expr.spots := by
  induction n with
  | zero => exact .fail _
  | succ n ih => exact spends_assignment ih n

theorem spotsAll_eq (body : List (Stmt ρ)) : Stmt.spotsAll body = body.flatMap Stmt.spots := by
  induction body with
  | nil => rfl
  | cons s rest ih =>
    rw [List.flatMap_cons, ← ih]
    exact List.map_append

theorem spotsAll_methods (methods : List (FunDecl ρ)) :
    FunDecl.spotsAll methods = methods.flatMap FunDecl.spots := by
  induction methods with
  | nil => rfl
  | cons f rest ih =>
    rw [List.flatMap_cons, ← ih]
    exact List.map_append

theorem resync_suffix (ts : List Token) : resync ts <:+ ts := by
  fun_induction resync ts with
  | case1 => exact List.suffix_rfl
  | case2 t rest => exact List.suffix_cons _ _
  | case3 t _ k p rest => exact List.suffix_cons _ _
  | case4 t _ k p rest _ ih => exact ih.trans (List.suffix_cons _ _)
  | case5 t rest _ _ ih => exact ih.trans (List.suffix_cons _ _)

theorem spends_put {item : Parser (Option α)} {G : α → List Pos}
    (h : item.Spends [] fun r => r.elim [] G) (done : List α) :
    (item >>= fun r => pure (some (r.toList ++ done)) : Parser (Option (List α))).Spends
      (done.flatMap G) fun r => (r.getD done).flatMap G := by
  refine .bind (h.after _) fun r => .pure fun q => ?_
  cases r with
  | none => exact Nat.le_refl _
  | some a => exact Nat.le_of_eq rfl

theorem spends_gather {step : List α → Parser (Option (List α))} {G : α → List Pos}
    (hstep : ∀ done, (step done).Spends (done.flatMap G) fun r => (r.getD done).flatMap G)
    (n : Nat) : (List.reverse <$> iterate step n []).Spends [] fun as => as.flatMap G := by
  refine .bind (Spends.iterate hstep n []) fun done => .pure fun q => ?_
  exact Nat.le_of_eq (((List.reverse_perm done).flatMap_right G).count_eq q)

theorem spends_items {item : Parser (Option α)} {G : α → List Pos}
    (h : item.Spends [] fun r => r.elim [] G) (n : Nat) :
    (items n item).Spends [] fun as => as.flatMap G := by
  refine spends_gather (fun done => ?_) n
  refine .skip .peek fun next => ?_
  cases next with
  | none => exact .keep _ _
  | some t =>
    dsimp only
    split
    · exact .keep _ _
    · exact spends_put h done

theorem skips_parameter (params : List Ident) : (parameter params : Parser _).Skips := by
  unfold parameter
  split
  · exact .bind (.report _) fun _ => .bind (.ident _) fun _ => .pure _
  · exact .bind (.ident _) fun _ => .pure _

theorem skips_parameters (n : Nat) : (parameters n : Parser _).Skips := by
  refine .bind (.nextIs _) fun found => ?_
  split
  · exact .pure _
  · refine .bind (skips_parameter []) fun params => Spends.iterate (fun params => ?_) n params
    refine .skip (.accept _) fun found => ?_
    split
    · exact .map (skips_parameter params)
    · exact .keep _ _

section
variable {decl : Parser (Option (Stmt Unresolved))}
  (hd : decl.Spends [] fun r => r.elim [] Stmt.spots)
include hd

theorem spends_block (n : Nat) : (block n decl).Spends [] Stmt.spotsAll := by
  refine .bind (spends_items hd n) fun body => .skip (.symbol _ _) fun _ => .pure fun q => ?_
  exact Nat.le_of_eq (congrArg _ (spotsAll_eq body))

theorem spends_function (n : Nat) (kind : FunctionKind) :
    (function n decl kind).Spends [] FunDecl.spots :=
  .skip (.ident _) fun _ => .skip (.symbol _ _) fun _ => .skip (skips_parameters n) fun _ =>
    .skip (.symbol _ _) fun _ => .skip (.symbol _ _) fun _ =>
      .bind (spends_block hd n) fun _ => .keep _ _

theorem spends_classDecl (n : Nat) : (classDecl n decl).Spends [] Stmt.spots := by
  refine .skip (.ident _) fun _ => .skip (.symbol _ _) fun _ => ?_
  have hmethod : (some <$> function n decl .method).Spends [] fun r => r.elim [] FunDecl.spots :=
    .map (spends_function hd n .method)
  refine .bind (spends_items hmethod n) fun methods => .skip (.symbol _ _) fun _ =>
    .pure fun q => ?_
  exact Nat.le_of_eq (congrArg _ (spotsAll_methods methods))

end

section
variable (he : expr.Spends [] Expr.spots)
include he

theorem spends_varDecl : (varDecl expr).Spends [] Stmt.spots := by
  have hend : ∀ (name : Ident) (init : Option (Expr Unresolved)),
      (symbol .semicolon .variableEnd >>= fun _ => pure (Stmt.varDecl name init)).Spends
        (init.elim [] Expr.spots) Stmt.spots := by
    refine fun name init => .skip (.symbol _ _) fun _ => .pure fun q => ?_
    cases init <;> exact Nat.le_refl _
  refine .skip (.ident _) fun name => .skip (.accept _) fun found => ?_
  split
  · exact .bind (.map he) (hend _)
  · exact hend _ none

theorem spends_expressionStmt : (expressionStmt expr).Spends [] Stmt.spots :=
  .bind he fun _ => .skip (.symbol _ _) fun _ => .keep _ _

theorem spends_printStmt : (printStmt expr).Spends [] Stmt.spots :=
  .bind he fun _ => .skip (.symbol _ _) fun _ => .keep _ _

theorem spends_optionalExpr (stop : Symbol) :
    (optionalExpr expr stop).Spends [] fun r => r.elim [] Expr.spots := by
  refine .skip (.nextIs _) fun found => ?_
  split
  · exact .keep _ _
  · exact .map he

theorem spends_returnStmt (pos : Pos) : (returnStmt expr pos).Spends [] Stmt.spots := by
  refine .bind (spends_optionalExpr he _) fun value => .skip (.symbol _ _) fun _ =>
    .pure fun q => ?_
  cases value <;> exact Nat.le_refl _

theorem spends_forStart : (forStart expr).Spends [] fun r => r.elim [] Stmt.spots := by
  refine .skip (.accept _) fun found => ?_
  split
  · exact .keep _ _
  · refine .skip (.accept _) fun found => ?_
    split
    · exact .map (spends_varDecl he)
    · exact .map (spends_expressionStmt he)

omit he in
/-- No clause of a for loop comes twice into the while loop. -/
theorem spots_forLoop (start : Option (Stmt Unresolved))
    (condition increment : Option (Expr Unresolved)) (body : Stmt Unresolved) (q : Pos) :
    (forLoop start condition increment body).spots.count q =
      (start.elim [] Stmt.spots).count q + (condition.elim [] Expr.spots).count q +
        (increment.elim [] Expr.spots).count q + body.spots.count q := by
  cases start <;> cases condition <;> cases increment <;>
    simp only [forLoop, Stmt.spots, Expr.spots, Stmt.mentions, Stmt.mentionsAll, Expr.mentions,
      Option.getD_none, Option.getD_some, Option.elim_none, Option.elim_some, List.append_nil,
      List.nil_append, List.map_append, List.count_append, List.count_nil] <;>
    omega

section
variable {stmt : Parser (Stmt Unresolved)} (hs : stmt.Spends [] Stmt.spots)
include hs

theorem spends_ifStmt : (ifStmt expr stmt).Spends [] Stmt.spots := by
  have hend : ∀ (condition : Expr Unresolved) (yes : Stmt Unresolved)
      (no : Option (Stmt Unresolved)), (pure (Stmt.branch condition yes no) : Parser _).Spends
        (no.elim [] Stmt.spots ++ (yes.spots ++ condition.spots)) Stmt.spots := by
    refine fun condition yes no => .pure fun q => ?_
    cases no <;>
      simp only [Stmt.spots, Expr.spots, Stmt.mentions, Option.elim_none, Option.elim_some,
        List.nil_append, List.map_append, List.count_append] <;>
      omega
  refine .skip (.symbol _ _) fun _ => .bind he fun condition => .skip (.symbol _ _) fun _ => ?_
  refine .bind (hs.after _) fun yes => .skip (.accept _) fun found => ?_
  split
  · exact .bind (.map (hs.after _)) (hend condition yes)
  · exact hend condition yes none

theorem spends_whileStmt : (whileStmt expr stmt).Spends [] Stmt.spots := by
  refine .skip (.symbol _ _) fun _ => .bind he fun condition => .skip (.symbol _ _) fun _ => ?_
  refine .bind (hs.after _) fun body => .pure fun q => ?_
  simp only [Stmt.spots, Expr.spots, Stmt.mentions, List.map_append, List.count_append]
  omega

theorem spends_forStmt : (forStmt expr stmt).Spends [] Stmt.spots := by
  refine .skip (.symbol _ _) fun _ => .bind (spends_forStart he) fun start => ?_
  refine .bind ((spends_optionalExpr he _).after _) fun condition => .skip (.symbol _ _) fun _ => ?_
  refine .bind ((spends_optionalExpr he _).after _) fun increment => .skip (.symbol _ _) fun _ => ?_
  refine .bind (hs.after _) fun body => .pure fun q => ?_
  rw [spots_forLoop]
  simp only [List.count_append]
  omega

theorem spends_statementWith {decl : Parser (Option (Stmt Unresolved))}
    (hd : decl.Spends [] fun r => r.elim [] Stmt.spots) (n : Nat) :
    (statementWith n expr decl stmt).Spends [] Stmt.spots := by
  refine .skip (.take? _) fun found => ?_
  rcases found with _ | ⟨opening, token⟩
  · exact spends_expressionStmt he
  · cases opening with
    | function => exact .map (spends_function hd n _)
    | branch => exact spends_ifStmt he hs
    | loop => exact spends_whileStmt he hs
    | forLoop => exact spends_forStmt he hs
    | print => exact spends_printStmt he
    | ret => exact spends_returnStmt he _
    | block => exact .map (spends_block hd n)

end

theorem spends_statement {decl : Parser (Option (Stmt Unresolved))}
    (hd : decl.Spends [] fun r => r.elim [] Stmt.spots) (n : Nat) :
    (statement expr decl n).Spends [] Stmt.spots := by
  induction n with
  | zero => exact .fail _
  | succ n ih => exact spends_statementWith he ih hd n

theorem spends_declaration (n : Nat) :
    (declaration expr n).Spends [] fun r => r.elim [] Stmt.spots := by
  induction n with
  | zero => exact .fail _
  | succ n ih =>
    refine .recover resync_suffix (.skip (.accept _) fun found => ?_)
    split
    · exact spends_classDecl ih n
    · refine .skip (.accept _) fun found => ?_
      split
      · exact spends_varDecl he
      · exact spends_statement he ih (n + 1)

end

theorem spends_program (n : Nat) : (program n).Spends [] Stmt.spotsAll := by
  have hdecl := spends_declaration (spends_expression (n + 1)) (n + 1)
  have hprogram : (program n).Spends [] fun body => body.flatMap Stmt.spots := by
    refine spends_gather (fun done => ?_) n
    refine .skip .peek fun next => ?_
    cases next with
    | none => exact .keep _ _
    | some t => exact spends_put hdecl done
  rw [show Stmt.spotsAll = fun body : Program Unresolved => body.flatMap Stmt.spots from
    funext spotsAll_eq]
  exact hprogram

end Grammar

namespace Scan

theorem chars_ne_nil (c : Char) (rest : List Char) : (next c rest).1.chars ≠ [] := by
  intro h
  have hchars := congrArg List.length (chars_next c rest)
  have hlen := next_length_le c rest
  rw [h, List.nil_append, List.length_cons] at hchars
  omega

theorem offsets_locateFrom (cs : List Char) (cursor : Cursor) :
    (∀ l ∈ locateFrom cursor (cut cs), cursor.offset ≤ l.1.offset) ∧
      (locateFrom cursor (cut cs)).Pairwise fun l l' => l.1.offset < l'.1.offset := by
  induction cs using cut_induction generalizing cursor with
  | nil =>
    rw [cut_nil]
    exact ⟨List.forall_mem_nil _, .nil⟩
  | cons c rest ih =>
    rw [cut_cons, locateFrom]
    obtain ⟨hbehind, hpairs⟩ := ih (cursor.pass (next c rest).1)
    have hpos : 0 < (next c rest).1.chars.length := List.length_pos_of_ne_nil (chars_ne_nil c rest)
    have hpass : cursor.offset < (cursor.pass (next c rest).1).offset := Nat.lt_add_of_pos_right hpos
    constructor
    · refine List.forall_mem_cons.2 ⟨Nat.le_refl _, fun l hl => ?_⟩
      exact Nat.le_trans (Nat.le_of_lt hpass) (hbehind l hl)
    · exact .cons (fun l hl => Nat.lt_of_lt_of_le hpass (hbehind l hl)) hpairs

end Scan

theorem Scan.pos_of_token? (h : token? l = some t) : t.pos = l.1 := by
  obtain ⟨pos, piece⟩ := l
  cases piece <;> cases h
  rfl

/-- No two tokens of a text stand at one place. -/
theorem nodup_scan (source : String) : ((scan source).list.tokens.map (·.pos)).Nodup := by
  have hpairs := (Scan.offsets_locateFrom source.toList {}).2
  simp only [scan, Scan.locate_eq]
  rw [List.nodup_iff_pairwise_ne, List.pairwise_map]
  apply List.Pairwise.filterMap Scan.token? _ hpairs
  intro l l' hlt t ht t' ht' heq
  rw [Scan.pos_of_token? ht, Scan.pos_of_token? ht'] at heq
  rw [heq] at hlt
  exact Nat.lt_irrefl _ hlt

/-- No two references in the tree of a text stand at one place, whether the text is read without
errors or not. -/
theorem nodup_spots (source : String) : (Stmt.spotsAll (readProgram source).1).Nodup := by
  have htokens := nodup_scan source
  generalize hts : (scan source).list.tokens = ts at htokens
  have htree : (readProgram source).1 = ((Grammar.program ts.length ts).result.getD []) := by
    rw [← hts]
    rfl
  rw [List.nodup_iff_count_le_one] at htokens ⊢
  intro q
  have hspends := Grammar.spends_program ts.length ts q
  rw [List.count_nil, Nat.zero_add] at hspends
  rw [htree]
  cases hresult : (Grammar.program ts.length ts).result with
  | none => exact Nat.zero_le _
  | some tree =>
    rw [hresult] at hspends
    exact Nat.le_trans (Nat.le_trans (Nat.le_add_right _ _) hspends) (htokens q)

end Lox
