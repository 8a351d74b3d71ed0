import Lox.Proofs.Alike.Resolve
import Lox.Proofs.Grammar.Spends

namespace Lox
set_option autoImplicit true

namespace Parser

/-- As long as tokens lie in `S`, what a parser gives is `P`, however it ends, and the tokens that it
leaves lie in `S`. -/
def Draws (p : Parser α) (S : List Token) (P : α → Prop) : Prop :=
  ∀ ts, ts ⊆ S → (p ts).result.elim True P ∧ (p ts).rest ⊆ S

variable {S : List Token} {p : Parser α} {f : α → Parser β} {P Q : α → Prop} {R : β → Prop}

theorem Draws.pure (h : P a) : (Pure.pure a : Parser α).Draws S P := fun _ hts => ⟨h, hts⟩

theorem Draws.fail (fault : SyntaxFault) : (fail fault : Parser α).Draws S P :=
  fun _ hts => ⟨trivial, hts⟩

theorem Draws.bind (hp : p.Draws S P) (hf : ∀ a, P a → (f a).Draws S R) :
    (p >>= f).Draws S R := by
  intro ts hts
  obtain ⟨hresult, hrest⟩ := hp ts hts
  simp only [Bind.bind, Parser.bind]
  rcases hreply : p ts with ⟨result, errors, rest⟩
  rw [hreply] at hresult hrest
  cases result with
  | none => exact ⟨trivial, hrest⟩
  | some a => exact hf a hresult rest hrest

theorem Draws.mono (h : p.Draws S P) (hPQ : ∀ a, P a → Q a) : p.Draws S Q := by
  intro ts hts
  obtain ⟨hresult, hrest⟩ := h ts hts
  refine ⟨?_, hrest⟩
  cases hr : (p ts).result with
  | none => trivial
  | some a =>
    rw [hr] at hresult
    exact hPQ a hresult

theorem Draws.map {g : α → β} (hp : p.Draws S fun a => R (g a)) : (g <$> p).Draws S R :=
  .bind hp fun _ ha => .pure ha

theorem Draws.take? (f : TokenKind → Option β) :
    (take? f).Draws S fun r => r.elim True fun found => found.2 ∈ S ∧ f found.2.kind = some found.1 := by
  intro ts hts
  cases ts with
  | nil => exact ⟨trivial, hts⟩
  | cons t rest =>
    obtain ⟨ht, hrest⟩ := List.cons_subset.1 hts
    simp only [Parser.take?]
    cases hk : f t.kind with
    | none => exact ⟨trivial, hts⟩
    | some b => exact ⟨⟨ht, hk⟩, hrest⟩

theorem Draws.expect (f : TokenKind → Option β) (fault : SyntaxFault) :
    (expect f fault).Draws S fun found => found.2 ∈ S ∧ f found.2.kind = some found.1 := by
  refine .bind (.take? f) fun r hr => ?_
  cases r with
  | none => exact .fail fault
  | some found => exact .pure hr

theorem Draws.symbol (s : Symbol) (fault : SyntaxFault) :
    (symbol s fault).Draws S fun _ => True :=
  .map ((Draws.expect _ fault).mono fun _ _ => trivial)

theorem Draws.accept (kind : TokenKind) : (accept kind).Draws S fun _ => True :=
  .bind (.take? _) fun _ _ => .pure trivial

theorem Draws.nextIs (kind : TokenKind) : (nextIs kind).Draws S fun _ => True :=
  fun _ hts => ⟨trivial, hts⟩

theorem Draws.peek : peek.Draws S fun _ => True := fun _ hts => ⟨trivial, hts⟩

theorem Draws.report (fault : SyntaxFault) : (report fault).Draws S fun _ => True :=
  fun _ hts => ⟨trivial, hts⟩

theorem Draws.reportAt (fault : SyntaxFault) (token : Token) :
    (reportAt fault token).Draws S fun _ => True :=
  fun _ hts => ⟨trivial, hts⟩

theorem Draws.iterate {step : α → Parser (Option α)}
    (hstep : ∀ a, P a → (step a).Draws S fun r => r.elim True P) (n : Nat) (ha : P a) :
    (iterate step n a).Draws S P := by
  induction n generalizing a with
  | zero => exact .pure ha
  | succ n ih =>
    refine .bind (hstep a ha) fun r hr => ?_
    cases r with
    | none => exact .pure ha
    | some b => exact ih hr

theorem Draws.recover {resume : List Token → List Token} (hresume : ∀ ts, resume ts <:+ ts)
    (hp : p.Draws S P) : (recover resume p).Draws S fun r => r.elim True P := by
  intro ts hts
  obtain ⟨hresult, hrest⟩ := hp ts hts
  simp only [Parser.recover]
  rcases hreply : p ts with ⟨result, errors, rest⟩
  rw [hreply] at hresult hrest
  cases result with
  | some a => exact ⟨hresult, hrest⟩
  | none => exact ⟨trivial, List.Subset.trans (hresume rest).subset hrest⟩

end Parser

namespace Grammar
open Lox.Parser

/-- All of these names are identifiers among the tokens. -/
def Worded (S : List Token) (names : List String) : Prop :=
  ∀ x ∈ names, ∃ p, ⟨.identifier x, p⟩ ∈ S

variable {S : List Token}

@[simp] theorem worded_nil : Worded S [] := List.forall_mem_nil _

theorem worded_cons : Worded S (x :: xs) ↔ Worded S [x] ∧ Worded S xs := by
  simp [Worded]

@[simp] theorem worded_append : Worded S (xs ++ ys) ↔ Worded S xs ∧ Worded S ys :=
  List.forall_mem_append

theorem worded_singleton (h : ⟨.identifier x, p⟩ ∈ S) : Worded S [x] :=
  List.forall_mem_singleton.2 ⟨p, h⟩

theorem worded_args {args : List (Expr ρ)} :
    Worded S (Expr.identifiersAll args) ↔ ∀ e ∈ args, Worded S e.identifiers := by
  induction args with
  | nil => simp [Expr.identifiersAll]
  | cons e args ih => simp [Expr.identifiersAll, ih]

theorem worded_body {body : List (Stmt ρ)} :
    Worded S (Stmt.identifiersAll body) ↔ ∀ s ∈ body, Worded S s.identifiers := by
  induction body with
  | nil => simp [Stmt.identifiersAll]
  | cons s body ih => simp [Stmt.identifiersAll, ih]

theorem worded_methods {methods : List (FunDecl ρ)} :
    Worded S (FunDecl.identifiersAll methods) ↔ ∀ f ∈ methods, Worded S f.identifiers := by
  induction methods with
  | nil => simp [FunDecl.identifiersAll]
  | cons f methods ih => simp [FunDecl.identifiersAll, ih]

theorem worded_params {params : List Ident} :
    Worded S (params.map (·.name)) ↔ ∀ p ∈ params, Worded S [p.name] := by
  simp [Worded]

theorem draws_ident (fault : SyntaxFault) : (ident fault).Draws S fun r => Worded S [r.1] := by
  refine (Draws.expect identifier? fault).mono fun r hr => ?_
  obtain ⟨name, kind, p⟩ := r
  obtain ⟨hmem, hkind⟩ : ⟨kind, p⟩ ∈ S ∧ identifier? kind = some name := hr
  cases kind <;> cases hkind
  exact worded_singleton hmem

theorem draws_atom : atom.Draws S fun r => r.elim True fun e => Worded S e.identifiers := by
  intro ts hts
  cases ts with
  | nil => exact ⟨trivial, hts⟩
  | cons t rest =>
    obtain ⟨ht, hrest⟩ := List.cons_subset.1 hts
    obtain ⟨kind, p⟩ := t
    simp only [atom]
    cases hatom : atom? p kind with
    | none => exact ⟨trivial, hts⟩
    | some e =>
      refine ⟨?_, hrest⟩
      unfold atom? at hatom
      split at hatom <;> cases hatom
      case h_7 => exact worded_singleton ht
      all_goals exact worded_nil

theorem draws_optionally {p : Parser α} {k : Option α → Parser β} {P : α → Prop} {Q : β → Prop}
    (h : p.Draws S P) (hk : ∀ r, r.elim True P → (k r).Draws S Q) (found : Bool) :
    (if found then some <$> p >>= k else pure none >>= k).Draws S Q := by
  split
  · exact .bind (.map (R := fun r => r.elim True P) h) hk
  · exact .bind (P := fun r => r.elim True P) (.pure trivial) hk

section
variable {expr : Parser (Expr Unresolved)} (he : expr.Draws S fun e => Worded S e.identifiers)
include he

theorem draws_primary : (primary expr).Draws S fun e => Worded S e.identifiers := by
  refine .bind draws_atom fun r hr => ?_
  cases r with
  | some e => exact .pure hr
  | none =>
    refine .bind (.accept _) fun found _ => ?_
    split
    · exact .bind he fun inner hinner => .bind (.symbol _ _) fun _ _ => .pure hinner
    · exact .fail _

theorem draws_argument {args : List (Expr Unresolved)}
    (hargs : ∀ e ∈ args, Worded S e.identifiers) :
    (argument expr args).Draws S fun args => ∀ e ∈ args, Worded S e.identifiers := by
  have hadd : (expr >>= fun e => pure (args ++ [e])).Draws S
      fun args => ∀ e ∈ args, Worded S e.identifiers :=
    .bind he fun e he => .pure
      (List.forall_mem_append.2 ⟨hargs, List.forall_mem_singleton.2 he⟩)
  unfold argument
  split
  · exact .bind (.report _) fun _ _ => hadd
  · exact hadd

theorem draws_arguments (n : Nat) :
    (arguments n expr).Draws S fun args => ∀ e ∈ args, Worded S e.identifiers := by
  refine .bind (.nextIs _) fun found _ => ?_
  split
  · exact .pure (List.forall_mem_nil _)
  · refine .bind (draws_argument he (List.forall_mem_nil _)) fun args hargs =>
      .iterate (fun args hargs => ?_) n hargs
    refine .bind (.accept _) fun found _ => ?_
    split
    · exact .map (draws_argument he hargs)
    · exact .pure trivial

theorem draws_suffix? (n : Nat) {e : Expr Unresolved} (hw : Worded S e.identifiers) :
    (suffix? n expr e).Draws S fun r => r.elim True fun e => Worded S e.identifiers := by
  refine .bind (.accept _) fun found _ => ?_
  split
  · exact .bind (draws_arguments he n) fun args hargs => .bind (.symbol _ _) fun _ _ =>
      .pure (worded_append.2 ⟨hw, worded_args.2 hargs⟩)
  · refine .bind (.accept _) fun found _ => ?_
    split
    · exact .bind (draws_ident _) fun name hname => .pure (worded_append.2 ⟨hw, hname⟩)
    · exact .pure trivial

theorem draws_call (n : Nat) : (call n expr).Draws S fun e => Worded S e.identifiers :=
  .bind (draws_primary he) fun _ hw => .iterate (fun _ => draws_suffix? he n) n hw

omit he in
theorem identifiers_unary (ops : List (UnaryOp × Pos)) (e : Expr ρ) :
    (ops.foldl (fun e op => Expr.unary op.1 op.2 e) e).identifiers = e.identifiers := by
  induction ops generalizing e with
  | nil => rfl
  | cons op ops ih => exact ih _

theorem draws_unary (n : Nat) : (unary n expr).Draws S fun e => Worded S e.identifiers := by
  have hops : (iterate nextUnary? n [] : Parser _).Draws S fun _ => True := by
    refine .iterate (fun ops _ => ?_) n trivial
    refine .bind (.take? _) fun found _ => ?_
    cases found <;> exact .pure trivial
  refine .bind hops fun ops _ => .bind (draws_call he n) fun operand hw => .pure ?_
  exact (identifiers_unary ops operand).symm ▸ hw

omit he in
theorem draws_chain {ω : Type} {op? : TokenKind → Option ω}
    {join : Expr Unresolved → ω → Pos → Expr Unresolved → Expr Unresolved}
    {operand : Parser (Expr Unresolved)}
    (hjoin : ∀ left op pos right,
      (join left op pos right).identifiers = left.identifiers ++ right.identifiers)
    (h : operand.Draws S fun e => Worded S e.identifiers) (n : Nat) :
    (chain op? join n operand).Draws S fun e => Worded S e.identifiers := by
  refine .bind h fun first hfirst => .iterate (fun left hleft => ?_) n hfirst
  refine .bind (.take? _) fun found _ => ?_
  cases found with
  | none => exact .pure trivial
  | some found =>
    refine .bind h fun right hright => .pure ?_
    rw [Option.elim_some, hjoin]
    exact worded_append.2 ⟨hleft, hright⟩

theorem draws_disjunction (n : Nat) :
    (disjunction n expr).Draws S fun e => Worded S e.identifiers := by
  have hbinary : ∀ (left : Expr Unresolved) op pos right,
      (Expr.binary left op pos right).identifiers = left.identifiers ++ right.identifiers :=
    fun _ _ _ _ => rfl
  have hlogical : ∀ (left : Expr Unresolved) op right,
      (Expr.logical left op right).identifiers = left.identifiers ++ right.identifiers :=
    fun _ _ _ => rfl
  have hfactor : (factor n expr).Draws S fun e => Worded S e.identifiers :=
    draws_chain hbinary (draws_unary he n) n
  have hterm : (term n expr).Draws S fun e => Worded S e.identifiers :=
    draws_chain hbinary hfactor n
  have hcomparison : (comparison n expr).Draws S fun e => Worded S e.identifiers :=
    draws_chain hbinary hterm n
  have hequality : (equality n expr).Draws S fun e => Worded S e.identifiers :=
    draws_chain hbinary hcomparison n
  exact draws_chain (fun left _ _ right => hlogical left .or right)
    (draws_chain (fun left _ _ right => hlogical left .and right) hequality n) n

omit he in
theorem worded_assignTo? {target value e : Expr Unresolved} (h : assignTo? target value = some e)
    (ht : Worded S target.identifiers) (hv : Worded S value.identifiers) :
    Worded S e.identifiers := by
  unfold assignTo? at h
  split at h
  · cases h
    exact worded_cons.2 ⟨ht, hv⟩
  · cases h
    obtain ⟨hobject, hname⟩ := worded_append.1 ht
    exact worded_append.2 ⟨hobject, worded_cons.2 ⟨hname, hv⟩⟩
  · cases h

theorem draws_assignment (n : Nat) :
    (assignment n expr).Draws S fun e => Worded S e.identifiers := by
  refine .bind (draws_disjunction he n) fun target ht => .bind (.take? _) fun found _ => ?_
  cases found with
  | none => exact .pure ht
  | some found =>
    refine .bind he fun value hv => ?_
    split
    · rename_i e hassign
      exact .pure (worded_assignTo? hassign ht hv)
    · exact .bind (.reportAt _ _) fun _ _ => .pure ht

end

theorem draws_expression (S : List Token) (n : Nat) :
    (expression n : Parser _).Draws S fun e => Worded S e.identifiers := by
  induction n with
  | zero => exact .fail _
  | succ n ih => exact draws_assignment ih n

theorem draws_put {item : Parser (Option α)} {P : α → Prop}
    (h : item.Draws S fun r => r.elim True P) {done : List α} (hdone : ∀ a ∈ done, P a) :
    (item >>= fun r => pure (some (r.toList ++ done)) : Parser (Option (List α))).Draws S
      fun r => r.elim True fun as => ∀ a ∈ as, P a := by
  refine .bind h fun r hr => .pure ?_
  cases r with
  | none => exact hdone
  | some a => exact List.forall_mem_cons.2 ⟨hr, hdone⟩

theorem draws_gather {step : List α → Parser (Option (List α))} {P : α → Prop}
    (hstep : ∀ done, (∀ a ∈ done, P a) →
      (step done).Draws S fun r => r.elim True fun as => ∀ a ∈ as, P a) (n : Nat) :
    (List.reverse <$> iterate step n []).Draws S fun as => ∀ a ∈ as, P a := by
  refine .bind (.iterate hstep n (List.forall_mem_nil _)) fun done hdone => .pure fun a ha => ?_
  exact hdone a (List.mem_reverse.1 ha)

theorem draws_items {item : Parser (Option α)} {P : α → Prop}
    (h : item.Draws S fun r => r.elim True P) (n : Nat) :
    (items n item).Draws S fun as => ∀ a ∈ as, P a := by
  refine draws_gather (fun done hdone => ?_) n
  refine .bind .peek fun next _ => ?_
  cases next with
  | none => exact .pure trivial
  | some t =>
    dsimp only
    split
    · exact .pure trivial
    · exact draws_put h hdone

theorem draws_parameter {params : List Ident} (hparams : ∀ p ∈ params, Worded S [p.name]) :
    (parameter params : Parser _).Draws S fun params => ∀ p ∈ params, Worded S [p.name] := by
  have hadd : (ident .parameterName >>= fun r => pure (params ++ [⟨r.1, r.2.pos⟩])).Draws S
      fun params => ∀ p ∈ params, Worded S [p.name] :=
    .bind (draws_ident _) fun r hr => .pure
      (List.forall_mem_append.2 ⟨hparams, List.forall_mem_singleton.2 hr⟩)
  unfold parameter
  split
  · exact .bind (.report _) fun _ _ => hadd
  · exact hadd

theorem draws_parameters (n : Nat) :
    (parameters n : Parser _).Draws S fun params => ∀ p ∈ params, Worded S [p.name] := by
  refine .bind (.nextIs _) fun found _ => ?_
  split
  · exact .pure (List.forall_mem_nil _)
  · refine .bind (draws_parameter (List.forall_mem_nil _)) fun params hparams =>
      .iterate (fun params hparams => ?_) n hparams
    refine .bind (.accept _) fun found _ => ?_
    split
    · exact .map (draws_parameter hparams)
    · exact .pure trivial

section
variable {decl : Parser (Option (Stmt Unresolved))}
  (hd : decl.Draws S fun r => r.elim True fun s => Worded S s.identifiers)
include hd

theorem draws_block (n : Nat) :
    (block n decl).Draws S fun body => ∀ s ∈ body, Worded S s.identifiers :=
  .bind (draws_items hd n) fun _ hbody => .bind (.symbol _ _) fun _ _ => .pure hbody

theorem draws_function (n : Nat) (kind : FunctionKind) :
    (function n decl kind).Draws S fun f => Worded S f.identifiers :=
  .bind (draws_ident _) fun _ hname => .bind (.symbol _ _) fun _ _ =>
    .bind (draws_parameters n) fun _ hparams => .bind (.symbol _ _) fun _ _ =>
      .bind (.symbol _ _) fun _ _ => .bind (draws_block hd n) fun _ hbody => .pure
        (worded_cons.2 ⟨hname, worded_append.2 ⟨worded_params.2 hparams, worded_body.2 hbody⟩⟩)

theorem draws_classDecl (n : Nat) :
    (classDecl n decl).Draws S fun s => Worded S s.identifiers := by
  refine .bind (draws_ident _) fun _ hname => .bind (.symbol _ _) fun _ _ => ?_
  have hmethod : (some <$> function n decl .method).Draws S
      fun r => r.elim True fun f => Worded S f.identifiers := .map (draws_function hd n .method)
  exact .bind (draws_items hmethod n) fun _ hmethods => .bind (.symbol _ _) fun _ _ =>
    .pure (worded_cons.2 ⟨hname, worded_methods.2 hmethods⟩)

end

section
variable {expr : Parser (Expr Unresolved)} (he : expr.Draws S fun e => Worded S e.identifiers)
include he

theorem draws_varDecl : (varDecl expr).Draws S fun s => Worded S s.identifiers := by
  refine .bind (draws_ident _) fun name hname => .bind (.accept _) fun found _ => ?_
  refine draws_optionally he (fun init hinit => .bind (.symbol _ _) fun _ _ => .pure ?_) found
  cases init with
  | none => exact hname
  | some e => exact worded_cons.2 ⟨hname, hinit⟩

theorem draws_expressionStmt : (expressionStmt expr).Draws S fun s => Worded S s.identifiers :=
  .bind he fun _ hw => .bind (.symbol _ _) fun _ _ => .pure hw

theorem draws_printStmt : (printStmt expr).Draws S fun s => Worded S s.identifiers :=
  .bind he fun _ hw => .bind (.symbol _ _) fun _ _ => .pure hw

theorem draws_optionalExpr (stop : Symbol) :
    (optionalExpr expr stop).Draws S fun r => r.elim True fun e => Worded S e.identifiers := by
  refine .bind (.nextIs _) fun found _ => ?_
  split
  · exact .pure trivial
  · exact .map he

theorem draws_returnStmt (pos : Pos) :
    (returnStmt expr pos).Draws S fun s => Worded S s.identifiers := by
  refine .bind (draws_optionalExpr he _) fun value hvalue => .bind (.symbol _ _) fun _ _ => .pure ?_
  cases value with
  | none => exact worded_nil
  | some e => exact hvalue

theorem draws_forStart :
    (forStart expr).Draws S fun r => r.elim True fun s => Worded S s.identifiers := by
  refine .bind (.accept _) fun found _ => ?_
  split
  · exact .pure trivial
  · refine .bind (.accept _) fun found _ => ?_
    split
    · exact .map (draws_varDecl he)
    · exact .map (draws_expressionStmt he)

omit he in
theorem worded_forLoop {start : Option (Stmt Unresolved)}
    {condition increment : Option (Expr Unresolved)} {body : Stmt Unresolved}
    (hstart : start.elim True fun s => Worded S s.identifiers)
    (hcondition : condition.elim True fun e => Worded S e.identifiers)
    (hincrement : increment.elim True fun e => Worded S e.identifiers)
    (hbody : Worded S body.identifiers) :
    Worded S (forLoop start condition increment body).identifiers := by
  cases start <;> cases condition <;> cases increment <;>
    simp_all [forLoop, Stmt.identifiers, Stmt.identifiersAll, Expr.identifiers]

section
variable {stmt : Parser (Stmt Unresolved)} (hs : stmt.Draws S fun s => Worded S s.identifiers)
include hs

theorem draws_ifStmt : (ifStmt expr stmt).Draws S fun s => Worded S s.identifiers := by
  refine .bind (.symbol _ _) fun _ _ => .bind he fun condition hc => .bind (.symbol _ _) fun _ _ => ?_
  refine .bind hs fun yes hyes => .bind (.accept _) fun found _ => ?_
  refine draws_optionally hs (fun no hno => .pure ?_) found
  cases no with
  | none => exact worded_append.2 ⟨hc, hyes⟩
  | some no => exact worded_append.2 ⟨worded_append.2 ⟨hc, hyes⟩, hno⟩

theorem draws_whileStmt : (whileStmt expr stmt).Draws S fun s => Worded S s.identifiers :=
  .bind (.symbol _ _) fun _ _ => .bind he fun _ hc => .bind (.symbol _ _) fun _ _ =>
    .bind hs fun _ hbody => .pure (worded_append.2 ⟨hc, hbody⟩)

theorem draws_forStmt : (forStmt expr stmt).Draws S fun s => Worded S s.identifiers :=
  .bind (.symbol _ _) fun _ _ => .bind (draws_forStart he) fun _ hstart =>
    .bind (draws_optionalExpr he _) fun _ hcondition => .bind (.symbol _ _) fun _ _ =>
      .bind (draws_optionalExpr he _) fun _ hincrement => .bind (.symbol _ _) fun _ _ =>
        .bind hs fun _ hbody => .pure (worded_forLoop hstart hcondition hincrement hbody)

theorem draws_statementWith {decl : Parser (Option (Stmt Unresolved))}
    (hd : decl.Draws S fun r => r.elim True fun s => Worded S s.identifiers) (n : Nat) :
    (statementWith n expr decl stmt).Draws S fun s => Worded S s.identifiers := by
  refine .bind (.take? _) fun found _ => ?_
  rcases found with _ | ⟨opening, token⟩
  · exact draws_expressionStmt he
  · cases opening with
    | function => exact .map (draws_function hd n _)
    | branch => exact draws_ifStmt he hs
    | loop => exact draws_whileStmt he hs
    | forLoop => exact draws_forStmt he hs
    | print => exact draws_printStmt he
    | ret => exact draws_returnStmt he _
    | block => exact .map ((draws_block hd n).mono fun _ hbody => worded_body.2 hbody)

end

theorem draws_statement {decl : Parser (Option (Stmt Unresolved))}
    (hd : decl.Draws S fun r => r.elim True fun s => Worded S s.identifiers) (n : Nat) :
    (statement expr decl n).Draws S fun s => Worded S s.identifiers := by
  induction n with
  | zero => exact .fail _
  | succ n ih => exact draws_statementWith he ih hd n

theorem draws_declaration (n : Nat) :
    (declaration expr n).Draws S fun r => r.elim True fun s => Worded S s.identifiers := by
  induction n with
  | zero => exact .fail _
  | succ n ih =>
    refine .recover resync_suffix (.bind (.accept _) fun found _ => ?_)
    split
    · exact draws_classDecl ih n
    · refine .bind (.accept _) fun found _ => ?_
      split
      · exact draws_varDecl he
      · exact draws_statement he ih (n + 1)

end

theorem draws_program (S : List Token) (n : Nat) :
    (program n).Draws S fun body => ∀ s ∈ body, Worded S s.identifiers := by
  have hdecl := draws_declaration (draws_expression S (n + 1)) (n + 1)
  refine draws_gather (fun done hdone => ?_) n
  refine .bind .peek fun next _ => ?_
  cases next with
  | none => exact .pure trivial
  | some t => exact draws_put hdecl hdone

end Grammar

/-- The names in a parsed tree are identifiers among the tokens. -/
theorem worded_parse (ts : List Token) (hs : s ∈ (parse ts).program) :
    Grammar.Worded ts s.identifiers := by
  have hdraws := (Grammar.draws_program ts ts.length ts (List.Subset.refl ts)).1
  rw [parse] at hs
  cases hresult : (Grammar.program ts.length ts).result with
  | none =>
    rw [hresult] at hs
    cases hs
  | some program =>
    rw [hresult] at hs hdraws
    exact hdraws s hs

end Lox
