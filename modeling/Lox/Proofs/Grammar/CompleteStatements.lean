import Lox.Proofs.Grammar.Completeness

namespace Lox.Grammar
set_option autoImplicit true

open Lox.Parser

variable {expr : Parser (Expr Unresolved)} {stmt : Parser (Stmt Unresolved)}
  {decl : Parser (Option (Stmt Unresolved))} {n : Nat}

theorem IsVarDecl.first (h : IsVarDecl ts s rest) : ∃ w us, ts = ⟨.keyword .varWord, w⟩ :: us := by
  cases h <;> exact ⟨_, _, rfl⟩

theorem yields_varDecl (he : Complete expr (IsExpr .expression) (Stops .expression) n)
    (h : IsVarDecl (⟨.keyword .varWord, w⟩ :: ts) s rest) (hlen : ts.length < n) :
    (varDecl expr).Yields ts s rest := by
  cases h with
  | plain =>
    refine .bind (.ident _ _ _) (.bind (.accept_false (by simp)) (.bind .pure ?_))
    exact .bind (.symbol _ _ _) .pure
  | init h =>
    simp only [List.length_cons] at hlen
    refine .bind (.ident _ _ _) (.bind (.accept_true _ _) ?_)
    refine .bind ((he _ _ _ h (by omega) (stops_of_none rfl _ _)).map some) ?_
    exact .bind (.symbol _ _ _) .pure

theorem complete_expressionStmt (he : Complete expr (IsExpr .expression) (Stops .expression) n) :
    Complete (expressionStmt expr) IsExprStmt (fun _ => True) n := by
  intro ts s rest h hlen _
  cases h with
  | intro h =>
    exact .bind (he _ _ _ h hlen (stops_of_none rfl _ _)) (.bind (.symbol _ _ _) .pure)

theorem yields_optionalExpr (he : Complete expr (IsExpr .expression) (Stops .expression) n)
    (h : IsOptional ts e (⟨.symbol stop, q⟩ :: rest)) (hlen : ts.length < n)
    (hfirst : startsExpr (.symbol stop) = false) (hstop : continuation? (.symbol stop) = none) :
    (optionalExpr expr stop).Yields ts e (⟨.symbol stop, q⟩ :: rest) := by
  cases h with
  | none => exact .bind (.nextIs_true _ q) .pure
  | some h =>
    exact .bind (.nextIs_false (h.not_first hfirst))
      ((he _ _ _ h hlen (stops_of_none hstop q rest)).map some)

theorem yields_parameter (name : String) (p : Pos) (hlen : params.length < 8) :
    (parameter params : Parser _).Yields (⟨.identifier name, p⟩ :: rest) (params ++ [⟨name, p⟩]) rest := by
  unfold parameter
  split
  · rename_i hmax
    exact (Nat.not_le_of_lt hlen hmax).elim
  · exact .bind (.ident name p _) .pure

theorem loops_parameters (h : IsParams ts params us) (hne : params ≠ []) (hlen : ts.length ≤ n) :
    Loops (parameters n) nextParameter? ts params us := by
  induction h with
  | none => exact (hne rfl).elim
  | @one name p rest =>
    have hparam : (parameter [] : Parser _).Yields (⟨.identifier name, p⟩ :: rest) [⟨name, p⟩] rest :=
      yields_parameter name p (by decide)
    obtain ⟨k, hk, hp⟩ := Loops.start nextParameter? hparam (Nat.le_of_succ_le hlen)
    exact ⟨k, hk, fun b rest hb => .bind (.nextIs_false (by simp)) (hp b rest hb)⟩
  | more _ hparams hmax ih =>
    refine (ih hparams hlen).next ?_ (Nat.le_succ _)
    exact .bind (.accept_true _ _) ((yields_parameter _ _ hmax).map some)

theorem yields_parameters (h : IsParams ts params (⟨.symbol .rightParen, q⟩ :: rest))
    (hlen : ts.length ≤ n) :
    (parameters n : Parser _).Yields ts params (⟨.symbol .rightParen, q⟩ :: rest) := by
  by_cases hne : params = []
  · cases h with
    | none => exact .bind (.nextIs_true _ q) .pure
    | one => cases hne
    | more => simp at hne
  · exact (loops_parameters h hne hlen).stop (.bind (.accept_false (by simp)) .pure)

/-- A loop that reads one phrase after another, each in a relation `R`, and puts what it reads onto a
list. All together are in a relation `Rs`, which is nothing but a sequence of such phrases. -/
theorem yields_collect (R : List Token → α → List Token → Prop)
    (Rs : List Token → List α → List Token → Prop) {step : List α → Parser (Option (List α))}
    (hcases : ∀ ts as, Rs ts as rest → as = [] ∧ ts = rest ∨
      ∃ a as' us, as = a :: as' ∧ R ts a us ∧ Rs us as' rest)
    (hlt : ∀ ts a us, R ts a us → us.length < ts.length)
    (hstep : ∀ ts a us as done, R ts a us → Rs us as rest → ts.length < m →
      (step done).Yields ts (some (a :: done)) us)
    (hstop : ∀ done, (step done).Yields rest none rest)
    (h : Rs ts as rest) (hlen : ts.length < m) (hn : ts.length ≤ n) (done : List α) :
    (iterate step n done).Yields ts (as.reverse ++ done) rest := by
  induction as generalizing ts n done with
  | nil =>
    obtain ⟨_, rfl⟩ | ⟨_, _, _, h, _⟩ := hcases _ _ h
    · exact .iterate_stop (hstop done)
    · cases h
  | cons a as ih =>
    obtain ⟨h, _⟩ | ⟨_, _, us, heq, ha, has⟩ := hcases _ _ h
    · cases h
    · cases heq
      have hus := hlt _ _ _ ha
      cases n with
      | zero => exact absurd hus (by omega)
      | succ n =>
        refine .bind (hstep ts a us as done ha has hlen) ?_
        rw [List.reverse_cons, List.append_assoc]
        exact ih has (Nat.lt_trans hus hlen) (by omega) (a :: done)

theorem yields_items (R : List Token → α → List Token → Prop)
    (Rs : List Token → List α → List Token → Prop) {item : Parser (Option α)}
    (hcases : ∀ ts as rest, Rs ts as rest → as = [] ∧ ts = rest ∨
      ∃ a as' us, as = a :: as' ∧ R ts a us ∧ Rs us as' rest)
    (hlt : ∀ ts a us, R ts a us → us.length < ts.length)
    (hfirst : ∀ ts a us, R ts a us → ∀ t ∈ ts.head?, t.kind ≠ .symbol .rightBrace)
    (hitem : ∀ ts a us as, R ts a us → Rs us as (⟨.symbol .rightBrace, q⟩ :: rest) →
      ts.length < n → item.Yields ts (some a) us)
    (h : Rs ts as (⟨.symbol .rightBrace, q⟩ :: rest)) (hlen : ts.length < n) :
    (items n item).Yields ts as (⟨.symbol .rightBrace, q⟩ :: rest) := by
  have hstep : ∀ ts a us as done, R ts a us → Rs us as (⟨.symbol .rightBrace, q⟩ :: rest) →
      ts.length < n → (nextItem? item done).Yields ts (some (a :: done)) us := by
    intro ts a us as done ha has hts
    have hus := hlt ts a us ha
    cases ts with
    | nil => cases hus
    | cons t ts =>
      refine .bind (a := some t) rfl ?_
      simp only [if_neg (hfirst _ a us ha t rfl)]
      exact .bind (hitem _ a us as ha has hts) .pure
  have hloop := yields_collect R Rs (fun ts as => hcases ts as _) hlt hstep (fun _ => rfl) h hlen
    (Nat.le_of_lt hlen) []
  have hitems := hloop.map List.reverse
  rwa [List.append_nil, List.reverse_reverse] at hitems

theorem IsStmt.first (h : IsStmt nearest dangling ts s rest) :
    ∃ t us, ts = t :: us ∧ (startsExpr t.kind = true ∨ (opening? t.kind).isSome = true) := by
  cases h with
  | expression h =>
    cases h with
    | intro h =>
      obtain ⟨t, us, rfl, hs, _⟩ := h.first
      exact ⟨t, us, rfl, .inl hs⟩
  | funDecl => exact ⟨_, _, rfl, .inr rfl⟩
  | forLoop => exact ⟨_, _, rfl, .inr rfl⟩
  | ifThen => exact ⟨_, _, rfl, .inr rfl⟩
  | ifElse => exact ⟨_, _, rfl, .inr rfl⟩
  | print => exact ⟨_, _, rfl, .inr rfl⟩
  | ret => exact ⟨_, _, rfl, .inr rfl⟩
  | loop => exact ⟨_, _, rfl, .inr rfl⟩
  | block => exact ⟨_, _, rfl, .inr rfl⟩

theorem IsStmt.not_first (h : IsStmt nearest dangling ts s rest) (hk : startsExpr kind = false)
    (hk' : opening? kind = none) : ∀ t ∈ ts.head?, t.kind ≠ kind := by
  obtain ⟨t, us, rfl, hs⟩ := h.first
  intro t' ht heq
  cases ht
  rw [heq, hk, hk'] at hs
  simp at hs

theorem IsDecl.not_first (h : IsDecl nearest ts s rest) (hk : startsExpr kind = false)
    (hk' : opening? kind = none) (hc : kind ≠ .keyword .classWord) (hv : kind ≠ .keyword .varWord) :
    ∀ t ∈ ts.head?, t.kind ≠ kind := by
  cases h with
  | classDecl => simpa using hc.symm
  | varDecl h => cases h <;> simpa using hv.symm
  | statement h => exact h.not_first hk hk'

theorem IsDecls.noElse (h : IsDecls nearest ts body rest) (hrest : NoElse rest) : NoElse ts := by
  cases h with
  | empty => exact hrest
  | next h _ => exact h.not_first rfl rfl (by decide) (by decide)

theorem Complete.mono (h : Complete p R stop n) (hk : k ≤ n) : Complete p R stop k :=
  fun ts a rest hR hlen hstop => h ts a rest hR (Nat.lt_of_lt_of_le hlen hk) hstop

theorem IsDecls.cases_next (h : IsDecls nearest ts body rest) : body = [] ∧ ts = rest ∨
    ∃ s body' us, body = s :: body' ∧ IsDecl nearest ts s us ∧ IsDecls nearest us body' rest := by
  cases h with
  | empty => exact .inl ⟨rfl, rfl⟩
  | next h h' => exact .inr ⟨_, _, _, rfl, h, h'⟩

theorem yields_block (hd : Complete decl ReadsDecl NoElse n)
    (h : IsDecls true ts body (⟨.symbol .rightBrace, q⟩ :: rest)) (hlen : ts.length < n) :
    (block n decl).Yields ts body rest := by
  have hitems := yields_items (IsDecl true) (IsDecls true) (fun _ _ _ h => h.cases_next)
    (fun _ _ _ h => h.length_lt) (fun _ _ _ h => h.not_first rfl rfl (by decide) (by decide))
    (fun ts s us body h h' hts => hd ts (some s) us ⟨s, rfl, h⟩ hts (h'.noElse (by simp [NoElse])))
    h hlen
  exact .bind hitems (.bind (.symbol _ _ _) .pure)

theorem complete_function (hd : Complete decl ReadsDecl NoElse n) (kind : FunctionKind) :
    Complete (function n decl kind) (IsFunction true) (fun _ => True) n := by
  intro ts f rest h hlen _
  cases h with
  | intro hparams hbody =>
    have hle := hparams.length_le
    simp only [List.length_cons] at hlen hle
    refine .bind (.ident _ _ _) (.bind (.symbol _ _ _) ?_)
    refine .bind (yields_parameters hparams (by omega)) ?_
    refine .bind (.symbol _ _ _) (.bind (.symbol _ _ _) ?_)
    exact .bind (yields_block hd hbody (by omega)) .pure

theorem IsMethods.cases_next (h : IsMethods nearest ts fs rest) : fs = [] ∧ ts = rest ∨
    ∃ f fs' us, fs = f :: fs' ∧ IsFunction nearest ts f us ∧ IsMethods nearest us fs' rest := by
  cases h with
  | nil => exact .inl ⟨rfl, rfl⟩
  | cons h h' => exact .inr ⟨_, _, _, rfl, h, h'⟩

theorem IsFunction.not_first (h : IsFunction nearest ts f rest) (s : Symbol) :
    ∀ t ∈ ts.head?, t.kind ≠ .symbol s := by
  cases h with
  | intro => simp

theorem yields_classDecl (hd : Complete decl ReadsDecl NoElse n)
    (h : IsMethods true ts methods (⟨.symbol .rightBrace, q⟩ :: rest)) (hlen : ts.length < n)
    (name : String) (p o : Pos) :
    (classDecl n decl).Yields (⟨.identifier name, p⟩ :: ⟨.symbol .leftBrace, o⟩ :: ts)
      (.classDecl ⟨name, p⟩ methods) rest := by
  have hmethod := complete_function hd .method
  have hitems := yields_items (IsFunction true) (IsMethods true) (fun _ _ _ h => h.cases_next)
    (fun _ _ _ h => h.length_lt) (fun _ _ _ h => h.not_first _)
    (fun ts f us _ h _ hts => (hmethod ts f us h hts trivial).map some) h hlen
  refine .bind (.ident _ _ _) (.bind (.symbol _ _ _) ?_)
  exact .bind hitems (.bind (.symbol _ _ _) .pure)

theorem yields_ifThen (he : Complete expr (IsExpr .expression) (Stops .expression) n)
    (hs : Complete stmt ReadsStmt (fun _ => True) n)
    (hc : IsExpr .expression ts c (⟨.symbol .rightParen, q⟩ :: us)) (hyes : ReadsStmt us yes rest)
    (hrest : NoElse rest) (hlen : ts.length < n) (p : Pos) :
    (ifStmt expr stmt).Yields (⟨.symbol .leftParen, p⟩ :: ts) (.branch c yes none) rest := by
  have hlt := hc.length_lt
  simp only [List.length_cons] at hlt
  refine .bind (.symbol _ _ _) (.bind (he _ _ _ hc hlen (stops_of_none rfl _ _)) ?_)
  refine .bind (.symbol _ _ _) (.bind (hs _ _ _ hyes (by omega) trivial) ?_)
  exact .bind (.accept_false hrest) (.bind .pure .pure)

theorem yields_ifElse (he : Complete expr (IsExpr .expression) (Stops .expression) n)
    (hs : Complete stmt ReadsStmt (fun _ => True) n)
    (hc : IsExpr .expression ts c (⟨.symbol .rightParen, q⟩ :: us))
    (hyes : IsStmt true false us yes (⟨.keyword .elseWord, r⟩ :: vs)) (hno : ReadsStmt vs no rest)
    (hlen : ts.length < n) (p : Pos) :
    (ifStmt expr stmt).Yields (⟨.symbol .leftParen, p⟩ :: ts) (.branch c yes (some no)) rest := by
  have hlt := hc.length_lt
  have hlt' := hyes.length_lt
  simp only [List.length_cons] at hlt hlt'
  refine .bind (.symbol _ _ _) (.bind (he _ _ _ hc hlen (stops_of_none rfl _ _)) ?_)
  refine .bind (.symbol _ _ _) (.bind (hs _ _ _ (.closed hyes) (by omega) trivial) ?_)
  refine .bind (.accept_true _ _) ?_
  exact .bind ((hs _ _ _ hno (by omega) trivial).map some) .pure

theorem yields_whileStmt (he : Complete expr (IsExpr .expression) (Stops .expression) n)
    (hs : Complete stmt ReadsStmt (fun _ => True) n)
    (hc : IsExpr .expression ts c (⟨.symbol .rightParen, q⟩ :: us)) (hbody : ReadsStmt us body rest)
    (hlen : ts.length < n) (p : Pos) :
    (whileStmt expr stmt).Yields (⟨.symbol .leftParen, p⟩ :: ts) (.loop c body) rest := by
  have hlt := hc.length_lt
  simp only [List.length_cons] at hlt
  refine .bind (.symbol _ _ _) (.bind (he _ _ _ hc hlen (stops_of_none rfl _ _)) ?_)
  exact .bind (.symbol _ _ _) (.bind (hs _ _ _ hbody (by omega) trivial) .pure)

theorem complete_forStart (he : Complete expr (IsExpr .expression) (Stops .expression) n) :
    Complete (forStart expr) IsForStart (fun _ => True) n := by
  intro ts start rest h hlen _
  cases h with
  | none => exact .bind (.accept_true _ _) .pure
  | varDecl h =>
    obtain ⟨w, us, rfl⟩ := h.first
    refine .bind (.accept_false (by simp)) (.bind (.accept_true _ _) ?_)
    exact (yields_varDecl he h (Nat.lt_of_succ_lt hlen)).map some
  | expression h =>
    have hstmt := complete_expressionStmt he ts _ rest h hlen trivial
    cases h with
    | intro h =>
      refine .bind (.accept_false (h.not_first rfl)) (.bind (.accept_false (h.not_first rfl)) ?_)
      exact hstmt.map some

theorem yields_forStmt (he : Complete expr (IsExpr .expression) (Stops .expression) n)
    (hs : Complete stmt ReadsStmt (fun _ => True) n) (hstart : IsForStart ts start us)
    (hcondition : IsOptional us condition (⟨.symbol .semicolon, r⟩ :: vs))
    (hincrement : IsOptional vs increment (⟨.symbol .rightParen, q⟩ :: xs))
    (hbody : ReadsStmt xs body rest) (hlen : ts.length < n) (p : Pos) :
    (forStmt expr stmt).Yields (⟨.symbol .leftParen, p⟩ :: ts)
      (whileForm start condition increment body) rest := by
  have hlt := hstart.length_lt
  have hle := hcondition.length_le
  have hle' := hincrement.length_le
  simp only [List.length_cons] at hle hle'
  refine .bind (.symbol _ _ _) (.bind (complete_forStart he _ _ _ hstart hlen trivial) ?_)
  refine .bind (yields_optionalExpr he hcondition (by omega) rfl rfl) (.bind (.symbol _ _ _) ?_)
  refine .bind (yields_optionalExpr he hincrement (by omega) rfl rfl) (.bind (.symbol _ _ _) ?_)
  refine .bind (hs _ _ _ hbody (by omega) trivial) ?_
  rw [forLoop_eq_whileForm]
  exact .pure

theorem complete_statementWith (he : Complete expr (IsExpr .expression) (Stops .expression) (n + 1))
    (hd : Complete decl ReadsDecl NoElse n) (hs : Complete stmt ReadsStmt (fun _ => True) n) :
    Complete (statementWith n expr decl stmt) ReadsStmt (fun _ => True) (n + 1) := by
  intro ts s rest h hlen _
  have he' := he.mono (Nat.le_succ n)
  obtain ⟨dangling, h, hrest⟩ := h
  cases h with
  | expression h =>
    refine .bind (a := none) (.take?_none ?_) (complete_expressionStmt he ts s rest h hlen trivial)
    cases h with
    | intro h =>
      intro t ht
      cases hk : opening? t.kind with
      | none => rfl
      | some found =>
        refine absurd rfl (show t.kind ≠ t.kind from h.not_first ?_ t ht)
        unfold opening? at hk
        split at hk <;> simp_all [startsExpr]
  | funDecl h =>
    have hlen' := Nat.lt_of_succ_lt_succ hlen
    exact .bind (.take?_some rfl) ((complete_function hd _ _ _ _ h hlen' trivial).map _)
  | forLoop hstart hcondition hincrement hbody =>
    have hlen' := Nat.lt_of_succ_lt (Nat.lt_of_succ_lt_succ hlen)
    exact .bind (.take?_some rfl)
      (yields_forStmt he' hs hstart hcondition hincrement ⟨_, hbody, hrest⟩ hlen' _)
  | ifThen hc hyes =>
    have hlen' := Nat.lt_of_succ_lt (Nat.lt_of_succ_lt_succ hlen)
    exact .bind (.take?_some rfl)
      (yields_ifThen he' hs hc ⟨_, hyes, fun _ => hrest rfl⟩ (hrest rfl) hlen' _)
  | ifElse hc hyes hinner hno =>
    have hlen' := Nat.lt_of_succ_lt (Nat.lt_of_succ_lt_succ hlen)
    cases hinner rfl
    exact .bind (.take?_some rfl) (yields_ifElse he' hs hc hyes ⟨_, hno, hrest⟩ hlen' _)
  | print h =>
    refine .bind (.take?_some rfl) ?_
    refine .bind (he' _ _ _ h (Nat.lt_of_succ_lt_succ hlen) (stops_of_none rfl _ _)) ?_
    exact .bind (.symbol _ _ _) .pure
  | ret h =>
    refine .bind (.take?_some rfl) ?_
    refine .bind (yields_optionalExpr he' h (Nat.lt_of_succ_lt_succ hlen) rfl rfl) ?_
    exact .bind (.symbol _ _ _) .pure
  | loop hc hbody =>
    have hlen' := Nat.lt_of_succ_lt (Nat.lt_of_succ_lt_succ hlen)
    exact .bind (.take?_some rfl) (yields_whileStmt he' hs hc ⟨_, hbody, hrest⟩ hlen' _)
  | block h =>
    exact .bind (.take?_some rfl) ((yields_block hd h (Nat.lt_of_succ_lt_succ hlen)).map _)

/-- The statements in a declaration are read with as many tokens as the declarations in it. -/
theorem complete_statement (he : Complete expr (IsExpr .expression) (Stops .expression) (n + 1))
    (hd : Complete decl ReadsDecl NoElse n) (hk : k ≤ n + 1) :
    Complete (statement expr decl k) ReadsStmt (fun _ => True) k := by
  induction k with
  | zero => exact fun _ _ _ _ hlen => absurd hlen (Nat.not_lt_zero _)
  | succ k ih =>
    exact complete_statementWith (he.mono hk) (hd.mono (Nat.le_of_succ_le_succ hk))
      (ih (Nat.le_of_succ_le hk))

theorem complete_declaration (he : Complete expr (IsExpr .expression) (Stops .expression) n)
    (hk : k ≤ n) : Complete (declaration expr k) ReadsDecl NoElse k := by
  induction k with
  | zero => exact fun _ _ _ _ hlen => absurd hlen (Nat.not_lt_zero _)
  | succ k ih =>
    have hd := ih (Nat.le_of_succ_le hk)
    have he' := he.mono hk
    intro ts found rest h hlen hrest
    obtain ⟨s, rfl, h⟩ := h
    refine .recover ?_ _
    cases h with
    | classDecl h =>
      have hlen' := Nat.lt_of_succ_lt (Nat.lt_of_succ_lt (Nat.lt_of_succ_lt_succ hlen))
      exact .bind (.accept_true _ _) (yields_classDecl hd h hlen' _ _ _)
    | varDecl h =>
      obtain ⟨w, us, rfl⟩ := h.first
      refine .bind (.accept_false (by simp)) (.bind (.accept_true _ _) ?_)
      exact yields_varDecl he' h (Nat.lt_of_succ_lt hlen)
    | statement h =>
      refine .bind (.accept_false (h.not_first rfl rfl)) ?_
      refine .bind (.accept_false (h.not_first rfl rfl)) ?_
      exact complete_statement he' hd (Nat.le_refl _) ts s rest ⟨_, h, fun _ => hrest⟩ hlen trivial

end Lox.Grammar
