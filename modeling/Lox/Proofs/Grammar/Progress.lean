import Lox.Proofs.Grammar.Follows

namespace Lox
set_option autoImplicit true

theorem Grammar.length_resync_lt (h : ts ≠ []) : (resync ts).length < ts.length := by
  fun_cases resync ts with
  | case1 => exact absurd rfl h
  | case2 t rest => exact Nat.lt_succ_self _
  | case3 t _ k p rest => exact Nat.lt_succ_self _
  | case4 t _ k p rest => exact Nat.lt_succ_of_le (resync_suffix _).length_le
  | case5 t rest => exact Nat.lt_succ_of_le (resync_suffix _).length_le

namespace Observed

open Call (declarations)
open Grammar

theorem suffix_of_skipped (ts : List Token) : ∀ us ∈ skipped ts, us <:+ ts := by
  induction ts with
  | nil => exact List.forall_mem_singleton.2 List.suffix_rfl
  | cons t rest ih =>
    have hrest : ∀ us ∈ skipped rest, us <:+ t :: rest :=
      fun us hus => (ih us hus).trans (List.suffix_cons _ _)
    unfold skipped
    refine List.forall_mem_cons.2 ⟨List.suffix_rfl, ?_⟩
    split
    · exact List.forall_mem_nil _
    · split
      · split
        · exact List.forall_mem_singleton.2 (List.suffix_cons _ _)
        · exact hrest
      · exact hrest

variable {p : Observed α} {q : Parser α} {ts : List Token}

theorem Follows.declared (hp : p.Follows q 1 ts fun _ rest => rest.length < ts.length)
    (hts : ts ≠ []) :
    (Observed.attempt .declaration (recover p)).Follows (Parser.recover resync q) 0 ts
      fun _ rest => rest.length < ts.length := by
  obtain ⟨hreply, hrest, hlooks, hcalls, hcount, hresult⟩ := hp
  unfold Follows
  simp only [Observed.attempt, recover, Parser.recover]
  rw [← hreply]
  rcases hrun : p ts with ⟨⟨result, errors, rest⟩, looks, calls⟩
  rw [hrun] at hrest hlooks hcalls hcount hresult
  simp only at hrest hlooks hcalls hcount hresult ⊢
  have hadd : ∀ rest : List Token, rest <:+ ts → rest.length < ts.length →
      ∀ c ∈ (⟨.declaration, ts, rest, false⟩ : Call) :: calls, c.Sound ts :=
    fun rest hrest hlt => List.forall_mem_cons.2
      ⟨⟨List.suffix_rfl, hrest, fun _ => rfl, fun _ => hlt⟩, hcalls⟩
  have hdeclarations : ∀ rest : List Token,
      declarations (⟨.declaration, ts, rest, false⟩ :: calls) = declarations calls + 1 :=
    fun rest => List.countP_cons_of_pos (decide_eq_true rfl)
  cases result with
  | some a =>
    have hlt := hresult a rfl
    refine ⟨rfl, hrest, hlooks, hadd rest hrest hlt, .inr ?_, fun _ _ => hlt⟩
    simp only [Option.isNone_some, hdeclarations]
    omega
  | none =>
    have hle : (resync rest).length ≤ rest.length := (resync_suffix rest).length_le
    have hrest' : resync rest <:+ ts := (resync_suffix rest).trans hrest
    have hlt : (resync rest).length < ts.length := by
      by_cases hnil : rest = []
      · rw [hnil]
        exact List.length_pos_iff.2 hts
      · exact (length_resync_lt hnil).trans_le hrest.length_le
    refine ⟨rfl, hrest', ?_, hadd _ hrest' hlt, .inr ?_, fun _ _ => hlt⟩
    · refine List.forall_mem_append.2 ⟨hlooks, fun us hus => ?_⟩
      exact (suffix_of_skipped rest us hus).trans hrest
    · simp only [Option.isNone_some, hdeclarations]
      omega

theorem Follows.method (hp : p.Follows q spare ts fun _ rest => rest.length < ts.length) :
    (Observed.attempt .method p).Follows q spare ts fun _ rest => rest.length < ts.length := by
  obtain ⟨hreply, hrest, hlooks, hcalls, hcount, hresult⟩ := hp
  refine ⟨hreply, hrest, hlooks, List.forall_mem_cons.2 ⟨?_, hcalls⟩, ?_, hresult⟩
  · refine ⟨List.suffix_rfl, hrest, (fun h => by cases h), fun hbroke => ?_⟩
    obtain ⟨a, ha⟩ := Option.isSome_iff_exists.1 (Option.isNone_eq_false_iff.1 hbroke)
    exact hresult a ha
  · exact hcount

/-- What is behind a token that was found need not spare another one. -/
theorem Follows.look_then {q : Parser α} {F : α → Observed β} {G : α → Parser β}
    {Q : β → List Token → Prop} (found : α → Bool)
    (hq : (Observed.look q).Follows q 1 ts fun a rest => found a → rest.length < ts.length)
    (hyes : ∀ a mid, found a = true → mid.length < ts.length → (F a).Follows (G a) 0 mid Q)
    (hno : ∀ a mid, found a = false → mid.length ≤ ts.length → (F a).Follows (G a) 1 mid Q) :
    (Observed.look q >>= F).Follows (q >>= G) 1 ts Q := by
  apply hq.bind_spare (s := fun a => if found a then 0 else 1) (.inr rfl)
  intro a mid hle hlt
  cases hfound : found a with
  | false => exact ⟨Nat.add_le_add_left hle 1, hno a mid hfound hle⟩
  | true =>
    have hlt := hlt hfound
    refine ⟨?_, hyes a mid hfound hlt⟩
    simp only [if_true]
    omega

theorem Follows.take?_then {f : TokenKind → Option γ} {F : Option (γ × Token) → Observed β}
    {G : Option (γ × Token) → Parser β} {Q : β → List Token → Prop}
    (hsome : ∀ found mid, mid.length < ts.length →
      (F (some found)).Follows (G (some found)) 0 mid Q)
    (hnone : ∀ mid, mid.length ≤ ts.length → (F none).Follows (G none) 1 mid Q) :
    (Observed.look (Parser.take? f) >>= F).Follows (Parser.take? f >>= G) 1 ts Q := by
  apply Follows.look_then Option.isSome (.take? f)
  · intro r mid hr hlt
    obtain ⟨found, rfl⟩ := Option.isSome_iff_exists.1 hr
    exact hsome found mid hlt
  · intro r mid hr hle
    rw [Option.isSome_eq_false_iff, Option.isNone_iff_eq_none] at hr
    subst hr
    exact hnone mid hle

theorem Follows.accept_then {F : Bool → Observed β} {G : Bool → Parser β}
    {Q : β → List Token → Prop}
    (htrue : ∀ mid, mid.length < ts.length → (F true).Follows (G true) 0 mid Q)
    (hfalse : ∀ mid, mid.length ≤ ts.length → (F false).Follows (G false) 1 mid Q) :
    (Observed.look (Parser.accept kind) >>= F).Follows (Parser.accept kind >>= G) 1 ts Q := by
  apply Follows.look_then id (.accept kind)
  · rintro b mid rfl hlt
    exact htrue mid hlt
  · rintro b mid rfl hle
    exact hfalse mid hle

theorem Tracks.weaken (h : p.Tracks q 1 k) : p.Tracks q 0 k := by
  intro ts hts
  obtain ⟨hreply, hsound⟩ := h ts hts
  exact ⟨hreply, { hsound with count := hsound.count.imp id Nat.le_of_succ_le }⟩

/-- A declaration of a block or program, before the end of fewer than `k` tokens. -/
def Declares (decl : Observed (Option (Stmt Unresolved)))
    (decl' : Parser (Option (Stmt Unresolved))) (k : Nat) : Prop :=
  ∀ ts, ts ≠ [] → ts.length < k →
    (Observed.attempt .declaration decl).Follows decl' 0 ts fun _ rest => rest.length < ts.length

theorem follows_parameter (params : List Ident) :
    (parameter params : Observed _).Follows (parameter params) spare ts
      fun _ rest => rest.length < ts.length := by
  have hname : ∀ us : List Token, us.length ≤ ts.length →
      (look (Parser.ident .parameterName) >>= fun x => pure (params ++ [⟨x.1, x.2.pos⟩])).Follows
        (Parser.ident .parameterName >>= fun x => pure (params ++ [⟨x.1, x.2.pos⟩])) spare us
        fun _ rest => rest.length < ts.length :=
    fun us hus => .bind (.ident _) fun _ rest _ hrest => .pure (hrest.trans_le hus)
  unfold parameter
  by_cases hmax : maxArguments ≤ params.length
  · simp only [if_pos hmax]
    exact .bind (.report _) fun _ mid hle _ => hname mid hle
  · simp only [if_neg hmax]
    exact hname ts (Nat.le_refl _)

theorem follows_parameters (hn : ts.length ≤ n) (hm : ts.length ≤ m) :
    (parameters n : Observed _).Follows (parameters m) spare ts fun _ _ => True := by
  refine .bind (.nextIs _) fun found mid hle _ => ?_
  cases found with
  | true => exact .pure trivial
  | false =>
    refine .bind (follows_parameter []) fun params rest hrest _ => ?_
    refine .iterate (fun params us hus => ?_) (fun _ => rfl) (by omega) (by omega)
    refine .bind (.accept _) fun found mid _ hfound => ?_
    cases found with
    | false => exact .pure trivial
    | true =>
      have hlt := hfound rfl
      exact .map ((follows_parameter params).mono fun _ rest _ h => h.trans hlt)

theorem follows_items {item : Observed (Option α)} {item' : Parser (Option α)}
    (hitem : ∀ us, us ≠ [] → us.length ≤ ts.length →
      item.Follows item' 0 us fun _ rest => rest.length < us.length)
    (hn : ts.length ≤ n) (hm : ts.length ≤ m) :
    (items n item).Follows (items m item') 0 ts fun _ _ => True := by
  refine .map (.iterate (fun done us hus => ?_) (fun _ => rfl) hn hm)
  refine .bind .peek fun next mid _ hpeek => ?_
  obtain ⟨rfl, rfl⟩ := hpeek
  cases mid with
  | nil => exact .pure trivial
  | cons t rest =>
    by_cases hbrace : t.kind = .symbol .rightBrace
    · simp only [List.head?_cons, if_pos hbrace]
      exact .pure trivial
    · simp only [List.head?_cons, if_neg hbrace]
      exact .bind (hitem _ (List.cons_ne_nil _ _) hus) fun _ rest _ hrest => .pure hrest

variable {expr : Observed (Expr Unresolved)} {expr' : Parser (Expr Unresolved)}
  {decl : Observed (Option (Stmt Unresolved))} {decl' : Parser (Option (Stmt Unresolved))}
  {stmt : Observed (Stmt Unresolved)} {stmt' : Parser (Stmt Unresolved)}

section
variable (hd : Declares decl decl' k) (hts : ts.length < k) (hn : ts.length ≤ n)
  (hm : ts.length ≤ m)
include hd hts hn hm

theorem follows_block : (block n decl).Follows (block m decl') 0 ts
    fun _ rest => rest.length < ts.length := by
  have hitems := follows_items (fun us hne hus => hd us hne (hus.trans_lt hts)) hn hm
  refine .bind hitems fun body mid hle _ => ?_
  exact .bind (.symbol _ _) fun _ rest _ hrest => .pure (hrest.trans_le hle)

theorem follows_function (kind : FunctionKind) :
    (function n decl kind).Follows (function m decl' kind) 0 ts
      fun _ rest => rest.length < ts.length := by
  refine .bind (.ident _) fun name mid hle _ => ?_
  refine .bind (.symbol _ _) fun _ mid₁ hle₁ _ => ?_
  refine .bind (follows_parameters (by omega) (by omega)) fun params mid₂ hle₂ _ => ?_
  refine .bind (.symbol _ _) fun _ mid₃ hle₃ _ => ?_
  refine .bind (.symbol _ _) fun _ mid₄ hle₄ _ => ?_
  refine .bind (follows_block hd (by omega) (by omega) (by omega)) fun body rest _ hrest => ?_
  exact .pure (by omega)

theorem follows_classDecl : (classDecl n decl).Follows (classDecl m decl') 0 ts
    fun _ rest => rest.length < ts.length := by
  refine .bind (.ident _) fun name mid hle _ => ?_
  refine .bind (.symbol _ _) fun _ mid₁ hle₁ _ => ?_
  have hmethod : ∀ us, us ≠ [] → us.length ≤ mid₁.length →
      (some <$> Observed.attempt .method (function n decl .method)).Follows
        (some <$> function m decl' .method) 0 us fun _ rest => rest.length < us.length :=
    fun us _ hus => .map (.method (follows_function hd (by omega) (by omega) (by omega) .method))
  refine .bind (follows_items hmethod (by omega) (by omega)) fun methods mid₂ hle₂ _ => ?_
  exact .bind (.symbol _ _) fun _ rest _ hrest => .pure (by omega)

end

section
variable (he : expr.Tracks expr' spare k) (hts : ts.length < k)
include he hts

theorem follows_varDecl : (varDecl expr).Follows (varDecl expr') spare ts
    fun _ rest => rest.length < ts.length := by
  have hend : ∀ (name : Ident) (init : Option (Expr Unresolved)) (us : List Token),
      us.length ≤ ts.length →
      (look (Parser.symbol .semicolon .variableEnd) >>=
          fun _ => pure (Stmt.varDecl name init)).Follows
        (Parser.symbol .semicolon .variableEnd >>= fun _ => pure (Stmt.varDecl name init)) spare us
        fun _ rest => rest.length < ts.length :=
    fun name init us hus => .bind (.symbol _ _) fun _ rest _ hrest => .pure (hrest.trans_le hus)
  refine .bind (.ident _) fun name mid hle _ => ?_
  refine .bind (.accept _) fun found mid₁ hle₁ _ => ?_
  cases found with
  | true =>
    have hinit : (some <$> expr).Follows (some <$> expr') spare mid₁
        fun _ rest => rest.length < mid₁.length := .map (he mid₁ (by omega))
    exact .bind hinit fun init mid₂ hle₂ _ => hend _ init mid₂ (by omega)
  | false => exact hend _ none mid₁ (by omega)

theorem follows_expressionStmt : (expressionStmt expr).Follows (expressionStmt expr') spare
    ts fun _ rest => rest.length < ts.length := by
  refine .bind (he ts hts) fun e mid hle _ => ?_
  exact .bind (.symbol _ _) fun _ rest _ hrest => .pure (hrest.trans_le hle)

theorem follows_printStmt : (printStmt expr).Follows (printStmt expr') spare ts
    fun _ rest => rest.length < ts.length := by
  refine .bind (he ts hts) fun e mid hle _ => ?_
  exact .bind (.symbol _ _) fun _ rest _ hrest => .pure (hrest.trans_le hle)

theorem follows_optionalExpr (stop : Symbol) :
    (optionalExpr expr stop).Follows (optionalExpr expr' stop) spare ts
      fun _ _ => True := by
  refine .bind (.nextIs _) fun found mid hle _ => ?_
  cases found with
  | true => exact .pure trivial
  | false => exact .map ((he mid (hle.trans_lt hts)).mono fun _ _ _ _ => trivial)

theorem follows_returnStmt (pos : Pos) : (returnStmt expr pos).Follows
    (returnStmt expr' pos) spare ts fun _ rest => rest.length < ts.length := by
  refine .bind (follows_optionalExpr he hts _) fun value mid hle _ => ?_
  exact .bind (.symbol _ _) fun _ rest _ hrest => .pure (hrest.trans_le hle)

theorem follows_forStart : (forStart expr).Follows (forStart expr') spare ts
    fun _ _ => True := by
  refine .bind (.accept _) fun found mid hle _ => ?_
  cases found with
  | true => exact .pure trivial
  | false =>
    refine .bind (.accept _) fun found mid₁ hle₁ _ => ?_
    have hmid₁ : mid₁.length < k := by omega
    cases found with
    | true => exact .map ((follows_varDecl he hmid₁).mono fun _ _ _ _ => trivial)
    | false => exact .map ((follows_expressionStmt he hmid₁).mono fun _ _ _ _ => trivial)

variable (hs : stmt.Tracks stmt' spare k)
include hs

theorem follows_ifStmt : (ifStmt expr stmt).Follows (ifStmt expr' stmt') spare ts
    fun _ rest => rest.length < ts.length := by
  refine .bind (.symbol _ _) fun _ mid hle _ => ?_
  refine .bind (he mid (by omega)) fun condition mid₁ hle₁ _ => ?_
  refine .bind (.symbol _ _) fun _ mid₂ hle₂ _ => ?_
  refine .bind (hs mid₂ (by omega)) fun yes mid₃ _ hyes => ?_
  refine .bind (.accept _) fun found mid₄ hle₄ _ => ?_
  cases found with
  | true =>
    have hno : (some <$> stmt).Follows (some <$> stmt') spare mid₄
        fun _ rest => rest.length < mid₄.length := .map (hs mid₄ (by omega))
    exact .bind hno fun no rest _ hrest => .pure (by omega)
  | false => exact .pure (show mid₄.length < ts.length by omega)

theorem follows_whileStmt : (whileStmt expr stmt).Follows (whileStmt expr' stmt') spare ts
    fun _ rest => rest.length < ts.length := by
  refine .bind (.symbol _ _) fun _ mid hle _ => ?_
  refine .bind (he mid (by omega)) fun condition mid₁ hle₁ _ => ?_
  refine .bind (.symbol _ _) fun _ mid₂ hle₂ _ => ?_
  exact .bind (hs mid₂ (by omega)) fun body rest _ hrest => .pure (by omega)

theorem follows_forStmt : (forStmt expr stmt).Follows (forStmt expr' stmt') spare ts
    fun _ rest => rest.length < ts.length := by
  refine .bind (.symbol _ _) fun _ mid hle _ => ?_
  refine .bind (follows_forStart he (by omega)) fun start mid₁ hle₁ _ => ?_
  refine .bind (follows_optionalExpr he (by omega) _) fun condition mid₂ hle₂ _ => ?_
  refine .bind (.symbol _ _) fun _ mid₃ hle₃ _ => ?_
  refine .bind (follows_optionalExpr he (by omega) _) fun increment mid₄ hle₄ _ => ?_
  refine .bind (.symbol _ _) fun _ mid₅ hle₅ _ => ?_
  exact .bind (hs mid₅ (by omega)) fun body rest _ hrest => .pure (by omega)

end

section
variable (he : ∀ spare, expr.Tracks expr' spare k') (hd : Declares decl decl' k)
include he hd

theorem tracks_statementWith (hs : stmt.Tracks stmt' 0 j) (hj : j ≤ k) (hk : j < k') (hn : j ≤ n)
    (hm : j ≤ m) :
    (statementWith n expr decl stmt).Tracks (statementWith m expr' decl' stmt') 1
      (j + 1) := by
  intro ts hts
  refine .take?_then (fun found mid hlt => ?_) fun mid hle => ?_
  · -- behind the first word
    have hmid : mid.length < j := by omega
    have hexpr : expr.Tracks expr' 0 j := fun us hus => he 0 us (by omega)
    have hdecl : mid.length < k := by omega
    have hn : mid.length ≤ n := by omega
    have hm : mid.length ≤ m := by omega
    obtain ⟨opening, token⟩ := found
    refine Follows.mono (Q := fun _ rest => rest.length < mid.length) ?_
      fun _ _ _ h => h.trans hlt
    cases opening with
    | function => exact .map (follows_function hd hdecl hn hm _)
    | branch => exact follows_ifStmt hexpr hmid hs
    | loop => exact follows_whileStmt hexpr hmid hs
    | forLoop => exact follows_forStmt hexpr hmid hs
    | print => exact follows_printStmt hexpr hmid
    | ret => exact follows_returnStmt hexpr hmid _
    | block => exact .map (follows_block hd hdecl hn hm)
  · exact (follows_expressionStmt (he 1) (by omega)).mono fun _ _ _ h => h.trans_le hle

theorem tracks_statement (hj : j ≤ k + 1) (hk : j ≤ k') (hn : j ≤ n) (hm : j ≤ m) :
    (statement expr decl n).Tracks (statement expr' decl' m) 1 j := by
  induction j generalizing n m with
  | zero => exact fun ts hts => absurd hts (Nat.not_lt_zero _)
  | succ j ih =>
    obtain ⟨n, rfl⟩ := Nat.exists_eq_add_one_of_ne_zero (Nat.ne_zero_of_lt hn)
    obtain ⟨m, rfl⟩ := Nat.exists_eq_add_one_of_ne_zero (Nat.ne_zero_of_lt hm)
    have hs := ih (by omega) (by omega) (Nat.le_of_succ_le_succ hn) (Nat.le_of_succ_le_succ hm)
    exact tracks_statementWith he hd hs.weaken (by omega) hk (by omega) (by omega)

end

theorem declares_declaration (he : ∀ spare, expr.Tracks expr' spare k') (hk : k ≤ k') (hn : k ≤ n)
    (hm : k ≤ m) : Declares (declaration expr n) (declaration expr' m) k := by
  induction k generalizing n m with
  | zero => exact fun ts _ hts => absurd hts (Nat.not_lt_zero _)
  | succ k ih =>
    obtain ⟨n, rfl⟩ := Nat.exists_eq_add_one_of_ne_zero (Nat.ne_zero_of_lt hn)
    obtain ⟨m, rfl⟩ := Nat.exists_eq_add_one_of_ne_zero (Nat.ne_zero_of_lt hm)
    have hd := ih (by omega) (Nat.le_of_succ_le_succ hn) (Nat.le_of_succ_le_succ hm)
    intro ts hne hts
    refine .declared (.accept_then (fun mid hlt => ?_) fun mid hle => ?_) hne
    · have hmid : mid.length < k := by omega
      have hclass := follows_classDecl (n := n) (m := m) hd hmid (by omega) (by omega)
      exact hclass.mono fun _ _ _ h => h.trans hlt
    · refine .accept_then (fun mid₁ hlt => ?_) fun mid₁ hle₁ => ?_
      · refine (follows_varDecl (he 0) ?_).mono fun _ _ _ h => ?_ <;> omega
      · have hs := tracks_statement he hd (Nat.le_refl _) hk hn hm
        exact (hs mid₁ (by omega)).mono fun _ _ _ h => by omega

/-- The loop over all declarations ends at the end of the text, whatever bounds above the number of
tokens are given. -/
theorem follows_declarations (hn : ts.length < n) (hm : ts.length < m) (hi : ts.length ≤ i)
    (hj : ts.length ≤ j) (done : List (Stmt Unresolved)) :
    (Parser.iterate (nextDecl? (declaration (expression n) n)) i done : Observed _).Follows
      (Parser.iterate (nextDecl? (declaration (expression m) m)) j done) 0
      ts fun _ rest => rest = [] := by
  have hd : Declares (declaration (expression n) n) (declaration (expression m) m)
      (ts.length + 1) :=
    declares_declaration (fun _ => tracks_expression hn hm) (Nat.le_refl _) hn hm
  refine .iterate (fun done us hus => ?_) (fun _ => rfl) hi hj
  refine .bind .peek fun next mid _ hpeek => ?_
  obtain ⟨rfl, rfl⟩ := hpeek
  cases mid with
  | nil => exact .pure rfl
  | cons t rest =>
    exact .bind (hd _ (List.cons_ne_nil _ _) (Nat.lt_succ_of_le hus)) fun _ rest _ hrest =>
      .pure hrest

theorem follows_program (hn : ts.length ≤ n) (hm : ts.length ≤ m) :
    (program n).Follows (Grammar.program m) 0 ts fun _ rest => rest = [] :=
  .map (follows_declarations (Nat.lt_succ_of_le hn) (Nat.lt_succ_of_le hm) hn hm [])

end Observed

namespace Parser

/-- A parser that never breaks off. -/
def Total (p : Parser α) : Prop := ∀ ts, (p ts).result.isSome

theorem Total.pure (a : α) : (Pure.pure a : Parser α).Total := fun _ => rfl

theorem Total.bind {p : Parser α} {f : α → Parser β} (hp : p.Total) (hf : ∀ a, (f a).Total) :
    (p >>= f).Total := by
  intro ts
  have hfirst := hp ts
  simp only [Bind.bind, Parser.bind]
  rcases hreply : p ts with ⟨result, errors, rest⟩
  rw [hreply] at hfirst
  cases result with
  | none => cases hfirst
  | some a => exact hf a rest

theorem Total.iterate {step : α → Parser (Option α)} (hstep : ∀ a, (step a).Total) (n : Nat)
    (a : α) : (iterate step n a).Total := by
  induction n generalizing a with
  | zero => exact .pure a
  | succ n ih =>
    refine .bind (hstep a) fun r => ?_
    cases r with
    | none => exact .pure a
    | some b => exact ih b

theorem Total.recover (resume : List Token → List Token) (p : Parser α) :
    (recover resume p).Total := by
  intro ts
  unfold Parser.recover
  rcases p ts with ⟨_ | a, errors, rest⟩ <;> rfl

end Parser

namespace Grammar

theorem total_program (n : Nat) : (program n).Total := by
  refine .bind (.iterate (fun done => .bind (fun _ => rfl) fun next => ?_) n []) fun _ => .pure _
  cases next with
  | none => exact .pure _
  | some t => exact .bind (.recover _ _) fun _ => .pure _

/-- A bound above the number of tokens makes no difference, and no token is left. -/
theorem program_eq (hn : ts.length ≤ n) :
    program n ts = ⟨some (parse ts).program, (parse ts).errors, []⟩ := by
  obtain ⟨hsame, -⟩ := Observed.follows_program (Nat.le_refl ts.length) hn
  obtain ⟨hreply, hsound⟩ := Observed.follows_program (Nat.le_refl ts.length) (Nat.le_refl _)
  have hresult := hsound.result
  rw [hreply] at hsame hresult
  have htotal : (program ts.length ts).result.isSome := total_program ts.length ts
  rw [← hsame]
  unfold parse
  generalize program ts.length ts = reply at htotal hresult
  obtain ⟨_ | P, errors, rest⟩ := reply
  · cases htotal
  · obtain rfl : rest = [] := hresult P rfl
    rfl

/-- A run of the parser on any tokens, with any bound above their number. Its reply is what parsing
gives, and no token is left. It looks at no place outside the tokens. Every declaration that it sets
out to read, at the top or in a block, begins before the end, uses a token and stays within the
tokens; every method does so or breaks off. There are no more declarations, nested ones included,
than tokens. -/
theorem program_progress (ts : List Token) (n : Nat) (hn : ts.length ≤ n) :
    ((Observed.program n ts).reply = program n ts ∧
      program n ts = ⟨some (parse ts).program, (parse ts).errors, []⟩) ∧
    (∀ us ∈ (Observed.program n ts).looks, us <:+ ts) ∧
    (∀ c ∈ (Observed.program n ts).calls, c.attempt = .declaration →
      c.start ≠ [] ∧ c.start <:+ ts ∧ c.stop <:+ c.start ∧ c.stop.length < c.start.length ∧
        c.broke = false) ∧
    (∀ c ∈ (Observed.program n ts).calls, c.attempt = .method →
      c.start <:+ ts ∧ c.stop <:+ c.start ∧
        (c.broke = true ∨ c.stop.length < c.start.length)) ∧
    ((Observed.program n ts).calls.filter (·.attempt = .declaration)).length ≤ ts.length := by
  obtain ⟨hreply, hsound⟩ := Observed.follows_program hn hn
  refine ⟨⟨hreply, program_eq hn⟩, hsound.looks, fun c hc hdecl => ?_, fun c hc _ => ?_, ?_⟩
  · obtain ⟨hwithin, hforward, hcaught, huses⟩ := hsound.calls c hc
    have hlt := huses (hcaught hdecl)
    refine ⟨fun hnil => ?_, hwithin, hforward, hlt, hcaught hdecl⟩
    rw [hnil] at hlt
    exact Nat.not_lt_zero _ hlt
  · obtain ⟨hwithin, hforward, -, huses⟩ := hsound.calls c hc
    refine ⟨hwithin, hforward, ?_⟩
    cases hbroke : c.broke with
    | true => exact .inl rfl
    | false => exact .inr (huses hbroke)
  · have hcount := hsound.count
    simp only [Call.declarations, List.countP_eq_length_filter] at hcount
    omega

/-- A class with a method, a declaration without its value in a block that is not closed, and a
parenthesis that begins nothing. -/
def strayTokens : List Token :=
  [.keyword .classWord, .identifier "C", .symbol .leftBrace, .identifier "m", .symbol .leftParen,
    .symbol .rightParen, .symbol .leftBrace, .keyword .varWord, .identifier "x", .symbol .equal,
    .symbol .semicolon, .symbol .rightParen].map (⟨·, ⟨1, 0⟩⟩)

/-- The run on these tokens breaks off in the method. Within it reading goes on behind the
semicolon, so the parenthesis is one more declaration. -/
theorem program_progress_stray :
    (Observed.program 20 strayTokens).calls =
      [⟨.declaration, strayTokens, [], false⟩, ⟨.method, strayTokens.drop 3, [], true⟩,
        ⟨.declaration, strayTokens.drop 7, strayTokens.drop 11, false⟩,
        ⟨.declaration, strayTokens.drop 11, [], false⟩] ∧
    program 20 strayTokens = ⟨some (parse strayTokens).program, (parse strayTokens).errors, []⟩ ∧
    (strayTokens.drop 3 ∈ (Observed.program 20 strayTokens).looks ∧
      strayTokens.drop 3 <:+ strayTokens) ∧
    (strayTokens.drop 7 ≠ [] ∧ strayTokens.drop 7 <:+ strayTokens ∧
      strayTokens.drop 11 <:+ strayTokens.drop 7 ∧
      (strayTokens.drop 11).length < (strayTokens.drop 7).length ∧ false = false) ∧
    (strayTokens.drop 3 <:+ strayTokens ∧ [] <:+ strayTokens.drop 3 ∧
      (true = true ∨ ([] : List Token).length < (strayTokens.drop 3).length)) := by
  have hcalls : (Observed.program 20 strayTokens).calls =
      [⟨.declaration, strayTokens, [], false⟩, ⟨.method, strayTokens.drop 3, [], true⟩,
        ⟨.declaration, strayTokens.drop 7, strayTokens.drop 11, false⟩,
        ⟨.declaration, strayTokens.drop 11, [], false⟩] := rfl
  have hlook : strayTokens.drop 3 ∈ (Observed.program 20 strayTokens).looks := by decide
  obtain ⟨⟨-, hprogram⟩, hlooks, hdecl, hmethod, -⟩ := program_progress strayTokens 20 (by decide)
  rw [hcalls] at hdecl hmethod
  exact ⟨hcalls, hprogram, ⟨hlook, hlooks _ hlook⟩, hdecl _ (.tail _ (.tail _ (.head _))) rfl,
    hmethod _ (.tail _ (.head _)) rfl⟩

end Grammar

end Lox
