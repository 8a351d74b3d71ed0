import Lox.Proofs.Grammar.Derivation
import Lox.Proofs.Grammar.Ensures

namespace Lox.Grammar
set_option autoImplicit true

open Lox.Parser

/-- What a parser gives without an error is in a relation to the tokens. -/
def Sound (p : Parser α) (R : List Token → α → List Token → Prop) : Prop :=
  ∀ ts, p.Ensures ts (R ts)

variable {expr : Parser (Expr Unresolved)} {stmt : Parser (Stmt Unresolved)}
  {decl : Parser (Option (Stmt Unresolved))} {n : Nat}

theorem isAtom_of_atom? {t : Token} (h : atom? t.pos t.kind = some e) : IsAtom t e := by
  obtain ⟨kind, p⟩ := t
  cases kind with
  | symbol => cases h
  | keyword k => cases k <;> cases h <;> constructor
  | identifier => cases h; constructor
  | string => cases h; constructor
  | number => cases h; constructor

theorem sound_atom : Sound atom fun ts r rest =>
    match r with
    | some e => IsExpr .primary ts e rest
    | none => rest = ts := by
  intro ts
  unfold Ensures atom
  cases ts with
  | nil => exact fun _ => rfl
  | cons t rest =>
    simp only
    cases he : atom? t.pos t.kind with
    | none => exact fun _ => rfl
    | some e => exact fun _ => .atom (isAtom_of_atom? he)

theorem sound_primary (he : Sound expr (IsExpr .expression)) :
    Sound (primary expr) (IsExpr .primary) := by
  intro ts
  refine .bind ((sound_atom ts).mono fun r mid hr => ?_)
  cases r with
  | some e => exact .pure hr
  | none =>
    cases hr
    refine .bind (.accept (fun p us hts => ?_) fun _ => .fail _)
    refine .bind ((he us).mono fun e vs hsub => ?_)
    refine .bind (.symbol (fun q rest hvs => .pure ?_) _)
    subst hts hvs
    exact .grouping hsub

theorem sound_argument (he : Sound expr (IsExpr .expression))
    (h : ∀ e rest, IsExpr .expression us e rest → args.length < 8 → R (args ++ [e]) rest) :
    (argument expr args).Ensures us R := by
  unfold argument
  split
  · exact .bind (.report _)
  · rename_i hlen
    exact .bind ((he us).mono fun e rest hsub => .pure (h e rest hsub (Nat.lt_of_not_le hlen)))

theorem sound_arguments (he : Sound expr (IsExpr .expression)) :
    Sound (arguments n expr) IsArgs := by
  intro ts
  refine .bind (.nextIs fun b => ?_)
  split
  · exact .pure .none
  · refine .bind (sound_argument he fun e us hsub _ => ?_)
    refine (Ensures.iterate (Q := fun args us => IsArgs ts args us ∧ args ≠ []) ?_
      ⟨.one hsub, by simp⟩).mono fun args us h => h.1
    intro args us ⟨h, hne⟩
    refine .bind (.accept (fun p vs hus => ?_) fun _ => .pure ⟨h, hne⟩)
    subst hus
    exact .map (sound_argument he fun e rest hsub hlen => ⟨.more h hne hlen hsub, by simp⟩)

theorem sound_suffix? (he : Sound expr (IsExpr .expression)) (h : IsExpr .call ts e us) :
    (suffix? n expr e).Ensures us fun r rest => IsExpr .call ts (r.getD e) rest := by
  refine .bind (.accept (fun p vs hus => ?_) fun _ =>
    .bind (.accept (fun p vs hus => ?_) fun _ => .pure h))
  · refine .bind ((sound_arguments he vs).mono fun args xs hargs => ?_)
    refine .bind (.symbol (fun q rest hxs => .pure ?_) _)
    subst hus hxs
    exact .call h hargs
  · refine .bind (.ident (fun name q rest hvs => .pure ?_) _)
    subst hus hvs
    exact .get h

theorem sound_call (he : Sound expr (IsExpr .expression)) : Sound (call n expr) (IsExpr .call) := by
  intro ts
  refine .bind ((sound_primary he ts).mono fun e us h => ?_)
  exact .iterate (fun e us h => sound_suffix? he h) (.tighter h)

theorem sound_chain {op? : TokenKind → Option ω}
    {join : Expr Unresolved → ω → Pos → Expr Unresolved → Expr Unresolved}
    (hop : ∀ t op, op? t.kind = some op → Joins l t (join · op t.pos ·))
    (h : Sound operand (IsExpr l.tighter)) : Sound (chain op? join n operand) (IsExpr l) := by
  intro ts
  refine .bind ((h ts).mono fun first us hfirst => ?_)
  refine .iterate (fun left us hleft => ?_) (.tighter hfirst)
  refine .bind (.take? (fun t vs op hus hk => ?_) fun _ => .pure hleft)
  refine .bind ((h vs).mono fun right rest hright => .pure ?_)
  subst hus
  exact .join hleft (hop t op hk) hright

theorem sound_unary (he : Sound expr (IsExpr .expression)) :
    Sound (unary n expr) (IsExpr .unary) := by
  intro ts
  let apply := fun (e : Expr Unresolved) (op : UnaryOp × Pos) => Expr.unary op.1 op.2 e
  -- what is read of the operators turns an operand behind them into an expression from `ts` on
  refine .bind ((Ensures.iterate (a := []) (Q := fun ops us => ∀ e rest, IsExpr .unary us e rest →
    IsExpr .unary ts (ops.foldl apply e) rest) ?_ fun e rest h => h).mono fun ops us hops => ?_)
  · intro ops us hops
    refine .bind (.take? (fun t vs op hus hk => .pure fun e rest h => ?_) fun _ => .pure hops)
    obtain ⟨kind, p⟩ := t
    subst hus
    cases kind with
    | symbol s =>
      cases s <;> cases hk
      · exact hops _ _ (.negate h)
      · exact hops _ _ (.not h)
    | keyword => cases hk
    | identifier => cases hk
    | string => cases hk
    | number => cases hk
  · refine .bind ((sound_call he us).mono fun e rest h => .pure ?_)
    exact hops e rest (.tighter h)

theorem joins_binary {op? : TokenKind → Option BinaryOp}
    (hop : ∀ kind op, op? kind = some op → kind = .symbol op.symbol ∧ Level.ofBinary op = l)
    (t : Token) (op : BinaryOp) (h : op? t.kind = some op) : Joins l t (.binary · op t.pos ·) := by
  obtain ⟨kind, p⟩ := t
  obtain ⟨rfl, hl⟩ := hop kind op h
  exact .binary hl

theorem factor?_eq_some (h : factor? kind = some op) :
    kind = .symbol op.symbol ∧ Level.ofBinary op = .factor := by
  unfold factor? at h
  split at h <;> cases h <;> exact ⟨rfl, rfl⟩

theorem term?_eq_some (h : term? kind = some op) :
    kind = .symbol op.symbol ∧ Level.ofBinary op = .term := by
  unfold term? at h
  split at h <;> cases h <;> exact ⟨rfl, rfl⟩

theorem comparison?_eq_some (h : comparison? kind = some op) :
    kind = .symbol op.symbol ∧ Level.ofBinary op = .comparison := by
  unfold comparison? at h
  split at h <;> cases h <;> exact ⟨rfl, rfl⟩

theorem equality?_eq_some (h : equality? kind = some op) :
    kind = .symbol op.symbol ∧ Level.ofBinary op = .equality := by
  unfold equality? at h
  split at h <;> cases h <;> exact ⟨rfl, rfl⟩

theorem sound_equality (he : Sound expr (IsExpr .expression)) :
    Sound (equality n expr) (IsExpr .equality) :=
  sound_chain (joins_binary fun _ _ => equality?_eq_some)
    (sound_chain (joins_binary fun _ _ => comparison?_eq_some)
      (sound_chain (joins_binary fun _ _ => term?_eq_some)
        (sound_chain (joins_binary fun _ _ => factor?_eq_some) (sound_unary he))))

theorem joins_and (t : Token) (u : Unit) (h : exactly (.keyword .andWord) t.kind = some u) :
    Joins .conjunction t (.logical · .and ·) := by
  obtain ⟨kind, p⟩ := t
  cases kind_of_exactly h
  exact .and

theorem joins_or (t : Token) (u : Unit) (h : exactly (.keyword .orWord) t.kind = some u) :
    Joins .disjunction t (.logical · .or ·) := by
  obtain ⟨kind, p⟩ := t
  cases kind_of_exactly h
  exact .or

theorem sound_disjunction (he : Sound expr (IsExpr .expression)) :
    Sound (disjunction n expr) (IsExpr .disjunction) :=
  sound_chain joins_or (sound_chain joins_and (sound_equality he))

theorem IsExpr.read_inv (h : IsExpr l ts (.read name ref) rest) :
    ts = ⟨.identifier name.name, name.pos⟩ :: rest := by
  generalize he : Expr.read name ref = e at h
  induction h using IsExpr.rec (motive_2 := fun _ _ _ _ => True) with
  | tighter _ ih => exact ih he
  | join _ hj => cases hj <;> cases he
  | atom ha =>
    cases ha <;> cases he
    rfl
  | assign => cases he
  | set => cases he
  | negate => cases he
  | not => cases he
  | call => cases he
  | get => cases he
  | grouping => cases he
  | none => trivial
  | one => trivial
  | more => trivial

theorem IsExpr.get_inv (h : IsExpr l ts (.get object name) rest) :
    ∃ o, IsExpr .call ts object
      (⟨.symbol .dot, o⟩ :: ⟨.identifier name.name, name.pos⟩ :: rest) := by
  generalize he : Expr.get object name = e at h
  induction h using IsExpr.rec (motive_2 := fun _ _ _ _ => True) with
  | tighter _ ih => exact ih he
  | join _ hj => cases hj <;> cases he
  | get h =>
    cases he
    exact ⟨_, h⟩
  | atom ha => cases ha <;> cases he
  | assign => cases he
  | set => cases he
  | negate => cases he
  | not => cases he
  | call => cases he
  | grouping => cases he
  | none => trivial
  | one => trivial
  | more => trivial

theorem sound_assignment (he : Sound expr (IsExpr .expression)) :
    Sound (assignment n expr) (IsExpr .expression) := by
  intro ts
  refine .bind ((sound_disjunction he ts).mono fun target us htarget => ?_)
  refine .bind (.take? (fun t vs _ hus hk => ?_) fun _ => .pure (.tighter htarget))
  obtain ⟨kind, q⟩ := t
  cases kind_of_exactly hk
  subst hus
  refine .bind ((he vs).mono fun value rest hvalue => ?_)
  split
  · rename_i e hassign
    refine .pure ?_
    unfold assignTo? at hassign
    split at hassign
    · cases hassign
      cases htarget.read_inv
      exact .assign hvalue
    · cases hassign
      obtain ⟨o, hcall⟩ := htarget.get_inv
      exact .set hcall hvalue
    · cases hassign
  · exact .bind (.reportAt _ _)

theorem sound_expression (n : Nat) : Sound (expression n) (IsExpr .expression) := by
  induction n with
  | zero => exact fun ts => .fail _
  | succ n ih => exact sound_assignment ih

theorem sound_varDecl (he : Sound expr (IsExpr .expression)) (w : Pos) :
    Sound (varDecl expr) fun ts => IsVarDecl (⟨.keyword .varWord, w⟩ :: ts) := by
  intro ts
  refine .bind (.ident (fun name p us hts => ?_) _)
  refine .bind (.accept (fun o vs hus => ?_) fun _ => ?_)
  · refine .bind (.map ((he vs).mono fun e xs hsub => ?_))
    refine .bind (.symbol (fun q rest hxs => .pure ?_) _)
    subst hts hus hxs
    exact .init hsub
  · refine .bind (.pure (.bind (.symbol (fun q rest hus => .pure ?_) _)))
    subst hts hus
    exact .plain

theorem sound_expressionStmt (he : Sound expr (IsExpr .expression)) :
    Sound (expressionStmt expr) IsExprStmt := by
  intro ts
  refine .bind ((he ts).mono fun e us hsub => .bind (.symbol (fun q rest hus => .pure ?_) _))
  subst hus
  exact .intro hsub

theorem sound_optionalExpr (he : Sound expr (IsExpr .expression)) (stop : Symbol) :
    Sound (optionalExpr expr stop) IsOptional := by
  intro ts
  refine .bind (.nextIs fun b => ?_)
  split
  · exact .pure .none
  · exact .map ((he ts).mono fun e rest hsub => .some hsub)

theorem sound_parameter
    (h : ∀ name p rest, us = ⟨.identifier name, p⟩ :: rest → params.length < 8 →
      R (params ++ [⟨name, p⟩]) rest) : (parameter params : Parser _).Ensures us R := by
  unfold parameter
  split
  · exact .bind (.report _)
  · rename_i hlen
    refine .bind (.ident (fun name p rest hus => .pure ?_) _)
    exact h name p rest hus (Nat.lt_of_not_le hlen)

theorem sound_parameters : Sound (parameters n) IsParams := by
  intro ts
  refine .bind (.nextIs fun b => ?_)
  split
  · exact .pure .none
  · refine .bind (sound_parameter fun name p us hts _ => ?_)
    subst hts
    refine (Ensures.iterate (Q := fun params us => IsParams _ params us ∧ params ≠ []) ?_
      ⟨.one, by simp⟩).mono fun params us h => h.1
    intro params us ⟨h, hne⟩
    refine .bind (.accept (fun q vs hus => ?_) fun _ => .pure ⟨h, hne⟩)
    subst hus
    refine .map (sound_parameter fun name p rest hvs hlen => ?_)
    subst hvs
    exact ⟨.more h hne hlen, by simp⟩

/-- A dangling conditional is not followed by an `else`: it would have been taken. -/
def NoElse (ts : List Token) : Prop := ∀ t ∈ ts.head?, t.kind ≠ .keyword .elseWord

def ReadsStmt (ts : List Token) (s : Stmt Unresolved) (rest : List Token) : Prop :=
  ∃ dangling, IsStmt true dangling ts s rest ∧ (dangling = true → NoElse rest)

def ReadsDecl (ts : List Token) (found : Option (Stmt Unresolved)) (rest : List Token) : Prop :=
  ∃ s, found = some s ∧ IsDecl true ts s rest

theorem IsDecls.snoc (h : IsDecls nearest ts body us) (hs : IsDecl nearest us s rest) :
    IsDecls nearest ts (body ++ [s]) rest := by
  induction body generalizing ts with
  | nil => cases h with | empty => exact .next hs .empty
  | cons _ _ ih => cases h with | next hd h => exact .next hd (ih h)

theorem IsMethods.snoc (h : IsMethods nearest ts fs us) (hf : IsFunction nearest us f rest) :
    IsMethods nearest ts (fs ++ [f]) rest := by
  induction fs generalizing ts with
  | nil => cases h with | nil => exact .cons hf .nil
  | cons _ _ ih => cases h with | cons hd h => exact .cons hd (ih h)

theorem sound_items {R : List Token → α → List Token → Prop}
    (Rs : List Token → List α → List Token → Prop) (hnil : ∀ ts, Rs ts [] ts)
    (hsnoc : ∀ ts as us a rest, Rs ts as us → R us a rest → Rs ts (as ++ [a]) rest)
    (h : Sound item fun ts found rest => ∃ a, found = some a ∧ R ts a rest) :
    Sound (items n item) Rs := by
  intro ts
  refine .map (Ensures.iterate (Q := fun done us => Rs ts (List.reverse done) us)
    (fun done us hdone => ?_) (hnil ts))
  refine .bind (.peek ?_)
  split
  · exact .pure hdone
  · split
    · exact .pure hdone
    · refine .bind ((h us).mono fun found rest hfound => .pure ?_)
      obtain ⟨a, rfl, ha⟩ := hfound
      simpa using hsnoc ts _ us a rest hdone ha

theorem sound_block (hd : Sound decl ReadsDecl) :
    Sound (block n decl) fun ts body rest =>
      ∃ q, IsDecls true ts body (⟨.symbol .rightBrace, q⟩ :: rest) := by
  intro ts
  refine .bind ((sound_items (IsDecls true) (fun _ => .empty) (fun _ _ _ _ _ => .snoc) hd ts).mono
    fun body us hbody => .bind (.symbol (fun q rest hus => .pure ?_) _))
  subst hus
  exact ⟨q, hbody⟩

theorem sound_function (hd : Sound decl ReadsDecl) (kind : FunctionKind) :
    Sound (function n decl kind) (IsFunction true) := by
  intro ts
  refine .bind (.ident (fun name p us hts => ?_) _)
  refine .bind (.symbol (fun o vs hus => ?_) _)
  refine .bind ((sound_parameters vs).mono fun params xs hparams => ?_)
  refine .bind (.symbol (fun q ys hxs => ?_) _)
  refine .bind (.symbol (fun r zs hys => ?_) _)
  refine .bind ((sound_block hd zs).mono fun body rest hbody => .pure ?_)
  obtain ⟨s, hbody⟩ := hbody
  subst hts hus hxs hys
  exact .intro hparams hbody

theorem sound_classDecl (hd : Sound decl ReadsDecl) (w : Pos) :
    Sound (classDecl n decl) fun ts => IsDecl true (⟨.keyword .classWord, w⟩ :: ts) := by
  intro ts
  refine .bind (.ident (fun name p us hts => ?_) _)
  refine .bind (.symbol (fun o vs hus => ?_) _)
  have hitem : Sound (some <$> function n decl .method) fun ts found rest =>
      ∃ f, found = some f ∧ IsFunction true ts f rest :=
    fun ts => .map ((sound_function hd _ ts).mono fun f rest hf => ⟨f, rfl, hf⟩)
  refine .bind ((sound_items (IsMethods true) (fun _ => .nil) (fun _ _ _ _ _ => .snoc) hitem
    vs).mono fun methods xs hmethods => .bind (.symbol (fun q rest hxs => .pure ?_) _))
  subst hts hus hxs
  exact .classDecl hmethods

theorem sound_ifStmt (he : Sound expr (IsExpr .expression)) (hs : Sound stmt ReadsStmt) (o : Pos) :
    Sound (ifStmt expr stmt) fun ts => ReadsStmt (⟨.keyword .ifWord, o⟩ :: ts) := by
  intro ts
  refine .bind (.symbol (fun p us hts => ?_) _)
  refine .bind ((he us).mono fun c vs hc => ?_)
  refine .bind (.symbol (fun q xs hvs => ?_) _)
  refine .bind ((hs xs).mono fun yes ys hyes => ?_)
  obtain ⟨inner, hyes, hno⟩ := hyes
  subst hts hvs
  refine .bind (.accept (fun r zs hys => ?_) fun hys => ?_)
  · subst hys
    have hinner : inner = false := Bool.eq_false_iff.2 fun h => hno h _ rfl rfl
    refine .bind (.map ((hs zs).mono fun no rest hno => .pure ?_))
    obtain ⟨dangling, hno, hrest⟩ := hno
    exact ⟨dangling, .ifElse hc hyes (fun _ => hinner) hno, hrest⟩
  · exact .bind (.pure (.pure ⟨true, .ifThen hc hyes, fun _ => hys⟩))

theorem sound_whileStmt (he : Sound expr (IsExpr .expression)) (hs : Sound stmt ReadsStmt)
    (o : Pos) :
    Sound (whileStmt expr stmt) fun ts => ReadsStmt (⟨.keyword .whileWord, o⟩ :: ts) := by
  intro ts
  refine .bind (.symbol (fun p us hts => ?_) _)
  refine .bind ((he us).mono fun c vs hc => ?_)
  refine .bind (.symbol (fun q xs hvs => ?_) _)
  refine .bind ((hs xs).mono fun body rest hbody => .pure ?_)
  obtain ⟨dangling, hbody, hrest⟩ := hbody
  subst hts hvs
  exact ⟨dangling, .loop hc hbody, hrest⟩

theorem sound_forStart (he : Sound expr (IsExpr .expression)) :
    Sound (forStart expr) IsForStart := by
  intro ts
  refine .bind (.accept (fun q rest hts => ?_) fun _ =>
    .bind (.accept (fun w us hts => ?_) fun _ => ?_))
  · subst hts
    exact .pure .none
  · subst hts
    exact .map ((sound_varDecl he w us).mono fun s rest hs => .varDecl hs)
  · exact .map ((sound_expressionStmt he ts).mono fun s rest hs => .expression hs)

theorem forLoop_eq_whileForm (start : Option (Stmt Unresolved))
    (condition increment : Option (Expr Unresolved)) (body : Stmt Unresolved) :
    forLoop start condition increment body = whileForm start condition increment body := by
  cases start <;> cases increment <;> rfl

theorem sound_forStmt (he : Sound expr (IsExpr .expression)) (hs : Sound stmt ReadsStmt) (o : Pos) :
    Sound (forStmt expr stmt) fun ts => ReadsStmt (⟨.keyword .forWord, o⟩ :: ts) := by
  intro ts
  refine .bind (.symbol (fun p us hts => ?_) _)
  refine .bind ((sound_forStart he us).mono fun start vs hstart => ?_)
  refine .bind ((sound_optionalExpr he _ vs).mono fun condition xs hcondition => ?_)
  refine .bind (.symbol (fun r ys hxs => ?_) _)
  refine .bind ((sound_optionalExpr he _ ys).mono fun increment zs hincrement => ?_)
  refine .bind (.symbol (fun q rs hzs => ?_) _)
  refine .bind ((hs rs).mono fun body rest hbody => .pure ?_)
  obtain ⟨dangling, hbody, hrest⟩ := hbody
  subst hts hxs hzs
  rw [forLoop_eq_whileForm]
  exact ⟨dangling, .forLoop hstart hcondition hincrement hbody, hrest⟩

theorem ReadsStmt.closed (h : IsStmt true false ts s rest) : ReadsStmt ts s rest :=
  ⟨false, h, nofun⟩

theorem sound_statementWith (he : Sound expr (IsExpr .expression)) (hd : Sound decl ReadsDecl)
    (hs : Sound stmt ReadsStmt) : Sound (statementWith n expr decl stmt) ReadsStmt := by
  intro ts
  refine .bind (.take? (fun t us found hts hk => ?_) fun _ => ?_)
  · obtain ⟨kind, p⟩ := t
    have hkind : opening? kind = some found := hk
    subst hts
    unfold opening? at hkind
    split at hkind <;> cases hkind
    · exact .map ((sound_function hd _ us).mono fun f rest hf => .closed (.funDecl hf))
    · exact sound_ifStmt he hs p us
    · exact sound_whileStmt he hs p us
    · exact sound_forStmt he hs p us
    · refine .bind ((he us).mono fun e vs hsub => .bind (.symbol (fun q rest hvs => .pure ?_) _))
      subst hvs
      exact .closed (.print hsub)
    · refine .bind ((sound_optionalExpr he _ us).mono fun value vs hvalue =>
        .bind (.symbol (fun q rest hvs => .pure ?_) _))
      subst hvs
      exact .closed (.ret hvalue)
    · refine .map ((sound_block hd us).mono fun body rest hbody => ?_)
      obtain ⟨q, hbody⟩ := hbody
      exact .closed (.block hbody)
  · exact (sound_expressionStmt he ts).mono fun s rest hs => .closed (.expression hs)

theorem sound_statement (he : Sound expr (IsExpr .expression)) (hd : Sound decl ReadsDecl)
    (n : Nat) :
    Sound (statement expr decl n) ReadsStmt := by
  induction n with
  | zero => exact fun ts => .fail _
  | succ n ih => exact sound_statementWith he hd ih

theorem sound_declaration (he : Sound expr (IsExpr .expression)) (n : Nat) :
    Sound (declaration expr n) ReadsDecl := by
  induction n with
  | zero => exact fun ts => .fail _
  | succ n ih =>
    intro ts
    refine .recover (.bind (.accept (fun w us hts => ?_) fun _ =>
      .bind (.accept (fun w us hts => ?_) fun _ => ?_)))
    · subst hts
      exact (sound_classDecl ih w us).mono fun s rest hs => ⟨s, rfl, hs⟩
    · subst hts
      exact (sound_varDecl he w us).mono fun s rest hs => ⟨s, rfl, .varDecl hs⟩
    · refine (sound_statement he ih (n + 1) ts).mono fun s rest hs => ?_
      obtain ⟨dangling, hs, _⟩ := hs
      exact ⟨s, rfl, .statement hs⟩

/-- A declaration takes a token, so that the loop over them comes to the end of the text. -/
theorem sound_nextDecl? (hd : Sound decl ReadsDecl) (hlen : us.length ≤ n)
    (h : IsDecls true ts (List.reverse done) us) :
    (iterate (nextDecl? decl) n done).Ensures us fun done rest =>
      rest = [] ∧ IsDecls true ts (List.reverse done) rest := by
  induction n generalizing us done with
  | zero => exact .pure ⟨List.eq_nil_of_length_eq_zero (Nat.le_zero.1 hlen), h⟩
  | succ n ih =>
    refine .bind (.bind (.peek ?_))
    cases us with
    | nil => exact .pure (.pure ⟨rfl, h⟩)
    | cons t us =>
      refine .bind ((hd (t :: us)).mono fun found rest hfound => .pure ?_)
      obtain ⟨s, rfl, hs⟩ := hfound
      exact ih (Nat.le_of_lt_succ (Nat.lt_of_lt_of_le hs.length_lt hlen)) (by simpa using h.snoc hs)

theorem sound_program (ts : List Token) :
    (program ts.length).Ensures ts fun P _ => IsProgram true ts P := by
  have hd := sound_declaration (sound_expression (ts.length + 1)) (ts.length + 1)
  refine .map ((sound_nextDecl? hd (Nat.le_refl _) .empty).mono fun done rest h => ?_)
  obtain ⟨rfl, h⟩ := h
  exact h

/-- What is parsed without an error is a program. -/
theorem isProgram_of_parse (h : (parse ts).errors = []) : IsProgram true ts (parse ts).program := by
  have hs := sound_program ts
  unfold Ensures at hs
  unfold parse at h ⊢
  split at hs
  · rename_i P errors rest hp
    rw [hp] at h ⊢
    exact hs h
  · rename_i errors rest hp
    rw [hp] at h
    exact (hs h).elim

end Lox.Grammar
