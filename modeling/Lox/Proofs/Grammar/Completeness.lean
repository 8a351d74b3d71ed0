import Lox.Proofs.Grammar.Soundness
import Lox.Proofs.Grammar.Yields

namespace Lox.Grammar
set_option autoImplicit true

open Lox.Parser

def Level.rank : Level → Nat
  | expression => 0
  | disjunction => 1
  | conjunction => 2
  | equality => 3
  | comparison => 4
  | term => 5
  | factor => 6
  | unary => 7
  | call => 8
  | primary => 9

theorem Level.rank_le_tighter (l : Level) : l.rank ≤ l.tighter.rank := by
  cases l <;> decide

/-- The level at which a token goes on with what stands before it. -/
def continuation? : TokenKind → Option Level
  | .symbol .equal => some .expression
  | .keyword .orWord => some .disjunction
  | .keyword .andWord => some .conjunction
  | .symbol .bangEqual | .symbol .equalEqual => some .equality
  | .symbol .greater | .symbol .greaterEqual | .symbol .less | .symbol .lessEqual =>
    some .comparison
  | .symbol .minus | .symbol .plus => some .term
  | .symbol .slash | .symbol .star => some .factor
  | .symbol .leftParen | .symbol .dot => some .call
  | _ => none

/-- An expression of a level ends before these tokens: the next one goes on with looser levels only.
-/
def Stops (l : Level) (ts : List Token) : Prop :=
  ∀ t ∈ ts.head?, ∀ l', continuation? t.kind = some l' → l'.rank < l.rank

theorem Stops.tighter (h : Stops l ts) : Stops l.tighter ts :=
  fun t ht l' hl => Nat.lt_of_lt_of_le (h t ht l' hl) l.rank_le_tighter

theorem Stops.not_of_rank_le (h : Stops l ts) (ht : t ∈ ts.head?) (hl : l.rank ≤ l'.rank) :
    continuation? t.kind ≠ some l' :=
  fun hc => Nat.not_lt_of_le hl (h t ht l' hc)

theorem stops_cons (h : ∀ l', continuation? kind = some l' → l'.rank < l.rank) (p : Pos)
    (ts : List Token) : Stops l (⟨kind, p⟩ :: ts) := by
  intro t ht
  cases ht
  exact h

theorem stops_of_none (h : continuation? kind = none) (p : Pos) (ts : List Token) :
    Stops l (⟨kind, p⟩ :: ts) := stops_cons (fun l' hl => by rw [h] at hl; cases hl) p ts

theorem Joins.continuation (h : Joins l t f) :
    continuation? t.kind = some l ∧ l.rank < l.tighter.rank := by
  cases h with
  | or => exact ⟨rfl, by decide⟩
  | and => exact ⟨rfl, by decide⟩
  | @binary op _ _ hl =>
    subst hl
    cases op <;> exact ⟨rfl, by decide⟩

theorem Joins.stops (h : Joins l t f) (ts : List Token) : Stops l.tighter (t :: ts) := by
  obtain ⟨hc, hl⟩ := h.continuation
  intro t' ht l' hl'
  cases ht
  cases hc.symm.trans hl'
  exact hl

/-- Kinds of tokens with which an expression can begin. -/
def startsExpr : TokenKind → Bool
  | .symbol .leftParen | .symbol .bang | .symbol .minus => true
  | .keyword .trueWord | .keyword .falseWord | .keyword .nilWord | .keyword .thisWord => true
  | .identifier _ | .string _ | .number _ => true
  | _ => false

theorem IsAtom.starts (h : IsAtom t e) : startsExpr t.kind = true ∧ unary? t.kind = none := by
  cases h <;> exact ⟨rfl, rfl⟩

theorem IsExpr.first (h : IsExpr l ts e rest) :
    ∃ t us, ts = t :: us ∧ startsExpr t.kind = true ∧
      (Level.call.rank ≤ l.rank → unary? t.kind = none) := by
  induction h using IsExpr.rec (motive_2 := fun _ _ _ _ => True) with
  | assign => exact ⟨_, _, rfl, rfl, fun hl => absurd hl (by decide)⟩
  | set _ _ ih =>
    obtain ⟨t, us, rfl, hs, hu⟩ := ih
    exact ⟨t, us, rfl, hs, fun hl => absurd hl (by decide)⟩
  | tighter _ ih =>
    obtain ⟨t, us, rfl, hs, hu⟩ := ih
    exact ⟨t, us, rfl, hs, fun hl => hu (Nat.le_trans hl (Level.rank_le_tighter _))⟩
  | join _ hj _ ih =>
    obtain ⟨t, us, rfl, hs, hu⟩ := ih
    exact ⟨t, us, rfl, hs, hu⟩
  | negate => exact ⟨_, _, rfl, rfl, fun hl => absurd hl (by decide)⟩
  | not => exact ⟨_, _, rfl, rfl, fun hl => absurd hl (by decide)⟩
  | call _ _ ih => exact ih
  | get _ ih => exact ih
  | atom h => exact ⟨_, _, rfl, h.starts.1, fun _ => h.starts.2⟩
  | grouping => exact ⟨_, _, rfl, rfl, fun _ => rfl⟩
  | none => trivial
  | one => trivial
  | more => trivial

/-- What the grammar derives from fewer than `n` tokens, with tokens left that end it, is parsed. -/
def Complete (p : Parser α) (R : List Token → α → List Token → Prop) (stop : List Token → Prop)
    (n : Nat) : Prop :=
  ∀ ts a rest, R ts a rest → ts.length < n → stop rest → p.Yields ts a rest

theorem IsExpr.primary_inv (h : IsExpr .primary ts e rest) :
    (∃ t, ts = t :: rest ∧ IsAtom t e) ∨
    ∃ p q us inner, ts = ⟨.symbol .leftParen, p⟩ :: us ∧ e = .grouping inner ∧
      IsExpr .expression us inner (⟨.symbol .rightParen, q⟩ :: rest) := by
  generalize hl : Level.primary = l at h
  induction h using IsExpr.rec (motive_2 := fun _ _ _ _ => True) with
  | tighter _ ih => subst hl; exact ih rfl
  | join _ hj => subst hl; cases hj with | @binary op _ _ h => cases op <;> cases h
  | atom h => exact .inl ⟨_, rfl, h⟩
  | grouping h => exact .inr ⟨_, _, _, _, rfl, rfl, h⟩
  | assign => cases hl
  | set => cases hl
  | negate => cases hl
  | not => cases hl
  | call => cases hl
  | get => cases hl
  | none => trivial
  | one => trivial
  | more => trivial

theorem IsAtom.atom?_eq (h : IsAtom t e) : atom? t.pos t.kind = some e := by
  cases h <;> rfl

theorem yields_atom (h : IsAtom t e) : atom.Yields (t :: rest) (some e) rest := by
  simp [Yields, atom, h.atom?_eq]

variable {expr : Parser (Expr Unresolved)} {n : Nat}

theorem complete_primary (he : Complete expr (IsExpr .expression) (Stops .expression) n) :
    Complete (primary expr) (IsExpr .primary) (fun _ => True) (n + 1) := by
  intro ts e rest h hlen _
  rcases h.primary_inv with ⟨t, rfl, ha⟩ | ⟨p, q, us, inner, rfl, rfl, hsub⟩
  · exact .bind (yields_atom ha) .pure
  · refine .bind (a := none) rfl ?_
    refine .bind (.accept_true _ p) ?_
    refine .bind (he us inner _ hsub (Nat.lt_of_succ_lt_succ hlen) (stops_of_none rfl q rest)) ?_
    exact .bind (.symbol .rightParen q _) .pure

theorem yields_argument (h : expr.Yields ts e rest) (hlen : args.length < 8) :
    (argument expr args).Yields ts (args ++ [e]) rest := by
  unfold argument
  split
  · rename_i hmax
    exact (Nat.not_le_of_lt hlen hmax).elim
  · exact .bind h .pure

theorem IsExpr.not_first (h : IsExpr l ts e rest) (hk : startsExpr kind = false) :
    ∀ t ∈ ts.head?, t.kind ≠ kind := by
  obtain ⟨t, us, rfl, hs, _⟩ := h.first
  intro t' ht heq
  cases ht
  rw [heq, hk] at hs
  cases hs

theorem loops_arguments (he : Complete expr (IsExpr .expression) (Stops .expression) n)
    (h : IsArgs ts args us) (hne : args ≠ []) (hlen : ts.length < n)
    (hus : Stops .expression us) : Loops (arguments n expr) (nextArgument? expr) ts args us := by
  induction h using IsArgs.rec (motive_1 := fun _ _ _ _ _ => True) with
  | none => exact (hne rfl).elim
  | one h =>
    have hfirst : (nextIs (.symbol .rightParen)).Yields _ false _ := .nextIs_false (h.not_first rfl)
    have harg : (argument expr []).Yields _ [_] _ :=
      yields_argument (he _ _ _ h hlen hus) (by decide)
    obtain ⟨k, hk, hp⟩ := Loops.start (nextArgument? expr) harg
      (Nat.le_of_lt (Nat.lt_trans h.length_lt hlen))
    exact ⟨k, hk, fun b rest hb => .bind hfirst (hp b rest hb)⟩
  | @more ts args p us e rest h hargs hmax hsub ih =>
    have hlt := h.length_le
    have hle := hsub.length_lt
    simp only [List.length_cons] at hlt
    refine (ih hargs hlen (stops_of_none rfl p us)).next ?_ (Nat.le_of_lt hle)
    refine .bind (.accept_true _ p) ((yields_argument ?_ hmax).map some)
    exact he us e rest hsub (by omega) hus
  | _ => trivial

theorem complete_arguments (he : Complete expr (IsExpr .expression) (Stops .expression) n)
    (h : IsArgs ts args (⟨.symbol .rightParen, q⟩ :: rest)) (hlen : ts.length < n) :
    (arguments n expr).Yields ts args (⟨.symbol .rightParen, q⟩ :: rest) := by
  by_cases hne : args = []
  · cases h with
    | none => exact .bind (.nextIs_true _ q) .pure
    | one => cases hne
    | more => simp at hne
  · refine (loops_arguments he h hne hlen (stops_of_none rfl q rest)).stop ?_
    exact .bind (.accept_false (by simp)) .pure

theorem loops_call (he : Complete expr (IsExpr .expression) (Stops .expression) n)
    (h : IsExpr .call ts e us) (hlen : ts.length < n + 1) :
    Loops (call n expr) (suffix? n expr) ts e us := by
  generalize hl : Level.call = l at h
  induction h using IsExpr.rec (motive_2 := fun _ _ _ _ => True) with
  | tighter h =>
    subst hl
    exact .start _ (complete_primary he _ _ _ h hlen trivial)
      (Nat.le_of_lt_succ (Nat.lt_trans h.length_lt hlen))
  | call h hargs ih =>
    have hlt := h.length_lt
    have hle := hargs.length_le
    simp only [List.length_cons] at hlt hle
    refine (ih hlen hl).next ?_ (Nat.le_of_succ_le hle)
    refine .bind (.accept_true _ _) (.bind (complete_arguments he hargs (by omega)) ?_)
    exact .bind (.symbol _ _ _) .pure
  | get h ih =>
    refine (ih hlen hl).next ?_ (Nat.le_succ _)
    refine .bind (.accept_false (by simp)) (.bind (.accept_true _ _) ?_)
    exact .bind (.ident _ _ _) .pure
  | join _ hj => subst hl; cases hj with | @binary op _ _ h => cases op <;> cases h
  | assign => cases hl
  | set => cases hl
  | negate => cases hl
  | not => cases hl
  | atom => cases hl
  | grouping => cases hl
  | none => trivial
  | one => trivial
  | more => trivial

theorem complete_call (he : Complete expr (IsExpr .expression) (Stops .expression) n) :
    Complete (call n expr) (IsExpr .call) (Stops .call) (n + 1) := by
  intro ts e rest h hlen hstop
  have hkind : ∀ kind, continuation? kind = some .call → ∀ t ∈ rest.head?, t.kind ≠ kind :=
    fun kind hk t ht heq => hstop.not_of_rank_le ht (Nat.le_refl _) (heq ▸ hk)
  refine (loops_call he h hlen).stop (.bind (.accept_false (hkind _ rfl)) ?_)
  exact .bind (.accept_false (hkind _ rfl)) .pure

theorem yields_operators (he : Complete expr (IsExpr .expression) (Stops .expression) n)
    (h : IsExpr .unary ts e rest) (hlen : ts.length < n + 1) (hstop : Stops .call rest)
    (ops : List (UnaryOp × Pos)) (hk : ts.length ≤ k) :
    ∃ ops' us operand, (iterate nextUnary? k ops : Parser _).Yields ts ops' us ∧
      (call n expr).Yields us operand rest ∧
      ops'.foldl (fun e op => .unary op.1 op.2 e) operand =
        ops.foldl (fun e op => .unary op.1 op.2 e) e := by
  generalize hl : Level.unary = l at h
  induction h using IsExpr.rec (motive_2 := fun _ _ _ _ => True) generalizing ops k with
  | tighter h =>
    subst hl
    have hcall := complete_call he _ _ _ h hlen hstop
    obtain ⟨t, us, rfl, _, hu⟩ := h.first
    exact ⟨ops, _, _, .iterate_stop (.bind (.take?_none (by simpa using hu (by decide))) .pure),
      hcall, rfl⟩
  | @negate ts e rest p _ ih =>
    cases k with
    | zero => cases hk
    | succ k =>
      obtain ⟨ops', us, operand, hops, hcall, heq⟩ := ih (Nat.lt_of_succ_lt hlen) hstop
        ((.negate, p) :: ops) (Nat.le_of_succ_le_succ hk) rfl
      exact ⟨ops', us, operand, .bind (.bind (.take?_some rfl) .pure) hops, hcall, heq⟩
  | @not ts e rest p _ ih =>
    cases k with
    | zero => cases hk
    | succ k =>
      obtain ⟨ops', us, operand, hops, hcall, heq⟩ := ih (Nat.lt_of_succ_lt hlen) hstop
        ((.not, p) :: ops) (Nat.le_of_succ_le_succ hk) rfl
      exact ⟨ops', us, operand, .bind (.bind (.take?_some rfl) .pure) hops, hcall, heq⟩
  | join _ hj => subst hl; cases hj with | @binary op _ _ h => cases op <;> cases h
  | assign => cases hl
  | set => cases hl
  | call => cases hl
  | get => cases hl
  | atom => cases hl
  | grouping => cases hl
  | none => trivial
  | one => trivial
  | more => trivial

theorem complete_unary (he : Complete expr (IsExpr .expression) (Stops .expression) n) :
    Complete (unary n expr) (IsExpr .unary) (Stops .unary) (n + 1) := by
  intro ts e rest h hlen hstop
  obtain ⟨ops, us, operand, hops, hcall, heq⟩ :=
    yields_operators he h hlen hstop.tighter [] (Nat.le_of_lt_succ hlen)
  exact .bind hops (.bind hcall (heq ▸ .pure))

theorem loops_chain {op? : TokenKind → Option ω}
    {join : Expr Unresolved → ω → Pos → Expr Unresolved → Expr Unresolved}
    (hl : Level.expression.rank < l.rank) (hl' : l.rank < Level.unary.rank)
    (hop : ∀ t f, Joins l t f → ∃ op, op? t.kind = some op ∧ f = (join · op t.pos ·))
    (hoperand : Complete operand (IsExpr l.tighter) (Stops l.tighter) (n + 1))
    (h : IsExpr l ts e us) (hlen : ts.length < n + 1) (hus : Stops l.tighter us) :
    Loops (chain op? join n operand) (nextOperand? op? join operand) ts e us := by
  induction h using IsExpr.rec (motive_2 := fun _ _ _ _ => True) with
  | tighter h =>
    exact .start _ (hoperand _ _ _ h hlen hus) (Nat.le_of_lt_succ (Nat.lt_trans h.length_lt hlen))
  | join h hj h' ih =>
    obtain ⟨op, hk, rfl⟩ := hop _ _ hj
    have hlt := h.length_lt
    simp only [List.length_cons] at hlt
    refine (ih hl hl' hop hoperand hlen (hj.stops _)).next ?_ (Nat.le_of_lt h'.length_lt)
    refine .bind (.take?_some hk) (.bind (hoperand _ _ _ h' (by omega) hus) .pure)
  | assign => exact absurd hl (by decide)
  | set => exact absurd hl (by decide)
  | negate => exact absurd hl' (by decide)
  | not => exact absurd hl' (by decide)
  | call => exact absurd hl' (by decide)
  | get => exact absurd hl' (by decide)
  | atom => exact absurd hl' (by decide)
  | grouping => exact absurd hl' (by decide)
  | none => trivial
  | one => trivial
  | more => trivial

theorem complete_chain {op? : TokenKind → Option ω}
    {join : Expr Unresolved → ω → Pos → Expr Unresolved → Expr Unresolved}
    (hl : Level.expression.rank < l.rank) (hl' : l.rank < Level.unary.rank)
    (hjoins : ∀ t op, op? t.kind = some op → Joins l t (join · op t.pos ·))
    (hop : ∀ t f, Joins l t f → ∃ op, op? t.kind = some op ∧ f = (join · op t.pos ·))
    (hoperand : Complete operand (IsExpr l.tighter) (Stops l.tighter) (n + 1)) :
    Complete (chain op? join n operand) (IsExpr l) (Stops l) (n + 1) := by
  intro ts e rest h hlen hstop
  refine (loops_chain hl hl' hop hoperand h hlen hstop.tighter).stop (.bind (.take?_none ?_) .pure)
  intro t ht
  cases hk : op? t.kind with
  | none => rfl
  | some op =>
    exact (hstop.not_of_rank_le ht (Nat.le_refl _) (hjoins t op hk).continuation.1).elim

theorem Joins.binary_op {op? : TokenKind → Option BinaryOp} (h : Joins l t f)
    (hop : ∀ op, Level.ofBinary op = l → op? (.symbol op.symbol) = some op)
    (hl : Level.conjunction.rank < l.rank) :
    ∃ op, op? t.kind = some op ∧ f = (.binary · op t.pos ·) := by
  cases h with
  | or => exact absurd hl (by decide)
  | and => exact absurd hl (by decide)
  | @binary op _ _ hl => exact ⟨op, hop op hl, rfl⟩

theorem complete_equality (he : Complete expr (IsExpr .expression) (Stops .expression) n) :
    Complete (equality n expr) (IsExpr .equality) (Stops .equality) (n + 1) := by
  refine complete_chain (by decide) (by decide) (joins_binary fun _ _ => equality?_eq_some)
    (fun t f h => h.binary_op (fun op h => ?_) (by decide)) ?_
  · cases op <;> cases h <;> rfl
  refine complete_chain (by decide) (by decide) (joins_binary fun _ _ => comparison?_eq_some)
    (fun t f h => h.binary_op (fun op h => ?_) (by decide)) ?_
  · cases op <;> cases h <;> rfl
  refine complete_chain (by decide) (by decide) (joins_binary fun _ _ => term?_eq_some)
    (fun t f h => h.binary_op (fun op h => ?_) (by decide)) ?_
  · cases op <;> cases h <;> rfl
  refine complete_chain (by decide) (by decide) (joins_binary fun _ _ => factor?_eq_some)
    (fun t f h => h.binary_op (fun op h => ?_) (by decide)) (complete_unary he)
  cases op <;> cases h <;> rfl

theorem complete_disjunction (he : Complete expr (IsExpr .expression) (Stops .expression) n) :
    Complete (disjunction n expr) (IsExpr .disjunction) (Stops .disjunction) (n + 1) := by
  refine complete_chain (by decide) (by decide) joins_or (fun t f h => ?_)
    (complete_chain (by decide) (by decide) joins_and (fun t f h => ?_) (complete_equality he))
  · cases h with
    | or => exact ⟨(), if_pos rfl, rfl⟩
    | @binary op _ _ h => cases op <;> cases h
  · cases h with
    | and => exact ⟨(), if_pos rfl, rfl⟩
    | @binary op _ _ h => cases op <;> cases h

theorem IsExpr.loosen_call (h : IsExpr .call ts e rest) : IsExpr .disjunction ts e rest :=
  .tighter (.tighter (.tighter (.tighter (.tighter (.tighter (.tighter h))))))

theorem yields_assignment (he : Complete expr (IsExpr .expression) (Stops .expression) n)
    (h : IsExpr .disjunction ts target (⟨.symbol .equal, q⟩ :: us)) (hlen : ts.length < n + 1)
    (h' : IsExpr .expression us value rest) (hstop : Stops .expression rest)
    (hassign : assignTo? target value = some e) : (assignment n expr).Yields ts e rest := by
  have hlt := h.length_lt
  simp only [List.length_cons] at hlt
  have hequal : Stops .disjunction (⟨.symbol .equal, q⟩ :: us) :=
    stops_cons (fun l hl => by cases hl; decide) q us
  refine .bind (complete_disjunction he _ _ _ h hlen hequal) ?_
  refine .bind (.take?_some (b := ()) (if_pos rfl)) ?_
  refine .bind (he _ _ _ h' (by omega) hstop) ?_
  simp only [hassign]
  exact .pure

theorem complete_assignment (he : Complete expr (IsExpr .expression) (Stops .expression) n) :
    Complete (assignment n expr) (IsExpr .expression) (Stops .expression) (n + 1) := by
  intro ts e rest h hlen hstop
  cases h with
  | assign h =>
    exact yields_assignment he (.loosen_call (.tighter (.atom .identifier))) hlen h hstop rfl
  | set h h' => exact yields_assignment he (.loosen_call (.get h)) hlen h' hstop rfl
  | tighter h =>
    refine .bind (complete_disjunction he _ _ _ h hlen hstop.tighter) (.bind (.take?_none ?_) .pure)
    intro t ht
    refine if_neg fun hk => hstop.not_of_rank_le ht (Nat.le_refl _) ?_
    rw [hk]
    rfl
  | join _ hj => cases hj with | @binary op _ _ h => cases op <;> cases h

theorem complete_expression (n : Nat) :
    Complete (expression n) (IsExpr .expression) (Stops .expression) n := by
  induction n with
  | zero => exact fun _ _ _ _ hlen => absurd hlen (Nat.not_lt_zero _)
  | succ n ih => exact complete_assignment ih

end Lox.Grammar
