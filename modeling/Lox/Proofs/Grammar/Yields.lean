import Lox.Grammar.Statement

namespace Lox.Parser
set_option autoImplicit true

/-- A parser gives a result without an error. -/
def Yields (p : Parser α) (ts : List Token) (a : α) (rest : List Token) : Prop :=
  p ts = ⟨some a, [], rest⟩

variable {p : Parser α} {ts : List Token}

theorem Yields.pure : (Pure.pure a : Parser α).Yields ts a ts := rfl

theorem Yields.bind {f : α → Parser β} (h : p.Yields ts a mid) (h' : (f a).Yields mid b rest) :
    (p >>= f).Yields ts b rest := by
  simp only [Yields, Bind.bind, Parser.bind] at *
  rw [h]
  simp [h']

theorem Yields.map (h : p.Yields ts a rest) (f : α → β) : (f <$> p).Yields ts (f a) rest :=
  .bind h .pure

theorem Yields.take?_some {f : TokenKind → Option β} (hk : f t.kind = some b) :
    (take? f).Yields (t :: rest) (some (b, t)) rest := by
  simp [Yields, take?, hk]

theorem Yields.take?_none {f : TokenKind → Option β} (h : ∀ t ∈ ts.head?, f t.kind = none) :
    (take? f).Yields ts none ts := by
  cases ts with
  | nil => rfl
  | cons t rest =>
    have hk := h t rfl
    simp [Yields, take?, hk]

theorem Yields.expect {f : TokenKind → Option β} (hk : f t.kind = some b) (fault : SyntaxFault) :
    (expect f fault).Yields (t :: rest) (b, t) rest :=
  .bind (.take?_some hk) .pure

theorem Yields.symbol (s : Symbol) (p : Pos) (fault : SyntaxFault) :
    (symbol s fault).Yields (⟨.symbol s, p⟩ :: rest) ⟨.symbol s, p⟩ rest :=
  (Yields.expect (b := ()) (if_pos rfl) fault).map Prod.snd

theorem Yields.ident (name : String) (p : Pos) (fault : SyntaxFault) :
    (ident fault).Yields (⟨.identifier name, p⟩ :: rest) (name, ⟨.identifier name, p⟩) rest :=
  .expect (f := identifier?) rfl fault

theorem Yields.accept_true (kind : TokenKind) (p : Pos) :
    (accept kind).Yields (⟨kind, p⟩ :: rest) true rest :=
  .bind (.take?_some (b := ()) (if_pos rfl)) .pure

theorem Yields.accept_false (h : ∀ t ∈ ts.head?, t.kind ≠ kind) :
    (accept kind).Yields ts false ts :=
  .bind (.take?_none fun t ht => if_neg (h t ht)) .pure

theorem Yields.nextIs_true (kind : TokenKind) (p : Pos) :
    (nextIs kind).Yields (⟨kind, p⟩ :: rest) true (⟨kind, p⟩ :: rest) := by
  simp [Yields, nextIs]

theorem Yields.nextIs_false (h : ∀ t ∈ ts.head?, t.kind ≠ kind) :
    (nextIs kind).Yields ts false ts := by
  cases ts with
  | nil => rfl
  | cons t rest =>
    have hk := h t rfl
    simp [Yields, nextIs, hk]

theorem Yields.recover (h : p.Yields ts a rest) (resume : List Token → List Token) :
    (recover resume p).Yields ts (some a) rest := by
  unfold Yields Parser.recover at *
  rw [h]

theorem Yields.iterate_stop {step : α → Parser (Option α)} (h : (step a).Yields ts none ts) :
    (iterate step n a).Yields ts a ts := by
  cases n with
  | zero => exact .pure
  | succ n => exact .bind h .pure

/-- On `ts` the parser comes to `a` in its loop, with `us` left and enough rounds for them. -/
def Loops (p : Parser α) (step : α → Parser (Option α)) (ts : List Token) (a : α)
    (us : List Token) : Prop :=
  ∃ k, us.length ≤ k ∧ ∀ b rest, (iterate step k a).Yields us b rest → p.Yields ts b rest

variable {step : α → Parser (Option α)}

theorem Loops.start (step : α → Parser (Option α)) (h : p.Yields ts a us) (hlen : us.length ≤ n) :
    Loops (p >>= iterate step n) step ts a us :=
  ⟨n, hlen, fun _ _ hb => .bind h hb⟩

theorem Loops.next (h : Loops p step ts a (t :: us)) (hstep : (step a).Yields (t :: us) (some b) vs)
    (hlen : vs.length ≤ us.length) : Loops p step ts b vs := by
  obtain ⟨k, hk, hp⟩ := h
  cases k with
  | zero => cases hk
  | succ k =>
    have hlen' := Nat.le_trans hlen (Nat.le_of_succ_le_succ hk)
    exact ⟨k, hlen', fun c rest hc => hp c rest (.bind hstep hc)⟩

theorem Loops.stop (h : Loops p step ts a rest) (hstop : (step a).Yields rest none rest) :
    p.Yields ts a rest := by
  obtain ⟨k, _, hp⟩ := h
  exact hp a rest (.iterate_stop hstop)

end Lox.Parser
