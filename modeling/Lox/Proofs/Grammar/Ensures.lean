import Lox.Grammar.Statement

namespace Lox.Parser
set_option autoImplicit true

/-- A result without an error has the property `Q`, and a parser breaks off only with an error. -/
def Ensures (p : Parser α) (ts : List Token) (Q : α → List Token → Prop) : Prop :=
  match p ts with
  | ⟨some a, errors, rest⟩ => errors = [] → Q a rest
  | ⟨none, errors, _⟩ => errors ≠ []

variable {p : Parser α} {ts : List Token} {Q Q' : α → List Token → Prop}

theorem Ensures.mono (h : p.Ensures ts Q) (hQ : ∀ a rest, Q a rest → Q' a rest) :
    p.Ensures ts Q' := by
  unfold Ensures at h ⊢
  split
  · rename_i a errors rest hp
    rw [hp] at h
    exact fun he => hQ a rest (h he)
  · rename_i errors rest hp
    rw [hp] at h
    exact h

theorem Ensures.pure (h : Q a ts) : (Pure.pure a : Parser α).Ensures ts Q := fun _ => h

theorem Ensures.bind {f : α → Parser β} {Q : β → List Token → Prop}
    (h : p.Ensures ts fun a mid => (f a).Ensures mid Q) : (p >>= f).Ensures ts Q := by
  unfold Ensures at h ⊢
  simp only [Bind.bind, Parser.bind]
  rcases hp : p ts with ⟨result, errors, mid⟩
  rw [hp] at h
  cases result with
  | none => exact h
  | some a =>
    simp only at h ⊢
    rcases hf : f a mid with ⟨result, errors', rest⟩
    rw [hf] at h
    cases result with
    | none =>
      intro he
      obtain ⟨h₁, h₂⟩ := List.append_eq_nil_iff.1 he
      exact h h₁ h₂
    | some b =>
      intro he
      obtain ⟨h₁, h₂⟩ := List.append_eq_nil_iff.1 he
      exact h h₁ h₂

theorem Ensures.map {f : α → β} {Q : β → List Token → Prop}
    (h : p.Ensures ts fun a => Q (f a)) : (f <$> p).Ensures ts Q :=
  .bind (h.mono fun _ _ hQ => .pure hQ)

theorem Ensures.fail (fault : SyntaxFault) : (fail fault : Parser α).Ensures ts Q :=
  List.cons_ne_nil _ _

theorem Ensures.report (fault : SyntaxFault) {Q : Unit → List Token → Prop} :
    (report fault).Ensures ts Q := fun he => nomatch he

theorem Ensures.reportAt (fault : SyntaxFault) (token : Token) {Q : Unit → List Token → Prop} :
    (reportAt fault token).Ensures ts Q := fun he => nomatch he

theorem Ensures.take? {f : TokenKind → Option β} {Q : Option (β × Token) → List Token → Prop}
    (hsome : ∀ t rest b, ts = t :: rest → f t.kind = some b → Q (some (b, t)) rest)
    (hnone : (∀ t ∈ ts.head?, f t.kind = none) → Q none ts) : (take? f).Ensures ts Q := by
  unfold Ensures Parser.take?
  cases ts with
  | nil => exact fun _ => hnone (by simp)
  | cons t rest =>
    simp only
    cases hb : f t.kind with
    | none => exact fun _ => hnone (by simpa using hb)
    | some b => exact fun _ => hsome t rest b rfl hb

theorem Ensures.expect {f : TokenKind → Option β} {Q : β × Token → List Token → Prop}
    (h : ∀ t rest b, ts = t :: rest → f t.kind = some b → Q (b, t) rest) (fault : SyntaxFault) :
    (expect f fault).Ensures ts Q :=
  .bind (.take? (fun t rest b hts hb => .pure (h t rest b hts hb)) fun _ => .fail fault)

theorem exactly_self (kind : TokenKind) : exactly kind kind = some () := if_pos rfl

theorem kind_of_exactly (h : exactly kind other = some u) : other = kind := by
  unfold exactly at h
  split at h
  · assumption
  · cases h

theorem Ensures.symbol {Q : Token → List Token → Prop}
    (h : ∀ p rest, ts = ⟨.symbol s, p⟩ :: rest → Q ⟨.symbol s, p⟩ rest) (fault : SyntaxFault) :
    (symbol s fault).Ensures ts Q := by
  refine .map (.expect (fun t rest _ hts hk => ?_) fault)
  obtain ⟨kind, p⟩ := t
  cases kind_of_exactly hk
  exact h p rest hts

theorem Ensures.ident {Q : String × Token → List Token → Prop}
    (h : ∀ name p rest, ts = ⟨.identifier name, p⟩ :: rest →
      Q (name, ⟨.identifier name, p⟩) rest) (fault : SyntaxFault) :
    (ident fault).Ensures ts Q := by
  refine .expect (fun t rest name hts hk => ?_) fault
  obtain ⟨kind, p⟩ := t
  cases kind <;> cases hk
  exact h name p rest hts

theorem Ensures.accept {Q : Bool → List Token → Prop}
    (htrue : ∀ p rest, ts = ⟨kind, p⟩ :: rest → Q true rest)
    (hfalse : (∀ t ∈ ts.head?, t.kind ≠ kind) → Q false ts) : (accept kind).Ensures ts Q := by
  refine .bind (.take? (fun t rest _ hts hk => .pure ?_) fun hk =>
    .pure (hfalse fun t ht heq => ?_))
  · obtain ⟨other, p⟩ := t
    cases kind_of_exactly hk
    exact htrue p rest hts
  · have hnone := hk t ht
    rw [heq, exactly_self] at hnone
    cases hnone

theorem Ensures.nextIs {Q : Bool → List Token → Prop} (h : ∀ b, Q b ts) :
    (nextIs kind).Ensures ts Q := fun _ => h _

theorem Ensures.peek {Q : Option Token → List Token → Prop} (h : Q ts.head? ts) :
    peek.Ensures ts Q := fun _ => h

theorem Ensures.iterate {step : α → Parser (Option α)}
    (hstep : ∀ a ts, Q a ts → (step a).Ensures ts fun r mid => Q (r.getD a) mid) (h : Q a ts) :
    (iterate step n a).Ensures ts Q := by
  induction n generalizing a ts with
  | zero => exact .pure h
  | succ n ih =>
    refine .bind ((hstep a ts h).mono fun r mid hr => ?_)
    cases r with
    | none => exact .pure hr
    | some b => exact ih hr

theorem Ensures.recover {resume : List Token → List Token} {Q : Option α → List Token → Prop}
    (h : p.Ensures ts fun a => Q (some a)) : (recover resume p).Ensures ts Q := by
  unfold Ensures Parser.recover at *
  rcases hp : p ts with ⟨result, errors, rest⟩
  rw [hp] at h
  cases result with
  | none => exact fun he => (h he).elim
  | some a => exact h

end Lox.Parser
