import Lox.Proofs.Grammar.Derivation

namespace Lox
set_option autoImplicit true

/-- The brackets that are open behind tokens, the latest first, if those in `stack` are open before
them. There are none if a token closes another bracket than the latest open one. -/
def openBrackets (stack : List Symbol) : List Token → Option (List Symbol)
  | [] => some stack
  | ⟨.symbol .leftParen, _⟩ :: ts => openBrackets (.leftParen :: stack) ts
  | ⟨.symbol .leftBrace, _⟩ :: ts => openBrackets (.leftBrace :: stack) ts
  | ⟨.symbol .rightParen, _⟩ :: ts =>
    if stack.head? = some .leftParen then openBrackets stack.tail ts else none
  | ⟨.symbol .rightBrace, _⟩ :: ts =>
    if stack.head? = some .leftBrace then openBrackets stack.tail ts else none
  | _ :: ts => openBrackets stack ts

namespace Grammar

/-- The tokens before `rest` close the brackets that they open, and no others. -/
def Nests (ts rest : List Token) : Prop :=
  ∀ stack, openBrackets stack ts = openBrackets stack rest

theorem Nests.refl (ts : List Token) : Nests ts ts := fun _ => rfl

theorem Nests.trans (h : Nests ts us) (h' : Nests us rest) : Nests ts rest :=
  fun stack => (h stack).trans (h' stack)

theorem Nests.word (h : Nests ts rest) : Nests (⟨.keyword k, p⟩ :: ts) rest := h

theorem Nests.name (h : Nests ts rest) : Nests (⟨.identifier x, p⟩ :: ts) rest := h

theorem Nests.parens (h : Nests ts (⟨.symbol .rightParen, q⟩ :: rest)) :
    Nests (⟨.symbol .leftParen, p⟩ :: ts) rest :=
  fun stack => h (.leftParen :: stack)

theorem Nests.braces (h : Nests ts (⟨.symbol .rightBrace, q⟩ :: rest)) :
    Nests (⟨.symbol .leftBrace, p⟩ :: ts) rest :=
  fun stack => h (.leftBrace :: stack)

theorem Joins.nests (h : Joins l t f) (ts : List Token) : Nests (t :: ts) ts := by
  cases h with
  | or => exact .refl ts
  | and => exact .refl ts
  | binary => rename_i op _ _; cases op <;> exact .refl ts

theorem IsAtom.nests (h : IsAtom t e) (ts : List Token) : Nests (t :: ts) ts := by
  cases h <;> exact .refl ts

theorem IsExpr.nests (h : IsExpr l ts e rest) : Nests ts rest := by
  induction h using IsExpr.rec (motive_2 := fun ts _ rest _ => Nests ts rest) with
  | assign _ ih => exact ih
  | set _ _ ih ih' => exact ih.trans ih'
  | tighter _ ih => exact ih
  | join _ ht _ ih ih' => exact (ih.trans (ht.nests _)).trans ih'
  | negate _ ih => exact ih
  | not _ ih => exact ih
  | call _ _ ih ih' => exact ih.trans ih'.parens
  | get _ ih => exact ih
  | atom h => exact h.nests _
  | grouping _ ih => exact ih.parens
  | none => exact .refl _
  | one _ ih => exact ih
  | more _ _ _ _ ih ih' => exact ih.trans ih'

theorem IsOptional.nests (h : IsOptional ts e rest) : Nests ts rest := by
  cases h with
  | none => exact .refl _
  | some h => exact h.nests

theorem IsParams.nests (h : IsParams ts params rest) : Nests ts rest := by
  induction h with
  | none => exact .refl _
  | one => exact .refl _
  | more _ _ _ ih => exact ih

theorem IsVarDecl.nests (h : IsVarDecl ts s rest) : Nests ts rest := by
  cases h with
  | plain => exact .refl _
  | init h => exact h.nests

theorem IsExprStmt.nests (h : IsExprStmt ts s rest) : Nests ts rest := by
  cases h with
  | intro h => exact h.nests

theorem IsForStart.nests (h : IsForStart ts start rest) : Nests ts rest := by
  cases h with
  | none => exact .refl _
  | varDecl h => exact h.nests
  | expression h => exact h.nests

theorem IsDecls.nests (h : IsDecls nearest ts body rest) : Nests ts rest := by
  induction h using IsDecls.rec (motive_1 := fun _ ts _ rest _ => Nests ts rest)
    (motive_2 := fun ts _ rest _ => Nests ts rest)
    (motive_3 := fun ts _ rest _ => Nests ts rest)
    (motive_4 := fun ts _ rest _ => Nests ts rest) with
  | expression h => exact h.nests
  | funDecl _ ih => exact ih
  | forLoop hstart hcondition hincrement _ ih =>
    have hclauses := (hstart.nests.trans hcondition.nests).trans hincrement.nests
    exact (hclauses.parens.trans ih).word
  | ifThen hc _ ih => exact (hc.nests.parens.trans ih).word
  | ifElse hc _ _ _ ih ih' => exact (hc.nests.parens.trans (ih.trans ih')).word
  | print h => exact h.nests
  | ret h => exact h.nests
  | loop hc _ ih => exact (hc.nests.parens.trans ih).word
  | block _ ih => exact ih.braces
  | intro hparams _ ih => exact (hparams.nests.parens.trans ih.braces).name
  | nil => exact .refl _
  | cons _ _ ih ih' => exact ih.trans ih'
  | classDecl _ ih => exact ih.braces.name.word
  | varDecl h => exact h.nests
  | statement _ ih => exact ih
  | empty => exact .refl _
  | next _ _ ih ih' => exact ih.trans ih'

/-- The brackets of a program are nested. -/
theorem IsProgram.openBrackets_eq (h : IsProgram nearest ts P) :
    openBrackets [] ts = some [] :=
  IsDecls.nests h []

end Grammar

end Lox
