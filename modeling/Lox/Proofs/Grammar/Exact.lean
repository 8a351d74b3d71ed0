import Lox.Proofs.Grammar.CompleteStatements

namespace Lox.Grammar
set_option autoImplicit true

open Lox.Parser

theorem yields_nextDecl? (hd : Complete decl ReadsDecl NoElse m) (h : IsDecl true ts s us)
    (hus : NoElse us) (hlen : ts.length < m) (done : List (Stmt Unresolved)) :
    (nextDecl? decl done).Yields ts (some (s :: done)) us := by
  have hs := hd _ _ _ ⟨s, rfl, h⟩ hlen hus
  have hlt := h.length_lt
  cases ts with
  | nil => cases hlt
  | cons t ts => exact .bind (a := some t) rfl (.bind hs .pure)

/-- A program of the grammar is parsed without an error. -/
theorem parse_of_isProgram (h : IsProgram true ts P) : parse ts = ⟨P, []⟩ := by
  have hd := complete_declaration (complete_expression (ts.length + 1)) (Nat.le_refl _)
  have hend : NoElse [] := nofun
  have hloop := yields_collect (IsDecl true) (IsDecls true) (fun _ _ h => h.cases_next)
    (fun _ _ _ h => h.length_lt)
    (fun _ _ _ _ done h h' hlen => yields_nextDecl? hd h (h'.noElse hend) hlen done)
    (fun _ => rfl) h (Nat.lt_succ_self _) (Nat.le_refl _) []
  have hp : (program ts.length).Yields ts P [] := by
    have hp := hloop.map List.reverse
    rwa [List.append_nil, List.reverse_reverse] at hp
  unfold parse
  rw [hp]
  rfl

/-- A statement that ends with a conditional without `else` takes an `else` and a statement behind
it, at the last such conditional. -/
theorem IsStmt.attach (h : IsStmt true dangling ts s (⟨.keyword .elseWord, r⟩ :: us))
    (hd : dangling = true) (hno : IsStmt true d us no rest) :
    ∃ d' s', IsStmt true d' ts s' rest := by
  generalize hus : (⟨.keyword .elseWord, r⟩ : Token) :: us = vs at h
  induction h using IsStmt.rec (motive_2 := fun _ _ _ _ => True) (motive_3 := fun _ _ _ _ => True)
    (motive_4 := fun _ _ _ _ => True) (motive_5 := fun _ _ _ _ => True) with
  | forLoop hstart hcondition hincrement _ ih =>
    obtain ⟨d', body, hbody⟩ := ih hd hus
    exact ⟨d', _, .forLoop hstart hcondition hincrement hbody⟩
  | @ifThen _ _ _ _ inner _ _ _ _ hc hyes ih =>
    cases inner with
    | true =>
      obtain ⟨d', yes, hyes⟩ := ih rfl hus
      exact ⟨true, _, .ifThen hc hyes⟩
    | false =>
      subst hus
      exact ⟨d, _, .ifElse hc hyes (fun _ => rfl) hno⟩
  | ifElse hc hyes hinner _ _ ih =>
    obtain ⟨d', no, hno⟩ := ih hd hus
    exact ⟨d', _, .ifElse hc hyes hinner hno⟩
  | loop hc _ ih =>
    obtain ⟨d', body, hbody⟩ := ih hd hus
    exact ⟨d', _, .loop hc hbody⟩
  | expression => cases hd
  | funDecl => cases hd
  | print => cases hd
  | ret => cases hd
  | block => cases hd
  | _ => trivial

/-- The tokens of a program have a derivation in which every `else` belongs to the nearest
conditional. -/
theorem IsDecls.exists_nearest (h : IsDecls false ts body rest) :
    ∃ body', IsDecls true ts body' rest := by
  induction h using IsDecls.rec
    (motive_1 := fun _ ts _ rest _ => ∃ d s, IsStmt true d ts s rest)
    (motive_2 := fun ts _ rest _ => ∃ f, IsFunction true ts f rest)
    (motive_3 := fun ts _ rest _ => ∃ fs, IsMethods true ts fs rest)
    (motive_4 := fun ts _ rest _ => ∃ s, IsDecl true ts s rest) with
  | expression h => exact ⟨_, _, .expression h⟩
  | funDecl _ ih =>
    obtain ⟨f, hf⟩ := ih
    exact ⟨_, _, .funDecl hf⟩
  | forLoop hstart hcondition hincrement _ ih =>
    obtain ⟨d, body, hbody⟩ := ih
    exact ⟨d, _, .forLoop hstart hcondition hincrement hbody⟩
  | ifThen hc _ ih =>
    obtain ⟨d, yes, hyes⟩ := ih
    exact ⟨true, _, .ifThen hc hyes⟩
  | ifElse hc _ _ _ ih ih' =>
    obtain ⟨inner, yes, hyes⟩ := ih
    obtain ⟨d, no, hno⟩ := ih'
    cases inner with
    | true =>
      obtain ⟨d', yes', hyes'⟩ := hyes.attach rfl hno
      exact ⟨true, _, .ifThen hc hyes'⟩
    | false => exact ⟨d, _, .ifElse hc hyes (fun _ => rfl) hno⟩
  | print h => exact ⟨_, _, .print h⟩
  | ret h => exact ⟨_, _, .ret h⟩
  | loop hc _ ih =>
    obtain ⟨d, body, hbody⟩ := ih
    exact ⟨d, _, .loop hc hbody⟩
  | block _ ih =>
    obtain ⟨body, hbody⟩ := ih
    exact ⟨_, _, .block hbody⟩
  | intro hparams _ ih =>
    obtain ⟨body, hbody⟩ := ih
    exact ⟨_, .intro hparams hbody⟩
  | nil => exact ⟨_, .nil⟩
  | cons _ _ ih ih' =>
    obtain ⟨f, hf⟩ := ih
    obtain ⟨fs, hfs⟩ := ih'
    exact ⟨_, .cons hf hfs⟩
  | classDecl _ ih =>
    obtain ⟨methods, hmethods⟩ := ih
    exact ⟨_, .classDecl hmethods⟩
  | varDecl h => exact ⟨_, .varDecl h⟩
  | statement _ ih =>
    obtain ⟨d, s, hs⟩ := ih
    exact ⟨_, .statement hs⟩
  | empty => exact ⟨_, .empty⟩
  | next _ _ ih ih' =>
    obtain ⟨s, hs⟩ := ih
    obtain ⟨body, hbody⟩ := ih'
    exact ⟨_, .next hs hbody⟩

/-- The rule for `else` only takes derivations away. -/
theorem IsDecls.any (h : IsDecls true ts body rest) : IsDecls false ts body rest := by
  induction h using IsDecls.rec (motive_1 := fun d ts s rest _ => IsStmt false d ts s rest)
    (motive_2 := fun ts f rest _ => IsFunction false ts f rest)
    (motive_3 := fun ts fs rest _ => IsMethods false ts fs rest)
    (motive_4 := fun ts s rest _ => IsDecl false ts s rest) with
  | expression h => exact .expression h
  | funDecl _ ih => exact .funDecl ih
  | forLoop hstart hcondition hincrement _ ih => exact .forLoop hstart hcondition hincrement ih
  | ifThen hc _ ih => exact .ifThen hc ih
  | ifElse hc _ _ _ ih ih' => exact .ifElse hc ih nofun ih'
  | print h => exact .print h
  | ret h => exact .ret h
  | loop hc _ ih => exact .loop hc ih
  | block _ ih => exact .block ih
  | intro hparams _ ih => exact .intro hparams ih
  | nil => exact .nil
  | cons _ _ ih ih' => exact .cons ih ih'
  | classDecl _ ih => exact .classDecl ih
  | varDecl h => exact .varDecl h
  | statement _ ih => exact .statement ih
  | empty => exact .empty
  | next _ _ ih ih' => exact .next ih ih'

/-- The parser reports no error exactly on the token lists that the grammar derives, whichever
conditional an `else` is given to. Its tree is then the one of the derivation in which every `else`
belongs to the nearest conditional. -/
theorem parse_exact (ts : List Token) :
    ((parse ts).errors = [] ↔ ∃ P, IsProgram false ts P) ∧
      ∀ P, ((parse ts).errors = [] ∧ (parse ts).program = P ↔ IsProgram true ts P) := by
  have hexact : ∀ P, ((parse ts).errors = [] ∧ (parse ts).program = P ↔ IsProgram true ts P) := by
    refine fun P => ⟨fun ⟨herrors, hP⟩ => hP ▸ isProgram_of_parse herrors, fun h => ?_⟩
    rw [parse_of_isProgram h]
    exact ⟨rfl, rfl⟩
  refine ⟨⟨fun herrors => ⟨_, (isProgram_of_parse herrors).any⟩, fun ⟨P, h⟩ => ?_⟩, hexact⟩
  obtain ⟨P', h'⟩ := h.exists_nearest
  exact ((hexact P').2 h').1

end Lox.Grammar
