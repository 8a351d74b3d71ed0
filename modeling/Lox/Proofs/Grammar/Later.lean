import Lox.Proofs.Grammar.Join
import Lox.Proofs.Grammar.Progress

namespace Lox
set_option autoImplicit true

namespace Parser

theorem map_apply (f : α → β) (p : Parser α) (ts : List Token) :
    (f <$> p) ts = ⟨(p ts).result.map f, (p ts).errors, (p ts).rest⟩ := by
  simp only [Functor.map, Parser.bind]
  rcases p ts with ⟨_ | a, errors, rest⟩
  · rfl
  · simp only [Function.comp_apply, Parser.pure, List.append_nil, Option.map_some]

theorem Yields.iterate_next {step : α → Parser (Option α)} (h : (step a).Yields ts (some b) us) :
    iterate step (n + 1) a ts = iterate step n b us := by
  simp only [iterate, Bind.bind, Parser.bind]
  rw [h]
  rfl

end Parser

namespace Grammar

open Lox.Parser

theorem iterate_of_isDecls (hd : Complete decl ReadsDecl NoElse m) (h : IsDecls true ts body us)
    (hus : NoElse us) (hlen : ts.length < m) (done : List (Stmt Unresolved)) :
    iterate (nextDecl? decl) (n + body.length) done ts =
      iterate (nextDecl? decl) n (body.reverse ++ done) us := by
  induction body generalizing ts done with
  | nil =>
    cases h
    rfl
  | cons s body ih =>
    cases h with
    | next hs hbody =>
      have hnext := yields_nextDecl? hd hs (hbody.noElse hus) hlen done
      have hlt := hs.length_lt
      rw [List.length_cons, ← Nat.add_assoc, hnext.iterate_next, ih hbody (hlt.trans hlen),
        List.reverse_cons, List.append_assoc]
      rfl

theorem iterate_nextDecl? (decl : Parser (Option (Stmt Unresolved)))
    (done : List (Stmt Unresolved)) (ts : List Token) :
    iterate (nextDecl? decl) n done ts = ((· ++ done) <$> iterate (nextDecl? decl) n []) ts := by
  rw [map_apply]
  induction n generalizing done ts with
  | zero => rfl
  | succ n ih =>
    cases ts with
    | nil => rfl
    | cons t rest =>
      have hstep : ∀ done, iterate (nextDecl? decl) (n + 1) done (t :: rest) =
          (decl >>= fun r => iterate (nextDecl? decl) n (r.toList ++ done)) (t :: rest) := by
        intro done
        simp only [iterate, nextDecl?, look_self, attempt_self, Bind.bind, Parser.bind, peek,
          List.head?_cons]
        rcases decl (t :: rest) with ⟨_ | r, errors, mid⟩
        · rfl
        · simp only [Pure.pure, Parser.pure, List.nil_append, List.append_nil]
      rw [hstep done, hstep []]
      simp only [Bind.bind, Parser.bind]
      rcases decl (t :: rest) with ⟨_ | r, errors, mid⟩
      · rfl
      · simp only [ih (r.toList ++ done) mid, ih (r.toList ++ []) mid, Option.map_map,
          Function.comp_def, List.append_assoc, List.nil_append]

theorem iterate_declaration (hn : ts.length < n) (hm : ts.length < m) (hi : ts.length ≤ i)
    (hj : ts.length ≤ j) (done : List (Stmt Unresolved)) :
    (iterate (nextDecl? (declaration (expression n) n)) i done : Parser _) ts =
      (iterate (nextDecl? (declaration (expression m) m)) j done : Parser _) ts := by
  obtain ⟨hfirst, -⟩ := Observed.follows_declarations hn hn hi hi done
  obtain ⟨hsecond, -⟩ := Observed.follows_declarations hn hm hi hj done
  exact hfirst.symm.trans hsecond

/-- Behind the declarations of a derivation the rest of a text is read as if it stood alone. -/
theorem program_of_isDecls (h : IsDecls true ts body us) (hus : NoElse us) :
    program ts.length ts = ((body ++ ·) <$> program us.length) us := by
  have hd := complete_declaration (complete_expression (ts.length + 1)) (Nat.le_refl _)
  have hlen := h.length_le
  -- the declarations take one round each, which leaves enough rounds for the rest
  obtain ⟨k, hk⟩ := Nat.exists_eq_add_of_le' (Nat.le_of_add_left_le hlen)
  have hrounds := iterate_of_isDecls (n := k) hd h hus (Nat.lt_succ_self _) []
  rw [← hk, List.append_nil, iterate_nextDecl? _ body.reverse us, map_apply,
    iterate_declaration (m := us.length + 1) (j := us.length) (by omega) (by omega) (by omega)
      (Nat.le_refl _)] at hrounds
  unfold program allDeclarations
  rw [map_apply, hrounds, map_apply, map_apply]
  simp only [Option.map_map, Function.comp_def, List.reverse_append, List.reverse_reverse]

/-- A text without errors is read in the same way whatever comes behind it, unless that begins with
`else`. What comes behind it is read as if it stood alone: the statements of both are given, and the
errors of the second, however many it has. -/
theorem parse_append (first later : List Token) (h : (parse first).errors = [])
    (hlater : ∀ t ∈ later.head?, t.kind ≠ .keyword .elseWord) :
    parse (first ++ later) =
      ⟨(parse first).program ++ (parse later).program, (parse later).errors⟩ := by
  have hfirst := (isProgram_of_parse h).carry (carries_append later)
  rw [← Program.mapAll, Program.mapAll_id, List.nil_append] at hfirst
  have hboth := program_of_isDecls hfirst hlater
  rw [map_apply, program_eq (Nat.le_refl later.length)] at hboth
  rw [parse, hboth]
  rfl

def openBranch : List Token :=
  [.keyword .ifWord, .symbol .leftParen, .identifier "a", .symbol .rightParen, .keyword .printWord,
    .identifier "a", .symbol .semicolon].map (⟨·, ⟨1, 0⟩⟩)

/-- Tokens with two errors around a statement. -/
def twoErrors : List Token :=
  [.symbol .rightParen, .symbol .semicolon, .keyword .printWord, .identifier "b",
    .symbol .semicolon, .keyword .varWord].map (⟨·, ⟨2, 0⟩⟩)

theorem parse_append_twoErrors :
    (parse openBranch).errors = [] ∧ (parse twoErrors).errors.length = 2 ∧
      parse (openBranch ++ twoErrors) =
        ⟨(parse openBranch).program ++ (parse twoErrors).program, (parse twoErrors).errors⟩ := by
  have hfirst : (parse openBranch).errors = [] := rfl
  exact ⟨hfirst, rfl, parse_append openBranch twoErrors hfirst (by decide)⟩

/-- With an `else` at its beginning, later text goes into the conditional before it. -/
example : (parse (openBranch ++ ⟨.keyword .elseWord, ⟨2, 0⟩⟩ :: openBranch)).errors.length = 0 ∧
    (parse (⟨.keyword .elseWord, ⟨2, 0⟩⟩ :: openBranch)).errors.length = 1 := by decide

end Grammar

end Lox
