import Lox.Proofs.Token.Join
import Lox.Repl

namespace Lox
set_option autoImplicit true

/-- The characters of a piece that are neither in a string nor in a comment. -/
def Piece.code : Piece → List Char
  | .token (.string _) | .comment _ | .unterminated _ => []
  | .token kind => kind.lexeme.toList
  | .blank c | .unexpected c => [c]
  | .newline => ['\n']

theorem codeChars_plain (h : ∀ c ∈ l, c ≠ '"' ∧ c ≠ '/') (rest : List Char) :
    codeChars .code (l ++ rest) = l ++ codeChars .code rest := by
  induction l with
  | nil => rfl
  | cons c l ih =>
    obtain ⟨hquote, hslash⟩ := h c List.mem_cons_self
    rw [List.cons_append, codeChars, ih fun d hd => h d (List.mem_cons_of_mem _ hd)]
    · rfl
    · exact hquote
    · exact fun _ heq => absurd heq hslash

theorem codeChars_slash (h : '/' ∉ rest.head?) :
    codeChars .code ('/' :: rest) = '/' :: codeChars .code rest := by
  rw [codeChars]
  · decide
  · exact fun _ _ heq => h (heq ▸ rfl)

theorem codeChars_string (h : '"' ∉ text) : codeChars .string text = [] := by
  induction text with
  | nil => rfl
  | cons c text ih =>
    obtain ⟨hc, htext⟩ := not_or.1 (mt List.mem_cons.2 h)
    rw [codeChars, ih htext]
    exact Ne.symm hc

theorem codeChars_string_closed (h : '"' ∉ text) (after : List Char) :
    codeChars .string (text ++ '"' :: after) = codeChars .code after := by
  induction text with
  | nil => rfl
  | cons c text ih =>
    obtain ⟨hc, htext⟩ := not_or.1 (mt List.mem_cons.2 h)
    rw [List.cons_append, codeChars, ih htext]
    exact Ne.symm hc

theorem codeChars_comment (h : '\n' ∉ text) (hafter : ∀ c ∈ after.head?, c = '\n') :
    codeChars .comment (text ++ after) = codeChars .code after := by
  induction text with
  | nil =>
    cases after with
    | nil => rfl
    | cons c after =>
      obtain rfl := hafter c rfl
      rfl
  | cons c text ih =>
    obtain ⟨hc, htext⟩ := not_or.1 (mt List.mem_cons.2 h)
    rw [List.cons_append, codeChars, ih htext]
    exact Ne.symm hc

theorem Symbol.text_plain {s : Symbol} (h : s ≠ .slash) :
    ∀ c ∈ s.text.toList, c ≠ '"' ∧ c ≠ '/' := by
  have hall : s.text.toList.all (fun c => c ≠ '"' ∧ c ≠ '/') = true := by
    cases s with
    | slash => exact (h rfl).elim
    | _ => decide
  simpa using hall

/-- Words and numbers, which are made of letters, digits and points. -/
def Piece.IsWord : Piece → Prop
  | .token (.keyword _) | .token (.identifier _) | .token (.number _) => True
  | .token (.symbol _) | .token (.string _) | .blank _ | .newline | .comment _ | .unexpected _
  | .unterminated _ => False

theorem Scan.Spells.letters (h : Spells text p) (hp : p.IsWord) :
    p.code = text ∧ ∀ d ∈ text, isWordChar d = true ∨ d = '.' := by
  have hcode : p.code = p.chars := by
    cases h with
    | keyword | identifier | whole | decimal => rfl
    | symbol | string | blank | newline | comment => exact hp.elim
  refine ⟨hcode.trans h.chars_eq, ?_⟩
  cases h with
  | keyword k =>
    obtain ⟨c, cs, hk, hc, hcs⟩ := exists_letters k
    intro d hd
    rw [hk] at hd
    exact .inl (isWordChar_iff.2 (List.forall_mem_cons.2 ⟨.inl hc, hcs⟩ d hd))
  | identifier hc hcs =>
    intro d hd
    exact .inl (isWordChar_iff.2 (List.forall_mem_cons.2 ⟨.inl hc, hcs⟩ d hd))
  | whole hc hcs =>
    intro d hd
    exact .inl (isWordChar_iff.2 (.inr (List.forall_mem_cons.2 ⟨hc, hcs⟩ d hd)))
  | decimal hc hcs he hes =>
    have hdigit : ∀ {d}, Digit d → isWordChar d = true ∨ d = '.' :=
      fun hd => .inl (isWordChar_iff.2 (.inr hd))
    simp only [List.forall_mem_cons, List.forall_mem_append]
    exact ⟨hdigit hc, fun d hd => hdigit (hcs d hd), .inr trivial, hdigit he,
      fun d hd => hdigit (hes d hd)⟩
  | symbol | string | blank | newline | comment => exact hp.elim

/-- The prompt and scanning agree on what a text begins with. -/
theorem Scan.Begins.codeChars_eq (h : Begins cs p after) :
    codeChars .code cs = p.code ++ codeChars .code after := by
  have hsingle : ∀ {c}, c ≠ '"' ∧ c ≠ '/' →
      codeChars .code (c :: after) = [c] ++ codeChars .code after :=
    fun hc => codeChars_plain (List.forall_mem_singleton.2 hc) after
  cases h with
  | unexpected hc h =>
    apply hsingle ⟨hc, ?_⟩
    rintro rfl
    exact h _ (.symbol .slash)
  | unterminated h => exact codeChars_string h
  | @piece text _ _ h hstops =>
    have hword : p.IsWord → codeChars .code (text ++ after) = p.code ++ codeChars .code after := by
      intro hp
      obtain ⟨hcode, hletters⟩ := h.letters hp
      rw [hcode]
      apply codeChars_plain
      intro d hd
      constructor <;> rintro rfl <;> exact absurd (hletters _ hd) (by decide)
    cases h with
    | keyword | identifier | whole | decimal => exact hword trivial
    | symbol s =>
      by_cases hs : s = .slash
      · subst hs
        exact codeChars_slash fun hd => hstops '/' hd rfl
      · exact codeChars_plain (Symbol.text_plain hs) after
    | @string text hcs =>
      have htext : '"' :: (text ++ ['"']) ++ after = '"' :: (text ++ '"' :: after) := by simp
      rw [htext]
      exact codeChars_string_closed hcs after
    | blank hc =>
      apply hsingle
      rcases hc with rfl | rfl | rfl <;> decide
    | newline => rfl
    | comment hcs => exact codeChars_comment hcs hstops

/-- The prompt leaves out the strings and comments that scanning finds, and nothing else. -/
theorem codeChars_cut (cs : List Char) :
    codeChars .code cs = (Scan.cut cs).flatMap Piece.code := by
  induction cs using Scan.cut_induction with
  | nil => rw [Scan.cut_nil]; rfl
  | cons c rest ih =>
    rw [Scan.cut_cons, List.flatMap_cons, ← ih, (Scan.begins_next c rest).codeChars_eq]

inductive Bracket : Symbol → Char → Prop
  | leftParen : Bracket .leftParen '('
  | rightParen : Bracket .rightParen ')'
  | leftBrace : Bracket .leftBrace '\x7b'
  | rightBrace : Bracket .rightBrace '\x7d'

theorem Bracket.count_text (h : Bracket s b) (t : Symbol) :
    t.text.toList.count b = if t = s then 1 else 0 := by
  cases h <;> cases t <;> rfl

theorem Bracket.spells (h : Bracket s b) : Scan.Spells [b] (.token (.symbol s)) := by
  have htext : s.text.toList = [b] := by cases h <;> rfl
  exact htext ▸ .symbol s

theorem Bracket.not_letter (h : Bracket s b) : ¬(Scan.isWordChar b = true ∨ b = '.') := by
  cases h <;> decide

theorem Bracket.count_code (h : Bracket s b) (hp : Scan.Begins cs p after) :
    p.code.count b = if p = .token (.symbol s) then 1 else 0 := by
  cases hp with
  | @unexpected c rest _ hnone =>
    rw [if_neg (by simp)]
    apply List.count_eq_zero.2
    rw [Piece.code, List.mem_singleton]
    rintro rfl
    exact hnone _ h.spells
  | unterminated => rfl
  | @piece text _ _ hp hstops =>
    have hword : p.IsWord → p.code.count b = 0 := by
      intro hword
      obtain ⟨hcode, hletters⟩ := hp.letters hword
      rw [hcode]
      exact List.count_eq_zero.2 fun hmem => h.not_letter (hletters b hmem)
    cases hp with
    | keyword | identifier | whole | decimal =>
      rw [if_neg (by simp)]
      exact hword trivial
    | symbol t => simpa [Piece.code, TokenKind.lexeme] using h.count_text t
    | string => simp [Piece.code]
    | comment => rfl
    | blank hc =>
      rw [if_neg (by simp)]
      rcases hc with rfl | rfl | rfl <;> cases h <;> rfl
    | newline => cases h <;> rfl

/-- How often a symbol occurs among tokens. -/
def countSymbol (s : Symbol) (ts : List Token) : Nat := ts.countP (·.kind = .symbol s)

@[simp] theorem countSymbol_cons (s : Symbol) (t : Token) (ts : List Token) :
    countSymbol s (t :: ts) = countSymbol s ts + if t.kind = .symbol s then 1 else 0 := by
  simp [countSymbol, List.countP_cons]

theorem countSymbol_locateFrom (s : Symbol) (c : Scan.Cursor) (ps : List Piece) :
    countSymbol s ((Scan.locateFrom c ps).filterMap Scan.token?) =
      ps.countP (· = .token (.symbol s)) := by
  induction ps generalizing c with
  | nil => rfl
  | cons p ps ih =>
    rw [Scan.locateFrom, List.countP_cons, ← ih (c.pass p)]
    cases p with
    | token kind =>
      have htoken : Scan.token? (c.locate (.token kind)) =
          some ⟨kind, (c.locate (.token kind)).1⟩ := rfl
      rw [List.filterMap_cons_some htoken, countSymbol_cons]
      simp
    | _ =>
      rw [List.filterMap_cons_none rfl]
      simp

/-- The prompt counts each bracket as often as it is a token of the text. -/
theorem Bracket.count_codeChars (h : Bracket s b) (text : String) :
    (codeChars .code text.toList).count b = countSymbol s (scan text).list.tokens := by
  have hpieces : ∀ cs : List Char,
      ((Scan.cut cs).flatMap Piece.code).count b =
        (Scan.cut cs).countP (· = .token (.symbol s)) := by
    intro cs
    induction cs using Scan.cut_induction with
    | nil => rw [Scan.cut_nil]; rfl
    | cons c rest ih =>
      rw [Scan.cut_cons, List.flatMap_cons, List.count_append, ih,
        h.count_code (Scan.begins_next c rest), List.countP_cons, Nat.add_comm]
      simp
  simp only [scan]
  rw [codeChars_cut, hpieces, Scan.locate_eq, countSymbol_locateFrom]

/-- A text waits for more lines if and only if it has more tokens that open braces than tokens that
close them, or more that open parentheses than that close them. -/
theorem isOpen_joinLine_iff (pending line : String) :
    isOpen (joinLine pending line) = true ↔
      countSymbol .rightBrace (scan (joinLine pending line)).list.tokens <
        countSymbol .leftBrace (scan (joinLine pending line)).list.tokens ∨
      countSymbol .rightParen (scan (joinLine pending line)).list.tokens <
        countSymbol .leftParen (scan (joinLine pending line)).list.tokens := by
  simp only [isOpen, Bool.or_eq_true, decide_eq_true_eq, Bracket.leftBrace.count_codeChars,
    Bracket.rightBrace.count_codeChars, Bracket.leftParen.count_codeChars,
    Bracket.rightParen.count_codeChars]

end Lox
