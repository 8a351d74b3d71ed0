import Lox.Proofs.Compile
import Lox.Proofs.Grammar.Nesting
import Lox.Proofs.Repl.Brackets
import Lox.Proofs.Repl.Lines

namespace Lox
set_option autoImplicit true

theorem count_tail [BEq α] [LawfulBEq α] {stack : List α} (h : stack.head? = some a) (b : α) :
    stack.count b = stack.tail.count b + if a == b then 1 else 0 := by
  obtain ⟨rest, rfl⟩ := List.head?_eq_some_iff.1 h
  exact List.count_cons

theorem countSymbol_of_openBrackets (h : openBrackets stack ts = some stack') :
    countSymbol .leftParen ts + stack.count .leftParen =
        countSymbol .rightParen ts + stack'.count .leftParen ∧
      countSymbol .leftBrace ts + stack.count .leftBrace =
        countSymbol .rightBrace ts + stack'.count .leftBrace := by
  fun_induction openBrackets stack ts with
  | case1 stack =>
    cases h
    exact ⟨rfl, rfl⟩
  | case2 stack p ts ih =>
    have := ih h
    simp only [List.count_cons_self, List.count_cons_of_ne, countSymbol_cons, ne_eq, reduceCtorEq,
      not_false_eq_true, TokenKind.symbol.injEq, ↓reduceIte] at this ⊢
    omega
  | case3 stack p ts ih =>
    have := ih h
    simp only [List.count_cons_self, List.count_cons_of_ne, countSymbol_cons, ne_eq, reduceCtorEq,
      not_false_eq_true, TokenKind.symbol.injEq, ↓reduceIte] at this ⊢
    omega
  | case4 stack p ts hhead ih =>
    have := ih h
    simp only [count_tail hhead, countSymbol_cons, TokenKind.symbol.injEq, reduceCtorEq, ↓reduceIte,
      beq_iff_eq] at this ⊢
    omega
  | case5 => cases h
  | case6 stack p ts hhead ih =>
    have := ih h
    simp only [count_tail hhead, countSymbol_cons, TokenKind.symbol.injEq, reduceCtorEq, ↓reduceIte,
      beq_iff_eq] at this ⊢
    omega
  | case7 => cases h
  | case8 stack t ts hleftParen hleftBrace hrightParen hrightBrace ih =>
    obtain ⟨kind, p⟩ := t
    have := ih h
    simp only [countSymbol_cons]
    rw [if_neg, if_neg, if_neg, if_neg]
    · exact this
    · rintro rfl; exact hrightBrace p rfl
    · rintro rfl; exact hleftBrace p rfl
    · rintro rfl; exact hrightParen p rfl
    · rintro rfl; exact hleftParen p rfl

theorem isOpen_eq_false_of_openBrackets (h : openBrackets [] (scan text).list.tokens = some []) :
    isOpen text = false := by
  obtain ⟨hparens, hbraces⟩ := countSymbol_of_openBrackets h
  simp only [isOpen, Bracket.leftBrace.count_codeChars, Bracket.rightBrace.count_codeChars,
    Bracket.leftParen.count_codeChars, Bracket.rightParen.count_codeChars]
  simp only [List.count_nil, Nat.add_zero] at hparens hbraces
  simp [hparens, hbraces]

theorem codeChars_subset (region : Region) (cs : List Char) : codeChars region cs ⊆ cs := by
  fun_induction codeChars region cs with
  | case1 => exact List.Subset.refl _
  | case2 rest ih => exact List.subset_cons_of_subset _ ih
  | case3 rest ih => exact List.subset_cons_of_subset _ (List.subset_cons_of_subset _ ih)
  | case4 c rest _ _ ih => exact List.cons_subset_cons c ih
  | case5 rest ih => exact List.subset_cons_of_subset _ ih
  | case6 c rest _ ih => exact List.subset_cons_of_subset _ ih
  | case7 rest ih => exact List.cons_subset_cons _ ih
  | case8 c rest _ ih => exact List.subset_cons_of_subset _ ih

theorem count_codeChars_append (hplain : ∀ c ∈ l, c ≠ '"' ∧ c ≠ '/') (hb : b ∉ l)
    (region : Region) (cs : List Char) :
    (codeChars region (cs ++ l)).count b = (codeChars region cs).count b := by
  fun_induction codeChars region cs with
  | case1 => exact List.count_eq_zero.2 fun hmem => hb (codeChars_subset _ _ hmem)
  | case2 rest ih => exact ih
  | case3 rest ih => exact ih
  | case4 c rest hquote hslash ih =>
    rw [List.cons_append, codeChars, List.count_cons, ih, List.count_cons]
    · exact hquote
    · intro rest' hc hrest
      cases rest with
      | nil =>
        rw [List.nil_append] at hrest
        exact (hplain '/' (hrest ▸ List.mem_cons_self)).2 rfl
      | cons d rest => exact hslash rest hc (by rw [(List.cons.inj hrest).1])
  | case5 rest ih => exact ih
  | case6 c rest hquote ih =>
    rw [List.cons_append, codeChars, ih]
    exact hquote
  | case7 rest ih => rw [List.cons_append, codeChars, List.count_cons, ih, List.count_cons]
  | case8 c rest hnewline ih =>
    rw [List.cons_append, codeChars, ih]
    exact hnewline

theorem Text.exists_trimChars (cs : List Char) :
    ∃ before after, (∀ c ∈ before, isBlank c = true) ∧ (∀ c ∈ after, isBlank c = true) ∧
      cs = before ++ (trimChars cs ++ after) := by
  refine ⟨cs.takeWhile isBlank, ((cs.dropWhile isBlank).reverse.takeWhile isBlank).reverse,
    fun c hc => List.mem_takeWhile_imp hc,
    fun c hc => List.mem_takeWhile_imp (List.mem_reverse.1 hc), ?_⟩
  rw [trimChars, ← List.reverse_append, List.takeWhile_append_dropWhile, List.reverse_reverse,
    List.takeWhile_append_dropWhile]

theorem Text.plain_of_isBlank (h : isBlank c = true) : c ≠ '"' ∧ c ≠ '/' := by
  constructor <;> rintro rfl <;> revert h <;> decide

theorem Bracket.not_isBlank (h : Bracket s b) : Text.isBlank b = false := by
  cases h <;> decide

theorem Bracket.count_trimChars (h : Bracket s b) (cs : List Char) :
    (codeChars .code (Text.trimChars cs)).count b = (codeChars .code cs).count b := by
  obtain ⟨before, after, hbefore, hafter, hcs⟩ := Text.exists_trimChars cs
  have hnot : ∀ l : List Char, (∀ c ∈ l, Text.isBlank c = true) → b ∉ l := fun l hl hmem =>
    Bool.false_ne_true (h.not_isBlank.symm.trans (hl b hmem))
  have hplain : ∀ l : List Char, (∀ c ∈ l, Text.isBlank c = true) →
      ∀ c ∈ l, c ≠ '"' ∧ c ≠ '/' := fun l hl c hc => Text.plain_of_isBlank (hl c hc)
  conv => rhs; rw [hcs]
  rw [codeChars_plain (hplain _ hbefore), List.count_append,
    List.count_eq_zero.2 (hnot _ hbefore), Nat.zero_add,
    count_codeChars_append (hplain _ hafter) (hnot _ hafter)]

theorem isOpen_trimChars (line : String) :
    isOpen (String.ofList (Text.trimChars line.toList)) = isOpen line := by
  simp only [isOpen, String.toList_ofList, Bracket.leftBrace.count_trimChars,
    Bracket.rightBrace.count_trimChars, Bracket.leftParen.count_trimChars,
    Bracket.rightParen.count_trimChars]

theorem Command.eq_trimChars_of_source (h : ofLine line = .source text) :
    text = String.ofList (Text.trimChars line.toList) := by
  unfold ofLine at h
  simp only at h
  split at h
  · cases h
  · cases h
  · split at h
    · cases h
    split at h
    · cases h
    split at h
    · cases h
    · exact (Command.source.inj h).symm

theorem joinLine_empty (line : String) : joinLine "" line = line := rfl

/-- A text that is not open is run as soon as it is given at an empty prompt, and the prompt stays
empty. -/
theorem Repl.runs_feed {r : Repl} (hpending : r.pending = "")
    (hline : Command.ofLine line = .source text) (hopen : isOpen text = false) (limit : Nat) :
    Runs limit r.session text (r.feed limit line) ∧ (r.feed limit line).repl.pending = "" ∧
      (r.feed limit line).repl.prompt = "> " := by
  have htext : sourceText? line = some text := by rw [sourceText?, hline]
  have hfeed : r.feed limit line = r.cleared.runSource limit text := by
    rw [feed_of_source htext, hpending, joinLine_empty, hopen]
    rfl
  rw [hfeed]
  exact ⟨runs_runSource limit r.cleared text, rfl, rfl⟩

/-- A complete program is never held back. If a text can be read without an error, its brackets are
nested and it is not open, so that an empty prompt runs it at once, with or without blanks around it:
the session and the output are those of its run. -/
theorem feed_complete_program (h : readProgram source = (tree, [])) :
    openBrackets [] (scan source).list.tokens = some [] ∧
      isOpen (joinLine "" source) = false ∧
      ∀ (limit : Nat) (r : Repl) (line text : String), r.pending = "" →
        Command.ofLine line = .source text → line = source ∨ text = source →
        (r.feed limit line).ran = some (text, r.session.run limit text) ∧
        (r.feed limit line).repl.session =
          ((r.session.run limit text).session.report
            (r.session.run limit text).answer.strays).1 ∧
        (r.feed limit line).output =
          (r.session.run limit text).output ++
            (r.session.run limit text).answer.strays.map .diagnostic ∧
        (r.feed limit line).stop = false ∧ (r.feed limit line).repl.pending = "" ∧
        (r.feed limit line).repl.prompt = "> " := by
  have hnested := (isProgram_of_readProgram h).openBrackets_eq
  have hclosed := isOpen_eq_false_of_openBrackets hnested
  refine ⟨hnested, hclosed, ?_⟩
  intro limit r line text hpending hline hsource
  have htext : isOpen text = false := by
    rcases hsource with rfl | rfl
    · rw [Command.eq_trimChars_of_source hline, isOpen_trimChars, hclosed]
    · exact hclosed
  obtain ⟨⟨hran, hsession, houtput, hstop⟩, hprompt⟩ := Repl.runs_feed hpending hline htext limit
  exact ⟨hran, hsession, houtput, hstop, hprompt⟩

/-- A class after blanks, with brackets in a string and in a comment. -/
theorem feed_complete_class :
    ∃ source line, (readProgram source).2 = [] ∧ Command.ofLine line = .source source ∧
      line ≠ source ∧ openBrackets [] (scan source).list.tokens = some [] ∧
      isOpen (joinLine "" source) = false ∧
      ∀ limit, (Repl.feed limit {} line).ran = some (source, (Session.new true).run limit source) ∧
        (Repl.feed limit {} line).repl.session =
          (((Session.new true).run limit source).session.report
            ((Session.new true).run limit source).answer.strays).1 := by
  let source := "class A \x7b m(x) \x7b return (x + \")\"); \x7d \x7d // (1"
  have hread : (readProgram source).2 = [] := by decide +kernel
  have hline : Command.ofLine ("  " ++ source) = .source source := by decide +kernel
  obtain ⟨hnested, hclosed, hfeed⟩ := feed_complete_program (Prod.ext rfl hread)
  refine ⟨source, "  " ++ source, hread, hline, by decide +kernel, hnested, hclosed, fun limit => ?_⟩
  obtain ⟨hran, hsession, _⟩ := hfeed limit {} _ _ rfl hline (.inr rfl)
  exact ⟨hran, hsession⟩

end Lox
