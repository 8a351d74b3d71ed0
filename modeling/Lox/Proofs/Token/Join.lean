import Lox.Proofs.Token.Spelling

namespace Lox
set_option autoImplicit true

/-- Where a place of a text comes to stand when the text follows `a` on a new line. -/
def Pos.below (a : String) (p : Pos) : Pos :=
  ⟨p.line + (a.toList.count '\n' + 1), p.offset + (a.toList.length + 1)⟩

def Token.move (f : Pos → Pos) (t : Token) : Token := ⟨t.kind, f t.pos⟩

namespace Scan

/-- A piece and the text after it make up the text. -/
theorem chars_next (c : Char) (rest : List Char) :
    (next c rest).1.chars ++ (next c rest).2 = c :: rest := (begins_next c rest).chars_append

/-- A newline behind a text does not change its first piece, unless that is a string without end. -/
theorem next_newline (h : ∀ text, (next c rest).1 ≠ .unterminated text) (b : List Char) :
    next c (rest ++ '\n' :: b) = ((next c rest).1, (next c rest).2 ++ '\n' :: b) :=
  ((begins_next c rest).append_newline h b).next_eq

/-- Induction on a text by its pieces. -/
@[elab_as_elim]
theorem cut_induction {motive : List Char → Prop} (nil : motive [])
    (cons : ∀ c rest, motive (next c rest).2 → motive (c :: rest)) (cs : List Char) :
    motive cs := by
  induction hlen : cs.length using Nat.strongRecOn generalizing cs with
  | ind n ih =>
    cases cs with
    | nil => exact nil
    | cons c rest =>
      apply cons
      exact ih _ (hlen ▸ Nat.lt_succ_of_le (next_length_le c rest)) _ rfl

/-- The pieces of a text cover all of it. -/
theorem chars_cut (cs : List Char) : (cut cs).flatMap Piece.chars = cs := by
  induction cs using cut_induction with
  | nil => rw [cut_nil]; rfl
  | cons c rest ih => rw [cut_cons, List.flatMap_cons, ih, chars_next]

/-- A text that closes its strings is cut at a newline behind it. -/
theorem cut_newline (a b : List Char) (h : ∀ text, .unterminated text ∉ cut a) :
    cut (a ++ '\n' :: b) = cut a ++ .newline :: cut b := by
  induction a using cut_induction with
  | nil =>
    rw [cut_nil, List.nil_append, cut_cons]
    rfl
  | cons c rest ih =>
    rw [cut_cons] at h
    have hfirst : ∀ text, (next c rest).1 ≠ .unterminated text := by
      intro text htext
      exact h text (htext ▸ List.mem_cons_self)
    rw [List.cons_append, cut_cons, next_newline hfirst, cut_cons,
      ih fun text hmem => h text (List.mem_cons_of_mem _ hmem)]
    rfl

def locateFrom (c : Cursor) : List Piece → List (Pos × Piece)
  | [] => []
  | p :: rest => c.locate p :: locateFrom (c.pass p) rest

theorem locate_eq (pieces : List Piece) :
    locate pieces = (pieces.foldl Cursor.pass {}, locateFrom {} pieces) := by
  have hfold : ∀ c located, pieces.foldl advance (c, located) =
      (pieces.foldl Cursor.pass c, (locateFrom c pieces).reverse ++ located) := by
    induction pieces with
    | nil => exact fun _ _ => rfl
    | cons p rest ih =>
      intro c located
      rw [List.foldl_cons, advance, ih, List.foldl_cons, locateFrom, List.reverse_cons,
        List.append_assoc]
      rfl
  rw [locate, hfold]
  simp only [List.append_nil, List.reverse_reverse]

theorem exists_mem_locateFrom (h : p ∈ ps) (c : Cursor) : ∃ pos, (pos, p) ∈ locateFrom c ps := by
  induction ps generalizing c with
  | nil => cases h
  | cons q ps ih =>
    rcases List.mem_cons.1 h with rfl | h
    · exact ⟨_, List.mem_cons_self⟩
    · obtain ⟨pos, hmem⟩ := ih h (c.pass q)
      exact ⟨pos, List.mem_cons_of_mem _ hmem⟩

theorem locateFrom_append (c : Cursor) (ps qs : List Piece) :
    locateFrom c (ps ++ qs) = locateFrom c ps ++ locateFrom (ps.foldl Cursor.pass c) qs := by
  induction ps generalizing c with
  | nil => rfl
  | cons p ps ih => rw [List.cons_append, locateFrom, locateFrom, ih]; rfl

theorem foldl_pass (c : Cursor) (ps : List Piece) :
    ps.foldl Cursor.pass c = ⟨c.line + (ps.flatMap Piece.chars).count '\n',
      c.offset + (ps.flatMap Piece.chars).length⟩ := by
  induction ps generalizing c with
  | nil => rfl
  | cons p ps ih =>
    rw [List.foldl_cons, ih, List.flatMap_cons, List.count_append, List.length_append,
      ← Nat.add_assoc, ← Nat.add_assoc]
    rfl

/-- Pieces further down, by lines and by characters. -/
theorem locateFrom_shift (c : Cursor) (lines chars : Nat) (ps : List Piece) :
    locateFrom ⟨c.line + lines, c.offset + chars⟩ ps =
      (locateFrom c ps).map fun l => (⟨l.1.line + lines, l.1.offset + chars⟩, l.2) := by
  induction ps generalizing c with
  | nil => rfl
  | cons p ps ih =>
    have hpass : Cursor.pass ⟨c.line + lines, c.offset + chars⟩ p =
        ⟨(c.pass p).line + lines, (c.pass p).offset + chars⟩ := by
      simp only [Cursor.pass, Cursor.mk.injEq]
      omega
    rw [locateFrom, hpass, ih, locateFrom, List.map_cons, Cursor.locate, hpass]
    rfl

/-- The places of two texts with a newline between them. -/
theorem locate_newline (a b : List Char) (h : ∀ text, .unterminated text ∉ cut a) :
    locate (cut (a ++ '\n' :: b)) =
      (⟨(locate (cut b)).1.line + (a.count '\n' + 1), (locate (cut b)).1.offset + (a.length + 1)⟩,
        (locate (cut a)).2 ++ Cursor.locate ⟨1 + a.count '\n', 0 + a.length⟩ .newline ::
          (locate (cut b)).2.map fun l =>
            (⟨l.1.line + (a.count '\n' + 1), l.1.offset + (a.length + 1)⟩, l.2)) := by
  have hbehind : Cursor.pass ⟨1 + a.count '\n', 0 + a.length⟩ .newline =
      ⟨1 + (a.count '\n' + 1), 0 + (a.length + 1)⟩ := rfl
  simp only [locate_eq]
  rw [cut_newline a b h, List.foldl_append, List.foldl_cons, foldl_pass {} (cut a), chars_cut,
    hbehind, foldl_pass, chars_cut, foldl_pass {} (cut b), chars_cut, locateFrom_append,
    foldl_pass {} (cut a), chars_cut, locateFrom, hbehind, locateFrom_shift {}]
  simp only [Prod.mk.injEq, Cursor.mk.injEq, and_true]
  omega

theorem token?_move (f : Pos → Pos) (l : Pos × Piece) :
    token? (f l.1, l.2) = (token? l).map (·.move f) := by
  obtain ⟨pos, piece⟩ := l
  cases piece <;> rfl

end Scan

def LexicalError.move (lines : Nat) (e : LexicalError) : LexicalError := ⟨e.fault, e.line + lines⟩

theorem Scan.error?_move (lines chars : Nat) (l : Pos × Piece) :
    error? (⟨l.1.line + lines, l.1.offset + chars⟩, l.2) = (error? l).map (·.move lines) := by
  obtain ⟨pos, piece⟩ := l
  cases piece <;> rfl

/-- A text closes its strings if no string without end is reported. -/
theorem closed_of_faults (h : ∀ e ∈ (scan a).errors, e.fault ≠ .unterminatedString)
    (text : List Char) : .unterminated text ∉ Scan.cut a.toList := by
  intro hmem
  obtain ⟨pos, hlocated⟩ := Scan.exists_mem_locateFrom hmem {}
  rw [scan, Scan.locate_eq] at h
  exact h _ (List.mem_filterMap.2 ⟨_, hlocated, rfl⟩) rfl

/-- A text without lexical errors closes its strings. -/
theorem closed_of_errors (h : (scan a).errors = []) (text : List Char) :
    .unterminated text ∉ Scan.cut a.toList :=
  closed_of_faults (by rw [h]; exact List.forall_mem_nil _) text

/-- If a text closes all its strings, what follows on a new line is scanned on its own. -/
theorem scan_join (a b : String) (h : ∀ text, .unterminated text ∉ Scan.cut a.toList) :
    scan (a ++ "\n" ++ b) =
      { list :=
          { tokens := (scan a).list.tokens ++ (scan b).list.tokens.map (·.move (.below a))
            lastLine := (scan b).list.lastLine + (a.toList.count '\n' + 1) }
        errors := (scan a).errors ++
          (scan b).errors.map (·.move (a.toList.count '\n' + 1)) } := by
  have htext : (a ++ "\n" ++ b).toList = a.toList ++ '\n' :: b.toList := by
    rw [String.toList_append, String.toList_append, List.append_assoc]
    rfl
  have htokens : ∀ located : List (Pos × Piece),
      (located.map fun l => (l.1.below a, l.2)).filterMap Scan.token? =
        (located.filterMap Scan.token?).map (·.move (.below a)) := by
    intro located
    rw [List.filterMap_map, List.map_filterMap]
    exact congrArg (List.filterMap · located) (funext fun l => Scan.token?_move _ l)
  have herrors : ∀ located : List (Pos × Piece),
      (located.map fun l => (l.1.below a, l.2)).filterMap Scan.error? =
        (located.filterMap Scan.error?).map (·.move (a.toList.count '\n' + 1)) := by
    intro located
    rw [List.filterMap_map, List.map_filterMap]
    exact congrArg (List.filterMap · located) (funext fun l => Scan.error?_move _ _ l)
  simp only [scan]
  rw [htext, Scan.locate_newline _ _ h]
  simp only [List.filterMap_append]
  rw [List.filterMap_cons_none rfl, List.filterMap_cons_none rfl, ← htokens, ← herrors]
  rfl

/-- Scanning is compositional at newlines: a text in which no string is left open keeps its tokens
and errors, and those of the text on the next line come behind them, as many lines further down as
the first text has, and so does the end. -/
theorem scan_newline (a b : String) (h : ∀ e ∈ (scan a).errors, e.fault ≠ .unterminatedString) :
    scan (a ++ "\n" ++ b) =
      { list :=
          { tokens := (scan a).list.tokens ++ (scan b).list.tokens.map (·.move (.below a))
            lastLine := (scan b).list.lastLine + (a.toList.count '\n' + 1) }
        errors := (scan a).errors ++
          (scan b).errors.map (·.move (a.toList.count '\n' + 1)) } :=
  scan_join a b (closed_of_faults h)

/-- An error, a number before a point, a string over two lines and a comment with a quote, and on
the next line a slash and a string without end. -/
theorem scan_newline_comment :
    ∃ a b : String, (∀ e ∈ (scan a).errors, e.fault ≠ .unterminatedString) ∧
      (scan a).errors = [⟨.unexpectedCharacter, 1⟩] ∧
      (scan (a ++ "\n" ++ b)).list.tokens.map (fun t => (t.lexeme, t.pos.line)) =
        [("1", 1), (".", 1), ("\"s\nt\"", 2), ("/", 3)] ∧
      (scan (a ++ "\n" ++ b)).errors = [⟨.unexpectedCharacter, 1⟩, ⟨.unterminatedString, 4⟩] := by
  have h : ∀ e ∈ (scan "@1. \"s\nt\" // \"").errors, e.fault ≠ .unterminatedString := by
    decide +kernel
  refine ⟨"@1. \"s\nt\" // \"", "/ \"u\n", h, by decide +kernel, ?_, ?_⟩
  all_goals rw [scan_newline _ _ h]
  · decide +kernel
  · decide +kernel

end Lox
