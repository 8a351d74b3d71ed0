import Lox.Proofs.Token.Join
import Mathlib.Data.List.Basic

namespace Lox
set_option autoImplicit true

def Piece.kind? : Piece → Option TokenKind
  | .token kind => some kind
  | .blank _ | .newline | .comment _ | .unexpected _ | .unterminated _ => none

def Piece.fault? : Piece → Option LexicalFault
  | .unexpected _ => some .unexpectedCharacter
  | .unterminated _ => some .unterminatedString
  | .token _ | .blank _ | .newline | .comment _ => none

namespace Scan

/-- `Longest text p rest`: in `text ++ rest` the longest piece of the grammar is `p`, with the
characters `text`. Where the grammar has no piece, there is a quote with all that follows it, or
else a single unexpected character. -/
inductive Longest : List Char → Piece → List Char → Prop
  | piece (h : Spells text p)
      (hmax : ∀ other q, Spells other q → other <+: text ++ rest → other.length ≤ text.length) :
      Longest text p rest
  | unexpected (hc : c ≠ '"') (hnone : ∀ other q, Spells other q → ¬other <+: c :: rest) :
      Longest [c] (.unexpected c) rest
  | unterminated (hnone : ∀ other q, Spells other q → ¬other <+: '"' :: cs) :
      Longest ('"' :: cs) (.unterminated cs) []

theorem Longest.begins (h : Longest text p rest) : Begins (text ++ rest) p rest := by
  cases h with
  | piece h hmax =>
    apply Begins.piece h
    by_contra hstops
    obtain ⟨more, q, left, rfl, hmore, hq⟩ := h.extend hstops
    have hle := hmax _ _ hq ⟨left, List.append_assoc _ _ _⟩
    have hpos := List.length_pos_iff.2 hmore
    rw [List.length_append] at hle
    omega
  | unexpected hc hnone =>
    apply Begins.unexpected hc
    intro q hq
    exact hnone _ q hq ⟨rest, rfl⟩
  | unterminated hnone =>
    rw [List.append_nil]
    apply Begins.unterminated
    intro hmem
    obtain ⟨text, after, rfl, htext⟩ := List.eq_append_cons_of_mem hmem
    apply hnone _ _ (.string htext)
    exact ⟨after, by simp⟩

theorem Spells.exists_cons (h : Spells text p) : ∃ c cs, text = c :: cs := by
  obtain ⟨c, cs, htext, -⟩ := h.next_append (stops_nil p)
  exact ⟨c, cs, htext⟩

/-- Where the grammar has a piece, a text begins with one that is at least as long. -/
theorem Begins.spells (h : Begins (text ++ rest) p after) (htext : Spells text q) :
    ∃ longer, Spells longer p ∧ text ++ rest = longer ++ after ∧ text.length ≤ longer.length := by
  obtain ⟨longer, r, left, hlonger, hle, hr, hbegins⟩ := htext.begins rest
  obtain ⟨c, cs, rfl⟩ := htext.exists_cons
  have hsame : (p, after) = (r, left) := h.next_eq.symm.trans hbegins.next_eq
  obtain ⟨rfl, rfl⟩ := Prod.mk.inj hsame
  exact ⟨longer, hr, hlonger, hle⟩

theorem Begins.longest (h : Begins cs p after) : Longest p.chars p after := by
  have hspells : ∀ other q, Spells other q → other <+: cs →
      ∃ longer, Spells longer p ∧ cs = longer ++ after ∧ other.length ≤ longer.length := by
    rintro other q hq ⟨left, rfl⟩
    exact h.spells hq
  cases h with
  | piece h hstops =>
    rw [h.chars_eq]
    apply Longest.piece h
    intro other q hq hother
    obtain ⟨longer, -, hlonger, hle⟩ := hspells other q hq hother
    rwa [List.append_cancel_right hlonger]
  | unexpected hc h =>
    apply Longest.unexpected hc
    intro other q hq hother
    obtain ⟨longer, hlonger, -⟩ := hspells other q hq hother
    cases hlonger
  | unterminated h =>
    apply Longest.unterminated
    intro other q hq hother
    obtain ⟨longer, hlonger, -⟩ := hspells other q hq hother
    cases hlonger

theorem Longest.chars_eq (h : Longest text p rest) : p.chars = text := by
  cases h with
  | piece h => exact h.chars_eq
  | unexpected => rfl
  | unterminated => rfl

theorem Longest.exists_cons (h : Longest text p rest) : ∃ c cs, text = c :: cs := by
  cases h with
  | piece h => exact h.exists_cons
  | unexpected => exact ⟨_, _, rfl⟩
  | unterminated => exact ⟨_, _, rfl⟩

/-- A part of a text: what stands before it, the characters that it takes, and what it is. -/
structure Part where
  before : List Char
  text : List Char
  piece : Piece

/-- The parts into which a text behind `before` is cut. -/
inductive Cuts : List Char → List Part → List Char → Prop
  | nil : Cuts before [] []
  | cons (hfirst : Longest text p rest) (hrest : Cuts (before ++ text) parts rest) :
      Cuts before (⟨before, text, p⟩ :: parts) (text ++ rest)

/-- Pieces as parts of the text that they make up. -/
def partsFrom (before : List Char) : List Piece → List Part
  | [] => []
  | p :: ps => ⟨before, p.chars, p⟩ :: partsFrom (before ++ p.chars) ps

theorem cuts_cut (before cs : List Char) : Cuts before (partsFrom before (cut cs)) cs := by
  induction cs using cut_induction generalizing before with
  | nil =>
    rw [cut_nil]
    exact .nil
  | cons c rest ih =>
    have hcuts := Cuts.cons (begins_next c rest).longest (ih (before ++ (next c rest).1.chars))
    rwa [chars_next, ← partsFrom, ← cut_cons] at hcuts

theorem Cuts.eq_partsFrom (h : Cuts before parts cs) : parts = partsFrom before (cut cs) := by
  induction h with
  | nil =>
    rw [cut_nil]
    rfl
  | cons hfirst hrest ih =>
    obtain ⟨c, cs, rfl⟩ := hfirst.exists_cons
    have hbegins := hfirst.begins
    rw [List.cons_append] at hbegins ⊢
    rw [cut_cons, hbegins.next_eq, partsFrom, hfirst.chars_eq, ih]

/-- A text is cut in one way. -/
theorem cuts_iff : Cuts before parts cs ↔ parts = partsFrom before (cut cs) := by
  constructor
  · exact Cuts.eq_partsFrom
  · rintro rfl
    exact cuts_cut before cs

theorem Cuts.chars_eq (h : Cuts before parts cs) (hpart : part ∈ parts) :
    part.piece.chars = part.text := by
  induction h with
  | nil => cases hpart
  | cons hfirst hrest ih =>
    rcases List.mem_cons.1 hpart with rfl | hpart
    · exact hfirst.chars_eq
    · exact ih hpart

theorem filterMap_partsFrom (f : Piece → Option α) (before : List Char) (ps : List Piece) :
    (partsFrom before ps).filterMap (fun part => f part.piece) = ps.filterMap f := by
  induction ps generalizing before with
  | nil => rfl
  | cons p ps ih => rw [partsFrom, List.filterMap_cons, List.filterMap_cons, ih]

theorem text_partsFrom (before : List Char) (ps : List Piece) :
    (partsFrom before ps).flatMap (·.text) = ps.flatMap Piece.chars := by
  induction ps generalizing before with
  | nil => rfl
  | cons p ps ih => rw [partsFrom, List.flatMap_cons, ih, List.flatMap_cons]

/-- A part and what stands before it begin the text. -/
theorem Cuts.before_text (h : Cuts before parts cs) (hpart : part ∈ parts) :
    part.before ++ part.text <+: before ++ cs := by
  induction h with
  | nil => cases hpart
  | cons hfirst hrest ih =>
    rw [← List.append_assoc]
    rcases List.mem_cons.1 hpart with rfl | hpart
    · exact List.prefix_append _ _
    · exact ih hpart

/-- A part is on the line on which it ends. -/
def Part.pos (part : Part) : Pos :=
  ⟨1 + (part.before ++ part.text).count '\n', part.before.length⟩

def Part.token? (part : Part) : Option Token := part.piece.kind?.map (⟨·, part.pos⟩)

def Part.error? (part : Part) : Option LexicalError := part.piece.fault?.map (⟨·, part.pos.line⟩)

theorem locateFrom_eq (before : List Char) (ps : List Piece) :
    locateFrom ⟨1 + before.count '\n', before.length⟩ ps =
      (partsFrom before ps).map fun part => (part.pos, part.piece) := by
  induction ps generalizing before with
  | nil => rfl
  | cons p ps ih =>
    have hpass : Cursor.pass ⟨1 + before.count '\n', before.length⟩ p =
        ⟨1 + (before ++ p.chars).count '\n', (before ++ p.chars).length⟩ := by
      rw [List.count_append, List.length_append, ← Nat.add_assoc]
      rfl
    rw [locateFrom, hpass, ih, partsFrom, List.map_cons, Cursor.locate, hpass]
    rfl

/-- Scanning a text gives what its parts are. -/
theorem scan_eq_of_cuts {source : String} (h : Cuts [] parts source.toList) :
    scan source =
      { list :=
          { tokens := parts.filterMap Part.token?
            lastLine := 1 + source.toList.count '\n' }
        errors := parts.filterMap Part.error? } := by
  have htoken : ∀ part : Part, token? (part.pos, part.piece) = part.token? := by
    intro part
    cases hp : part.piece <;> simp [Part.token?, hp, token?, Piece.kind?]
  have herror : ∀ part : Part, error? (part.pos, part.piece) = part.error? := by
    intro part
    cases hp : part.piece <;> simp [Part.error?, hp, error?, Piece.fault?]
  have hlocated : locateFrom {} (cut source.toList) =
      (partsFrom [] (cut source.toList)).map fun part => (part.pos, part.piece) :=
    locateFrom_eq [] _
  simp only [scan, locate_eq]
  rw [foldl_pass, chars_cut, hlocated, ← h.eq_partsFrom, List.filterMap_map, List.filterMap_map]
  simp only [Function.comp_def, htoken, herror]

theorem kinds_scan (source : String) :
    (scan source).list.tokens.map (·.kind) = (cut source.toList).filterMap Piece.kind? := by
  have hkind : ∀ part : Part, part.token?.map (·.kind) = part.piece.kind? := by
    intro part
    rw [Part.token?]
    cases part.piece.kind? <;> rfl
  rw [scan_eq_of_cuts (cuts_cut [] source.toList), List.map_filterMap]
  simp only [hkind, filterMap_partsFrom]

theorem faults_scan (source : String) :
    (scan source).errors.map (·.fault) = (cut source.toList).filterMap Piece.fault? := by
  have hfault : ∀ part : Part, part.error?.map (·.fault) = part.piece.fault? := by
    intro part
    rw [Part.error?]
    cases part.piece.fault? <;> rfl
  rw [scan_eq_of_cuts (cuts_cut [] source.toList), List.map_filterMap]
  simp only [hfault, filterMap_partsFrom]

/-- The message about a faulty part of a text, and the line that it names. -/
def Part.report? (source : List Char) (part : Part) : Option (String × Nat) :=
  match part.piece with
  | .unexpected _ => some ("Unexpected character.", 1 + part.before.count '\n')
  | .unterminated _ => some ("Unterminated string.", 1 + source.count '\n')
  | .token _ | .blank _ | .newline | .comment _ => none

theorem Longest.report (h : Longest text p rest) (before : List Char) :
    (Part.error? ⟨before, text, p⟩).map (fun e => (e.fault.message, e.line)) =
      Part.report? (before ++ (text ++ rest)) ⟨before, text, p⟩ := by
  cases h with
  | piece h => cases h <;> rfl
  | @unexpected c _ hc hnone =>
    have hnewline : c ≠ '\n' := by
      rintro rfl
      exact hnone _ _ .newline ⟨rest, rfl⟩
    simp [Part.error?, Part.report?, Part.pos, Piece.fault?, LexicalFault.message, hnewline]
  | unterminated =>
    simp [Part.error?, Part.report?, Part.pos, Piece.fault?, LexicalFault.message]

theorem Cuts.report (h : Cuts before parts cs) :
    (parts.filterMap Part.error?).map (fun e => (e.fault.message, e.line)) =
      parts.filterMap (Part.report? (before ++ cs)) := by
  induction h with
  | nil => rfl
  | cons hfirst hrest ih =>
    rw [List.append_assoc] at ih
    rw [List.filterMap_cons, List.filterMap_cons, ← hfirst.report]
    cases Part.error? _ with
    | none => exact ih
    | some e => exact congrArg _ ih

end Scan

/-- Scanning is cutting into longest pieces. Every text is cut in one way into consecutive parts
that are each the longest piece at their start, so that no character is lost or used twice. The
tokens are, in order, the parts that are tokens, with their characters as lexemes; the end of the
text is listed behind them. There is one error, in order, for each faulty part. -/
theorem scan_longest_parts (source : String) :
    ∃ parts : List Scan.Part,
      (∀ other, Scan.Cuts [] other source.toList ↔ other = parts) ∧
      parts.flatMap (·.text) = source.toList ∧
      (scan source).list.tokens.map (fun t => (t.lexeme.toList, t.kind)) =
        parts.filterMap (fun part => part.piece.kind?.map (part.text, ·)) ∧
      (scan source).list.describe =
        parts.filterMap (fun part => part.piece.kind?.map fun kind =>
          Token.describe kind.label (String.ofList part.text) part.pos.line) ++
        [Token.describe "EOF" "" (1 + source.toList.count '\n')] ∧
      (scan source).errors.map (·.fault) = parts.filterMap (·.piece.fault?) := by
  have hcuts := Scan.cuts_cut [] source.toList
  refine ⟨Scan.partsFrom [] (Scan.cut source.toList), fun other => Scan.cuts_iff, ?_, ?_, ?_, ?_⟩
  · rw [Scan.text_partsFrom, Scan.chars_cut]
  · rw [Scan.scan_eq_of_cuts hcuts, List.map_filterMap]
    apply List.filterMap_congr
    intro part hpart
    rw [← hcuts.chars_eq hpart, Scan.Part.token?]
    cases part.piece <;> rfl
  · rw [Scan.scan_eq_of_cuts hcuts, TokenList.describe, List.map_filterMap]
    congr 1
    apply List.filterMap_congr
    intro part hpart
    rw [← hcuts.chars_eq hpart, Scan.Part.token?]
    cases part.piece with
    | token kind => simp [Piece.kind?, Piece.chars, Token.lexeme]
    | _ => rfl
  · rw [Scan.faults_scan, Scan.filterMap_partsFrom]

/-- Line numbers are exact. A token is on the line on which its lexeme ends, which is one more than
the newlines up to there, and the text ends on the line after all its newlines. An unexpected
character is reported on its line, and a string without end on the last one. -/
theorem scan_lines (source : String) :
    ∃ parts : List Scan.Part,
      (∀ other, Scan.Cuts [] other source.toList ↔ other = parts) ∧
      (∀ part ∈ parts, part.before ++ part.text <+: source.toList) ∧
      (scan source).list.tokens =
        parts.filterMap (fun part => part.piece.kind?.map fun kind =>
          ⟨kind, 1 + (part.before ++ part.text).count '\n', part.before.length⟩) ∧
      (scan source).list.lastLine = 1 + source.toList.count '\n' ∧
      (scan source).errors.map (fun e => (e.fault.message, e.line)) =
        parts.filterMap (Scan.Part.report? source.toList) := by
  have hcuts := Scan.cuts_cut [] source.toList
  refine ⟨Scan.partsFrom [] (Scan.cut source.toList), fun other => Scan.cuts_iff, ?_, ?_, ?_, ?_⟩
  · exact fun part hpart => hcuts.before_text hpart
  all_goals rw [Scan.scan_eq_of_cuts hcuts]
  · rfl
  · exact hcuts.report

/-- A string over two lines is on the second one. -/
example : (scan "\"a\nb\" c").list.tokens.map (·.pos.line) = [2, 2] := by decide +kernel

end Lox
