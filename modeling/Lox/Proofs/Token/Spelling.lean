import Lox.Token.Scan
import Mathlib.Data.List.TakeWhile

namespace Lox
set_option autoImplicit true

/-- The character that makes a symbol the beginning of a longer piece. -/
def Symbol.extender? : Symbol → Option Char
  | .slash => some '/'
  | .bang | .equal | .greater | .less => some '='
  | .leftParen | .rightParen | .leftBrace | .rightBrace | .comma | .dot | .minus | .plus
  | .semicolon | .star | .bangEqual | .equalEqual | .greaterEqual | .lessEqual => none

namespace Scan

def Letter (c : Char) : Prop := ('a' ≤ c ∧ c ≤ 'z') ∨ ('A' ≤ c ∧ c ≤ 'Z') ∨ c = '_'

def Digit (c : Char) : Prop := '0' ≤ c ∧ c ≤ '9'

/-- A text is, by itself, a piece. -/
inductive Spells : List Char → Piece → Prop
  | symbol (s : Symbol) : Spells s.text.toList (.token (.symbol s))
  | keyword (k : Keyword) : Spells k.text.toList (.token (.keyword k))
  | identifier (hc : Letter c) (hcs : ∀ d ∈ cs, Letter d ∨ Digit d)
      (hk : ∀ k : Keyword, k.text.toList ≠ c :: cs) :
      Spells (c :: cs) (.token (.identifier (String.ofList (c :: cs))))
  | string (hcs : '"' ∉ cs) : Spells ('"' :: (cs ++ ['"'])) (.token (.string (String.ofList cs)))
  | whole (hc : Digit c) (hcs : ∀ d ∈ cs, Digit d) :
      Spells (c :: cs) (.token (.number (String.ofList (c :: cs))))
  | decimal (hc : Digit c) (hcs : ∀ d ∈ cs, Digit d) (he : Digit e) (hes : ∀ d ∈ es, Digit d) :
      Spells (c :: (cs ++ '.' :: e :: es))
        (.token (.number (String.ofList (c :: (cs ++ '.' :: e :: es)))))
  | blank (hc : c = ' ' ∨ c = '\r' ∨ c = '\t') : Spells [c] (.blank c)
  | newline : Spells ['\n'] .newline
  | comment (hcs : '\n' ∉ cs) : Spells ('/' :: '/' :: cs) (.comment cs)

/-- What follows a piece does not belong to it. -/
def Stops : Piece → List Char → Prop
  | .token (.symbol s), after => ∀ d ∈ after.head?, s.extender? ≠ some d
  | .token (.keyword _), after | .token (.identifier _), after =>
    ∀ d ∈ after.head?, ¬(Letter d ∨ Digit d)
  | .token (.number text), after =>
    (∀ d ∈ after.head?, ¬Digit d) ∧
      ('.' ∈ text.toList ∨ ∀ d rest, after = '.' :: d :: rest → ¬Digit d)
  | .comment _, after => ∀ d ∈ after.head?, d = '\n'
  | .token (.string _), _ | .blank _, _ | .newline, _ | .unexpected _, _ | .unterminated _, _ =>
    True

theorem isLetter_iff : isLetter c = true ↔ Letter c := by
  simp [isLetter, Letter, or_assoc]

theorem isDigit_iff : isDigit c = true ↔ Digit c := by
  simp [isDigit, Digit]

theorem isWordChar_iff : isWordChar c = true ↔ Letter c ∨ Digit c := by
  rw [isWordChar, Bool.or_eq_true, isLetter_iff, isDigit_iff]

theorem not_isLetter_of_digit (h : Digit c) : ¬isLetter c = true := by
  rw [isLetter_iff]
  obtain ⟨h0, h9⟩ := h
  rintro (⟨ha, hz⟩ | ⟨ha, hz⟩ | rfl)
  · exact absurd (Char.le_trans ha h9) (by decide)
  · exact absurd (Char.le_trans ha h9) (by decide)
  · exact absurd h9 (by decide)

section
variable {p : Char → Bool} {P : Char → Prop} {cs after : List Char}

theorem takeWhile_exact (hp : ∀ d, p d = true ↔ P d) (h : ∀ d ∈ cs, P d)
    (hstop : ∀ d ∈ after.head?, ¬P d) : (cs ++ after).takeWhile p = cs := by
  have hnone : after.takeWhile p = [] := by
    cases after with
    | nil => rfl
    | cons d after => exact List.takeWhile_cons_of_neg (mt (hp d).1 (hstop d rfl))
  rw [List.takeWhile_append_of_pos fun d hd => (hp d).2 (h d hd), hnone, List.append_nil]

theorem dropWhile_exact (hp : ∀ d, p d = true ↔ P d) (h : ∀ d ∈ cs, P d)
    (hstop : ∀ d ∈ after.head?, ¬P d) : (cs ++ after).dropWhile p = after := by
  have hall : after.dropWhile p = after := by
    cases after with
    | nil => rfl
    | cons d after => exact List.dropWhile_cons_of_neg (mt (hp d).1 (hstop d rfl))
  rw [List.dropWhile_append_of_pos fun d hd => (hp d).2 (h d hd), hall]

end

theorem next_letter (h : isLetter c = true) (rest : List Char) :
    next c rest = (.token (word (String.ofList (c :: rest.takeWhile isWordChar))),
      rest.dropWhile isWordChar) := if_pos h

theorem next_digit (h : Digit c) (rest : List Char) :
    next c rest =
      (.token (.number (String.ofList
        (c :: (rest.takeWhile isDigit ++ fraction (rest.dropWhile isDigit))))),
      (rest.dropWhile isDigit).drop (fraction (rest.dropWhile isDigit)).length) := by
  simp only [next, if_neg (not_isLetter_of_digit h), if_pos (isDigit_iff.2 h)]

theorem next_simple (h : simpleSymbol? c = some s) (rest : List Char) :
    next c rest = (.token (.symbol s), rest) := by
  unfold simpleSymbol? at h
  split at h <;> cases h <;> rfl

theorem next_extended (h : extendedSymbol? c = some (short, long)) (rest : List Char) :
    next c ('=' :: rest) = (.token (.symbol long), rest) := by
  unfold extendedSymbol? at h
  split at h <;> cases h <;> rfl

theorem next_short (h : extendedSymbol? c = some (short, long)) (hrest : '=' ∉ rest.head?) :
    next c rest = (.token (.symbol short), rest) := by
  cases rest with
  | nil =>
    unfold extendedSymbol? at h
    split at h <;> cases h <;> rfl
  | cons d rest =>
    have hd : d ≠ '=' := fun heq => hrest (heq ▸ rfl)
    unfold extendedSymbol? at h
    split at h <;> cases h <;> simp [next, isLetter, isDigit, isBlank, extendedSymbol?, hd]

theorem next_slash (h : '/' ∉ rest.head?) : next '/' rest = (.token (.symbol .slash), rest) := by
  cases rest with
  | nil => rfl
  | cons d rest =>
    have hd : d ≠ '/' := fun heq => h (heq ▸ rfl)
    simp [next, isLetter, isDigit, isBlank, hd]

theorem ne_of_not_mem {cs : List Char} (h : stop ∉ cs) : ∀ d ∈ cs, d ≠ stop :=
  fun _ hd heq => h (heq ▸ hd)

theorem next_string (h : '"' ∉ cs) (after : List Char) :
    next '"' (cs ++ '"' :: after) = (.token (.string (String.ofList cs)), after) := by
  have hstop : ∀ d ∈ ('"' :: after).head?, ¬d ≠ '"' :=
    fun d hd => not_not_intro (Option.some.inj hd).symm
  unfold next
  rw [if_neg (by decide), if_neg (by decide), if_neg (by decide), if_neg (by decide), if_pos rfl,
    takeWhile_exact (fun _ => decide_eq_true_iff) (ne_of_not_mem h) hstop,
    dropWhile_exact (fun _ => decide_eq_true_iff) (ne_of_not_mem h) hstop]

theorem next_unterminated (h : '"' ∉ rest) : next '"' rest = (.unterminated rest, []) := by
  have hall : rest.dropWhile (· ≠ '"') = [] :=
    List.dropWhile_eq_nil_iff.2 fun d hd => decide_eq_true (ne_of_not_mem h d hd)
  unfold next
  rw [if_neg (by decide), if_neg (by decide), if_neg (by decide), if_neg (by decide), if_pos rfl,
    hall]

theorem next_comment (h : '\n' ∉ cs) (hafter : ∀ d ∈ after.head?, d = '\n') :
    next '/' ('/' :: (cs ++ after)) = (.comment cs, after) := by
  have hstop : ∀ d ∈ after.head?, ¬d ≠ '\n' := fun d hd => not_not_intro (hafter d hd)
  unfold next
  rw [if_neg (by decide), if_neg (by decide), if_neg (by decide), if_neg (by decide),
    if_neg (by decide), if_pos rfl]
  simp only [takeWhile_exact (fun _ => decide_eq_true_iff) (ne_of_not_mem h) hstop,
    dropWhile_exact (fun _ => decide_eq_true_iff) (ne_of_not_mem h) hstop]

theorem next_word (hc : Letter c) (hcs : ∀ d ∈ cs, Letter d ∨ Digit d)
    (hafter : ∀ d ∈ after.head?, ¬(Letter d ∨ Digit d)) :
    next c (cs ++ after) = (.token (word (String.ofList (c :: cs))), after) := by
  rw [next_letter (isLetter_iff.2 hc), takeWhile_exact (fun _ => isWordChar_iff) hcs hafter,
    dropWhile_exact (fun _ => isWordChar_iff) hcs hafter]

theorem fraction_eq_nil (h : ∀ d rest, cs = '.' :: d :: rest → ¬Digit d) : fraction cs = [] := by
  unfold fraction
  split
  · exact if_neg fun hd => h _ _ rfl (isDigit_iff.1 hd)
  · rfl

theorem fraction_exact (he : Digit e) (hes : ∀ d ∈ es, Digit d)
    (hafter : ∀ d ∈ after.head?, ¬Digit d) :
    fraction ('.' :: e :: (es ++ after)) = '.' :: e :: es := by
  rw [fraction, if_pos (isDigit_iff.2 he), takeWhile_exact (fun _ => isDigit_iff) hes hafter]

theorem next_number (hc : Digit c) (hcs : ∀ d ∈ cs, Digit d)
    (hpart : fraction (part ++ after) = part) (hhead : ∀ d ∈ (part ++ after).head?, ¬Digit d) :
    next c (cs ++ (part ++ after)) =
      (.token (.number (String.ofList (c :: (cs ++ part)))), after) := by
  rw [next_digit hc, takeWhile_exact (fun _ => isDigit_iff) hcs hhead,
    dropWhile_exact (fun _ => isDigit_iff) hcs hhead, hpart, List.drop_left]

theorem word_keyword (k : Keyword) : word k.text = .keyword k := by
  cases k <;> rfl

theorem word_of_ne (h : ∀ k : Keyword, k.text ≠ text) : word text = .identifier text := by
  have hnone : Keyword.ofText? text = none := by
    rw [Keyword.ofText?, List.find?_eq_none]
    exact fun k _ hk => h k (of_decide_eq_true hk)
  rw [word, hnone]

theorem spells_word (hc : Letter c) (hcs : ∀ d ∈ cs, Letter d ∨ Digit d) :
    Spells (c :: cs) (.token (word (String.ofList (c :: cs)))) := by
  by_cases h : ∃ k : Keyword, k.text.toList = c :: cs
  · obtain ⟨k, hk⟩ := h
    rw [← hk, String.ofList_toList, word_keyword]
    exact .keyword k
  · have hk : ∀ k : Keyword, k.text.toList ≠ c :: cs := fun k hk => h ⟨k, hk⟩
    rw [word_of_ne fun k heq => hk k (by rw [heq, String.toList_ofList])]
    exact .identifier hc hcs hk

theorem exists_letters (k : Keyword) :
    ∃ c cs, k.text.toList = c :: cs ∧ Letter c ∧ ∀ d ∈ cs, Letter d ∨ Digit d := by
  have hword : ∃ c cs, k.text.toList = c :: cs ∧ isLetter c = true ∧ cs.all isWordChar = true := by
    cases k <;> exact ⟨_, _, rfl, by decide, by decide⟩
  obtain ⟨c, cs, hk, hc, hcs⟩ := hword
  exact ⟨c, cs, hk, isLetter_iff.1 hc, fun d hd => isWordChar_iff.1 (List.all_eq_true.1 hcs d hd)⟩

theorem not_digit_point : ¬Digit '.' := fun h => absurd h.1 (by decide)

theorem Spells.next_append (h : Spells text p) (hstops : Stops p after) :
    ∃ c cs, text = c :: cs ∧ next c (cs ++ after) = (p, after) := by
  cases h with
  | symbol s =>
    cases s
    case slash => exact ⟨_, _, rfl, next_slash fun hd => hstops _ hd rfl⟩
    case bang | equal | greater | less =>
      exact ⟨_, _, rfl, next_short rfl fun hd => hstops _ hd rfl⟩
    case bangEqual | equalEqual | greaterEqual | lessEqual =>
      exact ⟨_, _, rfl, next_extended rfl after⟩
    all_goals exact ⟨_, _, rfl, next_simple rfl after⟩
  | keyword k =>
    obtain ⟨c, cs, hk, hc, hcs⟩ := exists_letters k
    refine ⟨c, cs, hk, ?_⟩
    rw [next_word hc hcs hstops, ← hk, String.ofList_toList, word_keyword]
  | identifier hc hcs hk =>
    refine ⟨_, _, rfl, ?_⟩
    rw [next_word hc hcs hstops, word_of_ne]
    exact fun k heq => hk k (by rw [heq, String.toList_ofList])
  | string hcs =>
    refine ⟨_, _, rfl, ?_⟩
    rw [List.append_assoc]
    exact next_string hcs after
  | @whole c cs hc hcs =>
    -- Without a point in it, the number could go on with a point and a digit.
    have hpoint : '.' ∉ (String.ofList (c :: cs)).toList := by
      rw [String.toList_ofList]
      intro hmem
      exact not_digit_point (List.forall_mem_cons.2 ⟨hc, hcs⟩ _ hmem)
    have hpart : fraction ([] ++ after) = [] := fraction_eq_nil (hstops.2.resolve_left hpoint)
    have hnext := next_number hc hcs hpart hstops.1
    rw [List.append_nil] at hnext
    exact ⟨_, _, rfl, hnext⟩
  | decimal hc hcs he hes =>
    refine ⟨_, _, rfl, ?_⟩
    rw [List.append_assoc]
    apply next_number hc hcs
    · exact fraction_exact he hes hstops.1
    · exact fun d hd => Option.some.inj hd ▸ not_digit_point
  | blank hc => rcases hc with rfl | rfl | rfl <;> exact ⟨_, _, rfl, rfl⟩
  | newline => exact ⟨_, _, rfl, rfl⟩
  | comment hcs => exact ⟨_, _, rfl, next_comment hcs hstops⟩

/-- A piece that nothing extends is the first one of a text that it begins. -/
theorem next_of_spells (h : Spells text p) (hstops : Stops p after)
    (htext : c :: rest = text ++ after) : next c rest = (p, after) := by
  obtain ⟨d, ds, rfl, hnext⟩ := h.next_append hstops
  rw [List.cons_append] at htext
  obtain ⟨rfl, rfl⟩ := List.cons.inj htext
  exact hnext

theorem exists_head {P : Char → Prop} {after : List Char} (h : ¬∀ d ∈ after.head?, P d) :
    ∃ d rest, after = d :: rest ∧ ¬P d := by
  cases after with
  | nil => exact (h fun d hd => by cases hd).elim
  | cons d rest => exact ⟨d, rest, rfl, fun hd => h fun e he => Option.some.inj he ▸ hd⟩

theorem forall_mem_snoc {P : Char → Prop} {cs : List Char} (h : ∀ d ∈ cs, P d) (hd : P d) :
    ∀ e ∈ cs ++ [d], P e :=
  List.forall_mem_append.2 ⟨h, List.forall_mem_singleton.2 hd⟩

theorem spells_extended (h : Symbol.extender? s = some d) :
    ∃ q, Spells (s.text.toList ++ [d]) q := by
  cases s <;> cases h
  · exact ⟨_, .comment List.not_mem_nil⟩
  · exact ⟨_, .symbol .bangEqual⟩
  · exact ⟨_, .symbol .equalEqual⟩
  · exact ⟨_, .symbol .greaterEqual⟩
  · exact ⟨_, .symbol .lessEqual⟩

/-- What extends a piece makes it the beginning of a longer one. -/
theorem Spells.extend (h : Spells text p) (hstops : ¬Stops p after) :
    ∃ more q rest, after = more ++ rest ∧ more ≠ [] ∧ Spells (text ++ more) q := by
  cases h with
  | symbol s =>
    obtain ⟨d, rest, rfl, hd⟩ := exists_head hstops
    obtain ⟨q, hq⟩ := spells_extended (Classical.not_not.1 hd)
    exact ⟨[d], q, rest, rfl, List.cons_ne_nil _ _, hq⟩
  | keyword k =>
    obtain ⟨d, rest, rfl, hd⟩ := exists_head hstops
    obtain ⟨c, cs, hk, hc, hcs⟩ := exists_letters k
    rw [hk]
    exact ⟨[d], _, rest, rfl, List.cons_ne_nil _ _,
      spells_word hc (forall_mem_snoc hcs (Classical.not_not.1 hd))⟩
  | identifier hc hcs =>
    obtain ⟨d, rest, rfl, hd⟩ := exists_head hstops
    exact ⟨[d], _, rest, rfl, List.cons_ne_nil _ _,
      spells_word hc (forall_mem_snoc hcs (Classical.not_not.1 hd))⟩
  | whole hc hcs =>
    rcases Classical.not_and_iff_not_or_not.1 hstops with hdigit | hpoint
    · obtain ⟨d, rest, rfl, hd⟩ := exists_head hdigit
      exact ⟨[d], _, rest, rfl, List.cons_ne_nil _ _,
        .whole hc (forall_mem_snoc hcs (Classical.not_not.1 hd))⟩
    · obtain ⟨d, rest, rfl, hd⟩ : ∃ d rest, after = '.' :: d :: rest ∧ Digit d := by
        simpa using (not_or.1 hpoint).2
      exact ⟨['.', d], _, rest, rfl, List.cons_ne_nil _ _,
        .decimal hc hcs hd (List.forall_mem_nil _)⟩
  | @decimal c cs e es hc hcs he hes =>
    have hpoint : '.' ∈ (String.ofList (c :: (cs ++ '.' :: e :: es))).toList := by
      simp
    obtain ⟨d, rest, rfl, hd⟩ := exists_head fun hdigit => hstops ⟨hdigit, .inl hpoint⟩
    have hlonger := Spells.decimal hc hcs he (forall_mem_snoc hes (Classical.not_not.1 hd))
    have htext : c :: (cs ++ '.' :: e :: (es ++ [d])) = c :: (cs ++ '.' :: e :: es) ++ [d] := by
      simp
    exact ⟨[d], _, rest, rfl, List.cons_ne_nil _ _, htext ▸ hlonger⟩
  | @comment cs hcs =>
    obtain ⟨d, rest, rfl, hd⟩ := exists_head hstops
    have hlonger : '\n' ∉ cs ++ [d] := by simpa [hcs] using Ne.symm hd
    exact ⟨[d], _, rest, rfl, List.cons_ne_nil _ _, .comment hlonger⟩
  | string | blank | newline => exact (hstops trivial).elim

/-- A piece is the beginning of one that nothing extends. -/
theorem Spells.exists_stops (h : Spells text p) (rest : List Char) :
    ∃ longer q after, text ++ rest = longer ++ after ∧ text.length ≤ longer.length ∧
      Spells longer q ∧ Stops q after := by
  -- By induction on what is left: each extension takes some of it.
  by_cases hstops : Stops p rest
  · exact ⟨text, p, rest, rfl, Nat.le_refl _, h, hstops⟩
  obtain ⟨more, q, left, hrest, hmore, hq⟩ := h.extend hstops
  have hlength : left.length < rest.length := by
    have := List.length_pos_iff.2 hmore
    rw [hrest, List.length_append]
    omega
  obtain ⟨longer, r, after, heq, hle, hr⟩ := hq.exists_stops left
  refine ⟨longer, r, after, ?_, ?_, hr⟩
  · rw [hrest, ← heq, List.append_assoc]
  · rw [List.length_append] at hle
    omega
termination_by rest.length

theorem extendedSymbol?_text (h : extendedSymbol? c = some (short, long)) :
    short.text.toList = [c] := by
  unfold extendedSymbol? at h
  split at h <;> cases h <;> decide

theorem simpleSymbol?_text (h : simpleSymbol? c = some s) : s.text.toList = [c] := by
  unfold simpleSymbol? at h
  split at h <;> cases h <;> decide

theorem next_unexpected (hc : c ≠ '"') (h : ∀ p, ¬Spells [c] p) (rest : List Char) :
    next c rest = (.unexpected c, rest) := by
  have hletter : ¬isLetter c = true := fun hl =>
    h _ (spells_word (isLetter_iff.1 hl) (List.forall_mem_nil _))
  have hdigit : ¬isDigit c = true := fun hd =>
    h _ (.whole (isDigit_iff.1 hd) (List.forall_mem_nil _))
  have hblank : ¬isBlank c = true := fun hb => h _ (.blank (by simpa [isBlank, or_assoc] using hb))
  have hnewline : c ≠ '\n' := by
    rintro rfl
    exact h _ .newline
  have hslash : c ≠ '/' := by
    rintro rfl
    exact h _ (.symbol .slash)
  have hsymbol : ∀ s : Symbol, s.text.toList ≠ [c] := fun s hs => h _ (hs ▸ Spells.symbol s)
  have hext : extendedSymbol? c = none :=
    Option.eq_none_iff_forall_ne_some.2 fun _ hs => hsymbol _ (extendedSymbol?_text hs)
  have hsimple : simpleSymbol? c = none :=
    Option.eq_none_iff_forall_ne_some.2 fun _ hs => hsymbol _ (simpleSymbol?_text hs)
  unfold next
  rw [if_neg hletter, if_neg hdigit, if_neg hblank, if_neg hnewline, if_neg hc, if_neg hslash, hext]
  simp only [hsimple]

/-- What a text begins with: a piece of the grammar that nothing extends or, where there is none, a
single character or a quote without a closing one. -/
inductive Begins : List Char → Piece → List Char → Prop
  | piece (h : Spells text p) (hstops : Stops p after) : Begins (text ++ after) p after
  | unexpected (hc : c ≠ '"') (h : ∀ p, ¬Spells [c] p) : Begins (c :: rest) (.unexpected c) rest
  | unterminated (h : '"' ∉ rest) : Begins ('"' :: rest) (.unterminated rest) []

theorem Begins.next_eq (h : Begins (c :: rest) p after) : next c rest = (p, after) := by
  generalize hcs : c :: rest = cs at h
  cases h with
  | piece h hstops => exact next_of_spells h hstops hcs
  | unexpected hc h =>
    obtain ⟨rfl, rfl⟩ := List.cons.inj hcs
    exact next_unexpected hc h rest
  | unterminated h =>
    obtain ⟨rfl, rfl⟩ := List.cons.inj hcs
    exact next_unterminated h

theorem Spells.begins (h : Spells text p) (rest : List Char) :
    ∃ longer q after, text ++ rest = longer ++ after ∧ text.length ≤ longer.length ∧
      Spells longer q ∧ Begins (text ++ rest) q after := by
  obtain ⟨longer, q, after, hlonger, hle, hq, hstops⟩ := h.exists_stops rest
  exact ⟨longer, q, after, hlonger, hle, hq, hlonger ▸ .piece hq hstops⟩

theorem exists_begins (c : Char) (rest : List Char) : ∃ p after, Begins (c :: rest) p after := by
  by_cases hc : c = '"'
  · subst hc
    by_cases hrest : '"' ∈ rest
    · obtain ⟨cs, after, rfl, hcs⟩ := List.eq_append_cons_of_mem hrest
      have hbegins : Begins ('"' :: (cs ++ ['"']) ++ after) _ after := .piece (.string hcs) trivial
      rw [List.cons_append, List.append_assoc] at hbegins
      exact ⟨_, _, hbegins⟩
    · exact ⟨_, _, .unterminated hrest⟩
  -- Except for strings, every piece begins with a character that is a piece by itself.
  · by_cases h : ∃ p, Spells [c] p
    · obtain ⟨p, hp⟩ := h
      obtain ⟨_, q, after, -, -, -, hbegins⟩ := hp.begins rest
      exact ⟨q, after, hbegins⟩
    · exact ⟨_, _, .unexpected hc fun p hp => h ⟨p, hp⟩⟩

/-- The first piece of a text is what the text begins with. -/
theorem begins_next (c : Char) (rest : List Char) :
    Begins (c :: rest) (next c rest).1 (next c rest).2 := by
  obtain ⟨p, after, h⟩ := exists_begins c rest
  rw [h.next_eq]
  exact h

theorem Spells.chars_eq (h : Spells text p) : p.chars = text := by
  cases h <;> simp [Piece.chars, TokenKind.lexeme]

/-- What a text begins with and what follows make up the text. -/
theorem Begins.chars_append (h : Begins cs p after) : p.chars ++ after = cs := by
  cases h with
  | piece h => rw [h.chars_eq]
  | unexpected => rfl
  | unterminated => exact List.append_nil _

theorem stops_nil (p : Piece) : Stops p [] := by
  cases p with
  | token kind =>
    cases kind with
    | number =>
      constructor
      · exact fun d hd => by cases hd
      · exact .inr fun d rest heq => by cases heq
    | string => trivial
    | _ => exact fun d hd => by cases hd
  | comment => exact fun d hd => by cases hd
  | _ => trivial

/-- No token goes on behind a blank or a newline. -/
theorem stops_token (kind : TokenKind) (hd : d = ' ' ∨ d = '\n') (rest : List Char) :
    Stops (.token kind) (d :: rest) := by
  have hextender : ∀ s : Symbol, s.extender? ≠ some d := by
    intro s
    rcases hd with rfl | rfl <;> cases s <;> decide
  have hletter : ¬(Letter d ∨ Digit d) := by
    rw [← isWordChar_iff]
    rcases hd with rfl | rfl <;> decide
  have hpoint : d ≠ '.' := by
    rcases hd with rfl | rfl <;> decide
  cases kind with
  | symbol s => exact fun e he => Option.some.inj he ▸ hextender s
  | keyword | identifier => exact fun e he => Option.some.inj he ▸ hletter
  | string => trivial
  | number =>
    constructor
    · exact fun e he => Option.some.inj he ▸ fun hdigit => hletter (.inr hdigit)
    · exact .inr fun e rest heq => absurd (List.cons.inj heq).1 hpoint

theorem stops_newline (p : Piece) (rest : List Char) : Stops p ('\n' :: rest) := by
  cases p with
  | token kind => exact stops_token kind (.inr rfl) rest
  | comment => exact fun d hd => (Option.some.inj hd).symm
  | _ => trivial

theorem Stops.append_newline (h : Stops p after) (rest : List Char) :
    Stops p (after ++ '\n' :: rest) := by
  cases after with
  | nil => exact stops_newline p rest
  | cons d after =>
    cases p with
    | token kind =>
      cases kind with
      | number text =>
        refine ⟨h.1, h.2.imp_right fun hpart e left heq => ?_⟩
        obtain ⟨rfl, hleft⟩ : d = '.' ∧ after ++ '\n' :: rest = e :: left := List.cons.inj heq
        cases after with
        | nil =>
          obtain rfl : '\n' = e := (List.cons.inj hleft).1
          exact fun hdigit => absurd hdigit.1 (by decide)
        | cons a after =>
          obtain rfl : a = e := (List.cons.inj hleft).1
          exact hpart a after rfl
      | _ => exact h
    | _ => exact h

/-- A newline behind a text does not change what it begins with, unless that is a string without
end. -/
theorem Begins.append_newline (h : Begins cs p after) (hp : ∀ text, p ≠ .unterminated text)
    (rest : List Char) : Begins (cs ++ '\n' :: rest) p (after ++ '\n' :: rest) := by
  cases h with
  | piece h hstops =>
    rw [List.append_assoc]
    exact .piece h (hstops.append_newline rest)
  | unexpected hc h => exact .unexpected hc h
  | unterminated => exact absurd rfl (hp _)

end Scan

end Lox
