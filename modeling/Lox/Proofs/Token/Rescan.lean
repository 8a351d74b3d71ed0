import Lox.Proofs.Token.Longest

namespace Lox
set_option autoImplicit true

namespace Scan

theorem Begins.spells_token (h : Begins cs (.token kind) after) :
    Spells kind.lexeme.toList (.token kind) := by
  cases h with
  | piece h =>
    have hchars : kind.lexeme.toList = _ := h.chars_eq
    rwa [hchars]

/-- The lexeme of a token of a text is by itself a token of this kind. -/
theorem spells_of_mem_cut (h : .token kind ∈ cut cs) : Spells kind.lexeme.toList (.token kind) := by
  induction cs using cut_induction with
  | nil =>
    rw [cut_nil] at h
    cases h
  | cons c rest ih =>
    rw [cut_cons] at h
    rcases List.mem_cons.1 h with hfirst | h
    · have hbegins := begins_next c rest
      rw [← hfirst] at hbegins
      exact hbegins.spells_token
    · exact ih h

theorem Spells.cut_append (h : Spells text p) (hstops : Stops p after) :
    cut (text ++ after) = p :: cut after := by
  obtain ⟨c, cs, rfl, hnext⟩ := h.next_append hstops
  rw [List.cons_append, cut_cons, hnext]

/-- Lexemes with blanks between them are cut into the tokens and the blanks. -/
theorem cut_spaced (kinds : List TokenKind)
    (h : ∀ kind ∈ kinds, Spells kind.lexeme.toList (.token kind)) :
    cut (" ".intercalate (kinds.map (·.lexeme))).toList =
      (kinds.map Piece.token).intersperse (.blank ' ') := by
  induction kinds with
  | nil => exact cut_nil
  | cons kind kinds ih =>
    obtain ⟨hkind, hkinds⟩ := List.forall_mem_cons.1 h
    cases kinds with
    | nil =>
      have hcut := hkind.cut_append (stops_nil _)
      rw [List.append_nil, cut_nil] at hcut
      simpa using hcut
    | cons kind' kinds =>
      generalize hrest : (" ".intercalate ((kind' :: kinds).map (·.lexeme))).toList = rest at ih
      have htext : (" ".intercalate ((kind :: kind' :: kinds).map (·.lexeme))).toList =
          kind.lexeme.toList ++ ' ' :: rest := by
        rw [← hrest]
        simp
      have hblank : next ' ' rest = (.blank ' ', rest) := rfl
      rw [htext, hkind.cut_append (stops_token kind (.inl rfl) rest), cut_cons, hblank, ih hkinds]
      rfl

theorem filterMap_spaced (f : Piece → Option α) (hblank : f (.blank ' ') = none) (ps : List Piece) :
    (ps.intersperse (.blank ' ')).filterMap f = ps.filterMap f := by
  induction ps with
  | nil => rfl
  | cons p ps ih =>
    cases ps with
    | nil => rfl
    | cons q ps =>
      rw [List.intersperse_cons_cons]
      cases hp : f p with
      | none =>
        rw [List.filterMap_cons_none hp, List.filterMap_cons_none hblank, ih,
          List.filterMap_cons_none hp]
      | some a =>
        rw [List.filterMap_cons_some hp, List.filterMap_cons_none hblank, ih,
          List.filterMap_cons_some hp]

end Scan

/-- Scanning the lexemes of a text again, with single blanks between them, finds no error and gives
tokens of the same kinds, lexemes and literals, whether or not the text had errors. -/
theorem rescan_lexemes (source : String) :
    (scan (" ".intercalate ((scan source).list.tokens.map (·.lexeme)))).errors = [] ∧
      (scan (" ".intercalate ((scan source).list.tokens.map (·.lexeme)))).list.tokens.map (·.kind) =
        (scan source).list.tokens.map (·.kind) := by
  generalize hkinds : (scan source).list.tokens.map (·.kind) = kinds
  have hlexemes : (scan source).list.tokens.map (·.lexeme) = kinds.map (·.lexeme) := by
    rw [← hkinds, List.map_map]
    rfl
  have hspells : ∀ kind ∈ kinds, Scan.Spells kind.lexeme.toList (.token kind) := by
    intro kind hkind
    rw [← hkinds, Scan.kinds_scan] at hkind
    obtain ⟨p, hp, hpkind⟩ := List.mem_filterMap.1 hkind
    cases p <;> cases hpkind
    exact Scan.spells_of_mem_cut hp
  rw [hlexemes]
  constructor
  · apply List.map_eq_nil_iff.1
    rw [Scan.faults_scan, Scan.cut_spaced kinds hspells, Scan.filterMap_spaced _ rfl,
      List.filterMap_map]
    exact List.filterMap_eq_nil_iff.2 fun _ _ => rfl
  · rw [Scan.kinds_scan, Scan.cut_spaced kinds hspells, Scan.filterMap_spaced _ rfl,
      List.filterMap_map]
    exact List.filterMap_some

end Lox
