import Lox.Compile
import Lox.Proofs.Grammar.Declared
import Lox.Proofs.Grammar.Soundness

namespace Lox
set_option autoImplicit true

namespace Scan

theorem mem_of_mem_locate (h : located ∈ (locate pieces).2) : located.2 ∈ pieces := by
  -- the pieces that are left are put onto those in `s`
  have hfold : ∀ (rest : List Piece) (s : Cursor × List (Pos × Piece)),
      located ∈ (rest.foldl advance s).2 → located ∈ s.2 ∨ located.2 ∈ rest := by
    intro rest
    induction rest with
    | nil => exact fun s hs => .inl hs
    | cons p rest ih =>
      intro s hs
      rcases ih _ hs with hs | hs
      · rcases List.mem_cons.1 hs with rfl | hs
        · exact .inr List.mem_cons_self
        · exact .inl hs
      · exact .inr (List.mem_cons_of_mem p hs)
  rcases hfold pieces ({}, []) (List.mem_reverse.1 h) with h | h
  · cases h
  · exact h

theorem exists_next_of_mem_cut (cs : List Char) (h : piece ∈ cut cs) :
    ∃ c rest, piece = (next c rest).1 := by
  match cs with
  | [] =>
    rw [cut_nil] at h
    cases h
  | c :: rest =>
    have hlen := next_length_le c rest
    rw [cut_cons] at h
    rcases List.mem_cons.1 h with rfl | h
    · exact ⟨c, rest, rfl⟩
    · exact exists_next_of_mem_cut (next c rest).2 h
termination_by cs.length

theorem ofText?_of_word (h : word text = .identifier name) : Keyword.ofText? name = none := by
  unfold word at h
  split at h
  · cases h
  · cases h
    assumption

theorem ofText?_of_next (h : (next c rest).1 = .token (.identifier name)) :
    Keyword.ofText? name = none := by
  unfold next at h
  split at h
  · exact ofText?_of_word (Piece.token.inj h)
  · repeat' split at h
    all_goals cases h

end Scan

theorem ofText?_of_mem_scan (h : ⟨.identifier name, p⟩ ∈ (scan source).list.tokens) :
    Keyword.ofText? name = none := by
  obtain ⟨⟨pos, piece⟩, hmem, htoken⟩ := List.mem_filterMap.1 h
  obtain ⟨c, rest, hpiece⟩ := Scan.exists_next_of_mem_cut _ (Scan.mem_of_mem_locate hmem)
  cases piece with
  | token kind =>
    cases htoken
    exact Scan.ofText?_of_next hpiece.symm
  | _ => cases htoken

theorem isProgram_of_readProgram (h : readProgram source = (tree, [])) :
    Grammar.IsProgram true (scan source).list.tokens tree := by
  obtain ⟨htree, herrors⟩ := Prod.mk.inj h
  have hparse := List.map_eq_nil_iff.1 (List.append_eq_nil_iff.1 herrors).2
  exact htree ▸ Grammar.isProgram_of_parse hparse

theorem regular_of_readProgram (h : readProgram source = (tree, [])) :
    ∀ D ∈ tree.declarations, D.Regular := by
  intro D hD
  obtain ⟨hguarded, p, hp⟩ := ((isProgram_of_readProgram h).states false).stated D hD
  refine ⟨hguarded, fun hname => ?_⟩
  have hfree := ofText?_of_mem_scan hp
  rw [hname] at hfree
  revert hfree
  decide

end Lox
