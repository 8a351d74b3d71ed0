namespace Lox.Text

/-- Whether a code point lies in one of the closed ranges, which must be in ascending order. -/
def inRanges : List (Nat × Nat) → Nat → Bool
  | [], _ => false
  | (lo, hi) :: rest, n => lo ≤ n && (n ≤ hi || inRanges rest n)

theorem inRanges_iff {ranges : List (Nat × Nat)} (h : ranges.Pairwise fun r s => r.1 ≤ s.1)
    (n : Nat) : inRanges ranges n = true ↔ ∃ r ∈ ranges, r.1 ≤ n ∧ n ≤ r.2 := by
  induction h with
  | nil => simp [inRanges]
  | @cons r rest hr _ ih =>
    simp only [inRanges, Bool.and_eq_true, Bool.or_eq_true, decide_eq_true_eq, ih, List.mem_cons]
    constructor
    · rintro ⟨hlo, hhi | ⟨s, hs, hn⟩⟩
      · exact ⟨r, .inl rfl, hlo, hhi⟩
      · exact ⟨s, .inr hs, hn⟩
    · rintro ⟨s, rfl | hs, hlo, hhi⟩
      · exact ⟨hlo, .inl hhi⟩
      · exact ⟨Nat.le_trans (hr s hs) hlo, .inr ⟨s, hs, hlo, hhi⟩⟩

end Lox.Text
