import Lox.Proofs.Arena.Enclosing
import Mathlib.Data.Finset.Card

namespace Lox
set_option autoImplicit true

namespace Arena

variable {a : Arena} {h i outer : Handle} {e : Environment}

def uncaptured (a : Arena) : Finset Handle :=
  a.records.keys.toFinset.filter fun h => (a.get? h).any (!·.captured)

theorem mem_uncaptured : i ∈ a.uncaptured ↔ ∃ e, a.get? i = some e ∧ e.captured = false := by
  rw [uncaptured, Finset.mem_filter, List.mem_toFinset, Std.TreeMap.mem_keys,
    Std.TreeMap.mem_iff_isSome_getElem?]
  change (a.get? i).isSome = true ∧ _ ↔ _
  cases a.get? i <;> simp

theorem card_uncaptured_le (a : Arena) : a.uncaptured.card ≤ a.size := by
  rw [size, ← Std.TreeMap.length_keys]
  exact (Finset.card_filter_le _ _).trans (List.toFinset_card_le _)

theorem uncaptured_put_mark (a : Arena) (h : Handle) (e : Environment) :
    (a.put h (e.mark true)).uncaptured = a.uncaptured.erase h := by
  ext i
  rw [Finset.mem_erase, mem_uncaptured, mem_uncaptured, get?_put]
  by_cases hi : h = i
  · simp [hi, Environment.mark]
  · simp [hi, Ne.symm hi]

theorem card_put_mark_lt (hg : a.get? h = some e) (hc : e.captured = false) :
    (a.put h (e.mark true)).uncaptured.card < a.uncaptured.card := by
  rw [uncaptured_put_mark]
  exact Finset.card_erase_lt_of_mem (mem_uncaptured.2 ⟨e, hg, hc⟩)

/-- A bound above the number of environments that are not captured is no bound. -/
theorem captureUpTo_eq (hn : a.uncaptured.card < n) (hm : a.uncaptured.card < m) :
    a.captureUpTo n h = a.captureUpTo m h := by
  induction n generalizing a m h with
  | zero => exact absurd hn (Nat.not_lt_zero _)
  | succ n ih =>
    obtain ⟨m, rfl⟩ := Nat.exists_eq_succ_of_ne_zero (Nat.ne_zero_of_lt hm)
    cases hg : a.get? h with
    | none => rw [captureUpTo_missing hg, captureUpTo_missing hg]
    | some e =>
      cases hc : e.captured with
      | true => rw [captureUpTo_captured hg hc, captureUpTo_captured hg hc]
      | false =>
        rw [captureUpTo_step hg hc, captureUpTo_step hg hc]
        cases e.enclosing with
        | none => rfl
        | some outer =>
          have hlt := card_put_mark_lt hg hc
          exact ih (by omega) (by omega)

theorem capture_missing (hg : a.get? h = none) : a.capture h = (a, some h) :=
  captureUpTo_missing hg _

theorem capture_captured (hg : a.get? h = some e) (hc : e.captured = true) :
    a.capture h = (a, none) :=
  captureUpTo_captured hg hc _

theorem capture_outermost (hg : a.get? h = some e) (hc : e.captured = false)
    (ho : e.enclosing = none) : a.capture h = (a.put h (e.mark true), none) := by
  rw [capture, captureUpTo_step hg hc, ho]

theorem capture_link (hg : a.get? h = some e) (hc : e.captured = false)
    (ho : e.enclosing = some outer) :
    a.capture h = (a.put h (e.mark true)).capture outer := by
  have hlt := card_put_mark_lt hg hc
  have hle := a.card_uncaptured_le
  have hle' := (a.put h (e.mark true)).card_uncaptured_le
  rw [capture, captureUpTo_step hg hc, ho]
  exact captureUpTo_eq (by omega) (by omega)

/-- Induction along the walk of a capture, on any arena. -/
theorem capture_induction {motive : Arena → Handle → Arena × Option Handle → Prop}
    (missing : ∀ {a h}, a.get? h = none → motive a h (a, some h))
    (captured : ∀ {a h e}, a.get? h = some e → e.captured = true → motive a h (a, none))
    (outermost : ∀ {a h e}, a.get? h = some e → e.captured = false → e.enclosing = none →
      motive a h (a.put h (e.mark true), none))
    (link : ∀ {a h e outer r}, a.get? h = some e → e.captured = false → e.enclosing = some outer →
      motive (a.put h (e.mark true)) outer r → motive a h r)
    (a : Arena) (h : Handle) : motive a h (a.capture h) := by
  -- on the number of environments that are not captured, since links may run in a circle
  induction hn : a.uncaptured.card using Nat.strong_induction_on generalizing a h with
  | _ n ih =>
    subst hn
    cases hg : a.get? h with
    | none =>
      rw [capture_missing hg]
      exact missing hg
    | some e =>
      cases hc : e.captured with
      | true =>
        rw [capture_captured hg hc]
        exact captured hg hc
      | false =>
        cases ho : e.enclosing with
        | none =>
          rw [capture_outermost hg hc ho]
          exact outermost hg hc ho
        | some outer =>
          rw [capture_link hg hc ho]
          exact link hg hc ho (ih _ (card_put_mark_lt hg hc) _ _ rfl)

end Arena

end Lox
