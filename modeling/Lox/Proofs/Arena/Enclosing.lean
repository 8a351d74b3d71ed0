import Lox.Proofs.Arena.Capture

namespace Lox
set_option autoImplicit true

namespace Arena

/-- The environment `i` is `h` or one around it. -/
inductive Encloses (a : Arena) (i : Handle) : Handle → Prop where
  | refl : Encloses a i i
  | outer : a.get? h = some e → e.enclosing = some outer → Encloses a i outer → Encloses a i h

variable {a a' a'' : Arena} {W : Roles} {h i j : Handle} {e f : Environment}
  {zs : List (Zone Binding)} {Ss : List Scope}

def Captured (a : Arena) (i : Handle) : Prop := ∃ e, a.get? i = some e ∧ e.captured = true

/-- Every environment was there before, with the same link outward. -/
def Linked (a a' : Arena) : Prop :=
  ∀ i e', a'.get? i = some e' → ∃ e, a.get? i = some e ∧ e.enclosing = e'.enclosing

theorem Encloses.of_linked (hl : Linked a a') (h : Encloses a' i j) : Encloses a i j := by
  induction h with
  | refl => exact .refl
  | outer hg he _ ih =>
    obtain ⟨e, hg', he'⟩ := hl _ _ hg
    exact .outer hg' (he'.trans he) ih

theorem Encloses.keep (hk : ∀ b, Keeps b a a') (h : Encloses a i j) : Encloses a' i j := by
  induction h with
  | refl => exact .refl
  | outer hg he _ ih =>
    obtain ⟨f, hf, hgrows⟩ := hk _ _ _ hg (.inl (Nat.le_refl _))
    exact .outer hf (hgrows.enclosing.trans he) ih

theorem Kept.encloses (hk : Kept a j) (h : Encloses a i j) : Kept a i := by
  induction h with
  | refl => exact hk
  | outer hg he _ ih => exact ih (hk.enclosing hg he)

theorem Chain.encloses_globals (hc : Chain a W h zs Ss) : Encloses a Lox.globals h := by
  induction hc with
  | globals => exact .refl
  | link hg he _ _ _ _ ih => exact .outer hg he ih

theorem Outward.encloses (ho : Outward a h d i e) : Encloses a i h := by
  induction ho with
  | here => exact .refl
  | link hg he _ ih => exact .outer hg he ih

theorem linked_put (hg : a.get? h = some e) (he : f.enclosing = e.enclosing) :
    Linked a (a.put h f) := by
  intro i e' hi
  rw [get?_put] at hi
  split at hi
  · rename_i hhi
    cases hi
    exact ⟨e, hhi ▸ hg, he.symm⟩
  · exact ⟨e', hi, rfl⟩

theorem linked_captureUpTo (a : Arena) (n : Nat) (h : Handle) :
    Linked a (a.captureUpTo n h).1 := by
  intro i e' hi
  obtain ⟨c, hc⟩ := get?_captureUpTo a n h i
  obtain ⟨e, hg, rfl⟩ := Option.map_eq_some_iff.1 (hc.symm.trans hi)
  exact ⟨e, hg, rfl⟩

/-- Only environments around `h` are marked. -/
theorem captured_of_captureUpTo (hi : Captured (a.captureUpTo n h).1 i) :
    Captured a i ∨ Encloses a i h := by
  induction n generalizing a h with
  | zero => exact .inl hi
  | succ n ih =>
    cases hg : a.get? h with
    | none =>
      rw [captureUpTo_missing hg] at hi
      exact .inl hi
    | some e =>
      cases hc : e.captured with
      | true =>
        rw [captureUpTo_captured hg hc] at hi
        exact .inl hi
      | false =>
        have hput : Captured (a.put h (e.mark true)) i → Captured a i ∨ Encloses a i h := by
          rintro ⟨f, hf, hcf⟩
          rcases captured_of_put hf hcf with rfl | hold
          · exact .inr .refl
          · exact .inl hold
        rw [captureUpTo_step hg hc] at hi
        cases ho : e.enclosing with
        | none =>
          rw [ho] at hi
          exact hput hi
        | some outer =>
          rw [ho] at hi
          rcases ih hi with hi | hi
          · exact hput hi
          · exact .inr (.outer hg ho (hi.of_linked (linked_put (f := e.mark true) hg rfl)))

theorem Captured.keep (hi : Captured a i) (hk : Keeps b a a') : Captured a' i := by
  obtain ⟨e, hg, hc⟩ := hi
  obtain ⟨e', hg', hgrows⟩ := hk _ _ hg (.inr hc)
  exact ⟨e', hg', hgrows.captured hc⟩

/-- Capturing an environment marks it and those around it, and no others. -/
theorem Chain.captured_capture (hc : Chain a W h zs Ss) (hcl : Closed a) :
    Captured (a.capture h).1 i ↔ Captured a i ∨ Encloses a i h := by
  constructor
  · exact captured_of_captureUpTo
  · obtain ⟨_, hkept, _⟩ := hc.captureUpTo (fun i _ e => hcl i e)
      (Nat.lt_succ_of_lt hc.length_lt_size)
    have hkeeps := fun b => keeps_captureUpTo b a (a.size + 1) h
    rintro (hi | hi)
    · exact hi.keep (hkeeps h)
    · exact (hkept.encloses (hi.keep hkeeps)).captured

/-- Handles are not used again: an older environment that is there was there before, with the same
link outward. -/
structure Evolves (a a' : Arena) : Prop where
  next : a.next ≤ a'.next
  linked : ∀ i < a.next, ∀ e', a'.get? i = some e' →
    ∃ e, a.get? i = some e ∧ e.enclosing = e'.enclosing

theorem Evolves.refl (a : Arena) : Evolves a a := ⟨Nat.le_refl _, fun _ _ e he => ⟨e, he, rfl⟩⟩

theorem Evolves.trans (h : Evolves a a') (h' : Evolves a' a'') : Evolves a a'' := by
  refine ⟨Nat.le_trans h.next h'.next, fun i hi e'' he'' => ?_⟩
  obtain ⟨e', he', heq'⟩ := h'.linked i (Nat.lt_of_lt_of_le hi h.next) e'' he''
  obtain ⟨e, he, heq⟩ := h.linked i hi e' he'
  exact ⟨e, he, heq.trans heq'⟩

theorem Linked.evolves (h : Linked a a') (hn : a'.next = a.next) : Evolves a a' :=
  ⟨Nat.le_of_eq hn.symm, fun i _ e' => h i e'⟩

theorem evolves_new (a : Arena) (enclosing : Option Handle) (values : Bindings Value) :
    Evolves a (a.new enclosing values).2 := by
  refine ⟨Nat.le_succ _, fun i hi e' he' => ?_⟩
  rw [get?_new, if_neg (Nat.ne_of_gt hi)] at he'
  exact ⟨e', he', rfl⟩

theorem linked_drop (a : Arena) (h : Handle) : Linked a (a.drop h) := by
  intro i e' he'
  rw [get?_drop] at he'
  split at he'
  · cases he'
  · exact ⟨e', he', rfl⟩

end Arena

end Lox
