import Lox.Proofs.Arena.Chain

namespace Lox
set_option autoImplicit true

/-- An environment that is captured now if `c` says so. -/
def Environment.mark (e : Environment) (c : Bool) : Environment :=
  { e with captured := e.captured || c }

theorem Environment.mark_mark (e : Environment) (c d : Bool) :
    (e.mark c).mark d = e.mark (c || d) := by
  simp only [mark, Bool.or_assoc]

@[simp] theorem Environment.map_mark_false (o : Option Environment) :
    o.map (Environment.mark · false) = o := by
  cases o <;> simp [mark]

theorem Environment.grows_mark (e : Environment) (c : Bool) : e.Grows (e.mark c) :=
  ⟨rfl, fun h => by simp [mark, h], fun _ => id⟩

namespace Arena

variable {a : Arena} {W : Roles} {h i n outer : Handle} {e f : Environment}
  {zs : List (Zone Binding)} {Ss : List Scope}

/-- A captured environment has captured environments around it. -/
def Closed (a : Arena) : Prop := ∀ h e, a.get? h = some e → e.captured = true → a.Kept h

theorem captureUpTo_step (hg : a.get? h = some e) (hc : e.captured = false) (n : Nat) :
    a.captureUpTo (n + 1) h =
      match e.enclosing with
      | none => (a.put h (e.mark true), none)
      | some outer => (a.put h (e.mark true)).captureUpTo n outer := by
  cases he : e.enclosing with
  | none => simp [captureUpTo, hg, hc, he, Environment.mark]
  | some outer => simp [captureUpTo, hg, hc, he, Environment.mark]

theorem captureUpTo_captured (hg : a.get? h = some e) (hc : e.captured = true) (n : Nat) :
    a.captureUpTo (n + 1) h = (a, none) := by
  simp only [captureUpTo, hg, hc, ↓reduceIte]

theorem captureUpTo_missing (hg : a.get? h = none) (n : Nat) :
    a.captureUpTo (n + 1) h = (a, some h) := by
  simp only [captureUpTo, hg]

@[simp] theorem next_put (a : Arena) (h : Handle) (e : Environment) :
    (a.put h e).next = a.next := rfl

theorem next_captureUpTo (a : Arena) (n : Nat) (h : Handle) :
    (a.captureUpTo n h).1.next = a.next := by
  induction n generalizing a h with
  | zero => rfl
  | succ n ih =>
    cases hg : a.get? h with
    | none => rw [captureUpTo_missing hg]
    | some e =>
      cases hc : e.captured with
      | true => rw [captureUpTo_captured hg hc]
      | false =>
        rw [captureUpTo_step hg hc]
        cases e.enclosing with
        | none => rfl
        | some outer => exact ih _ _

theorem get?_put_mark (hg : a.get? h = some e) (c : Bool) (i : Handle) :
    ∃ d, (a.put h (e.mark c)).get? i = (a.get? i).map (·.mark d) := by
  by_cases hi : h = i
  · subst hi
    exact ⟨c, by rw [get?_put, if_pos rfl, hg, Option.map_some]⟩
  · exact ⟨false, by rw [get?_put, if_neg hi, Environment.map_mark_false]⟩

/-- Capturing changes marks only. -/
theorem get?_captureUpTo (a : Arena) (n : Nat) (h i : Handle) :
    ∃ c, (a.captureUpTo n h).1.get? i = (a.get? i).map (·.mark c) := by
  induction n generalizing a h with
  | zero => exact ⟨false, (Environment.map_mark_false _).symm⟩
  | succ n ih =>
    cases hg : a.get? h with
    | none => rw [captureUpTo_missing hg]; exact ⟨false, (Environment.map_mark_false _).symm⟩
    | some e =>
      cases hc : e.captured with
      | true =>
        rw [captureUpTo_captured hg hc]
        exact ⟨false, (Environment.map_mark_false _).symm⟩
      | false =>
        rw [captureUpTo_step hg hc]
        obtain ⟨d, hd⟩ := get?_put_mark hg true i
        cases e.enclosing with
        | none => exact ⟨d, hd⟩
        | some outer =>
          obtain ⟨c, hc⟩ := ih (a.put h (e.mark true)) outer
          refine ⟨d || c, hc.trans ?_⟩
          rw [hd]
          cases a.get? i <;> simp [Environment.mark_mark]

theorem keeps_captureUpTo (b : Handle) (a : Arena) (n : Nat) (h : Handle) :
    Keeps b a (a.captureUpTo n h).1 := by
  intro i e hi _
  obtain ⟨c, hc⟩ := get?_captureUpTo a n h i
  exact ⟨e.mark c, by rw [hc, hi, Option.map_some], e.grows_mark c⟩

theorem captured_of_put (hi : (a.put h e).get? i = some f) (hf : f.captured = true) :
    i = h ∨ ∃ f₀, a.get? i = some f₀ ∧ f₀.captured = true := by
  rw [get?_put] at hi
  split at hi
  · rename_i heq
    exact .inl heq.symm
  · exact .inr ⟨f, hi, hf⟩

theorem kept_put_mark (hg : a.get? h = some e) (hlt : outer < h)
    (hcl : ∀ i ≤ h, ∀ e, a.get? i = some e → e.captured = true → a.Kept i) :
    ∀ i ≤ outer, ∀ f, (a.put h (e.mark true)).get? i = some f → f.captured = true →
      (a.put h (e.mark true)).Kept i := by
  intro i hi f hf hcf
  have hih : i < h := Nat.lt_of_le_of_lt hi hlt
  rw [get?_put, if_neg (Nat.ne_of_gt hih)] at hf
  exact (hcl i (Nat.le_of_lt hih) f hf hcf).keep (keeps_put h hg (e.grows_mark true))

/-- Along a chain capturing succeeds, and every new mark is on an environment that is kept. -/
theorem Chain.captureUpTo (hc : Chain a W h zs Ss)
    (hcl : ∀ i ≤ h, ∀ e, a.get? i = some e → e.captured = true → a.Kept i) (hn : zs.length < n) :
    (a.captureUpTo n h).2 = none ∧ (a.captureUpTo n h).1.Kept h ∧
      ∀ i e, (a.captureUpTo n h).1.get? i = some e → e.captured = true →
        (∃ e₀, a.get? i = some e₀ ∧ e₀.captured = true) ∨ (a.captureUpTo n h).1.Kept i := by
  induction zs generalizing a h Ss n with
  | nil =>
    obtain ⟨n, rfl⟩ := Nat.exists_eq_succ_of_ne_zero (Nat.ne_zero_of_lt hn)
    cases hc with
    | @globals e hg he =>
      cases hcap : e.captured with
      | true =>
        rw [captureUpTo_captured hg hcap]
        exact ⟨rfl, hcl _ (Nat.le_refl _) e hg hcap, fun i e hi hci => .inl ⟨e, hi, hci⟩⟩
      | false =>
        rw [captureUpTo_step hg hcap, he]
        have hk : (a.put Lox.globals (e.mark true)).Kept Lox.globals :=
          .globals (e := e.mark true) (by rw [get?_put, if_pos rfl]) he (by simp [Environment.mark])
        refine ⟨rfl, hk, fun i f hi hci => ?_⟩
        rcases captured_of_put hi hci with rfl | hold
        · exact .inr hk
        · exact .inl hold
  | cons z zs ih =>
    obtain ⟨n, rfl⟩ := Nat.exists_eq_succ_of_ne_zero (Nat.ne_zero_of_lt hn)
    cases hc with
    | @link _ outer e _ S _ Ss hg he hlt hz hS hout =>
      cases hcap : e.captured with
      | true =>
        rw [captureUpTo_captured hg hcap]
        exact ⟨rfl, hcl _ (Nat.le_refl _) e hg hcap, fun i e hi hci => .inl ⟨e, hi, hci⟩⟩
      | false =>
        rw [captureUpTo_step hg hcap, he]
        -- below `h` nothing has changed yet, so the rest of the chain is as before
        have hkeep : Keeps h a (a.put h (e.mark true)) := keeps_put h hg (e.grows_mark true)
        have hout' := hout.keep hkeep (.refl W) (Nat.le_of_lt hlt)
        obtain ⟨hnone, hk, hnew⟩ := ih hout' (kept_put_mark hg hlt hcl) (by simpa using hn)
        obtain ⟨c, hget⟩ := get?_captureUpTo (a.put h (e.mark true)) n outer h
        rw [get?_put, if_pos rfl, Option.map_some, e.mark_mark] at hget
        have hkh : ((a.put h (e.mark true)).captureUpTo n outer).1.Kept h :=
          .link hget he (by simp [Environment.mark]) hk
        refine ⟨hnone, hkh, fun i f hi hci => ?_⟩
        rcases hnew i f hi hci with ⟨f₀, hf₀, hc₀⟩ | hki
        · rcases captured_of_put hf₀ hc₀ with rfl | hold
          · exact .inr hkh
          · exact .inl hold
        · exact .inr hki

end Arena

end Lox
