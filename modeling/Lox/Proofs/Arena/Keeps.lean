import Lox.Machine
import Lox.Proofs.Scope.Names

namespace Lox
set_option autoImplicit true

/-- An environment at a later time. -/
structure Environment.Grows (e e' : Environment) : Prop where
  enclosing : e'.enclosing = e.enclosing
  captured : e.captured = true → e'.captured = true
  values : ∀ x, e.values.contains x = true → e'.values.contains x = true

theorem Environment.Grows.refl (e : Environment) : e.Grows e := ⟨rfl, id, fun _ => id⟩

theorem Environment.Grows.trans (h : Environment.Grows e e') (h' : Environment.Grows e' e'') :
    e.Grows e'' :=
  ⟨h'.enclosing.trans h.enclosing, h'.captured ∘ h.captured, fun x => h'.values x ∘ h.values x⟩

theorem Environment.grows_set (e : Environment) (name : String) (v : Value) :
    e.Grows { e with values := e.values.set name v } :=
  ⟨rfl, id, fun x hx => by simp [hx]⟩

/-- The environments up to a handle, and those that are captured, are still there later. -/
def Arena.Keeps (b : Handle) (a a' : Arena) : Prop :=
  ∀ h e, a.get? h = some e → h ≤ b ∨ e.captured = true → ∃ e', a'.get? h = some e' ∧ e.Grows e'

namespace Arena

variable {a a' a'' : Arena} {b b' i : Handle} {e e' : Environment}

theorem Keeps.refl (b : Handle) (a : Arena) : Keeps b a a := fun _ e he _ => ⟨e, he, .refl e⟩

theorem Keeps.trans (h : Keeps b a a') (h' : Keeps b a' a'') : Keeps b a a'' := by
  intro i e hi hb
  obtain ⟨e', he', hg⟩ := h i e hi hb
  obtain ⟨e'', he'', hg'⟩ := h' i e' he' (hb.imp_right hg.captured)
  exact ⟨e'', he'', hg.trans hg'⟩

theorem Keeps.mono (h : Keeps b a a') (hb : b' ≤ b) : Keeps b' a a' :=
  fun i e hi hc => h i e hi (hc.imp_left fun hi => Nat.le_trans hi hb)

def Below (a : Arena) : Prop := ∀ h e, a.get? h = some e → h < a.next

theorem Below.get?_next (h : Below a) : a.get? a.next = none := by
  cases he : a.get? a.next with
  | none => rfl
  | some e => exact (Nat.lt_irrefl _ (h _ e he)).elim

theorem Below.new (h : Below a) (enclosing : Option Handle) (values : Bindings Value) :
    Below (a.new enclosing values).2 := by
  intro i e hi
  rw [get?_new] at hi
  split at hi
  · rename_i hn
    exact hn ▸ Nat.lt_succ_self _
  · exact Nat.lt_succ_of_lt (h i e hi)

theorem Below.put (h : Below a) (hi : a.get? i = some e) (e' : Environment) :
    Below (a.put i e') := by
  intro j f hj
  rw [get?_put] at hj
  split at hj
  · rename_i hij
    exact hij ▸ h i e hi
  · exact h j f hj

theorem keeps_new (h : Below a) (b : Handle) (enclosing : Option Handle)
    (values : Bindings Value) : Keeps b a (a.new enclosing values).2 := by
  intro i e hi _
  have hne : a.next ≠ i := Nat.ne_of_gt (h i e hi)
  exact ⟨e, by rw [get?_new, if_neg hne, hi], .refl e⟩

theorem keeps_put (b : Handle) (hi : a.get? i = some e) (hg : e.Grows e') :
    Keeps b a (a.put i e') := by
  intro j f hj _
  by_cases hij : i = j
  · subst hij
    cases hi.symm.trans hj
    exact ⟨e', by rw [get?_put, if_pos rfl], hg⟩
  · exact ⟨f, by rw [get?_put, if_neg hij, hj], .refl f⟩

def drop (a : Arena) (h : Handle) : Arena := { a with records := a.records.erase h }

theorem get?_drop (a : Arena) (h i : Handle) :
    (a.drop h).get? i = if h = i then none else a.get? i := by
  simp [get?, drop, Std.TreeMap.getElem?_erase]

theorem find_eq_ok (hi : a.get? i = some e) : a.find i = .ok e := by
  rw [find, hi]

theorem define_eq_ok (hi : a.get? i = some e) (name : String) (v : Value) :
    a.define i name v = .ok (a.put i { e with values := e.values.set name v }) := by
  rw [define, find_eq_ok hi]
  rfl

theorem release_eq_ok (hi : a.get? i = some e) :
    a.release i = .ok (if e.captured then a else a.drop i) := by
  rw [release, find_eq_ok hi]
  rfl

theorem Below.drop (h : Below a) (i : Handle) : Below (a.drop i) := by
  intro j e hj
  rw [get?_drop] at hj
  split at hj
  · cases hj
  · exact h j e hj

theorem keeps_release (hi : a.get? i = some e) (hb : b < i) :
    Keeps b a (if e.captured then a else a.drop i) := by
  split
  · exact .refl b a
  · rename_i hc
    intro j f hj hk
    have hij : i ≠ j := by
      rintro rfl
      cases hi.symm.trans hj
      rcases hk with hk | hk
      · exact Nat.not_lt_of_le hk hb
      · exact hc hk
    exact ⟨f, by rw [get?_drop, if_neg hij, hj], .refl f⟩

end Arena

end Lox
