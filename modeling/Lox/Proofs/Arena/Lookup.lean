import Lox.Proofs.Arena.Keeps
import Mathlib.Data.Finset.Card
import Std.Data.TreeMap.Lemmas

namespace Lox
set_option autoImplicit true

namespace Arena

/-- The environment `e` at `i` is `d` links outward from `h`, and all on the way are there. -/
inductive Outward (a : Arena) : Handle → Nat → Handle → Environment → Prop where
  | here : a.get? h = some e → Outward a h 0 h e
  | link : a.get? h = some e → e.enclosing = some outer → Outward a outer d i f →
      Outward a h (d + 1) i f

variable {a : Arena} {h i outer : Handle} {e f : Environment} {x : String} {v : Value} {d : Nat}

theorem Outward.get? (ho : Outward a h d i e) : a.get? i = some e := by
  induction ho with
  | here hg => exact hg
  | link _ _ _ ih => exact ih

theorem ancestor_zero (hg : a.get? h = some e) : a.ancestor h 0 = .ok (h, e) := by
  rw [ancestor, find_eq_ok hg]
  rfl

theorem ancestor_link (hg : a.get? h = some e) (he : e.enclosing = some outer) (d : Nat) :
    a.ancestor h (d + 1) = a.ancestor outer d := by
  rw [ancestor, find_eq_ok hg]
  simp only [bind, Except.bind, he]

theorem ancestor_outermost (hg : a.get? h = some e) (he : e.enclosing = none) (d : Nat) :
    a.ancestor h (d + 1) = .error (.missing none) := by
  rw [ancestor, find_eq_ok hg]
  simp only [bind, Except.bind, he]

theorem ancestor_missing (hg : a.get? h = none) (d : Nat) :
    a.ancestor h d = .error (.missing (some h)) := by
  cases d <;> simp [ancestor, find, hg, bind, Except.bind]

theorem Outward.ancestor (ho : Outward a h d i e) : a.ancestor h d = .ok (i, e) := by
  induction ho with
  | here hg => exact ancestor_zero hg
  | link hg he _ ih => exact (ancestor_link hg he _).trans ih

theorem outward_of_ancestor (h : a.ancestor i d = .ok (j, e)) : Outward a i d j e := by
  induction d generalizing i with
  | zero =>
    cases hg : a.get? i with
    | none => rw [ancestor_missing hg] at h; cases h
    | some f =>
      rw [ancestor_zero hg] at h
      cases h
      exact .here hg
  | succ d ih =>
    cases hg : a.get? i with
    | none => rw [ancestor_missing hg] at h; cases h
    | some f =>
      cases ho : f.enclosing with
      | none => rw [ancestor_outermost hg ho] at h; cases h
      | some outer =>
        rw [ancestor_link hg ho] at h
        exact .link hg ho (ih h)

/-- Every link points to a smaller handle. -/
def Descends (a : Arena) : Prop :=
  ∀ h e outer, a.get? h = some e → e.enclosing = some outer → outer < h

/-- The environments that are there, up to a handle. -/
def upTo (a : Arena) (h : Handle) : Finset Handle := a.records.keys.toFinset.filter (· ≤ h)

theorem mem_upTo : i ∈ a.upTo h ↔ (∃ e, a.get? i = some e) ∧ i ≤ h := by
  rw [upTo, Finset.mem_filter, List.mem_toFinset, Std.TreeMap.mem_keys,
    Std.TreeMap.mem_iff_isSome_getElem?, Option.isSome_iff_exists]
  rfl

theorem card_upTo_le (a : Arena) (h : Handle) : (a.upTo h).card ≤ a.size := by
  rw [size, ← Std.TreeMap.length_keys]
  exact (Finset.card_filter_le _ _).trans (List.toFinset_card_le _)

theorem card_upTo_lt (hg : a.get? h = some e) (hlt : outer < h) :
    (a.upTo outer).card < (a.upTo h).card := by
  refine Finset.card_lt_card (Finset.ssubset_iff_of_subset (fun i hi => ?_) |>.2 ⟨h, ?_, fun hh => ?_⟩)
  · obtain ⟨hlive, hle⟩ := mem_upTo.1 hi
    exact mem_upTo.2 ⟨hlive, hle.trans hlt.le⟩
  · exact mem_upTo.2 ⟨⟨e, hg⟩, le_rfl⟩
  · exact absurd (mem_upTo.1 hh).2 (Nat.not_le_of_lt hlt)

theorem nearestUpTo_missing (hg : a.get? h = none) (x : String) (n : Nat) :
    a.nearestUpTo x (n + 1) h = .error (.missing (some h)) := by
  simp [nearestUpTo, find, hg, bind, Except.bind]

theorem nearestUpTo_found (hg : a.get? h = some e) (hv : e.values.get? x = some v) (n : Nat) :
    a.nearestUpTo x (n + 1) h = .ok (h, e, v) := by
  rw [nearestUpTo, find_eq_ok hg]
  simp only [bind, Except.bind, hv]
  rfl

theorem nearestUpTo_outermost (hg : a.get? h = some e) (hv : e.values.get? x = none)
    (ho : e.enclosing = none) (n : Nat) : a.nearestUpTo x (n + 1) h = .error (.undefined x) := by
  rw [nearestUpTo, find_eq_ok hg]
  simp only [bind, Except.bind, hv, ho]

theorem nearestUpTo_link (hg : a.get? h = some e) (hv : e.values.get? x = none)
    (ho : e.enclosing = some outer) (n : Nat) :
    a.nearestUpTo x (n + 1) h = a.nearestUpTo x n outer := by
  rw [nearestUpTo, find_eq_ok hg]
  simp only [bind, Except.bind, hv, ho]

/-- A bound above the number of environments up to the first one is no bound. -/
theorem nearestUpTo_eq (ha : a.Descends) (hn : (a.upTo h).card < n) (hm : (a.upTo h).card < m) :
    a.nearestUpTo x n h = a.nearestUpTo x m h := by
  induction n generalizing m h with
  | zero => exact absurd hn (Nat.not_lt_zero _)
  | succ n ih =>
    obtain ⟨m, rfl⟩ := Nat.exists_eq_succ_of_ne_zero (Nat.ne_zero_of_lt hm)
    cases hg : a.get? h with
    | none => rw [nearestUpTo_missing hg, nearestUpTo_missing hg]
    | some e =>
      cases hv : e.values.get? x with
      | some v => rw [nearestUpTo_found hg hv, nearestUpTo_found hg hv]
      | none =>
        cases ho : e.enclosing with
        | none => rw [nearestUpTo_outermost hg hv ho, nearestUpTo_outermost hg hv ho]
        | some outer =>
          have hlt := card_upTo_lt hg (ha h e outer hg ho)
          rw [nearestUpTo_link hg hv ho, nearestUpTo_link hg hv ho]
          exact ih (by omega) (by omega)

theorem nearest_missing (hg : a.get? h = none) (x : String) :
    a.nearest h x = .error (.missing (some h)) :=
  nearestUpTo_missing hg x _

theorem nearest_found (hg : a.get? h = some e) (hv : e.values.get? x = some v) :
    a.nearest h x = .ok (h, e, v) :=
  nearestUpTo_found hg hv _

theorem nearest_outermost (hg : a.get? h = some e) (hv : e.values.get? x = none)
    (ho : e.enclosing = none) : a.nearest h x = .error (.undefined x) :=
  nearestUpTo_outermost hg hv ho _

theorem nearest_link (ha : a.Descends) (hg : a.get? h = some e) (hv : e.values.get? x = none)
    (ho : e.enclosing = some outer) : a.nearest h x = a.nearest outer x := by
  have hlt := card_upTo_lt hg (ha h e outer hg ho)
  have hle := a.card_upTo_le h
  rw [nearest, nearestUpTo_link hg hv ho]
  exact nearestUpTo_eq ha (by omega) (by omega)

/-- Induction along the walk for a name. -/
theorem nearest_induction (ha : a.Descends) (x : String)
    {motive : Handle → Except ArenaFault (Handle × Environment × Value) → Prop}
    (missing : ∀ {h}, a.get? h = none → motive h (.error (.missing (some h))))
    (found : ∀ {h e v}, a.get? h = some e → e.values.get? x = some v → motive h (.ok (h, e, v)))
    (outermost : ∀ {h e}, a.get? h = some e → e.values.get? x = none → e.enclosing = none →
      motive h (.error (.undefined x)))
    (link : ∀ {h e outer}, a.get? h = some e → e.values.get? x = none → e.enclosing = some outer →
      motive outer (a.nearest outer x) → motive h (a.nearest outer x))
    (h : Handle) : motive h (a.nearest h x) := by
  induction h using Nat.strong_induction_on with
  | _ h ih =>
    cases hg : a.get? h with
    | none =>
      rw [nearest_missing hg]
      exact missing hg
    | some e =>
      cases hv : e.values.get? x with
      | some v =>
        rw [nearest_found hg hv]
        exact found hg hv
      | none =>
        cases ho : e.enclosing with
        | none =>
          rw [nearest_outermost hg hv ho]
          exact outermost hg hv ho
        | some outer =>
          rw [nearest_link ha hg hv ho]
          exact link hg hv ho (ih outer (ha h e outer hg ho))

/-- The environment `e` at `i`, `d` links outward from `h`, is the first one that binds the name. -/
structure IsNearest (a : Arena) (x : String) (h : Handle) (d : Nat) (i : Handle)
    (e : Environment) : Prop where
  outward : Outward a h d i e
  binds : e.values.contains x = true
  first : ∀ d' < d, ∀ i' e', Outward a h d' i' e' → e'.values.contains x = false

/-- No environment from `h` outward binds the name. -/
def Lacks (a : Arena) (x : String) (h : Handle) : Prop :=
  ∀ d i e, Outward a h d i e → e.values.contains x = false

/-- All environments from `h` up to an outermost one are there. -/
def Whole (a : Arena) (h : Handle) : Prop := ∃ d i e, Outward a h d i e ∧ e.enclosing = none

/-- The environment at `i` is the first one from `h` outward that is not there. -/
def BreaksAt (a : Arena) (h i : Handle) : Prop :=
  a.get? i = none ∧ (i = h ∨ ∃ d j e, Outward a h d j e ∧ e.enclosing = some i)

theorem contains_eq_false_iff {b : Bindings Value} : b.contains x = false ↔ b.get? x = none := by
  rw [Bindings.contains, Option.isSome_eq_false_iff, Option.isNone_iff_eq_none]

theorem nearest_of_outward (ha : a.Descends) (ho : Outward a h d i e)
    (hfirst : ∀ d' < d, ∀ i' e', Outward a h d' i' e' → e'.values.contains x = false) :
    a.nearest h x = a.nearest i x := by
  induction ho with
  | here => rfl
  | link hg he _ ih =>
    have hv := contains_eq_false_iff.1 (hfirst 0 (Nat.zero_lt_succ _) _ _ (.here hg))
    rw [nearest_link ha hg hv he]
    exact ih fun d' hd i' e' ho => hfirst (d' + 1) (Nat.succ_lt_succ hd) i' e' (.link hg he ho)

theorem IsNearest.nearest (hn : IsNearest a x h d i e) (ha : a.Descends) :
    ∃ v, e.values.get? x = some v ∧ a.nearest h x = .ok (i, e, v) := by
  obtain ⟨v, hv⟩ := Option.isSome_iff_exists.1 hn.binds
  refine ⟨v, hv, ?_⟩
  rw [nearest_of_outward ha hn.outward hn.first]
  exact nearest_found hn.outward.get? hv

theorem nearest_of_whole (ha : a.Descends) (hw : a.Whole h) (hl : a.Lacks x h) :
    a.nearest h x = .error (.undefined x) := by
  obtain ⟨d, i, e, ho, he⟩ := hw
  rw [nearest_of_outward ha ho fun d' _ i' e' => hl d' i' e']
  exact nearest_outermost ho.get? (contains_eq_false_iff.1 (hl d i e ho)) he

theorem nearest_of_breaksAt (ha : a.Descends) (hb : a.BreaksAt h i) (hl : a.Lacks x h) :
    a.nearest h x = .error (.missing (some i)) := by
  obtain ⟨hi, rfl | ⟨d, j, e, ho, he⟩⟩ := hb
  · exact nearest_missing hi x
  · rw [nearest_of_outward ha ho fun d' _ i' e' => hl d' i' e',
      nearest_link ha ho.get? (contains_eq_false_iff.1 (hl d j e ho)) he]
    exact nearest_missing hi x

theorem lacks_of_missing (hg : a.get? h = none) : a.Lacks x h := by
  intro d i e ho
  cases ho with
  | here hg' => cases hg.symm.trans hg'
  | link hg' => cases hg.symm.trans hg'

theorem lacks_link (hg : a.get? h = some e) (hv : e.values.get? x = none)
    (hout : ∀ outer, e.enclosing = some outer → a.Lacks x outer) : a.Lacks x h := by
  intro d i f ho
  cases ho with
  | here hg' =>
    cases hg.symm.trans hg'
    exact contains_eq_false_iff.2 hv
  | link hg' he ho =>
    cases hg.symm.trans hg'
    exact hout _ he _ _ _ ho

theorem isNearest_here (hg : a.get? h = some e) (hv : e.values.get? x = some v) :
    IsNearest a x h 0 h e :=
  ⟨.here hg, by rw [Bindings.contains, hv, Option.isSome_some],
    fun d' hd => absurd hd (Nat.not_lt_zero d')⟩

theorem IsNearest.link (hn : IsNearest a x outer d i f) (hg : a.get? h = some e)
    (hv : e.values.get? x = none) (he : e.enclosing = some outer) :
    IsNearest a x h (d + 1) i f := by
  refine ⟨.link hg he hn.outward, hn.binds, fun d' hd i' e' ho => ?_⟩
  cases ho with
  | here hg' =>
    cases hg.symm.trans hg'
    exact contains_eq_false_iff.2 hv
  | link hg' he' ho =>
    cases hg.symm.trans hg'
    cases he.symm.trans he'
    exact hn.first _ (Nat.lt_of_succ_lt_succ hd) _ _ ho

/-- How the walk for a name ends. -/
inductive Walk (a : Arena) (x : String) (h : Handle) :
    Except ArenaFault (Handle × Environment × Value) → Prop where
  | found {d : Nat} {i : Handle} {e : Environment} {v : Value} : IsNearest a x h d i e →
      e.values.get? x = some v → Walk a x h (.ok (i, e, v))
  | undefined : a.Whole h → a.Lacks x h → Walk a x h (.error (.undefined x))
  | broken {i : Handle} : a.BreaksAt h i → a.Lacks x h → Walk a x h (.error (.missing (some i)))

theorem walk_nearest (ha : a.Descends) (x : String) (h : Handle) : Walk a x h (a.nearest h x) := by
  induction h using nearest_induction ha x with
  | missing hg => exact .broken ⟨hg, .inl rfl⟩ (lacks_of_missing hg)
  | found hg hv => exact .found (isNearest_here hg hv) hv
  | outermost hg hv ho =>
    refine .undefined ⟨0, _, _, .here hg, ho⟩ (lacks_link hg hv fun outer he => ?_)
    cases ho.symm.trans he
  | @link h e outer hg hv he ih =>
    have hlacks : a.Lacks x outer → a.Lacks x h := fun hl =>
      lacks_link hg hv fun outer' he' => by cases he.symm.trans he'; exact hl
    generalize a.nearest outer x = r at ih
    cases ih with
    | found hn hv' => exact .found (hn.link hg hv he) hv'
    | undefined hw hl =>
      obtain ⟨d, i, f, ho, hf⟩ := hw
      exact .undefined ⟨d + 1, i, f, .link hg he ho, hf⟩ (hlacks hl)
    | broken hb hl =>
      obtain ⟨hi, rfl | ⟨d, j, f, ho, hf⟩⟩ := hb
      · exact .broken ⟨hi, .inr ⟨0, _, _, .here hg, he⟩⟩ (hlacks hl)
      · exact .broken ⟨hi, .inr ⟨d + 1, j, f, .link hg he ho, hf⟩⟩ (hlacks hl)

abbrev rebind (a : Arena) (i : Handle) (e : Environment) (x : String) (v : Value) : Arena :=
  a.put i { e with values := e.values.set x v }

theorem get_of_nearest (hn : a.nearest h x = .ok (i, e, v)) : a.get h x = .ok v := by
  rw [get, hn]
  rfl

theorem get_of_error (hn : a.nearest h x = .error fault) : a.get h x = .error fault := by
  rw [get, hn]
  rfl

theorem assign_of_nearest (hn : a.nearest h x = .ok (i, e, w)) (v : Value) :
    a.assign h x v = .ok (a.rebind i e x v) := by
  rw [assign, hn]
  rfl

theorem assign_of_error (hn : a.nearest h x = .error fault) (v : Value) :
    a.assign h x v = .error fault := by
  rw [assign, hn]
  rfl

theorem Outward.getAt (ho : Outward a h d i e) (hv : e.values.get? x = some v) :
    a.getAt h d x = .ok v := by
  rw [Arena.getAt, ho.ancestor]
  simp only [bind, Except.bind, hv]
  rfl

theorem Outward.assignAt (ho : Outward a h d i e) (x : String) (v : Value) :
    a.assignAt h d x v = .ok (a.rebind i e x v) := by
  rw [Arena.assignAt, ho.ancestor]
  rfl

end Arena

end Lox
