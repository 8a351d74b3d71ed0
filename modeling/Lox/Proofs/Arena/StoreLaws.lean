import Lox.Proofs.Arena.Operations

namespace Lox
set_option autoImplicit true

namespace Arena

def binding? (a : Arena) (i : Handle) (x : String) : Option Value :=
  (a.get? i).bind (·.values.get? x)

/-- The second arena is the first one with one binding changed to a value. -/
structure Rebinds (a a' : Arena) (i : Handle) (x : String) (v : Value) : Prop where
  next : a'.next = a.next
  links : ∀ j, (a'.get? j).map (fun e => (e.enclosing, e.captured)) =
    (a.get? j).map fun e => (e.enclosing, e.captured)
  value : a'.binding? i x = some v
  others : ∀ j y, ¬(j = i ∧ y = x) → a'.binding? j y = a.binding? j y

variable {a a' : Arena} {h i home : Handle} {e f : Environment} {x y : String} {v w : Value}
  {d : Nat} {fault : ArenaFault}

theorem rebinds_rebind (hg : a.get? i = some e) (x : String) (v : Value) :
    Rebinds a (a.rebind i e x v) i x v := by
  refine ⟨rfl, fun j => ?_, ?_, fun j y hjy => ?_⟩
  · rw [get?_put]
    split
    · rename_i hij
      rw [← hij, hg]
      rfl
    · rfl
  · simp [binding?]
  · rw [binding?, binding?, get?_put]
    split
    · rename_i hij
      subst hij
      have hxy : x ≠ y := fun hxy => hjy ⟨rfl, hxy.symm⟩
      simp [hg, hxy]
    · rfl

theorem descends_rebind (ha : a.Descends) (hg : a.get? i = some e) :
    (a.rebind i e x v).Descends := by
  intro j f outer hf ho
  obtain ⟨f₀, hf₀, hlink⟩ := linked_put (f := { e with values := e.values.set x v }) hg rfl j f hf
  exact ha j f₀ outer hf₀ (hlink.trans ho)

theorem get?_rebind (hg : a.get? home = some e) (hx : e.values.get? x = some w)
    (hf : a.get? h = some f) :
    ∃ f', (a.rebind home e x v).get? h = some f' ∧ f'.enclosing = f.enclosing ∧
      ∀ y, f'.values.get? y = (f.values.get? y).map fun u => if h = home ∧ y = x then v else u := by
  by_cases hh : home = h
  · subst hh
    cases hg.symm.trans hf
    refine ⟨{ e with values := e.values.set x v }, by rw [get?_put, if_pos rfl], rfl, fun y => ?_⟩
    by_cases hxy : x = y
    · subst hxy
      simp [hx]
    · simp [hxy, Ne.symm hxy]
  · refine ⟨f, by rw [get?_put, if_neg hh, hf], rfl, fun y => ?_⟩
    simp [Ne.symm hh]

theorem nearest_rebind (ha : a.Descends) (hg : a.get? home = some e)
    (hx : e.values.get? x = some w) (v : Value) (y : String) (h : Handle) :
    (∀ fault, a.nearest h y = .error fault → (a.rebind home e x v).nearest h y = .error fault) ∧
    ∀ i f u, a.nearest h y = .ok (i, f, u) → ∃ f',
      (a.rebind home e x v).nearest h y = .ok (i, f', if i = home ∧ y = x then v else u) := by
  induction h using nearest_induction ha y with
  | @missing h hm =>
    have hne : home ≠ h := by
      rintro rfl
      cases hg.symm.trans hm
    have hm' : (a.rebind home e x v).get? h = none := by rw [get?_put, if_neg hne, hm]
    refine ⟨fun fault hr => ?_, fun i f u hr => ?_⟩
    · cases hr
      exact nearest_missing hm' y
    · cases hr
  | found hm hv =>
    obtain ⟨f', hm', _, hvalues⟩ := get?_rebind hg hx hm (v := v)
    refine ⟨fun fault hr => ?_, fun i f u hr => ?_⟩
    · cases hr
    · cases hr
      exact ⟨f', nearest_found hm' (by rw [hvalues, hv, Option.map_some])⟩
  | outermost hm hv ho =>
    obtain ⟨f', hm', ho', hvalues⟩ := get?_rebind hg hx hm (v := v)
    refine ⟨fun fault hr => ?_, fun i f u hr => ?_⟩
    · cases hr
      exact nearest_outermost hm' (by rw [hvalues, hv, Option.map_none]) (ho'.trans ho)
    · cases hr
  | link hm hv ho ih =>
    obtain ⟨f', hm', ho', hvalues⟩ := get?_rebind hg hx hm (v := v)
    rw [nearest_link (descends_rebind ha hg) hm' (by rw [hvalues, hv, Option.map_none])
      (ho'.trans ho)]
    exact ih

theorem get_rebind (ha : a.Descends) (hg : a.get? home = some e) (hx : e.values.get? x = some w)
    (v : Value) (h : Handle) (y : String) :
    ((y = x ∧ ∃ d f, IsNearest a x h d home f) → (a.rebind home e x v).get h y = .ok v) ∧
    (¬(y = x ∧ ∃ d f, IsNearest a x h d home f) →
      (a.rebind home e x v).get h y = a.get h y) := by
  obtain ⟨herror, hok⟩ := nearest_rebind ha hg hx v y h
  constructor
  · rintro ⟨rfl, d, f, hnear⟩
    obtain ⟨u, _, hn⟩ := hnear.nearest ha
    obtain ⟨f', hn'⟩ := hok home f u hn
    rw [if_pos ⟨rfl, rfl⟩] at hn'
    exact get_of_nearest hn'
  · intro hother
    have hw := walk_nearest ha y h
    generalize hn : a.nearest h y = r at hw
    cases hw with
    | @found d i f u hnear hv =>
      have hne : ¬(i = home ∧ y = x) := by
        rintro ⟨rfl, rfl⟩
        exact hother ⟨rfl, d, f, hnear⟩
      obtain ⟨f', hn'⟩ := hok i f u hn
      rw [if_neg hne] at hn'
      rw [get_of_nearest hn', get_of_nearest hn]
    | undefined => rw [get_of_error (herror _ hn), get_of_error hn]
    | broken => rw [get_of_error (herror _ hn), get_of_error hn]

theorem get_eq_ok_iff (ha : a.Descends) :
    a.get h x = .ok v ↔ ∃ d i e, IsNearest a x h d i e ∧ e.values.get? x = some v := by
  constructor
  · intro hr
    have hw := walk_nearest ha x h
    generalize hn : a.nearest h x = r at hw
    cases hw with
    | found hnear hv =>
      rw [get_of_nearest hn] at hr
      cases hr
      exact ⟨_, _, _, hnear, hv⟩
    | undefined => rw [get_of_error hn] at hr; cases hr
    | broken => rw [get_of_error hn] at hr; cases hr
  · rintro ⟨d, i, e, hnear, hv⟩
    obtain ⟨u, hu, hn⟩ := hnear.nearest ha
    cases hv.symm.trans hu
    exact get_of_nearest hn

theorem get_eq_error_iff (ha : a.Descends) :
    a.get h x = .error fault ↔ (fault = .undefined x ∧ a.Whole h ∧ a.Lacks x h) ∨
      ∃ i, fault = .missing (some i) ∧ a.BreaksAt h i ∧ a.Lacks x h := by
  constructor
  · intro hr
    have hw := walk_nearest ha x h
    generalize hn : a.nearest h x = r at hw
    cases hw with
    | found => rw [get_of_nearest hn] at hr; cases hr
    | undefined hwhole hl =>
      rw [get_of_error hn] at hr
      cases hr
      exact .inl ⟨rfl, hwhole, hl⟩
    | broken hb hl =>
      rw [get_of_error hn] at hr
      cases hr
      exact .inr ⟨_, rfl, hb, hl⟩
  · rintro (⟨rfl, hwhole, hl⟩ | ⟨i, rfl, hb, hl⟩)
    · exact get_of_error (nearest_of_whole ha hwhole hl)
    · exact get_of_error (nearest_of_breaksAt ha hb hl)

theorem assign_eq_error_iff (v : Value) :
    a.assign h x v = .error fault ↔ a.get h x = .error fault := by
  cases hn : a.nearest h x with
  | error fault' => rw [assign_of_error hn, get_of_error hn]; simp
  | ok found => simp [assign_of_nearest hn, get_of_nearest hn]

theorem assign_eq_ok_iff (ha : a.Descends) :
    a.assign h x v = .ok a' ↔ ∃ d i e, IsNearest a x h d i e ∧ a' = a.rebind i e x v := by
  constructor
  · intro hr
    have hw := walk_nearest ha x h
    generalize hn : a.nearest h x = r at hw
    cases hw with
    | found hnear =>
      rw [assign_of_nearest hn] at hr
      cases hr
      exact ⟨_, _, _, hnear, rfl⟩
    | undefined => rw [assign_of_error hn] at hr; cases hr
    | broken => rw [assign_of_error hn] at hr; cases hr
  · rintro ⟨d, i, e, hnear, rfl⟩
    obtain ⟨u, _, hn⟩ := hnear.nearest ha
    exact assign_of_nearest hn v

theorem IsNearest.access (hnear : IsNearest a x h d i e) (ha : a.Descends) (v : Value) :
    a.getAt h d x = a.get h x ∧ a.assignAt h d x v = a.assign h x v := by
  obtain ⟨u, hu, hn⟩ := hnear.nearest ha
  rw [hnear.outward.getAt hu, get_of_nearest hn, hnear.outward.assignAt, assign_of_nearest hn]
  exact ⟨rfl, rfl⟩

/-- Where links point to smaller handles, the value of a name is that of the nearest environment that
binds it. Without one the name is undefined if all environments up to an outermost one are there, and
else the first one that is not there is missing. An assignment succeeds where reading does, fails as
reading does and then changes nothing, and else changes that one binding, which any environment sees
whose nearest binding it is, and no other. Access by the right distance is access by name. -/
theorem store_laws (ha : a.Descends) (h : Handle) (x : String) :
    (∀ v, a.get h x = .ok v ↔ ∃ d i e, IsNearest a x h d i e ∧ e.values.get? x = some v) ∧
    (a.get h x = .error (.undefined x) ↔ a.Whole h ∧ a.Lacks x h) ∧
    (∀ i, a.get h x = .error (.missing (some i)) ↔ a.BreaksAt h i ∧ a.Lacks x h) ∧
    (∀ fault, a.get h x = .error fault → fault = .undefined x ∨ ∃ i, fault = .missing (some i)) ∧
    (∀ line, ∃ fault, Fault.ofArena (.undefined x) line = .error fault line ∧
      fault.message = "Undefined variable '" ++ x ++ "'.") ∧
    ∀ v,
      ((∃ a', a.assign h x v = .ok a') ↔ ∃ w, a.get h x = .ok w) ∧
      (∀ a', a.assign h x v = .ok a' → ∃ d i e, IsNearest a x h d i e ∧ Rebinds a a' i x v ∧
        ∀ h' y,
          ((y = x ∧ ∃ d' e', IsNearest a x h' d' i e') → a'.get h' y = .ok v) ∧
          (¬(y = x ∧ ∃ d' e', IsNearest a x h' d' i e') → a'.get h' y = a.get h' y)) ∧
      (∀ fault, a.assign h x v = .error fault →
        a.get h x = .error fault ∧ (Op.assign h x v).apply a = (a, .error fault)) ∧
      ∀ d i e, IsNearest a x h d i e →
        a.getAt h d x = a.get h x ∧ a.assignAt h d x v = a.assign h x v := by
  refine ⟨fun v => get_eq_ok_iff ha, ?_, fun i => ?_, fun fault hr => ?_, fun line => ⟨_, rfl, rfl⟩,
    fun v => ⟨?_, fun a' hr => ?_, fun fault hr => ?_, fun d i e hnear => hnear.access ha v⟩⟩
  · rw [get_eq_error_iff ha]
    simp
  · rw [get_eq_error_iff ha]
    simp
  · exact ((get_eq_error_iff ha).1 hr).imp And.left fun ⟨i, hi, _⟩ => ⟨i, hi⟩
  · constructor
    · rintro ⟨a', hr⟩
      obtain ⟨d, i, e, hnear, _⟩ := (assign_eq_ok_iff ha).1 hr
      obtain ⟨w, hw⟩ := Option.isSome_iff_exists.1 hnear.binds
      exact ⟨w, (get_eq_ok_iff ha).2 ⟨d, i, e, hnear, hw⟩⟩
    · rintro ⟨w, hr⟩
      obtain ⟨d, i, e, hnear, _⟩ := (get_eq_ok_iff ha).1 hr
      exact ⟨_, (assign_eq_ok_iff ha).2 ⟨d, i, e, hnear, rfl⟩⟩
  · obtain ⟨d, i, e, hnear, rfl⟩ := (assign_eq_ok_iff ha).1 hr
    obtain ⟨w, hw⟩ := Option.isSome_iff_exists.1 hnear.binds
    have hg := hnear.outward.get?
    exact ⟨d, i, e, hnear, rebinds_rebind hg x v, get_rebind ha hg hw v⟩
  · refine ⟨(assign_eq_error_iff v).1 hr, ?_⟩
    rw [Op.apply, hr, settle]

/-- A name is bound in the globals and, nearer to one of two inner environments, once more. -/
theorem store_laws_shadowed :
    ∃ a a' : Arena, a.Descends ∧ a.assign 3 "n" (.bool true) = .ok a' ∧
      a'.get 1 "n" = .ok (.bool true) ∧ a'.get 2 "n" = a.get 2 "n" ∧
      a.assignAt 3 2 "n" (.bool true) = .ok a' := by
  let ops : List Op := [.new none (Bindings.empty.set "n" .nil), .new (some 0) {},
    .new (some 1) (Bindings.empty.set "n" (.bool false)), .new (some 1) {}]
  have ha : (after {} ops).Descends := (orderly_empty.after (by decide +kernel)).1.descends
  -- the globals bind the name nearest to 1 and to 3, and 2 binds it itself
  have h0 : (after {} ops).get? 0 = some ⟨Bindings.empty.set "n" .nil, none, false⟩ := by rfl
  have h1 : (after {} ops).get? 1 = some ⟨{}, some 0, false⟩ := by rfl
  have h2 : (after {} ops).get? 2 =
    some ⟨Bindings.empty.set "n" (.bool false), some 1, false⟩ := by rfl
  have h3 : (after {} ops).get? 3 = some ⟨{}, some 1, false⟩ := by rfl
  have hone := (isNearest_here h0 rfl).link h1 (x := "n") rfl rfl
  have hthree := hone.link h3 rfl rfl
  obtain ⟨_, _, _, _, _, hassign⟩ := store_laws ha 3 "n"
  obtain ⟨hsucceeds, hwrites, _, haccess⟩ := hassign (.bool true)
  obtain ⟨_, hread⟩ := haccess 2 0 _ hthree
  obtain ⟨a', ha'⟩ := hsucceeds.2 ⟨.nil, by rfl⟩
  obtain ⟨d, i, e, hnear, _, hreads⟩ := hwrites a' ha'
  obtain ⟨_, _, hn⟩ := hnear.nearest ha
  obtain ⟨_, _, hn'⟩ := hthree.nearest ha
  cases hn.symm.trans hn'
  refine ⟨after {} ops, a', ha, ha', (hreads 1 "n").1 ⟨rfl, 1, _, hone⟩,
    (hreads 2 "n").2 ?_, hread.trans ha'⟩
  rintro ⟨_, d, f, hnear⟩
  obtain ⟨_, _, hn⟩ := hnear.nearest ha
  cases hn.symm.trans (nearest_found h2 rfl)

end Arena

end Lox
