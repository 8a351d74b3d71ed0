import Lox.Proofs.Arena.Operations

namespace Lox
set_option autoImplicit true

namespace Arena

/-- One turn of a capture: the walk ends with a result, or goes on at another environment. -/
def captureTurn (a : Arena) (h : Handle) : Arena × Option Handle ⊕ Arena × Handle :=
  match a.get? h with
  | none => .inl (a, some h)
  | some e =>
    if e.captured then .inl (a, none)
    else
      match e.enclosing with
      | none => .inl (a.put h (e.mark true), none)
      | some outer => .inr (a.put h (e.mark true), outer)

/-- The walk of a capture ends after just so many turns. -/
inductive EndsAfter : Nat → Arena → Handle → Arena × Option Handle → Prop where
  | last : a.captureTurn h = .inl r → EndsAfter 1 a h r
  | turn : a.captureTurn h = .inr (a', outer) → EndsAfter n a' outer r → EndsAfter (n + 1) a h r

/-- Environments linked outward one after another, none of them captured, and where the last link
leads. -/
inductive Trail (a : Arena) : Option Handle → List Handle → Option Handle → Prop where
  | nil : Trail a start [] start
  | link : a.get? h = some e → e.captured = false → Trail a e.enclosing path stop →
      Trail a (some h) (h :: path) stop

/-- The path from `h` outward up to the first stop: behind an outermost environment, at one that is
not there, or at one that is captured, before or because the path has come by. -/
structure Route (a : Arena) (h : Handle) (path : List Handle) (stop : Option Handle) : Prop where
  trail : a.Trail (some h) path stop
  nodup : path.Nodup
  stops : ∀ i, stop = some i → a.get? i = none ∨ a.Captured i ∨ i ∈ path

/-- A capture with a given result follows a route: it takes a turn for each environment on it and one
at the stop, marks the path, and fails if the stop is not there. -/
structure Walked (a : Arena) (h : Handle) (path : List Handle) (stop : Option Handle)
    (r : Arena × Option Handle) : Prop where
  route : a.Route h path stop
  turns : EndsAfter (path.length + stop.toList.length) a h r
  marks : Marks (· ∈ path) a r.1
  missing : ∀ i, r.2 = some i ↔ stop = some i ∧ a.get? i = none

variable {a a' : Arena} {h i outer : Handle} {e : Environment} {path path' : List Handle}
  {start stop stop' : Option Handle} {r : Arena × Option Handle} {n : Nat}

theorem captureTurn_missing (hg : a.get? h = none) : a.captureTurn h = .inl (a, some h) := by
  simp only [captureTurn, hg]

theorem captureTurn_captured (hg : a.get? h = some e) (hc : e.captured = true) :
    a.captureTurn h = .inl (a, none) := by
  simp only [captureTurn, hg, hc, ↓reduceIte]

theorem captureTurn_outermost (hg : a.get? h = some e) (hc : e.captured = false)
    (ho : e.enclosing = none) : a.captureTurn h = .inl (a.put h (e.mark true), none) := by
  simp [captureTurn, hg, hc, ho]

theorem captureTurn_link (hg : a.get? h = some e) (hc : e.captured = false)
    (ho : e.enclosing = some outer) :
    a.captureTurn h = .inr (a.put h (e.mark true), outer) := by
  simp [captureTurn, hg, hc, ho]

theorem captureUpTo_succ (a : Arena) (n : Nat) (h : Handle) :
    a.captureUpTo (n + 1) h =
      (a.captureTurn h).elim id fun next => next.1.captureUpTo n next.2 := by
  cases hg : a.get? h with
  | none => rw [captureUpTo_missing hg, captureTurn_missing hg, Sum.elim_inl, id]
  | some e =>
    cases hc : e.captured with
    | true => rw [captureUpTo_captured hg hc, captureTurn_captured hg hc, Sum.elim_inl, id]
    | false =>
      rw [captureUpTo_step hg hc]
      cases ho : e.enclosing with
      | none => rw [captureTurn_outermost hg hc ho, Sum.elim_inl, id]
      | some outer => rw [captureTurn_link hg hc ho, Sum.elim_inr]

/-- A bound that leaves the walk its turns is no bound. -/
theorem EndsAfter.captureUpTo_eq (he : EndsAfter n a h r) {bound : Nat} (hn : n ≤ bound) :
    a.captureUpTo bound h = r := by
  induction he generalizing bound with
  | last ht =>
    obtain ⟨m, rfl⟩ := Nat.exists_eq_add_of_le' hn
    rw [captureUpTo_succ, ht, Sum.elim_inl, id]
  | turn ht _ ih =>
    obtain ⟨m, rfl⟩ := Nat.exists_eq_succ_of_ne_zero (Nat.ne_zero_of_lt hn)
    rw [captureUpTo_succ, ht, Sum.elim_inr]
    exact ih (Nat.le_of_succ_le_succ hn)

theorem Trail.mem_uncaptured (ht : a.Trail start path stop) (hi : i ∈ path) :
    i ∈ a.uncaptured := by
  induction ht with
  | nil => cases hi
  | link hg hc _ ih =>
    rcases List.mem_cons.1 hi with rfl | hi
    · exact Arena.mem_uncaptured.2 ⟨_, hg, hc⟩
    · exact ih hi

theorem Trail.rest (ht : a.Trail start path stop) (ht' : a.Trail start path' stop')
    (hle : path.length ≤ path'.length) : ∃ more, path' = path ++ more ∧ a.Trail stop more stop' := by
  induction ht generalizing path' with
  | nil => exact ⟨path', rfl, ht'⟩
  | @link h e path stop hg _ _ ih =>
    cases ht' with
    | nil => cases hle
    | link hg' _ hrest =>
      cases hg.symm.trans hg'
      obtain ⟨more, rfl, hmore⟩ := ih hrest (Nat.le_of_succ_le_succ hle)
      exact ⟨more, rfl, hmore⟩

theorem Trail.of_put_mark (ht : (a.put h (e.mark true)).Trail start path stop) :
    a.Trail start path stop ∧ h ∉ path := by
  induction ht with
  | nil => exact ⟨.nil, List.not_mem_nil⟩
  | @link i f path stop hg hc _ ih =>
    obtain ⟨htrail, hpath⟩ := ih
    rw [get?_put] at hg
    split at hg
    · cases hg
      simp [Environment.mark] at hc
    · rename_i hhi
      exact ⟨.link hg hc htrail, List.not_mem_cons_of_ne_of_not_mem hhi hpath⟩

theorem Route.length_le (hr : a.Route h path stop) : path.length ≤ a.uncaptured.card := by
  rw [← List.toFinset_card_of_nodup hr.nodup]
  exact Finset.card_le_card fun i hi => hr.trail.mem_uncaptured (List.mem_toFinset.1 hi)

theorem Route.eq_of_le (hr : a.Route h path stop) (hr' : a.Route h path' stop')
    (hle : path.length ≤ path'.length) : path' = path ∧ stop' = stop := by
  obtain ⟨more, rfl, hmore⟩ := hr.trail.rest hr'.trail hle
  cases hmore with
  | nil => exact ⟨List.append_nil _, rfl⟩
  | @link i e _ _ hg hc _ =>
    -- the longer path goes on at the stop of the shorter one, for which there is no reason left
    rcases hr.stops i rfl with hnone | ⟨f, hf, hcf⟩ | hi
    · cases hg.symm.trans hnone
    · cases hg.symm.trans hf
      cases hc.symm.trans hcf
    · exact absurd rfl ((List.nodup_append.1 hr'.nodup).2.2 i hi i List.mem_cons_self)

theorem Route.unique (hr : a.Route h path stop) (hr' : a.Route h path' stop') :
    path' = path ∧ stop' = stop := by
  rcases Nat.le_total path.length path'.length with hle | hle
  · exact hr.eq_of_le hr' hle
  · exact (hr'.eq_of_le hr hle).imp Eq.symm Eq.symm

theorem get?_put_eq_none (hg : a.get? h = some e) (f : Environment) :
    (a.put h f).get? i = none ↔ a.get? i = none := by
  rw [get?_put]
  split
  · rename_i hhi
    simp [← hhi, hg]
  · rfl

theorem Route.link (hr : (a.put h (e.mark true)).Route outer path stop) (hg : a.get? h = some e)
    (hc : e.captured = false) (ho : e.enclosing = some outer) : a.Route h (h :: path) stop := by
  obtain ⟨htrail, hh⟩ := hr.trail.of_put_mark
  refine ⟨.link hg hc (ho ▸ htrail), List.nodup_cons.2 ⟨hh, hr.nodup⟩, fun i hi => ?_⟩
  rcases hr.stops i hi with hnone | hcap | hpath
  · exact .inl ((get?_put_eq_none hg _).1 hnone)
  · rcases (captured_put_mark hg).1 hcap with rfl | hcap
    -- a circle has come back to the mark just made
    · exact .inr (.inr List.mem_cons_self)
    · exact .inr (.inl hcap)
  · exact .inr (.inr (List.mem_cons_of_mem h hpath))

theorem marks_nil (a : Arena) : Marks (· ∈ []) a a :=
  ⟨rfl, fun _ _ _ hi => absurd hi List.not_mem_nil, fun _ _ => rfl⟩

theorem Marks.cons (hm : Marks (· ∈ path) (a.put h (e.mark true)) a') (hg : a.get? h = some e)
    (hh : h ∉ path) : Marks (· ∈ h :: path) a a' := by
  have hother : ∀ i, h ≠ i → (a.put h (e.mark true)).get? i = a.get? i := fun i hi => by
    rw [get?_put, if_neg hi]
  refine ⟨hm.next, fun i f hf hi => ?_, fun i hi => ?_⟩
  · rcases List.mem_cons.1 hi with rfl | hi
    · cases hg.symm.trans hf
      rw [hm.others i fun hi => hh hi.1, get?_put, if_pos rfl, Environment.mark, Bool.or_true]
    · have hne : h ≠ i := fun heq => hh (heq ▸ hi)
      exact hm.marked i f ((hother i hne).trans hf) hi
  · have hne : h ≠ i := by
      rintro rfl
      exact hi ⟨List.mem_cons_self, by rw [contains, hg, Option.isSome_some]⟩
    rw [← hother i hne]
    refine hm.others i fun hmarked => hi ⟨List.mem_cons_of_mem h hmarked.1, ?_⟩
    rw [contains, ← hother i hne]
    exact hmarked.2

theorem walked_missing (hg : a.get? h = none) : a.Walked h [] (some h) (a, some h) := by
  refine ⟨⟨.nil, List.nodup_nil, fun i hi => ?_⟩, .last (captureTurn_missing hg), marks_nil a,
    fun i => ⟨fun hi => ?_, And.left⟩⟩
  · cases hi
    exact .inl hg
  · cases hi
    exact ⟨rfl, hg⟩

theorem walked_captured (hg : a.get? h = some e) (hc : e.captured = true) :
    a.Walked h [] (some h) (a, none) := by
  refine ⟨⟨.nil, List.nodup_nil, fun i hi => ?_⟩, .last (captureTurn_captured hg hc), marks_nil a,
    fun i => ⟨fun hi => ?_, fun hi => ?_⟩⟩
  · cases hi
    exact .inr (.inl ⟨e, hg, hc⟩)
  · cases hi
  · obtain ⟨hstop, hnone⟩ := hi
    cases hstop
    cases hg.symm.trans hnone

theorem walked_outermost (hg : a.get? h = some e) (hc : e.captured = false)
    (ho : e.enclosing = none) : a.Walked h [h] none (a.put h (e.mark true), none) := by
  refine ⟨⟨.link hg hc (ho ▸ .nil), List.nodup_singleton h, fun i hi => ?_⟩,
    .last (captureTurn_outermost hg hc ho), (marks_nil _).cons hg List.not_mem_nil,
    fun i => ⟨fun hi => ?_, fun hi => ?_⟩⟩
  · cases hi
  · cases hi
  · cases hi.1

theorem Walked.link (hw : (a.put h (e.mark true)).Walked outer path stop r)
    (hg : a.get? h = some e) (hc : e.captured = false) (ho : e.enclosing = some outer) :
    a.Walked h (h :: path) stop r := by
  obtain ⟨_, hh⟩ := hw.route.trail.of_put_mark
  refine ⟨hw.route.link hg hc ho, ?_, hw.marks.cons hg hh, fun i => ?_⟩
  · rw [List.length_cons, Nat.add_right_comm]
    exact .turn (captureTurn_link hg hc ho) hw.turns
  · rw [hw.missing i, get?_put_eq_none hg]

theorem walked_capture (a : Arena) (h : Handle) :
    ∃ path stop, a.Walked h path stop (a.capture h) := by
  induction a, h using capture_induction with
  | missing hg => exact ⟨_, _, walked_missing hg⟩
  | captured hg hc => exact ⟨_, _, walked_captured hg hc⟩
  | outermost hg hc ho => exact ⟨_, _, walked_outermost hg hc ho⟩
  | link hg hc ho ih =>
    obtain ⟨path, stop, hw⟩ := ih
    exact ⟨_, _, hw.link hg hc ho⟩

/-- A capture fails just if it gives the handle of a missing environment, and with its marks kept. -/
theorem Op.apply_capture_eq_error_iff (a : Arena) (h : Handle) (fault : ArenaFault) :
    (Op.capture h).apply a = ((a.capture h).1, .error fault) ↔
      ∃ i, fault = .missing (some i) ∧ (a.capture h).2 = some i := by
  rw [apply]
  split
  · rename_i hcap
    simp [hcap]
  · rename_i hcap
    simp [hcap, eq_comm]

/-- On any arena, from any handle there is one route outward and no other, up to the first stop. A
capture takes a turn for each environment on it and one at the stop, if that is a handle, and then
ends: it takes at most one turn more than there are environments not captured, so that larger bounds
make no difference. It marks the environments on the route and changes nothing else, also where it
fails. It fails just if the stop is an environment that is not there, and names that one. -/
theorem capture_follows_route (a : Arena) (h : Handle) :
    ∃ path stop, a.Route h path stop ∧
      (∀ path' stop', a.Route h path' stop' → path' = path ∧ stop' = stop) ∧
      EndsAfter (path.length + stop.toList.length) a h (a.capture h) ∧
      path.length + stop.toList.length ≤ a.uncaptured.card + 1 ∧
      (∀ bound, path.length + stop.toList.length ≤ bound →
        a.captureUpTo bound h = a.capture h) ∧
      Marks (· ∈ path) a (a.capture h).1 ∧
      ∀ fault, (Op.capture h).apply a = ((a.capture h).1, .error fault) ↔
        ∃ i, fault = .missing (some i) ∧ stop = some i ∧ a.get? i = none := by
  obtain ⟨path, stop, hw⟩ := walked_capture a h
  have hstop : stop.toList.length ≤ 1 := by cases stop <;> simp
  refine ⟨path, stop, hw.route, fun path' stop' => hw.route.unique, hw.turns,
    Nat.add_le_add hw.route.length_le hstop, fun bound => hw.turns.captureUpTo_eq, hw.marks,
    fun fault => ?_⟩
  rw [Op.apply_capture_eq_error_iff]
  simp only [hw.missing]

/-- From 0 the links lead into a circle of 1 and 2, and from 3 to an environment that is not there. -/
theorem capture_follows_route_circle :
    ∃ a : Arena, a.uncaptured.card = 4 ∧
      EndsAfter 4 a 0 (a.capture 0) ∧ Marks (· ∈ [0, 1, 2]) a (a.capture 0).1 ∧
      Marks (· ∈ [3]) a (a.capture 3).1 ∧
      (Op.capture 3).apply a = ((a.capture 3).1, .error (.missing (some 9))) := by
  let ops : List Op := [.new (some 1) {}, .new (some 2) {}, .new (some 1) {}, .new (some 9) {}]
  have h0 : (after {} ops).get? 0 = some ⟨{}, some 1, false⟩ := by rfl
  have h1 : (after {} ops).get? 1 = some ⟨{}, some 2, false⟩ := by rfl
  have h2 : (after {} ops).get? 2 = some ⟨{}, some 1, false⟩ := by rfl
  have h3 : (after {} ops).get? 3 = some ⟨{}, some 9, false⟩ := by rfl
  have h9 : (after {} ops).get? 9 = none := by rfl
  have hcircle : (after {} ops).Route 0 [0, 1, 2] (some 1) := by
    refine ⟨.link h0 rfl (.link h1 rfl (.link h2 rfl .nil)), by decide, fun i hi => ?_⟩
    cases hi
    exact .inr (.inr (by decide))
  have hbroken : (after {} ops).Route 3 [3] (some 9) := by
    refine ⟨.link h3 rfl .nil, by decide, fun i hi => ?_⟩
    cases hi
    exact .inl h9
  obtain ⟨path, stop, _, hunique, hturns, _, _, hmarks, _⟩ := capture_follows_route (after {} ops) 0
  obtain ⟨rfl, rfl⟩ := hunique _ _ hcircle
  obtain ⟨path, stop, _, hunique, _, _, _, hmarks', hfails⟩ :=
    capture_follows_route (after {} ops) 3
  obtain ⟨rfl, rfl⟩ := hunique _ _ hbroken
  exact ⟨after {} ops, by decide +kernel, hturns, hmarks, hmarks',
    (hfails _).2 ⟨9, rfl, rfl, h9⟩⟩

end Arena

end Lox
