import Lox.Proofs.Session.Release

namespace Lox
set_option autoImplicit true

namespace Arena

variable {a₀ a : Arena} {h i : Handle} {e : Environment}

/-- An environment that is new since `a₀`, or captured. -/
def Beyond (a₀ a : Arena) (i : Handle) : Prop := a₀.next ≤ i ∨ a.Captured i

/-- What was there in `a₀` and is not captured is as it was, and no link leads to it from what is
new or captured. -/
structure Sealed (a₀ a : Arena) : Prop where
  next : a₀.next ≤ a.next
  same : ∀ i e, a₀.get? i = some e → e.captured = false → a.get? i = some e
  outward : ∀ i e outer, a₀.Beyond a i → a.get? i = some e → e.enclosing = some outer →
    a₀.Beyond a outer

theorem Sealed.refl (hb : a.Below) (hcl : a.Closed) : Sealed a a := by
  refine ⟨Nat.le_refl _, fun i e hg _ => hg, fun i e outer hi hg he => ?_⟩
  rcases hi with hi | ⟨f, hf, hc⟩
  · exact absurd (hb i e hg) (Nat.not_lt_of_le hi)
  · exact .inr ((hcl i f hf hc).enclosing hg he).captured

theorem Sealed.beyond (h : Sealed a₀ a) (henc : a.Encloses i j) (hj : a₀.Beyond a j) :
    a₀.Beyond a i := by
  induction henc with
  | refl => exact hj
  | outer hg he _ ih => exact ih (h.outward _ _ _ hj hg he)

theorem Sealed.not_beyond (h : Sealed a₀ a) (hb : a₀.Below) (hg : a₀.get? i = some e)
    (hc : e.captured = false) : ¬a₀.Beyond a i := by
  rintro (hi | ⟨f, hf, hcf⟩)
  · exact Nat.not_lt_of_le hi (hb i e hg)
  · cases (h.same i e hg hc).symm.trans hf
    cases hc.symm.trans hcf

theorem Sealed.write (h : Sealed a₀ a) (hb : a₀.Below) (hj : a₀.Beyond a j)
    (hg : a.get? j = some f) (values : Bindings Value) :
    Sealed a₀ (a.put j { f with values }) := by
  have hcap : ∀ i, a₀.Beyond (a.put j { f with values }) i ↔ a₀.Beyond a i := fun i =>
    or_congr_right (captured_put hg rfl)
  refine ⟨h.next, fun i e hi hc => ?_, fun i e outer hi hgi he => ?_⟩
  · have hne : j ≠ i := by
      rintro rfl
      exact h.not_beyond hb hi hc hj
    rw [get?_put, if_neg hne]
    exact h.same i e hi hc
  · obtain ⟨e', hg', heq⟩ := linked_put (f := { f with values }) hg rfl i e hgi
    exact (hcap outer).2 (h.outward i e' outer ((hcap i).1 hi) hg' (heq.trans he))

theorem Sealed.enter (h : Sealed a₀ a) (hb : a₀.Below) (hba : a.Below) (hout : a₀.Beyond a outer)
    (values : Bindings Value) : Sealed a₀ (a.new (some outer) values).2 := by
  have hcap : ∀ i, a₀.Beyond (a.new (some outer) values).2 i ↔ a₀.Beyond a i := fun i =>
    or_congr_right (captured_new hba _ _)
  refine ⟨Nat.le_succ_of_le h.next, fun i e hi hc => ?_, fun i e out hi hgi he => ?_⟩
  · have hlt : i < a.next := Nat.lt_of_lt_of_le (hb i e hi) h.next
    rw [get?_new, if_neg (Nat.ne_of_gt hlt)]
    exact h.same i e hi hc
  · rw [hcap]
    rw [get?_new] at hgi
    split at hgi
    · cases hgi
      cases he
      exact hout
    · exact h.outward i e out ((hcap i).1 hi) hgi he

theorem Sealed.capture (h : Sealed a₀ a) (hb : a₀.Below) (hj : a₀.Beyond a j) :
    Sealed a₀ (a.capture j).1 := by
  have hback : ∀ i, a₀.Beyond (a.capture j).1 i → a₀.Beyond a i := by
    rintro i (hi | hi)
    · exact .inl hi
    · rcases captured_of_captureUpTo hi with hi | hi
      · exact .inr hi
      · exact h.beyond hi hj
  refine ⟨Nat.le_trans h.next (Nat.le_of_eq (next_captureUpTo _ _ _).symm), fun i e hi hc => ?_,
    fun i e outer hi hgi he => ?_⟩
  · obtain ⟨c, hget⟩ := get?_captureUpTo a (a.size + 1) j i
    rw [h.same i e hi hc] at hget
    -- a mark would make it one that is beyond
    cases c with
    | false => exact hget.trans (Environment.map_mark_false _)
    | true =>
      have hcap : Captured (a.capture j).1 i := ⟨e.mark true, hget, by simp [Environment.mark]⟩
      exact absurd (hback i (.inr hcap)) (h.not_beyond hb hi hc)
  · obtain ⟨e', hg', heq⟩ := linked_captureUpTo a _ j i e hgi
    have hout := h.outward i e' outer (hback i hi) hg' (heq.trans he)
    exact hout.imp_right fun hc => hc.keep (keeps_captureUpTo outer _ _ _)

theorem Sealed.leave (h : Sealed a₀ a) (hg : a.get? j = some f)
    (hlt : ∀ i e, a₀.get? i = some e → e.captured = false → i < j) :
    Sealed a₀ (if f.captured then a else a.drop j) := by
  split
  · exact h
  · rename_i hcf
    refine ⟨h.next, fun i e hi hc => ?_, fun i e outer hi hgi he => ?_⟩
    · rw [get?_drop, if_neg (Nat.ne_of_gt (hlt i e hi hc))]
      exact h.same i e hi hc
    · obtain ⟨e', hg', heq⟩ := linked_drop a j i e hgi
      have hi : a₀.Beyond a i := hi.imp_right (captured_drop hg hcf).1
      exact (h.outward i e' outer hi hg' (heq.trans he)).imp_right (captured_drop hg hcf).2

end Arena

namespace Nest

variable {N N' : Nest} {a₀ : Arena}

/-- While the current environment is beyond, what is sealed off stays so. -/
theorem Grow.sealed (h : Grow N N') (hb : a₀.Below) (hbN : N.arena.Below)
    (hs : a₀.Sealed N.arena) (henv : a₀.Beyond N.arena N.env) :
    a₀.Sealed N'.arena ∧ a₀.Beyond N'.arena N'.env := by
  cases h with
  | @write _ _ e x v henc hg =>
    refine ⟨hs.write hb (hs.beyond henc henv) hg _, henv.imp_right fun hc => ?_⟩
    exact (Arena.captured_put (f := { e with values := e.values.set x v }) hg rfl).2 hc
  | enter hout =>
    refine ⟨hs.enter hb hbN ?_ _, .inl hs.next⟩
    rcases hout with rfl | hkept
    · exact henv
    · exact .inr hkept.captured

theorem Grows.sealed (h : N.Grows N') (hb : a₀.Below) (hbN : N.arena.Below)
    (hs : a₀.Sealed N.arena) (henv : a₀.Beyond N.arena N.env) : a₀.Sealed N'.arena := by
  have hall : N'.arena.Below ∧ a₀.Sealed N'.arena ∧ a₀.Beyond N'.arena N'.env := by
    induction h with
    | refl => exact ⟨hbN, hs, henv⟩
    | tail _ hstep ih => exact ⟨(hstep.continues ih.1).below, hstep.sealed hb ih.1 ih.2.1 ih.2.2⟩
  exact hall.2.1

theorem Pops.sealed (h : N.Pops floor N') (hs : a₀.Sealed N.arena)
    (hle : ∀ i e, a₀.get? i = some e → e.captured = false → i ≤ floor) : a₀.Sealed N'.arena := by
  induction h with
  | refl => exact hs
  | tail _ hstep ih =>
    cases hstep with
    | leave hg hlt => exact ih.leave hg fun i e hi hc => Nat.lt_of_le_of_lt (hle i e hi hc) hlt

end Nest

/-- A call is next: the callee and its arguments are there. -/
inductive Control.Calls : Control → ValueCont → Prop where
  | plain : Calls (.value v (.callee [] paren k)) k
  | arguments : Calls (.value v (.argument callee done [] paren k)) k

theorem Control.calls_of_zones {c : Control} (h : c.zones.length = 2) : ∃ k, c.Calls k := by
  unfold zones at h
  split at h
  · cases h
  · exact ⟨_, .plain⟩
  · exact ⟨_, .arguments⟩
  · cases h

theorem Cont.below_opened {c : Cont} (h : c.below i = some (d, j)) :
    d.opened j ⊆ c.opened i := by
  cases c with
  | value k => cases k <;> cases h <;> exact List.Subset.refl _
  | done k =>
    cases k with
    | program => cases h
    | sequence => cases h; exact List.Subset.refl _
    | again => cases h; exact List.Subset.refl _
    | leaveBlock => cases h; exact List.subset_cons_self _ _
    | leaveCall outer receiver =>
      cases h
      exact List.subset_cons_of_subset _ (List.subset_append_right _ _)

theorem Cont.Over.opened {base c : Cont} (h : base.Over b c i) : base.opened b ⊆ c.opened i := by
  induction h with
  | refl => exact List.Subset.refl _
  | push hbelow _ ih => exact List.Subset.trans ih (below_opened hbelow)

namespace Machine

variable {P : List (Program Binding)} {W : Roles} {E : ArenaFault → Prop} {m m' : Machine}
  {k : ValueCont} {a₀ : Arena}

theorem inside_of_calls (h : m.control.Calls k) : m.Inside (.value k) m.env := by
  rw [Inside]
  generalize m.control = control at h
  cases h with
  | plain => exact .inl (.push rfl .refl)
  | arguments => exact .inl (.push rfl .refl)

theorem Inside.opened_le {base : Cont} (h : m.Inside base b) (hm : m.Fits P W E)
    (hi : i ∈ base.opened b) : i ≤ m.env := by
  rcases h with h | ⟨hend, rfl⟩
  · exact hm.opened.le (h.opened hi)
  · rw [← hend.opened] at hi
    exact hm.opened.le hi

/-- The environment of a call is no newer than the current one while its body runs. -/
theorem Inside.le_env (h : m.Inside (.done (.leaveCall outer receiver result k)) b)
    (hm : m.Fits P W E) : b ≤ m.env := h.opened_le hm List.mem_cons_self

/-- The body of a call is entered in a new environment, or the call has ended at once. -/
def Enters (m m' : Machine) (k : ValueCont) : Prop :=
  (Cont.value k).Ends m'.control ∧ m'.env = m.env ∧ m'.store.arena = m.store.arena ∨
  m.store.arena.Sealed m'.store.arena ∧ m.store.arena.next ≤ m'.env ∧
    ∃ receiver result, m'.Inside (.done (.leaveCall m.env receiver result k)) m'.env

theorem fail_enters (m : Machine) (fault : Fault) (k : ValueCont) :
    m.Enters (m.fail fault k.enclosing) k := .inl ⟨.inr ⟨fault, rfl⟩, rfl, rfl⟩

theorem enter_enters {c : Closure} (hs : m.store.Fits P W) (hkept : m.store.arena.Kept c.env)
    (receiver : Option Instance) (args : List Value) (paren : Pos) (k : ValueCont) :
    m.Enters (m.enter c receiver args paren k) k := by
  have hb := hs.sound.below
  have hsealed := Arena.Sealed.refl hb hs.sound.closed
  have hbeyond : m.store.arena.Beyond m.store.arena c.env := .inr hkept.captured
  have henter := fun values => hsealed.enter hb hb hbeyond values
  rw [enter]
  split
  · apply fail_enters
  · cases receiver with
    | none => exact .inr ⟨henter _, Nat.le_refl _, _, _, .inl (.push rfl .refl)⟩
    | some i =>
      refine .inr ⟨(henter _).enter hb (hb.new _ _) (.inl (Nat.le_refl _)) _, Nat.le_succ _, _, _,
        .inl (.push rfl .refl)⟩

theorem checkArity_enters {go : Machine → Machine} (hgo : m.Enters (go m) k) :
    m.Enters (m.checkArity arity args paren k go) k := by
  rw [checkArity]
  split
  · exact hgo
  · apply fail_enters

theorem callStep_enters {v : Value} (hs : m.store.Fits P W) (hv : v.Fits (m.store.world P W))
    (args : List Value) (paren : Pos) (k : ValueCont) :
    m.Enters (m.callStep v args paren k) k := by
  cases v with
  | function id c =>
    apply checkArity_enters
    exact enter_enters hs hv.1 _ _ _ _
  | method id c i =>
    apply checkArity_enters
    exact enter_enters hs hv.1.1 _ _ _ _
  | cls c =>
    apply checkArity_enters
    cases hinit : c.initializer? with
    | none => exact .inl ⟨.inl ⟨_, rfl⟩, rfl, rfl⟩
    | some init =>
      have hreceiver := (hv _ _ hinit).2.1
      exact enter_enters (m := { m with store := m.store.fresh.2 }) hs.fresh hreceiver _ _ _ _
  | _ => exact fail_enters m _ k

theorem Fits.enters (hm : m.Fits P W E) (hcall : m.control.Calls k) (hstep : m.step = some m') :
    m.Enters m' k := by
  obtain ⟨hs, hctl⟩ := hm
  rw [Machine.step] at hstep
  generalize m.control = control at hcall hctl hstep
  cases hcall with
  | plain =>
    cases hstep
    cases hctl with
    | value hv _ _ => exact callStep_enters hs hv _ _ k
  | arguments =>
    cases hstep
    cases hctl with
    | value _ _ hk =>
      cases hk with
      | argument hcallee _ _ _ => exact callStep_enters hs hcallee _ _ k

/-- A state during a call from the state `m₀`, or just after it. -/
structure During (m₀ : Machine) (k : ValueCont) (b : Handle) (m : Machine) : Prop where
  sealed : m₀.store.arena.Sealed m.store.arena
  position : (Cont.value k).Ends m.control ∨
    ∃ receiver result, m.Inside (.done (.leaveCall m₀.env receiver result k)) b

theorem Fits.captured_sealed (hm : m.Fits P W E) (hb : a₀.Below)
    (hs : a₀.Sealed m.store.arena) (henv : a₀.Beyond m.store.arena m.env) :
    a₀.Sealed m.captured.arena ∧ a₀.Beyond m.captured.arena m.captured.env := by
  have hhead : m.nest.opened.headD globals = m.env := hm.opened.head
  rw [captured, Nest.env]
  split
  · rw [hhead]
    refine ⟨hs.capture hb henv, henv.imp_right fun hc => ?_⟩
    exact hc.keep (Arena.keeps_captureUpTo m.env _ _ _)
  · rw [hhead]
    exact ⟨hs, henv⟩

theorem During.step {m₀ : Machine} (hd : During m₀ k b m) (hm : m.Fits P W fun _ => True)
    (hb : m₀.store.arena.Below)
    (hold : ∀ i e, m₀.store.arena.get? i = some e → e.captured = false → i ≤ m₀.env)
    (hnew : m₀.store.arena.next ≤ b) (hlt : m₀.env < b)
    (hne : ¬(Cont.value k).Ends m.control) (hstep : m.step = some m') : During m₀ k b m' := by
  obtain ⟨receiver, result, hin⟩ := hd.position.resolve_left hne
  obtain ⟨W', hm', _⟩ := hm.step_roles (fun _ _ => trivial) hstep
  have hpos : (Cont.value k).Ends m'.control ∧ m'.env = m₀.env ∨
      ∃ receiver result, m'.Inside (.done (.leaveCall m₀.env receiver result k)) b := by
    by_cases hend : (Cont.done (.leaveCall m₀.env receiver result k)).Ends m.control
    · obtain ⟨c, hctl⟩ := hend
      rw [Machine.step, hctl] at hstep
      exact .inl (leaveCall_ends hstep)
    · exact .inr ⟨receiver, result, hin.step hend hstep⟩
  have hfloor : m₀.env ≤ m'.env := by
    rcases hpos with ⟨_, henv⟩ | ⟨_, _, hin'⟩
    · exact Nat.le_of_eq henv.symm
    · exact Nat.le_trans (Nat.le_of_lt hlt) (hin'.le_env hm')
  have henv : m₀.store.arena.Beyond m.store.arena m.env :=
    .inl (Nat.le_trans hnew (hin.le_env hm))
  obtain ⟨hsealed, hbeyond⟩ := hm.captured_sealed hb hd.sealed henv
  refine ⟨?_, hpos.imp_left And.left⟩
  rcases hm.turns hstep with h | h
  · exact h.sealed hb hm.marks.1 hsealed hbeyond
  · exact h.sealed hsealed fun i e hi hc => Nat.le_trans (hold i e hi hc) hfloor

theorem run_eq_or_mem_trace (m : Machine) (n : Nat) : m.run n = m ∨ m ∈ m.trace n := by
  cases n with
  | zero => exact .inl rfl
  | succ n =>
    rw [Machine.run, trace]
    cases m.step with
    | none => exact .inl rfl
    | some m' => exact .inr (by simp)

/-- Up to its end a call leaves all as it was that is not captured. -/
theorem Fits.call_sealed (hm : m.Fits P W fun _ => True) (ht : m.nest.Tidy)
    (hcall : m.control.Calls k) (n : Nat)
    (hne : ∀ m' ∈ m.trace n, ¬(Cont.value k).Ends m'.control) :
    m.store.arena.Sealed (m.run n).store.arena := by
  have hb := hm.store.sound.below
  have hrefl := Arena.Sealed.refl hb hm.store.sound.closed
  -- what is not captured is still to be left, so it is older than the environment of the call
  have hold : ∀ i e, m.store.arena.get? i = some e → e.captured = false → i ≤ m.env := by
    intro i e hg hc
    rcases ht i e hg with hc' | rfl | hopen
    · cases hc.symm.trans hc'
    · exact Nat.zero_le _
    · exact hm.opened.le hopen
  cases n with
  | zero => exact hrefl
  | succ n =>
    rw [trace] at hne
    rw [Machine.run]
    cases hstep : m.step with
    | none => exact hrefl
    | some m₁ =>
      rw [hstep] at hne
      obtain ⟨W₁, hm₁, _⟩ := hm.step_roles (fun _ _ => trivial) hstep
      rcases hm.enters hcall hstep with ⟨hend, _, harena⟩ | ⟨hsealed, hnew, hin⟩
      · have hrun : m₁.run n = m₁ := by
          refine (run_eq_or_mem_trace m₁ n).resolve_right fun hmem => ?_
          exact hne m₁ (List.mem_append_left _ hmem) hend
        show m.store.arena.Sealed (m₁.run n).store.arena
        rw [hrun, harena]
        exact hrefl
      · have hlt : m.env < m₁.env := by
          obtain ⟨zs, Ss, hc⟩ := hm.chain
          exact Nat.lt_of_lt_of_le (hm.store.sound.lt_next hc) hnew
        let I (past : List Machine) (m' : Machine) : Prop :=
          (∀ m₀ ∈ past, ¬(Cont.value k).Ends m₀.control) → During m k m₁.env m'
        have hstart : I [] m₁ := fun _ => ⟨hsealed, .inr hin⟩
        have hduring : I (m₁.trace n ++ []) (m₁.run n) := by
          refine (hm₁.run_keeps hstart (fun past W m' m'' hm' hstep ih hne => ?_) n).1
          have hne := List.forall_mem_cons.1 hne
          exact (ih hne.2).step hm' hb hold hnew hlt hne.1 hstep
        rw [List.append_nil] at hduring
        exact (hduring fun m₀ hm₀ => hne m₀ (List.mem_append_left _ hm₀)).sealed

end Machine

namespace Session

theorem Moment.tidy (h : Moment programs past m) : m.nest.Tidy := by
  cases h with
  | intro hist hacc n =>
    obtain ⟨W, hs, _⟩ := hist.fits
    have hstart := hs.start (E := fun _ => True) (Program.accepted_resolve hacc.proper)
    exact (hstart.run_kept hist.released.1 n).1.tidy

/-- From the moment of a call up to its end, with a value or a fault, every environment that was
there and not captured is there exactly as it was: with the same bindings and link, and not captured
either. -/
theorem calls_keep_locals (hm : Moment programs past m) (hcall : m.control.Calls k)
    (hinside : ∀ m' ∈ m.trace n, ¬(Cont.value k).Ends m'.control)
    (hg : m.store.arena.get? h = some e) (hc : e.captured = false) :
    (m.run n).store.arena.get? h = some e := by
  obtain ⟨W, hfits, _⟩ := hm.fits
  exact (hfits.call_sealed hm.tidy hcall n hinside).same h e hg hc

/-- An instance is made, with an initializer that opens a block, while a block is open. -/
theorem calls_keep_locals_initializer :
    ∃ programs past m k n h e, Moment programs past m ∧ m.control.Calls k ∧
      (∀ m' ∈ m.trace n, ¬(Cont.value k).Ends m'.control) ∧
      (Cont.value k).Ends (m.run n).control ∧ h ≠ globals ∧ m.store.arena.get? h = some e ∧
      e.captured = false ∧ (m.run n).store.arena.get? h = some e := by
  let source := "class C \x7b init() \x7b var b = 1; \x7b var c; \x7d \x7d \x7d " ++
    "\x7b var a = 1; C(); \x7d"
  let start := Machine.start (new true).store (new true).env (readProgram source).1.resolve
  have hacc : (new true).Accepts source (readProgram source).1 :=
    ⟨rfl, Prod.ext rfl (by decide +kernel : (readProgram source).2 = []), by decide +kernel⟩
  have hmoment := Moment.intro (.new true) hacc 12
  have hzones : (start.run 12).control.zones.length = 2 := by decide +kernel
  obtain ⟨k, hcall⟩ := Control.calls_of_zones hzones
  have hout : ((start.run 12).run 40).outcome = .finished := by decide +kernel
  obtain ⟨j, hinside, hend⟩ := Machine.exists_end (Machine.inside_of_calls hcall) nofun hout
  have hlive : ((start.run 12).store.arena.get? 1).map (·.captured) = some false := by
    decide +kernel
  obtain ⟨e, hg, hc⟩ := Option.map_eq_some_iff.1 hlive
  exact ⟨_, _, _, k, j, 1, e, hmoment, hcall, hinside, hend, nofun, hg, hc,
    calls_keep_locals hmoment hcall hinside hg hc⟩

end Session

end Lox
