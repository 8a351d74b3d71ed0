import Lox.Proofs.Machine.Nest
import Lox.Proofs.Session.Faults
import Mathlib.Data.Nat.Find

namespace Lox
set_option autoImplicit true

/-- A later arena in which the same environments are captured. -/
structure Arena.Continues (a a' : Arena) : Prop where
  below : a'.Below
  captured : ∀ i, a'.Captured i ↔ a.Captured i
  evolves : a.Evolves a'

theorem Arena.Continues.trans {a a' a'' : Arena} (h : a.Continues a') (h' : a'.Continues a'') :
    a.Continues a'' :=
  ⟨h'.below, fun i => (h'.captured i).trans (h.captured i), h.evolves.trans h'.evolves⟩

theorem Arena.captured_put {a : Arena} (hg : a.get? h = some e) (hf : f.captured = e.captured) :
    (a.put h f).Captured i ↔ a.Captured i := by
  simp only [Captured, get?_put]
  by_cases hi : h = i
  · subst hi
    simp [hg, hf]
  · simp [hi]

theorem Arena.captured_drop {a : Arena} (hg : a.get? h = some e) (hc : e.captured ≠ true) :
    (a.drop h).Captured i ↔ a.Captured i := by
  simp only [Captured, get?_drop]
  by_cases hi : h = i
  · subst hi
    simp [hg, hc]
  · simp [hi]

theorem Arena.captured_new {a : Arena} (hb : a.Below) (outer : Option Handle)
    (values : Bindings Value) : (a.new outer values).2.Captured i ↔ a.Captured i := by
  simp only [Captured, get?_new]
  by_cases hi : a.next = i
  · subst hi
    simp [hb.get?_next]
  · simp [hi]

namespace Nest

variable {N N' : Nest} {i : Handle}

/-- Every environment that is there is captured, or that of the globals, or open. -/
def Tidy (N : Nest) : Prop :=
  ∀ i e, N.arena.get? i = some e → e.captured = true ∨ i = globals ∨ i ∈ N.opened

theorem Grow.continues (h : Grow N N') (hb : N.arena.Below) : N.arena.Continues N'.arena := by
  cases h with
  | @write _ h e x v _ hg =>
    have hlinked := Arena.linked_put (f := { e with values := e.values.set x v }) hg rfl
    exact ⟨hb.put hg _, fun i => Arena.captured_put hg rfl, hlinked.evolves rfl⟩
  | enter => exact ⟨hb.new _ _, fun i => Arena.captured_new hb _ _, Arena.evolves_new _ _ _⟩

theorem Pop.continues (h : Pop floor N N') (hb : N.arena.Below) : N.arena.Continues N'.arena := by
  cases h with
  | leave hg =>
    split
    · exact ⟨hb, fun i => Iff.rfl, .refl _⟩
    · rename_i hc
      exact ⟨hb.drop _, fun i => Arena.captured_drop hg hc, (Arena.linked_drop _ _).evolves rfl⟩

theorem Grows.continues (h : N.Grows N') (hb : N.arena.Below) : N.arena.Continues N'.arena := by
  induction h with
  | refl => exact ⟨hb, fun i => Iff.rfl, .refl _⟩
  | tail _ hstep ih => exact ih.trans (hstep.continues ih.below)

theorem Pops.continues (h : N.Pops floor N') (hb : N.arena.Below) :
    N.arena.Continues N'.arena := by
  induction h with
  | refl => exact ⟨hb, fun i => Iff.rfl, .refl _⟩
  | tail _ hstep ih => exact ih.trans (hstep.continues ih.below)

theorem Grow.tidy (h : Grow N N') (ht : N.Tidy) : N'.Tidy := by
  intro i e hi
  cases h with
  | @write _ _ e₀ _ _ _ hg =>
    rw [Arena.get?_put] at hi
    split at hi
    · rename_i hhi
      cases hi
      exact ht i e₀ (hhi ▸ hg)
    · exact ht i e hi
  | enter =>
    rw [Arena.get?_new] at hi
    split at hi
    · rename_i hnext
      exact .inr (.inr (hnext ▸ List.mem_cons_self))
    · exact (ht i e hi).imp_right (.imp_right (List.mem_cons_of_mem _))

theorem Pop.tidy (h : Pop floor N N') (ht : N.Tidy) : N'.Tidy := by
  intro i e hi
  cases h with
  | @leave a h₀ e₀ hs hg =>
    -- the environment that is left is captured, or no longer there
    have hcases : a.get? i = some e ∧ (h₀ = i → e.captured = true) := by
      split at hi
      · rename_i hc
        refine ⟨hi, ?_⟩
        rintro rfl
        cases hg.symm.trans hi
        exact hc
      · rw [Arena.get?_drop] at hi
        split at hi
        · cases hi
        · rename_i hne
          exact ⟨hi, fun h => absurd h hne⟩
    rcases ht i e hcases.1 with hc | rfl | hmem
    · exact .inl hc
    · exact .inr (.inl rfl)
    · rcases List.mem_cons.1 hmem with rfl | hmem
      · exact .inl (hcases.2 rfl)
      · exact .inr (.inr hmem)

theorem Grows.tidy (h : N.Grows N') (ht : N.Tidy) : N'.Tidy := by
  induction h with
  | refl => exact ht
  | tail _ hstep ih => exact hstep.tidy ih

theorem Pops.tidy (h : N.Pops floor N') (ht : N.Tidy) : N'.Tidy := by
  induction h with
  | refl => exact ht
  | tail _ hstep ih => exact hstep.tidy ih

theorem Grows.keeps (h : N.Grows N') (hb : N.arena.Below) (b : Handle) :
    N.arena.Keeps b N'.arena := by
  induction h with
  | refl => exact .refl _ _
  | tail hpast hstep ih =>
    refine ih.trans ?_
    cases hstep with
    | @write _ _ e x v _ hg => exact Arena.keeps_put b hg (e.grows_set x v)
    | enter => exact Arena.keeps_new (Grows.continues hpast hb).below b _ _

theorem Pops.keeps (h : N.Pops floor N') : N.arena.Keeps floor N'.arena := by
  induction h with
  | refl => exact .refl _ _
  | tail _ hstep ih =>
    refine ih.trans ?_
    cases hstep with
    | leave hg hlt => exact Arena.keeps_release hg hlt

end Nest

namespace Machine

variable {P : List (Program Binding)} {W : Roles} {E : ArenaFault → Prop} {m m' : Machine}
  {past : List Machine}

theorem Fits.chain (hm : m.Fits P W E) : ∃ zs Ss, m.store.arena.Chain W m.env zs Ss := by
  obtain ⟨_, hctl⟩ := hm
  generalize m.control = control at hctl
  cases hctl with
  | eval _ hc _ => exact ⟨_, _, hc⟩
  | exec _ hc _ _ => exact ⟨_, _, hc⟩
  | value _ hc _ => exact ⟨_, _, hc⟩
  | complete _ hc _ _ => exact ⟨_, _, hc⟩

theorem Fits.opened (hm : m.Fits P W E) : m.store.arena.Opened m.env m.nest.opened := by
  obtain ⟨_, hctl⟩ := hm
  rw [nest]
  generalize m.control = control at hctl
  cases hctl with
  | eval _ hc hk => exact hk.opened hc
  | exec _ hc hk _ => exact hk.opened hc
  | value _ hc hk => exact hk.opened hc
  | complete _ hc _ hk => exact hk.opened hc

/-- Marks are made before anything else changes. -/
theorem Fits.marks (hm : m.Fits P W E) :
    m.captured.arena.Below ∧ m.store.arena.Evolves m.captured.arena ∧
      (m.nest.Tidy → m.captured.Tidy) ∧
      ∀ i, m.captured.arena.Captured i ↔ m.store.arena.Captured i ∨ m.Captures i := by
  rw [captured]
  split
  · rename_i hd
    obtain ⟨zs, Ss, hc⟩ := hm.chain
    obtain ⟨_, _, hsound⟩ := World.Sound.capture hm.store.sound hc
    refine ⟨hsound.below, ?_, fun ht i e hi => ?_, fun i => ?_⟩
    · exact (Arena.linked_captureUpTo _ _ _).evolves (Arena.next_captureUpTo _ _ _)
    · obtain ⟨c, hget⟩ := Arena.get?_captureUpTo m.store.arena (m.store.arena.size + 1) m.env i
      obtain ⟨e₀, hg, rfl⟩ := Option.map_eq_some_iff.1 (hget.symm.trans hi)
      exact (ht i e₀ hg).imp_left fun h => by simp [Environment.mark, h]
    · rw [hc.captured_capture hm.store.sound.closed, Captures, hd]
      simp
  · rename_i hd
    refine ⟨hm.store.sound.below, .refl _, id, fun i => ?_⟩
    simp [Captures, hd, nest, nestOver]

/-- What one step keeps: handles are not used again, and all that is there is captured or still to be
left. It captures what a declaration in it captures. -/
theorem Fits.step_keeps (hm : m.Fits P W E) (hstep : m.step = some m') :
    m.store.arena.Evolves m'.store.arena ∧ (m.nest.Tidy → m'.nest.Tidy) ∧
      ∀ i, m'.store.arena.Captured i ↔ m.store.arena.Captured i ∨ m.Captures i := by
  obtain ⟨hbelow, hevolves, htidy, hcaptured⟩ := hm.marks
  rcases hm.turns hstep with h | h
  · have hc := h.continues hbelow
    exact ⟨hevolves.trans hc.evolves, fun ht => h.tidy (htidy ht),
      fun i => (hc.captured i).trans (hcaptured i)⟩
  · have hc := h.continues hbelow
    exact ⟨hevolves.trans hc.evolves, fun ht => h.tidy (htidy ht),
      fun i => (hc.captured i).trans (hcaptured i)⟩

/-- A step leaves alone the environments up to the one that is current after it. -/
theorem Fits.step_keeps_env (hm : m.Fits P W E) (hstep : m.step = some m') :
    m.store.arena.Keeps m'.env m'.store.arena := by
  have hcaptured : m.store.arena.Keeps m'.env m.captured.arena := by
    rw [captured]
    split
    · exact Arena.keeps_captureUpTo _ _ _ _
    · exact .refl _ _
  rcases hm.turns hstep with h | h
  · exact hcaptured.trans (h.keeps hm.marks.1 m'.env)
  · exact hcaptured.trans h.keeps

/-- What holds at the start of a run and is kept by its steps holds in every state of it. -/
theorem Fits.run_keeps {I : List Machine → Machine → Prop} (hm : m.Fits P W fun _ => True)
    (hI : I past m)
    (hkeep : ∀ past W m m', m.Fits P W (fun _ => True) → m.step = some m' → I past m →
      I (m :: past) m') (n : Nat) :
    I (m.trace n ++ past) (m.run n) ∧ ∃ W', (m.run n).Fits P W' fun _ => True := by
  induction n generalizing m W past with
  | zero => exact ⟨hI, W, hm⟩
  | succ n ih =>
    rw [Machine.run, trace]
    cases hstep : m.step with
    | none => exact ⟨hI, W, hm⟩
    | some m' =>
      obtain ⟨W', hm', _⟩ := hm.step_roles (fun _ _ => trivial) hstep
      have hrun := ih hm' (hkeep past W m m' hm hstep hI)
      simpa using hrun

/-- What a run keeps. -/
structure Kept (m : Machine) (past : List Machine) (m' : Machine) : Prop where
  evolves : m.store.arena.Evolves m'.store.arena
  tidy : m'.nest.Tidy
  captured : ∀ i, m'.store.arena.Captured i ↔
    m.store.arena.Captured i ∨ ∃ m₀ ∈ past, m₀.Captures i

theorem Kept.refl (ht : m.nest.Tidy) : m.Kept [] m := ⟨.refl _, ht, fun i => by simp⟩

theorem Kept.step (h : Kept m₀ past m) (hm : m.Fits P W E) (hstep : m.step = some m') :
    Kept m₀ (m :: past) m' := by
  obtain ⟨hevolves, htidy, hcaptured⟩ := hm.step_keeps hstep
  refine ⟨h.evolves.trans hevolves, htidy h.tidy, fun i => ?_⟩
  rw [hcaptured, h.captured, or_assoc]
  simp [or_comm]

theorem Fits.run_kept (hm : m.Fits P W fun _ => True) (ht : m.nest.Tidy) (n : Nat) :
    m.Kept (m.trace n) (m.run n) ∧ ∃ W', (m.run n).Fits P W' fun _ => True := by
  have hrun := hm.run_keeps (I := m.Kept) (.refl ht) (fun _ _ _ _ hm hstep hk => hk.step hm hstep) n
  rwa [List.append_nil] at hrun

/-- A run up to the first state in which what comes before `base` has ended. -/
theorem Inside.run {base : Cont} (h : Inside base b m)
    (hne : ∀ m' ∈ m.trace n, ¬base.Ends m'.control) : Inside base b (m.run n) := by
  induction n generalizing m with
  | zero => exact h
  | succ n ih =>
    rw [trace] at hne
    rw [Machine.run]
    cases hstep : m.step with
    | none => exact h
    | some m' =>
      rw [hstep] at hne
      refine ih (h.step (hne m (by simp)) hstep) fun m₀ hm₀ => hne m₀ (by simp [hm₀])

theorem exists_first_end {base : Cont} (hend : base.Ends (m.run n).control) :
    ∃ j, (∀ m' ∈ m.trace j, ¬base.Ends m'.control) ∧ base.Ends (m.run j).control := by
  classical
  have hex : ∃ j, base.Ends (m.run j).control := ⟨n, hend⟩
  refine ⟨Nat.find hex, fun m' hm' => ?_, Nat.find_spec hex⟩
  obtain ⟨i, hi, rfl⟩ := mem_trace hm'
  exact Nat.find_min hex hi

/-- What is evaluated has ended when the program has. -/
theorem exists_end {base : Cont} (h : Inside base b m)
    (hbase : ∀ rest, base ≠ .done (.program rest)) (hout : (m.run n).outcome = .finished) :
    ∃ j, (∀ m' ∈ m.trace j, ¬base.Ends m'.control) ∧ base.Ends (m.run j).control := by
  by_cases hex : ∃ j, base.Ends (m.run j).control
  · obtain ⟨j, hend⟩ := hex
    exact exists_first_end hend
  · have hne : ∀ j, ¬base.Ends (m.run j).control := fun j hend => hex ⟨j, hend⟩
    have hin : Inside base b (m.run n) := by
      refine h.run fun m' hm' => ?_
      obtain ⟨i, _, rfl⟩ := mem_trace hm'
      exact hne i
    obtain ⟨c, hctl, _⟩ := control_of_finished hout
    have hover := hin.resolve_right fun hend => hne n hend.1
    rw [hctl] at hover
    cases hover with
    | refl => exact absurd rfl (hbase [])
    | push hbelow _ => cases hbelow

/-- Where the same environments are open as before, what was there is still there. -/
theorem Kept.live (hk : m.Kept past m') (hm : m.Fits P W E) (ht : m.nest.Tidy)
    (hm' : m'.Fits P W' E) (hopened : m'.nest.opened = m.nest.opened)
    (hg : m.store.arena.get? h = some e) :
    ∃ e', m'.store.arena.get? h = some e' ∧ e'.enclosing = e.enclosing := by
  have hlive : ∃ e', m'.store.arena.get? h = some e' := by
    rcases ht h e hg with hc | rfl | hopen
    · obtain ⟨e', hg', _⟩ := (hk.captured h).2 (.inl ⟨e, hg, hc⟩)
      exact ⟨e', hg'⟩
    · obtain ⟨zs, Ss, hchain⟩ := hm'.chain
      obtain ⟨e', hg', _⟩ := hchain.globals_live
      exact ⟨e', hg'⟩
    · exact hm'.opened.live h (hopened ▸ hopen)
  obtain ⟨e', hg'⟩ := hlive
  obtain ⟨e₀, hg₀, heq⟩ := hk.evolves.linked h (hm.store.sound.below h e hg) e' hg'
  cases hg.symm.trans hg₀
  exact ⟨e', hg', heq.symm⟩

/-- Where the same environments are open as before, of those made since the captured ones are
there. -/
theorem Kept.new_live (hk : m.Kept past m') (hm : m.Fits P W E)
    (hopened : m'.nest.opened = m.nest.opened) (hnew : m.store.arena.next ≤ h) :
    m'.store.arena.contains h = true ↔ ∃ m₀ ∈ past, m₀.Captures h := by
  have hold : ∀ e, m.store.arena.get? h ≠ some e :=
    fun e hg => Nat.not_lt_of_le hnew (hm.store.sound.below h e hg)
  have hcaptured : m'.store.arena.Captured h ↔ ∃ m₀ ∈ past, m₀.Captures h := by
    rw [hk.captured, or_iff_right]
    rintro ⟨e, hg, _⟩
    exact hold e hg
  rw [← hcaptured, Arena.contains, Option.isSome_iff_exists]
  constructor
  · rintro ⟨e, hg⟩
    rcases hk.tidy h e hg with hc | rfl | hopen
    · exact ⟨e, hg, hc⟩
    · obtain ⟨zs, Ss, hchain⟩ := hm.chain
      obtain ⟨e₀, hg₀, _⟩ := hchain.globals_live
      exact absurd hg₀ (hold e₀)
    · obtain ⟨e₀, hg₀⟩ := hm.opened.live h (hopened ▸ hopen)
      exact absurd hg₀ (hold e₀)
  · rintro ⟨e, hg, _⟩
    exact ⟨e, hg⟩

/-- A program that has ended has left all environments. -/
theorem nest_of_outcome (hend : m.outcome ≠ .unfinished) : m.nest = ⟨m.store.arena, []⟩ := by
  rw [outcome] at hend
  rw [nest]
  split at hend
  · rename_i hctl
    rw [hctl]
    rfl
  · rename_i hctl
    rw [hctl]
    rfl
  · exact absurd rfl hend

end Machine

namespace Session

variable {s : Session} {programs : List (Program Binding)} {past : List Machine}

theorem Fits.env_eq (hs : s.Fits programs W) : s.env = globals := by
  have hc := hs.current
  generalize s.env = env at hc
  cases hc with
  | globals => rfl

theorem get?_emptyStore (hg : emptyStore.arena.get? i = some e) :
    i = globals ∧ e = { enclosing := none } := by
  simp only [emptyStore, Arena.get?_new] at hg
  split at hg
  · rename_i hi
    cases hg
    exact ⟨hi.symm, rfl⟩
  · simp [Arena.get?] at hg

/-- Between two runs only the globals and what is captured are there. -/
theorem History.released (h : History s programs past) :
    Nest.Tidy ⟨s.store.arena, []⟩ ∧
      ∀ i, s.store.arena.Captured i ↔ ∃ m ∈ past, m.Captures i := by
  induction h with
  | new interactive =>
    refine ⟨fun i e hg => .inr (.inl (get?_emptyStore hg).1), fun i => ?_⟩
    constructor
    · rintro ⟨e, hg, hc⟩
      obtain ⟨_, rfl⟩ := get?_emptyStore hg
      cases hc
    · simp
  | @stopped s programs past source limit _ hrej ih =>
    obtain ⟨hstore, _, _⟩ := run_of_not_accepts hrej limit
    rw [hstore]
    exact ih
  | @executed s programs past source tree limit hist hacc hend ih =>
    obtain ⟨htidy, hcaptured⟩ := ih
    obtain ⟨W, hs, _⟩ := hist.fits
    have hstart := hs.start (E := fun _ => True) (Program.accepted_resolve hacc.proper)
    obtain ⟨hkept, _⟩ := hstart.run_kept htidy limit
    rw [hacc.run_eq] at hend ⊢
    obtain ⟨hstore, _⟩ := store_execute limit s.begin tree.resolve
    have hend := outcome_of_answer hend
    rw [store_begin, env_begin] at hstore hend
    rw [hstore]
    refine ⟨?_, fun i => ?_⟩
    · rw [← Machine.nest_of_outcome hend]
      exact hkept.tidy
    · rw [hkept.captured, Machine.start, hcaptured]
      simp [or_comm, or_and_right, exists_or]

/-- After any runs the globals are current, and what is there are the globals and the environments
captured so far. When an expression or a statement of the next run has ended, with a value, normally,
by a return or with a fault, the environment from before is current again, what was there before is
still there with its link outward, and of what was made since there is what a function or a class was
declared in, or in an environment inside it. -/
theorem environments_released (hist : History s programs past) :
    s.env = globals ∧
    (∀ h, s.store.arena.contains h = true ↔ h = globals ∨ ∃ m ∈ past, m.Captures h) ∧
    ∀ source tree n m, s.Accepts source tree →
      m = (Machine.start s.store s.env tree.resolve).run n →
      ∀ j, (∀ m' ∈ m.trace j, ¬m.control.cont.Ends m'.control) →
        m.control.cont.Ends (m.run j).control →
        (m.run j).env = m.env ∧
        (∀ h e, m.store.arena.get? h = some e →
          ∃ e', (m.run j).store.arena.get? h = some e' ∧ e'.enclosing = e.enclosing) ∧
        ∀ h, m.store.arena.next ≤ h →
          ((m.run j).store.arena.contains h = true ↔ ∃ m' ∈ m.trace j, m'.Captures h) := by
  obtain ⟨htidy, hcaptured⟩ := hist.released
  obtain ⟨W, hs, _⟩ := hist.fits
  refine ⟨hs.env_eq, fun h => ?_, ?_⟩
  · rw [← hcaptured, Arena.contains, Option.isSome_iff_exists]
    constructor
    · rintro ⟨e, hg⟩
      rcases htidy h e hg with hc | rfl | hopen
      · exact .inr ⟨e, hg, hc⟩
      · exact .inl rfl
      · cases hopen
    · rintro (rfl | ⟨e, hg, _⟩)
      · obtain ⟨e, hg, _⟩ := hs.current.globals_live
        exact ⟨e, hg⟩
      · exact ⟨e, hg⟩
  · rintro source tree n m hacc rfl j hinside hend
    have hstart := hs.start (E := fun _ => True) (Program.accepted_resolve hacc.proper)
    obtain ⟨hkept, W', hm⟩ := hstart.run_kept htidy n
    generalize (Machine.start s.store s.env tree.resolve).run n = m at *
    obtain ⟨hkept', W'', hm'⟩ := hm.run_kept hkept.tidy j
    have henv : (m.run j).env = m.env := (Machine.Inside.run (.inl .refl) hinside).env_of_ends hend
    have hopened : (m.run j).nest.opened = m.nest.opened := by
      rw [Machine.nest, Machine.nestOver, hend.opened, henv]
      rfl
    exact ⟨henv, fun h e hg => hkept'.live hm hkept.tidy hm' hopened hg,
      fun h hnew => hkept'.new_live hm hopened hnew⟩

/-- A block with a function that returns from within two more blocks, one of them captured. -/
theorem environments_released_return :
    ∃ source tree m j, (new true).Accepts source tree ∧
      m = (Machine.start (new true).store (new true).env tree.resolve).run 1 ∧
      (∀ m' ∈ m.trace j, ¬m.control.cont.Ends m'.control) ∧
      m.control.cont.Ends (m.run j).control ∧ (m.run j).env = m.env ∧
      ∀ h, 1 ≤ h → ((m.run j).store.arena.contains h = true ↔ ∃ m' ∈ m.trace j, m'.Captures h) := by
  let source := "\x7b fun f() \x7b \x7b var a; fun g() \x7b\x7d " ++
    "\x7b var b; return; \x7d \x7d \x7d f(); \x7d"
  let start := Machine.start (new true).store (new true).env (readProgram source).1.resolve
  have hacc : (new true).Accepts source (readProgram source).1 :=
    ⟨rfl, Prod.ext rfl (by decide +kernel : (readProgram source).2 = []), by decide +kernel⟩
  have hnext : (start.run 1).store.arena.next = 1 := by decide +kernel
  -- the program is one statement, so that statement ends where the program does
  have hcont : (start.run 1).control.cont = .done (.program []) := by
    obtain ⟨stmt, hstmt⟩ : ∃ stmt, (readProgram source).1.resolve = [stmt] :=
      List.length_eq_one_iff.1 (by decide +kernel)
    simp only [start, hstmt]
    rfl
  have hend : (start.run 1).control.cont.Ends ((start.run 1).run 40).control := by
    rw [hcont]
    have hfinished : ((start.run 1).run 40).outcome = .finished := by decide +kernel
    obtain ⟨c, hctl, _⟩ := Machine.control_of_finished hfinished
    exact ⟨c, hctl⟩
  obtain ⟨j, hinside, hend⟩ := Machine.exists_first_end hend
  obtain ⟨henv, _, hnew⟩ :=
    (environments_released (.new true)).2.2 source _ 1 (start.run 1) hacc rfl j hinside hend
  exact ⟨source, _, _, j, hacc, rfl, hinside, hend, henv,
    fun h hh => hnew h (Nat.le_trans (Nat.le_of_eq hnext) hh)⟩

end Session

end Lox
