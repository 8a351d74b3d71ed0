import Lox.Proofs.Grammar.Spends
import Lox.Proofs.Scope.Declarations
import Lox.Proofs.Session.Rejected
import Lox.Proofs.Session.Scopes

namespace Lox
set_option autoImplicit true

/-- A reference in the trees of a session: the number of its run, and its place in the text. -/
structure Node where
  run : Nat
  pos : Pos
deriving DecidableEq

def Binding.distance? : Binding → Option Nat
  | .free => none
  | .bound d => some d

/-- The distance entered for a reference. The last entry counts. -/
def recorded? (table : List (Node × Nat)) (node : Node) : Option Nat := table.reverse.lookup node

theorem recorded?_eq_none (h : ∀ d, (node, d) ∉ table) : recorded? table node = none := by
  rw [recorded?, List.lookup_eq_none_iff]
  intro entry hentry
  rw [bne_iff_ne]
  rintro rfl
  exact h entry.2 (List.mem_reverse.1 hentry)

theorem recorded?_eq_some (hkeys : (table.map (·.1)).Nodup) (h : (node, d) ∈ table) :
    recorded? table node = some d := by
  cases hfound : recorded? table node with
  | none =>
    rw [recorded?, List.lookup_eq_none_iff] at hfound
    have hne := hfound _ (List.mem_reverse.2 h)
    simp at hne
  | some d' =>
    obtain ⟨before, behind, htable, _⟩ := List.lookup_eq_some_iff.1 hfound
    have hmem : (node, d') ∈ table := by
      rw [← List.mem_reverse, htable]
      simp
    exact congrArg (fun entry => some entry.2) (List.inj_on_of_nodup_map hkeys hmem h rfl)

theorem recorded?_append (h : ∀ d, (node, d) ∉ later) :
    recorded? (table ++ later) node = recorded? table node := by
  have hlater := recorded?_eq_none h
  rw [recorded?] at hlater
  rw [recorded?, List.reverse_append, List.lookup_append, hlater, Option.none_or, recorded?]

theorem Mention.pos_entry (ms : List (Mention Binding)) :
    ((ms.flatMap (·.entry)).map (·.pos)).Sublist (ms.map (·.pos)) := by
  induction ms with
  | nil => exact .slnil
  | cons m ms ih =>
    obtain ⟨kind, name, pos, note⟩ := m
    cases note with
    | free => exact ih.cons _
    | bound d => exact ih.cons_cons _

namespace Session

def after (s : Session) : List (Nat × String) → Session
  | [] => s
  | (limit, source) :: rest => (s.run limit source).session.after rest

/-- The entries made in a run. Nothing is resolved if there is an error in the log, or one in reading
the text. -/
def entries (s : Session) (source : String) : List Reference :=
  if s.begin.log.compileError || !(readProgram source).2.isEmpty then []
  else Stmt.referencesAll (readProgram source).1.resolve

/-- All references in the trees of runs, the first of which is number `i`. -/
def nodes (i : Nat) : List (Nat × String) → List Node
  | [] => []
  | (_, source) :: rest =>
    (Stmt.spotsAll (readProgram source).1).map (⟨i, ·⟩) ++ nodes (i + 1) rest

/-- All entries made in runs, the first of which is number `i`. -/
def record (i : Nat) (s : Session) : List (Nat × String) → List (Node × Nat)
  | [] => []
  | (limit, source) :: rest =>
    (s.entries source).map (fun r => (⟨i, r.pos⟩, r.distance)) ++
      record (i + 1) (s.run limit source).session rest

variable {s : Session} {inputs : List (Nat × String)} {input : Nat × String} {i j : Nat}

theorem record_append (i : Nat) (s : Session) (inputs later : List (Nat × String)) :
    s.record i (inputs ++ later) =
      s.record i inputs ++ (s.after inputs).record (i + inputs.length) later := by
  induction inputs generalizing i s with
  | nil => rfl
  | cons input rest ih =>
    rw [List.cons_append, record, ih, record, List.append_assoc, List.length_cons,
      Nat.add_right_comm]
    rfl

theorem run_of_mem_nodes (h : node ∈ nodes i inputs) :
    i ≤ node.run ∧ node.run < i + inputs.length := by
  induction inputs generalizing i with
  | nil => cases h
  | cons input rest ih =>
    rw [List.length_cons]
    rcases List.mem_append.1 h with h | h
    · obtain ⟨pos, _, rfl⟩ := List.mem_map.1 h
      exact ⟨Nat.le_refl i, Nat.lt_add_of_pos_right (Nat.zero_lt_succ _)⟩
    · have := ih h
      omega

theorem nodup_nodes (i : Nat) (inputs : List (Nat × String)) : (nodes i inputs).Nodup := by
  induction inputs generalizing i with
  | nil => exact .nil
  | cons input rest ih =>
    apply List.Nodup.append
    · exact (nodup_spots input.2).map fun p p' h => (Node.mk.inj h).2
    · exact ih (i + 1)
    · intro node hnode hrest
      obtain ⟨pos, _, rfl⟩ := List.mem_map.1 hnode
      exact absurd (run_of_mem_nodes hrest).1 (Nat.not_succ_le_self i)

theorem pos_entries (s : Session) (source : String) :
    ((s.entries source).map (·.pos)).Sublist (Stmt.spotsAll (readProgram source).1) := by
  rw [entries]
  split
  · exact List.nil_sublist _
  · have hresolve : Stmt.spotsAll (readProgram source).1 =
        (Program.mentions (readProgram source).1.resolve).map (·.pos) :=
      (Program.places_mentions _).symm
    rw [Program.references_eq, hresolve]
    exact Mention.pos_entry _

theorem record_sublist (i : Nat) (s : Session) (inputs : List (Nat × String)) :
    ((s.record i inputs).map (·.1)).Sublist (nodes i inputs) := by
  induction inputs generalizing i s with
  | nil => exact .slnil
  | cons input rest ih =>
    rw [record, List.map_append, nodes, List.map_map]
    refine List.Sublist.append ?_ (ih _ _)
    have hpos := (pos_entries s input.2).map (Node.mk i)
    rw [List.map_map] at hpos
    exact hpos

theorem nodup_record (i : Nat) (s : Session) (inputs : List (Nat × String)) :
    ((s.record i inputs).map (·.1)).Nodup :=
  (nodup_nodes i inputs).sublist (record_sublist i s inputs)

theorem run_of_mem_record (h : (node, d) ∈ s.record i inputs) : i ≤ node.run :=
  (run_of_mem_nodes ((record_sublist i s inputs).subset (List.mem_map_of_mem h))).1

theorem recorded?_later (s : Session) (inputs later : List (Nat × String))
    (h : node.run < inputs.length) :
    recorded? (s.record 0 (inputs ++ later)) node = recorded? (s.record 0 inputs) node := by
  rw [record_append]
  apply recorded?_append
  intro d hmem
  have := run_of_mem_record hmem
  omega

theorem mem_record (hinput : inputs[j]? = some input) :
    (⟨i + j, pos⟩, d) ∈ s.record i inputs ↔
      ∃ r ∈ (s.after (inputs.take j)).entries input.2, r.pos = pos ∧ r.distance = d := by
  induction inputs generalizing i j s with
  | nil => cases hinput
  | cons first rest ih =>
    rw [record, List.mem_append]
    cases j with
    | zero =>
      cases hinput
      constructor
      · rintro (h | h)
        · obtain ⟨r, hr, heq⟩ := List.mem_map.1 h
          cases heq
          exact ⟨r, hr, rfl, rfl⟩
        · exact absurd (run_of_mem_record h) (Nat.not_succ_le_self i)
      · rintro ⟨r, hr, rfl, rfl⟩
        exact .inl (List.mem_map.2 ⟨r, hr, rfl⟩)
    | succ j =>
      rw [show i + (j + 1) = i + 1 + j by omega, ih hinput]
      refine or_iff_right fun h => ?_
      obtain ⟨r, _, heq⟩ := List.mem_map.1 h
      have := congrArg (·.1.run) heq
      simp only at this
      omega

/-- Run number `j` executes the program `P`. -/
def Executes (s : Session) (inputs : List (Nat × String)) (j : Nat) (P : Program Binding) : Prop :=
  ∃ input tree, inputs[j]? = some input ∧ (s.after (inputs.take j)).Accepts input.2 tree ∧
    P = tree.resolve

/-- The machine comes to the state `m` in run number `i`, and the runs before it have ended. -/
def Reaches (s : Session) (inputs : List (Nat × String)) (i : Nat) (m : Machine) : Prop :=
  (∀ r ∈ s.runs (inputs.take i), r.answer ≠ .unfinished) ∧
    ∃ P n, s.Executes inputs i P ∧
      m = (Machine.start (s.after (inputs.take i)).store (s.after (inputs.take i)).env P).run n

theorem entries_of_accepts (h : s.Accepts source tree) :
    s.entries source = Stmt.referencesAll tree.resolve := by
  rw [entries, h.read, h.clean]
  rfl

theorem mem_references {ms : List (Mention Binding)} (hms : (ms.map (·.pos)).Nodup) (hm : m ∈ ms) :
    (∃ r ∈ ms.flatMap (·.entry), r.pos = m.pos ∧ r.distance = d) ↔ m.note = .bound d := by
  constructor
  · rintro ⟨r, hr, hpos, rfl⟩
    obtain ⟨m', hm', hentry⟩ := List.mem_flatMap.1 hr
    obtain ⟨kind, name, pos, note⟩ := m'
    cases note with
    | free => cases hentry
    | bound d =>
      cases List.mem_singleton.1 hentry
      rw [List.inj_on_of_nodup_map hms hm hm' hpos.symm]
  · intro hnote
    obtain ⟨kind, name, pos, note⟩ := m
    cases hnote
    exact ⟨_, List.mem_flatMap.2 ⟨_, hm, List.mem_singleton_self _⟩, rfl, rfl⟩

/-- What is entered for a reference of a program that is executed is what is noted at it. -/
theorem Executes.recorded? (h : s.Executes inputs j P) (hm : m ∈ P.mentions) :
    recorded? (s.record 0 inputs) ⟨j, m.pos⟩ = m.note.distance? := by
  obtain ⟨input, tree, hinput, hacc, rfl⟩ := h
  have htree : (readProgram input.2).1 = tree := congrArg Prod.fst hacc.read
  have hspots : ((Program.mentions tree.resolve).map (·.pos)).Nodup := by
    rw [Program.places_mentions, ← htree]
    exact nodup_spots input.2
  have hentry : ∀ d, (⟨j, m.pos⟩, d) ∈ s.record 0 inputs ↔ m.note = .bound d := by
    intro d
    have hrecord : (⟨0 + j, m.pos⟩, d) ∈ s.record 0 inputs ↔ _ := mem_record hinput
    rw [Nat.zero_add, entries_of_accepts hacc, Program.references_eq,
      mem_references hspots hm] at hrecord
    exact hrecord
  cases hnote : m.note with
  | free =>
    apply recorded?_eq_none
    intro d hmem
    rw [hentry, hnote] at hmem
    cases hmem
  | bound d => exact recorded?_eq_some (nodup_record 0 s inputs) ((hentry d).2 hnote)

theorem interactive_after (s : Session) (inputs : List (Nat × String)) :
    (s.after inputs).interactive = s.interactive := by
  induction inputs generalizing s with
  | nil => rfl
  | cons input rest ih => exact (ih _).trans (interactive_run input.1 s input.2)

/-- Without the rejected texts, the number of another text is that of the others before it. -/
theorem getElem?_without_rejected (hinput : inputs[j]? = some input)
    (h : rejected input.2 = false) :
    (inputs.filter (!rejected ·.2))[(inputs.take j).countP (!rejected ·.2)]? = some input := by
  obtain ⟨hj, hget⟩ := List.getElem?_eq_some_iff.1 hinput
  have hsplit : inputs = inputs.take j ++ input :: inputs.drop (j + 1) := by
    rw [← hget, ← List.drop_eq_getElem_cons hj, List.take_append_drop]
  have hfilter := congrArg (List.filter (!rejected ·.2)) hsplit
  rw [List.filter_append, List.filter_cons_of_pos (by rw [h]; rfl)] at hfilter
  rw [hfilter, List.countP_eq_length_filter, List.getElem?_append_right (Nat.le_refl _),
    Nat.sub_self]
  rfl

/-- A program is executed with or without the rejected texts. -/
theorem Executes.without_rejected (hs : s.interactive = true) (h : s.Executes inputs j P) :
    s.Executes (inputs.filter (!rejected ·.2)) ((inputs.take j).countP (!rejected ·.2)) P := by
  obtain ⟨input, tree, hinput, hacc, rfl⟩ := h
  have hafter := fun inputs => (interactive_after s inputs).trans hs
  have haccepted := (accepts_iff (hafter _)).1 ⟨tree, hacc⟩
  refine ⟨input, tree, getElem?_without_rejected hinput haccepted, ?_, rfl⟩
  refine ⟨?_, hacc.read, hacc.proper⟩
  rw [begin, if_pos (hafter _)]
  rfl

/-- Rejected texts leave no trace in what is entered. For every reference of a program that an
interactive session executes, the same distance is entered without them. -/
theorem recorded?_without_rejected (hs : s.interactive = true) (h : s.Executes inputs j P)
    (hm : m ∈ P.mentions) :
    recorded? (s.record 0 (inputs.filter (!rejected ·.2)))
        ⟨(inputs.take j).countP (!rejected ·.2), m.pos⟩ =
      recorded? (s.record 0 inputs) ⟨j, m.pos⟩ := by
  rw [(h.without_rejected hs).recorded? hm, h.recorded? hm]

/-- After runs that ended, all programs in the session are those that the runs executed. -/
theorem History.after (hist : History s programs past)
    (hend : ∀ r ∈ s.runs inputs, r.answer ≠ .unfinished) :
    ∃ programs' past', History (s.after inputs) programs' past' ∧
      ∀ P ∈ programs', P ∈ programs ∨ ∃ j, s.Executes inputs j P := by
  induction inputs generalizing s programs past with
  | nil => exact ⟨programs, past, hist, fun P hP => .inl hP⟩
  | cons input rest ih =>
    obtain ⟨hfirst, hrest⟩ := List.forall_mem_cons.1 hend
    have hlater : ∀ P, (∃ j, (s.run input.1 input.2).session.Executes rest j P) →
        ∃ j, s.Executes (input :: rest) j P := by
      rintro P ⟨j, later, tree, hlater, hacc, rfl⟩
      exact ⟨j + 1, later, tree, hlater, hacc, rfl⟩
    by_cases hacc : ∃ tree, s.Accepts input.2 tree
    · obtain ⟨tree, hacc⟩ := hacc
      obtain ⟨programs', past', hist', hfrom⟩ := ih (.executed hist hacc hfirst) hrest
      refine ⟨programs', past', hist', fun P hP => ?_⟩
      rcases hfrom P hP with hP | hP
      · rcases List.mem_cons.1 hP with rfl | hP
        · exact .inr ⟨0, input, tree, rfl, hacc, rfl⟩
        · exact .inl hP
      · exact .inr (hlater P hP)
    · obtain ⟨programs', past', hist', hfrom⟩ := ih (.stopped hist (not_exists.1 hacc)) hrest
      exact ⟨programs', past', hist', fun P hP => (hfrom P hP).imp_right (hlater P)⟩

theorem Executes.of_take (h : s.Executes (inputs.take i) j P) : j < i ∧ s.Executes inputs j P := by
  obtain ⟨input, tree, hinput, hacc, rfl⟩ := h
  rw [List.getElem?_take] at hinput
  split at hinput
  · rename_i hj
    rw [List.take_take, Nat.min_eq_left (Nat.le_of_lt hj)] at hacc
    exact ⟨hj, input, tree, hinput, hacc, rfl⟩
  · cases hinput

/-- The machine executes code of a program of this run or of an earlier one. -/
theorem Reaches.at_site {interactive : Bool} (h : (new interactive).Reaches inputs i m)
    (hat : m.control.At code₀) :
    ∃ j P zs Γ code, j ≤ i ∧ (new interactive).Executes inputs j P ∧ m.control.At code ∧
      Site [P] zs Γ code := by
  obtain ⟨hend, P, n, ⟨input, tree, hinput, hacc, rfl⟩, rfl⟩ := h
  obtain ⟨programs, past, hist, hfrom⟩ := History.after (.new interactive) hend
  obtain ⟨W, hfits, _⟩ := (Moment.intro hist hacc n).fits
  obtain ⟨code, zs, Γ, hat, hsite, _⟩ := hfits.control.at_site hat
  obtain ⟨P, hP, hsite⟩ := hsite.own_program
  rcases List.mem_cons.1 hP with rfl | hP
  · exact ⟨i, _, zs, Γ, code, Nat.le_refl i, ⟨input, tree, hinput, hacc, rfl⟩, hat, hsite⟩
  · rcases hfrom P hP with hnone | ⟨j, hj⟩
    · cases hnone
    · obtain ⟨hji, hj⟩ := hj.of_take
      exact ⟨j, P, zs, Γ, code, Nat.le_of_lt hji, hj, hat, hsite⟩

theorem mention?_of_at (h : Control.At c code) (h' : c.At code') :
    code.mention? = code'.mention? := by
  cases h <;> cases h' <;> rfl

/-- Entries are kept apart and kept. Over all runs of a session each reference in a tree has a place
of its own, and at most one entry. Later runs, accepted or not, change no entry of an earlier one.
Whenever the machine is at a reference, in a closure of whatever run, that reference stands in the
text of one of the runs, and the distance noted at it is the one entered for it there. -/
theorem entries_kept (interactive : Bool) (inputs : List (Nat × String)) :
    (nodes 0 inputs).Nodup ∧
    ((((new interactive).record 0 inputs).map (·.1)).Nodup ∧
      ((new interactive).record 0 inputs).map (·.1) ⊆ nodes 0 inputs) ∧
    (∀ earlier later node, inputs = earlier ++ later → node.run < earlier.length →
      recorded? ((new interactive).record 0 inputs) node =
        recorded? ((new interactive).record 0 earlier) node) ∧
    ∀ i m code mention, (new interactive).Reaches inputs i m → m.control.At code →
      code.mention? = some mention →
      ∃ j P zs Γ code', j ≤ i ∧ (new interactive).Executes inputs j P ∧ m.control.At code' ∧
        Site [P] zs Γ code' ∧ code'.mention? = some mention ∧
        recorded? ((new interactive).record 0 inputs) ⟨j, mention.pos⟩ =
          mention.note.distance? := by
  refine ⟨nodup_nodes 0 inputs, ⟨nodup_record 0 _ inputs, (record_sublist 0 _ inputs).subset⟩,
    ?_, ?_⟩
  · rintro earlier later node rfl hrun
    exact recorded?_later _ earlier later hrun
  · intro i m code mention hreach hat hmention
    obtain ⟨j, P, zs, Γ, code', hj, hexec, hat', hsite⟩ := hreach.at_site hat
    rw [mention?_of_at hat hat'] at hmention
    exact ⟨j, P, zs, Γ, code', hj, hexec, hat', hsite, hmention,
      hexec.recorded? (hsite.mem_mentions hmention)⟩

/-- A closure of the first run reads a variable in the third, after a text that was rejected when it
had been resolved. -/
theorem entries_kept_closure :
    ∃ inputs m name k, (new true).Reaches inputs 2 m ∧
      m.control = .eval (.read name (.bound 1)) k ∧
      inputs.map (rejected ·.2) = [false, true, false] ∧
      ((new true).record 0 inputs).map (·.1.run) = [0, 0, 1] ∧
      ∃ j ≤ 2, recorded? ((new true).record 0 inputs) ⟨j, name.pos⟩ = some 1 := by
  let inputs := [(50, "fun f() \x7b var x; fun g() \x7b return x; \x7d return g; \x7d var h = f();"),
    (50, "\x7b var y; y; return; \x7d"), (50, "h();")]
  have hacc : ((new true).after (inputs.take 2)).Accepts "h();" (readProgram "h();").1 :=
    ⟨by decide +kernel, Prod.ext rfl (by decide +kernel : (readProgram "h();").2 = []),
      by decide +kernel⟩
  have hend : ∀ r ∈ (new true).runs (inputs.take 2), r.answer ≠ .unfinished := by decide +kernel
  generalize hst : (Machine.start ((new true).after (inputs.take 2)).store
    ((new true).after (inputs.take 2)).env (readProgram "h();").1.resolve).run 7 = m
  have hreach : (new true).Reaches inputs 2 m :=
    ⟨hend, _, 7, ⟨_, _, rfl, hacc, rfl⟩, hst.symm⟩
  have hread : (match m.control with
      | .eval (.read _ (.bound 1)) _ => true
      | _ => false) = true := by
    rw [← hst]
    decide +kernel
  split at hread
  · rename_i name k hctl
    have hat : m.control.At (.expr (.read name (.bound 1))) := by
      rw [hctl]
      exact .eval
    obtain ⟨j, _, _, _, _, hj, _, _, _, _, hrecorded⟩ :=
      (entries_kept true inputs).2.2.2 2 m _ _ hreach hat rfl
    exact ⟨inputs, m, name, k, hreach, hctl, by decide +kernel, by decide +kernel, j, hj, hrecorded⟩
  · cases hread

end Session

end Lox
