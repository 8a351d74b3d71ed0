import Lox.Repl

namespace Lox
set_option autoImplicit true

/-- The source text in a line, if the line is no command. -/
def sourceText? (line : String) : Option String :=
  match Command.ofLine line with
  | .source text => some text
  | _ => none

def joinLines (lines : List String) : String := "\n".intercalate lines

/-- However few of the first lines are taken, more must follow. -/
def StaysOpen (lines : List String) : Prop :=
  ∀ part, part <+: lines → part ≠ [] → isOpen (joinLines part) = true

/-- The last of the lines is the first that closes them. -/
structure Closes (lines : List String) : Prop where
  nonempty : lines ≠ []
  closed : isOpen (joinLines lines) = false
  before : StaysOpen lines.dropLast

/-- Lines of source text in groups that were run, and those that wait. -/
structure Grouped (lines sources : List String) (pending : String)
    (groups : List (List String)) (waiting : List String) : Prop where
  all : lines = groups.flatten ++ waiting
  sources : sources = groups.map joinLines
  pending : pending = joinLines waiting
  closes : ∀ group ∈ groups, Closes group
  waits : StaysOpen waiting

theorem staysOpen_nil : StaysOpen [] :=
  fun _ hpart hne => absurd (List.prefix_nil.1 hpart) hne

theorem StaysOpen.concat (h : StaysOpen lines) (hopen : isOpen (joinLines (lines ++ [line])) = true) :
    StaysOpen (lines ++ [line]) := by
  intro part hpart hne
  rcases List.prefix_concat_iff.1 hpart with rfl | hpart
  · exact hopen
  · exact h part hpart hne

theorem StaysOpen.pending (h : StaysOpen lines) :
    joinLines lines = "" ∨ isOpen (joinLines lines) = true := by
  by_cases hnil : lines = []
  · exact .inl (hnil ▸ rfl)
  · exact .inr (h lines List.prefix_rfl hnil)

theorem ne_empty_of_isOpen (h : isOpen text = true) : text ≠ "" := by
  rintro rfl
  revert h
  decide

theorem StaysOpen.joinLine (h : StaysOpen lines) (line : String) :
    joinLine (joinLines lines) line = joinLines (lines ++ [line]) := by
  by_cases hnil : lines = []
  · subst hnil
    exact String.intercalate_singleton.symm
  · have hne := ne_empty_of_isOpen (h lines List.prefix_rfl hnil)
    rw [Lox.joinLine, if_neg (by simpa using hne), joinLines, joinLines,
      String.intercalate_append_of_ne_nil hnil (by simp), String.intercalate_singleton]

namespace Repl

/-- A source text was run from a session: what is written and the session after it are those of the
run, and then what broke out of the run is reported. -/
structure Runs (limit : Nat) (s : Session) (source : String) (reaction : Reaction) : Prop where
  ran : reaction.ran = some (source, s.run limit source)
  session : reaction.repl.session =
    ((s.run limit source).session.report (s.run limit source).answer.strays).1
  output : reaction.output =
    (s.run limit source).output ++ (s.run limit source).answer.strays.map .diagnostic
  goesOn : reaction.stop = false

/-- No source text was run, and at most warnings were reported. -/
structure Idles (s : Session) (reaction : Reaction) : Prop where
  ran : reaction.ran = none
  session : ∃ ds, (∀ d ∈ ds, ∃ text, d = .warning text) ∧
    reaction.repl.session = (s.report ds).1

/-- Source texts are run one after another, each from the session that the one before has left, with
nothing between them but warnings and what broke out of a run. -/
inductive Calls : Session → List (String × Run) → Session → Prop where
  | none : Calls s [] s
  | run (limit : Nat) (source : String) :
      Calls ((s.run limit source).session.report (s.run limit source).answer.strays).1 runs t →
      Calls s ((source, s.run limit source) :: runs) t
  | warn : (∀ d ∈ ds, ∃ text, d = .warning text) → Calls (s.report ds).1 runs t → Calls s runs t

/-- The prompt tells whether text waits, and text that waits is open. -/
def Tells (r : Repl) : Prop :=
  r.pending = "" ∧ r.prompt = "> " ∨ r.pending ≠ "" ∧ isOpen r.pending = true ∧ r.prompt = ". "

/-- The prompt after lines, each with a limit for what it runs, and the source texts run by then with
their runs. -/
def feedAll (r : Repl) : List (Nat × String) → Repl × List (String × Run)
  | [] => (r, [])
  | (limit, line) :: rest =>
    let reaction := r.feed limit line
    let later := reaction.repl.feedAll rest
    (later.1, reaction.ran.toList ++ later.2)

variable {r : Repl} {lines sources waiting : List String} {groups : List (List String)}

theorem runs_runSource (limit : Nat) (r : Repl) (source : String) :
    Runs limit r.session source (r.runSource limit source) := ⟨rfl, rfl, rfl, rfl⟩

theorem idles_leave (r : Repl) (argument : String) : Idles r.session (r.leave argument) := by
  rw [leave]
  split
  · exact ⟨rfl, [], List.forall_mem_nil _, rfl⟩
  · exact ⟨rfl, _, List.forall_mem_singleton.2 ⟨_, rfl⟩, rfl⟩

theorem pending_leave (r : Repl) (argument : String) :
    (r.leave argument).repl.pending = r.pending ∧ (r.leave argument).repl.prompt = r.prompt := by
  rw [leave]
  split <;> exact ⟨rfl, rfl⟩

theorem feed_of_command (h : sourceText? line = none) (limit : Nat) :
    Idles r.session (r.feed limit line) ∧ (r.feed limit line).repl.pending = r.pending ∧
      (r.feed limit line).repl.prompt = r.prompt := by
  rw [sourceText?] at h
  rw [feed]
  cases hline : Command.ofLine line with
  | nothing => exact ⟨⟨rfl, [], List.forall_mem_nil _, rfl⟩, rfl, rfl⟩
  | help => exact ⟨⟨rfl, [], List.forall_mem_nil _, rfl⟩, rfl, rfl⟩
  | exit argument => exact ⟨r.idles_leave argument, r.pending_leave argument⟩
  | endOfInput argument =>
    obtain ⟨hran, hsession⟩ := r.idles_leave argument
    exact ⟨⟨hran, hsession⟩, r.pending_leave argument⟩
  | source text =>
    rw [hline] at h
    cases h

theorem feed_of_source (h : sourceText? line = some text) (limit : Nat) :
    r.feed limit line =
      if isOpen (joinLine r.pending text) then
        { repl := { r with pending := joinLine r.pending text, prompt := nextPrompt } }
      else r.cleared.runSource limit (joinLine r.pending text) := by
  rw [sourceText?] at h
  split at h
  · rename_i hline
    cases h
    rw [feed, hline]
  · cases h

/-- A line makes the prompt run a source text once, or nothing. -/
theorem runs_or_idles (limit : Nat) (r : Repl) (line : String) :
    (∃ source, Runs limit r.session source (r.feed limit line)) ∨
      Idles r.session (r.feed limit line) := by
  cases hline : sourceText? line with
  | none => exact .inr (feed_of_command hline limit).1
  | some text =>
    rw [feed_of_source hline]
    split
    · exact .inr ⟨rfl, [], List.forall_mem_nil _, rfl⟩
    · exact .inl ⟨_, runs_runSource limit r.cleared _⟩

theorem calls_feedAll (r : Repl) (inputs : List (Nat × String)) :
    Calls r.session (r.feedAll inputs).2 (r.feedAll inputs).1.session := by
  induction inputs generalizing r with
  | nil => exact .none
  | cons input rest ih =>
    have hrest := ih (r.feed input.1 input.2).repl
    rw [feedAll]
    rcases runs_or_idles input.1 r input.2 with ⟨source, hruns⟩ | hidles
    · rw [hruns.session] at hrest
      rw [hruns.ran]
      exact .run input.1 source hrest
    · obtain ⟨ds, hds, hsession⟩ := hidles.session
      rw [hsession] at hrest
      rw [hidles.ran]
      exact .warn hds hrest

theorem tells_feed (h : r.Tells) (limit : Nat) (line : String) :
    (r.feed limit line).repl.Tells := by
  cases hline : sourceText? line with
  | none =>
    obtain ⟨_, hpending, hprompt⟩ := feed_of_command (r := r) hline limit
    rw [Tells, hpending, hprompt]
    exact h
  | some text =>
    rw [feed_of_source hline]
    split
    · rename_i hopen
      exact .inr ⟨ne_empty_of_isOpen hopen, hopen, rfl⟩
    · exact .inl ⟨rfl, rfl⟩

theorem tells_feedAll (h : r.Tells) (inputs : List (Nat × String)) : (r.feedAll inputs).1.Tells := by
  induction inputs generalizing r with
  | nil => exact h
  | cons input rest ih => exact ih (tells_feed h input.1 input.2)

theorem grouped_feed (h : Grouped lines sources r.pending groups waiting) (limit : Nat)
    (line : String) :
    ∃ groups waiting, Grouped (lines ++ (sourceText? line).toList)
      (sources ++ (r.feed limit line).ran.toList.map (·.1)) (r.feed limit line).repl.pending groups
      waiting := by
  cases hline : sourceText? line with
  | none =>
    obtain ⟨hidles, hpending, _⟩ := feed_of_command (r := r) hline limit
    rw [hidles.ran, hpending, Option.toList_none, Option.toList_none, List.map_nil, List.append_nil,
      List.append_nil]
    exact ⟨groups, waiting, h⟩
  | some text =>
    have hjoin : joinLine r.pending text = joinLines (waiting ++ [text]) := by
      rw [h.pending, h.waits.joinLine]
    rw [feed_of_source hline, hjoin, Option.toList_some]
    split
    · -- the line waits with those before it
      rename_i hopen
      refine ⟨groups, waiting ++ [text], ?_, ?_, rfl, h.closes, h.waits.concat hopen⟩
      · rw [h.all, List.append_assoc]
      · rw [h.sources, Option.toList_none, List.map_nil, List.append_nil]
    · -- the line ends a group
      rename_i hclosed
      have hcloses : Closes (waiting ++ [text]) :=
        ⟨by simp, Bool.eq_false_iff.2 hclosed, by rw [List.dropLast_concat]; exact h.waits⟩
      refine ⟨groups ++ [waiting ++ [text]], [], ?_, ?_, rfl, ?_, staysOpen_nil⟩
      · rw [h.all]
        simp
      · rw [h.sources, (runs_runSource limit r.cleared _).ran]
        simp
      · intro group hgroup
        rcases List.mem_append.1 hgroup with hgroup | hgroup
        · exact h.closes group hgroup
        · rw [List.mem_singleton.1 hgroup]
          exact hcloses

theorem grouped_feedAll (h : Grouped lines sources r.pending groups waiting)
    (inputs : List (Nat × String)) :
    ∃ groups waiting, Grouped (lines ++ inputs.filterMap (sourceText? ·.2))
      (sources ++ (r.feedAll inputs).2.map (·.1)) (r.feedAll inputs).1.pending groups waiting := by
  induction inputs generalizing r lines sources groups waiting with
  | nil =>
    refine ⟨groups, waiting, ?_⟩
    rw [List.filterMap_nil, List.append_nil, feedAll, List.map_nil, List.append_nil]
    exact h
  | cons input rest ih =>
    obtain ⟨groups', waiting', h'⟩ := grouped_feed h input.1 input.2
    obtain ⟨groups'', waiting'', h''⟩ := ih h'
    refine ⟨groups'', waiting'', ?_⟩
    have htexts : (input :: rest).filterMap (sourceText? ·.2) =
        (sourceText? input.2).toList ++ rest.filterMap (sourceText? ·.2) := by
      cases hline : sourceText? input.2 <;> simp [hline]
    rw [htexts, feedAll, List.map_append, ← List.append_assoc, ← List.append_assoc]
    exact h''

/-- The prompt loses no line and runs none twice. Whatever lines are typed, those of source text are
the groups whose joined texts were run, one after another, and then the ones that wait. A group ends
with the first line that closes it. The runs are made one after another, and the last leaves the
session there is, warnings apart. The prompt tells whether text waits, and text that waits is open.
Each line runs a source text from the session there is, once, and the session and the output are those
of that run; or it runs none and leaves the session as it is, warnings apart. -/
theorem feedAll_groups (session : Session) (inputs : List (Nat × String)) :
    ∃ r runs groups waiting, { session : Repl }.feedAll inputs = (r, runs) ∧
      Grouped (inputs.filterMap (sourceText? ·.2)) (runs.map (·.1)) r.pending groups waiting ∧
      Calls session runs r.session ∧
      (r.pending = "" ∧ r.prompt = "> " ∨
        r.pending ≠ "" ∧ isOpen r.pending = true ∧ r.prompt = ". ") ∧
      ∀ limit line, (∃ source, Runs limit r.session source (r.feed limit line)) ∨
        Idles r.session (r.feed limit line) := by
  have hstart : Grouped [] [] "" [] [] := ⟨rfl, rfl, rfl, by simp, staysOpen_nil⟩
  obtain ⟨groups, waiting, hgrouped⟩ := grouped_feedAll (r := { session }) hstart inputs
  exact ⟨_, _, groups, waiting, rfl, hgrouped, calls_feedAll { session } inputs,
    tells_feedAll (.inl ⟨rfl, rfl⟩) inputs, fun limit line => runs_or_idles limit _ line⟩

end Repl

end Lox
