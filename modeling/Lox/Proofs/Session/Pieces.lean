import Lox.Proofs.Alike.Map
import Lox.Proofs.Grammar.Join
import Lox.Proofs.Machine.Sequel
import Mathlib.Algebra.Order.BigOperators.Group.List
import Mathlib.Algebra.Order.Group.Nat
import Mathlib.Data.Nat.Pairing
import Mathlib.Data.Set.List

namespace Lox
set_option autoImplicit true

section
variable (move : Pos → Pos)

/-- Functions in the same environment, of the same code or of code that was moved. -/
structure Closure.Moved (c c' : Closure) : Prop where
  env : c'.env = c.env
  decl : c'.decl = c.decl ∨ c'.decl = c.decl.map move id

structure ClassObject.Moved (c c' : ClassObject) : Prop where
  id : c'.id = c.id
  name : c'.name = c.name
  methods : ∀ x, Option.Rel (Closure.Moved move) (c.methods.get? x) (c'.methods.get? x)

structure Instance.Moved (i i' : Instance) : Prop where
  id : i'.id = i.id
  cls : i.cls.Moved move i'.cls

/-- Values that are the same up to the places in the code of functions. -/
inductive Value.Moved : Value → Value → Prop where
  | nil : Value.Moved .nil .nil
  | bool : Value.Moved (.bool b) (.bool b)
  | number : Value.Moved (.number x) (.number x)
  | string : Value.Moved (.string s) (.string s)
  | function : c.Moved move c' → Value.Moved (.function n c) (.function n c')
  | method : c.Moved move c' → i.Moved move i' → Value.Moved (.method n c i) (.method n c' i')
  | cls : c.Moved move c' → Value.Moved (.cls c) (.cls c')
  | object : i.Moved move i' → Value.Moved (.object i) (.object i')

structure Environment.Moved (e e' : Environment) : Prop where
  enclosing : e'.enclosing = e.enclosing
  captured : e'.captured = e.captured
  values : ∀ x, Option.Rel (Value.Moved move) (e.values.get? x) (e'.values.get? x)

/-- Stores of the same environments and instances. -/
structure Store.Moved (s s' : Store) : Prop where
  next : s'.arena.next = s.arena.next
  envs : ∀ h, Option.Rel (Environment.Moved move) (s.arena.get? h) (s'.arena.get? h)
  nextId : s'.nextId = s.nextId
  fields : ∀ i i' : Instance, i'.id = i.id →
    ∀ x, Option.Rel (Value.Moved move) ((s.fieldsOf i).get? x) ((s'.fieldsOf i').get? x)

end

/-- A line of output with the code it comes from: an error in a program that may be moved is known
by its place there, one in earlier code by its line. -/
inductive Traced (moved : Program Binding) (earlier : List (Program Binding)) where
  | text (line : String)
  | movedError (p : Pos) (mem : p ∈ moved.places) (message : String)
  | earlierError (line : Nat) (mem : ∃ P ∈ earlier, ∃ p ∈ P.places, p.line = line)
    (message : String)

def Traced.output (move : Pos → Pos) : Traced moved earlier → Output
  | text line => .text line
  | movedError p _ message => .diagnostic (.runtimeError (move p).line message)
  | earlierError line _ message => .diagnostic (.runtimeError line message)

/-- One program is moved in two ways, and earlier ones stay where they are. -/
def Likeness.between (f g : Pos → Pos) (moved : Program Binding)
    (earlier : List (Program Binding)) : Bool → Likeness
  | true => { place := fun p p' => ∃ q ∈ moved.places, p = f q ∧ p' = g q, renames := (· = 1) }
  | false => { place := fun p p' => (∃ P ∈ earlier, p ∈ P.places) ∧ p' = p, renames := (· = 1) }

abbrev Likeness.moved (move : Pos → Pos) (moved : Program Binding)
    (earlier : List (Program Binding)) : Bool → Likeness := between id move moved earlier

variable {f g move : Pos → Pos} {P : Program Binding} {earlier : List (Program Binding)}
  {T : Renamings}

theorem Likeness.moved_place (h : (moved move P earlier true).place p p') : p' = move p := by
  obtain ⟨q, _, rfl, rfl⟩ := h
  rfl

theorem Likeness.earlier_place (h : (between f g P earlier false).place p p') : p' = p := h.2

theorem Likeness.moved_one (θ : Equiv.Perm String) (b : Bool)
    (h : (between f g P earlier b).renames θ) : θ = 1 := by
  cases b <;> exact h

theorem Renaming.eq_none (h : ∀ d, σ d = 1) : σ = none := funext h

abbrev Renamings.Plain (T : Renamings) : Prop := ∀ h σ, T h = some σ → σ = .none

theorem Arena.Alike.plain {a a' : Arena} (h : a.Alike (.moved move P earlier) T a') : T.Plain := by
  intro i σ hσ
  apply Renaming.eq_none
  intro d
  rcases h.allowed i σ d hσ with hone | ⟨b, hb⟩
  · exact hone
  · exact Likeness.moved_one _ b hb

section
variable (hT : T.Plain)
include hT

theorem Closure.Alike.moved {inward : Renaming → Renaming} (hin : inward .none = .none)
    (h : Closure.Alike (.moved move P earlier) T inward c c') : c.Moved move c' := by
  obtain ⟨henv, b, σ, hσ, hdecl⟩ := h
  refine ⟨henv, ?_⟩
  rw [hT _ σ hσ, hin] at hdecl
  cases b with
  | true =>
    exact .inr (hdecl.eq_map (fun _ _ => Likeness.moved_place) (Likeness.moved_one · true) rfl)
  | false =>
    left
    have hsame := hdecl.eq_map (f := id) (fun _ _ => Likeness.earlier_place)
      (Likeness.moved_one · false) rfl
    rwa [FunDecl.map_id fun s _ => s.map_id] at hsame

theorem Closure.AlikeMethod.moved (h : Closure.AlikeMethod (.moved move P earlier) T c c') :
    c.Moved move c' := Closure.Alike.moved hT Renaming.push_none h

theorem ClassObject.Alike.moved (h : ClassObject.Alike (.moved move P earlier) T c c') :
    c.Moved move c' :=
  ⟨h.id, h.name, fun x => Rel.mono (h.methods x) fun _ _ hm => Closure.AlikeMethod.moved hT hm⟩

theorem Instance.Alike.moved (h : Instance.Alike (.moved move P earlier) T i i') :
    i.Moved move i' := ⟨h.id, h.cls.moved hT⟩

theorem Value.Alike.moved (h : Value.Alike (.moved move P earlier) T v v') : v.Moved move v' := by
  cases h with
  | nil => exact .nil
  | bool => exact .bool
  | number => exact .number
  | string => exact .string
  | function hc => exact .function (Closure.Alike.moved hT rfl hc)
  | method hc hi => exact .method (Closure.AlikeMethod.moved hT hc) (hi.moved hT)
  | cls hc => exact .cls (hc.moved hT)
  | object hi => exact .object (hi.moved hT)

end

theorem Arena.Alike.moved {a a' : Arena} (h : a.Alike (.moved move P earlier) T a') (i : Handle) :
    Option.Rel (Environment.Moved move) (a.get? i) (a'.get? i) := by
  apply Rel.mono (h.envs i)
  rintro e e' ⟨σ, hσ, he⟩
  refine ⟨he.enclosing, he.captured, fun x => ?_⟩
  have hx := he.values x
  rw [h.plain i σ hσ] at hx
  exact Rel.mono hx fun _ _ hv => hv.moved h.plain

theorem Store.Alike.moved {s s' : Store} (h : s.Alike (.moved move P earlier) T s') :
    s.Moved move s' where
  next := h.arena.next
  envs := h.arena.moved
  nextId := h.nextId
  fields i i' hid x := Rel.mono (h.fields i i' hid x) fun _ _ hv => hv.moved h.arena.plain

theorem Output.Alike.traced (h : Output.Alike (.between f g P earlier) o o') :
    ∃ line : Traced P earlier, line.output f = o ∧ line.output g = o' := by
  cases h with
  | text => exact ⟨.text _, rfl, rfl⟩
  | @error b p p' message hp =>
    cases b with
    | true =>
      obtain ⟨q, hq, rfl, rfl⟩ := hp
      exact ⟨.movedError q hq message, rfl, rfl⟩
    | false =>
      obtain ⟨⟨Q, hQ, hmem⟩, rfl⟩ := hp
      exact ⟨.earlierError p'.line ⟨Q, hQ, p', hmem, rfl⟩ message, rfl, rfl⟩

/-- A move that puts every place on a line of its own, which no earlier code is on. -/
structure Marks (mark : Pos → Pos) (earlier : List (Program Binding)) : Prop where
  own : ∀ p q, (mark p).line = (mark q).line → p = q
  apart : ∀ P ∈ earlier, ∀ p ∈ P.places, ∀ q, (mark q).line ≠ p.line

theorem exists_marks (earlier : List (Program Binding)) : ∃ mark, Marks mark earlier := by
  let taken := (earlier.flatMap Program.places).map (·.line)
  refine ⟨fun p => ⟨taken.sum + 1 + Nat.pair p.line p.offset, 0⟩, ?_, ?_⟩
  · rintro ⟨line, offset⟩ ⟨line', offset'⟩ h
    obtain ⟨rfl, rfl⟩ := Nat.pair_eq_pair.1 (Nat.add_left_cancel h)
    rfl
  · intro P hP p hp q h
    have hmem : p.line ∈ taken := List.mem_map_of_mem (List.mem_flatMap.2 ⟨P, hP, hp⟩)
    have hle := List.le_sum_of_mem hmem
    dsimp only at h
    omega

theorem Output.error_inj {line line' : Nat} :
    Output.diagnostic (.runtimeError line message) =
      .diagnostic (.runtimeError line' message') ↔ line = line' ∧ message = message' := by
  simp only [Output.diagnostic.injEq, Diagnostic.runtimeError.injEq, Int.natCast_inj]

/-- At marked places, the lines that are written show where they come from. -/
theorem Marks.output_injective (h : Marks mark earlier) :
    Function.Injective (Traced.output mark : Traced P earlier → Output) := by
  intro l l' heq
  cases l with
  | text line =>
    cases l' with
    | text =>
      cases heq
      rfl
    | movedError => cases heq
    | earlierError => cases heq
  | movedError p hp message =>
    cases l' with
    | text => cases heq
    | movedError q hq =>
      obtain ⟨hline, rfl⟩ := Output.error_inj.1 heq
      cases h.own p q hline
      rfl
    | earlierError line hline =>
      obtain ⟨Q, hQ, q, hq, rfl⟩ := hline
      exact absurd (Output.error_inj.1 heq).1 (h.apart Q hQ q hq p)
  | earlierError line hline message =>
    cases l' with
    | text => cases heq
    | movedError p =>
      obtain ⟨Q, hQ, q, hq, rfl⟩ := hline
      exact absurd (Output.error_inj.1 heq).1.symm (h.apart Q hQ q hq p)
    | earlierError =>
      obtain ⟨rfl, rfl⟩ := Output.error_inj.1 heq
      rfl

/-- A program moved in two ways is alike. -/
theorem Program.alike_between (P : Program Binding) (f g : Pos → Pos)
    (earlier : List (Program Binding)) :
    Stmt.AlikeAll (.between f g P earlier true) .none (P.mapAll f id) (P.mapAll g id) := by
  let L : Likeness := ⟨fun p p' => p ∈ P.places ∧ p' = p, (· = 1)⟩
  have hself : Stmt.AlikeAll L .none P P := P.alike_self rfl fun p hp => ⟨hp, rfl⟩
  have hplace : ∀ p p', L.place p p' →
      (Likeness.between f g P earlier true).place (f p) (g p') := by
    rintro p p' ⟨hp, rfl⟩
    exact ⟨p', hp, rfl, rfl⟩
  exact hself.map hplace fun _ => id

theorem CodeAlike.of_earlier (f g : Pos → Pos) (P : Program Binding)
    (earlier : List (Program Binding)) : CodeAlike (.between f g P earlier) earlier :=
  .of_places (i := false) rfl fun Q hQ _ hp => ⟨⟨Q, hQ, hp⟩, rfl⟩

/-- Globals are not tracked, so that one program does not matter to the next. -/
theorem Context.afterAll_globals (A : Program ρ) : ({} : Context).afterAll A = {} := by
  rw [Context.afterAll_eq_declare, Context.declare_of_nil rfl]

theorem Program.resolve_append (A B : Program ρ) :
    Program.resolve (A ++ B) = A.resolve ++ B.resolve := by
  rw [Program.resolve, Stmt.resolveAll_append, Context.afterAll_globals]
  rfl

theorem Program.misuses_append (A B : Program ρ) :
    Program.misuses (A ++ B) = A.misuses ++ B.misuses := by
  rw [Program.misuses, Stmt.misusesAll_append, Context.afterAll_globals]
  rfl

namespace Session

variable {s : Session} {programs : List (Program Binding)} {past : List Machine} {n : Nat}

theorem execute_of_finished {P : Program Binding}
    (h : ((Machine.start s.store s.env P).run n).outcome = .finished) :
    s.execute n P =
      { session := s.adopt ((Machine.start s.store s.env P).run n)
        output := ((Machine.start s.store s.env P).run n).printed.reverse.map .text
        answer := .code s.log.exitCode } := by
  simp only [execute, h]
  rfl

/-- A program behind another one is executed as if it were executed after it. -/
theorem execute_append {A : Program Binding}
    (h : ((Machine.start s.store s.env A).run n).outcome = .finished) (Q : Program Binding) :
    ∃ i, i ≤ n ∧ ∀ k,
      let first := s.execute n A
      let second := first.session.execute k Q
      s.execute (i + k) (A ++ Q) = { second with output := first.output ++ second.output } := by
  obtain ⟨i, hi, hshows⟩ := Machine.run_append h Q
  refine ⟨i, hi, fun k => ?_⟩
  have hshows := hshows k
  rw [execute_of_finished h]
  dsimp only at hshows ⊢
  generalize (Machine.start s.store s.env A).run n = first at hshows ⊢
  simp only [execute, hshows.outcome, hshows.printed, List.reverse_append, List.map_append]
  have hadopt : s.adopt ((Machine.start s.store s.env (A ++ Q)).run (i + k)) =
      (s.adopt first).adopt ((Machine.start first.store first.env Q).run k) := by
    rw [adopt, hshows.store, hshows.env]
    rfl
  have hstart : Machine.start (s.adopt first).store (s.adopt first).env Q =
      Machine.start first.store first.env Q := rfl
  rw [hadopt, hstart]
  cases ((Machine.start first.store first.env Q).run k).outcome with
  | finished => rfl
  | unfinished => rfl
  | failed fault =>
    cases fault with
    | error fault line => simp only [report, List.append_assoc]
    | escape fault => rfl

theorem execute_of_le {P : Program Binding} (h : (s.execute n P).answer ≠ .unfinished)
    (hle : n ≤ n') : s.execute n' P = s.execute n P := by
  rw [execute, execute, Machine.run_of_le (outcome_of_answer h) hle]

/-- The answer zero says that the program has come to its end. -/
theorem finished_of_answer {P : Program Binding} (h : (s.execute n P).answer = .code 0) :
    ((Machine.start s.store s.env P).run n).outcome = .finished := by
  rw [execute] at h
  dsimp only at h
  generalize ((Machine.start s.store s.env P).run n).outcome = o at h ⊢
  cases o with
  | finished => rfl
  | unfinished => cases h
  | failed fault =>
    cases fault with
    | escape => cases h
    | error fault line =>
      have hcode : ∀ log : Log, (log.report (.runtimeError line fault.message)).exitCode ≠ 0 := by
        intro log
        rw [Log.exitCode]
        split
        · decide
        · exact Nat.succ_ne_zero _
      exact absurd (Answer.code.inj h) (hcode _)

/-- The answer zero says that no earlier error was in the way. -/
theorem accepts_of_answer (hread : readProgram source = (tree, [])) (hproper : tree.misuses = [])
    (h : (s.run n source).answer = .code 0) : s.Accepts source tree := by
  refine ⟨Bool.eq_false_iff.2 fun hlog => ?_, hread, hproper⟩
  simp only [run, hread, report, Log.reportAll, List.foldl_nil, ← begin_def] at h
  rw [if_pos hlog, Log.exitCode, if_pos hlog] at h
  cases h

theorem begin_adopt (s : Session) (m : Machine) : (s.begin.adopt m).begin = s.begin.adopt m := by
  rw [begin, begin]
  cases hi : s.interactive <;> simp [adopt, hi, Log.reset]

/-- An accepted text that answers zero has run to its end. -/
theorem Accepts.finished (ha : s.Accepts a A) (hcode : (s.run n a).answer = .code 0) :
    ((Machine.start s.begin.store s.begin.env A.resolve).run n).outcome = .finished := by
  apply finished_of_answer
  rw [← ha.run_eq]
  exact hcode

theorem Accepts.begin_run (ha : s.Accepts a A) (hcode : (s.run n a).answer = .code 0) :
    (s.run n a).session.begin = (s.run n a).session := by
  rw [ha.run_eq, execute_of_finished (ha.finished hcode), begin_adopt]

/-- A run that answers zero leaves nothing behind that would keep the next text from running. -/
theorem Accepts.next (ha : s.Accepts a A) (hcode : (s.run n a).answer = .code 0)
    (hb : readProgram b = (B, [])) (hB : B.misuses = []) : (s.run n a).session.Accepts b B := by
  refine ⟨?_, hb, hB⟩
  rw [ha.begin_run hcode, ha.run_eq, execute_of_finished (ha.finished hcode)]
  exact ha.clean

theorem Accepts.join (ha : s.Accepts a A) (hb : readProgram b = (B, [])) (hB : B.misuses = []) :
    s.Accepts (a ++ "\n" ++ b) (A ++ B.mapAll (.below a) id) := by
  refine ⟨ha.clean, readProgram_join ha.read hb, ?_⟩
  rw [Program.misuses_append, ha.proper, (Program.misuses_mapAll _ _ B).2 hB]
  rfl

/-- A program runs alike wherever it stands. -/
theorem History.execute_between (hist : History s programs past) {B : Program Unresolved}
    (hB : B.misuses = []) (hreg : ∀ D ∈ B.declarations, D.Regular) (f g : Pos → Pos) (n : Nat) :
    (s.begin.execute n (B.mapAll f id).resolve).Alike (.between f g B.resolve programs)
      (s.begin.execute n (B.mapAll g id).resolve) := by
  have hproper : (B.mapAll f id).misuses = [] := (Program.misuses_mapAll f id B).2 hB
  have hregular : ∀ D ∈ (B.mapAll f id).resolve.declarations, D.Regular := by
    rw [Program.declarations_resolve, Program.declarations_mapAll]
    exact hreg
  have halike := B.resolve.alike_between f g programs
  rw [← Program.resolve_mapAll, ← Program.resolve_mapAll] at halike
  exact hist.execute_alike (Program.accepted_resolve hproper) hregular
    (.of_earlier f g B.resolve programs) halike n

/-- The lines that a program writes come from its code and from earlier code, the same wherever it
stands. -/
theorem History.exists_traced (hist : History s programs past) {B : Program Unresolved}
    (hB : B.misuses = []) (hreg : ∀ D ∈ B.declarations, D.Regular) (n : Nat) :
    ∃ lines : List (Traced B.resolve programs), ∀ move,
      (s.begin.execute n (B.mapAll move id).resolve).output = lines.map (·.output move) := by
  obtain ⟨mark, hmark⟩ := exists_marks programs
  have halike := fun move => (hist.execute_between hB hreg mark move n).output
  have hrange : (s.begin.execute n (B.mapAll mark id).resolve).output ∈
      Set.range (List.map (Traced.output mark : Traced B.resolve programs → Output)) := by
    rw [Set.range_list_map]
    intro o ho
    obtain ⟨line, hline, _⟩ := (List.forall₂_same.1 (halike mark) o ho).traced
    exact ⟨line, hline⟩
  obtain ⟨lines, hlines⟩ := hrange
  refine ⟨lines, fun move => ?_⟩
  have hmoved := halike move
  rw [← hlines, List.forall₂_map_left_iff] at hmoved
  rw [eq_comm, ← List.forall₂_eq_eq_eq, List.forall₂_map_left_iff]
  apply hmoved.imp
  intro line o h
  obtain ⟨line', hmarked, rfl⟩ := h.traced
  rw [hmark.output_injective hmarked]

/-- Two source texts without errors, of which the first runs to its end, are accepted with a newline
between them. The whole text writes what the two write one after the other and answers what
the second one answers. Wherever the second text stands, it writes the same lines, an error in its
code with the line where that code stands, and an error in earlier code with the same line. The whole
text leaves the same environments with the same marks and bindings, the same one being current, and
the same fields of instances. Only the places of the words of the second text are further down. What
the second text does in `k` steps, the whole text does in `i + k`. Once a run has ended the limit
does not matter. -/
theorem pieces_run_whole (hist : History s programs past) (ha : readProgram a = (A, []))
    (hA : A.misuses = []) (hb : readProgram b = (B, [])) (hB : B.misuses = [])
    (hcode : (s.run n a).answer = .code 0) :
    let first := s.run n a
    let text := a ++ "\n" ++ b
    first.session.Accepts b B ∧ s.Accepts text (A ++ B.mapAll (.below a) id) ∧
    ∃ i, i ≤ n ∧ ∀ k,
      let second := first.session.run k b
      let whole := s.run (i + k) text
      (∃ lines : List (Traced B.resolve (A.resolve :: programs)),
        (∀ move, (first.session.execute k (B.mapAll move id).resolve).output =
          lines.map (·.output move)) ∧
        second.output = lines.map (·.output id) ∧
        whole.output = first.output ++ lines.map (·.output (.below a))) ∧
      whole.answer = second.answer ∧ whole.session.env = second.session.env ∧
      second.session.store.Moved (.below a) whole.session.store ∧
      (second.answer ≠ .unfinished → ∀ n', i + k ≤ n' → s.run n' text = whole) := by
  have ha := accepts_of_answer ha hA hcode
  have hfinished := ha.finished hcode
  have hsecond := ha.next hcode hb hB
  have hwhole := ha.join hb hB
  refine ⟨hsecond, hwhole, ?_⟩
  obtain ⟨i, hi, happend⟩ := execute_append hfinished (B.mapAll (.below a) id).resolve
  refine ⟨i, hi, fun k => ?_⟩
  have hist' : History (s.run n a).session (A.resolve :: programs) _ :=
    .executed hist ha (by rw [hcode]; exact nofun)
  have hreg := regular_of_readProgram hb
  have hrun := hist'.execute_between hB hreg id (.below a) k
  obtain ⟨lines, hlines⟩ := hist'.exists_traced hB hreg k
  have hid := hlines id
  rw [Program.mapAll_id, ← hsecond.run_eq] at hrun hid
  rw [ha.begin_run hcode] at hlines hrun
  have heq := happend k
  rw [← Program.resolve_append, ← hwhole.run_eq, ← ha.run_eq] at heq
  dsimp only at heq ⊢
  have hlimit : ((s.run n a).session.run k b).answer ≠ .unfinished →
      ∀ n', i + k ≤ n' → s.run n' (a ++ "\n" ++ b) = s.run (i + k) (a ++ "\n" ++ b) := by
    intro hend n' hle
    rw [hwhole.run_eq, hwhole.run_eq]
    refine execute_of_le ?_ hle
    rw [← hwhole.run_eq, heq]
    exact hrun.answer ▸ hend
  obtain ⟨T, hstore⟩ := hrun.store
  rw [heq] at hlimit ⊢
  exact ⟨⟨lines, hlines, hid, congrArg _ (hlines (.below a))⟩, hrun.answer, hrun.env,
    hstore.moved, hlimit⟩

/-- The second text calls a function of the first one and ends with an error on its second line. -/
theorem pieces_run_whole_error :
    ∃ a b A B, readProgram a = (A, []) ∧ A.misuses = [] ∧ readProgram b = (B, []) ∧
      B.misuses = [] ∧ ((new true).run 60 a).answer = .code 0 ∧
      (((new true).run 60 a).session.run 60 b).answer = .code 70 ∧
      ((new true).run 120 (a ++ "\n" ++ b)).answer = .code 70 := by
  let a := "var f;\n\x7b var x = \"p\"; fun g() \x7b return x; \x7d f = g; \x7d"
  let b := "print f();\nprint -f();"
  have ha : readProgram a = ((readProgram a).1, []) :=
    Prod.ext rfl (by decide +kernel : (readProgram a).2 = [])
  have hA : (readProgram a).1.misuses = [] := by decide +kernel
  have hb : readProgram b = ((readProgram b).1, []) :=
    Prod.ext rfl (by decide +kernel : (readProgram b).2 = [])
  have hB : (readProgram b).1.misuses = [] := by decide +kernel
  have hcode : ((new true).run 60 a).answer = .code 0 := by decide +kernel
  have hsecond : (((new true).run 60 a).session.run 60 b).answer = .code 70 := by decide +kernel
  obtain ⟨_, _, i, hi, hk⟩ := pieces_run_whole (.new true) ha hA hb hB hcode
  obtain ⟨_, hanswer, _, _, hlimit⟩ := hk 60
  have hwhole := hlimit (by rw [hsecond]; exact nofun) 120 (Nat.add_le_add_right hi 60)
  exact ⟨a, b, _, _, ha, hA, hb, hB, hcode, hsecond, by rw [hwhole, hanswer, hsecond]⟩

end Session

end Lox
