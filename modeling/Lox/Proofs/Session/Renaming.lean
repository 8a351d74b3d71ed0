import Lox.Proofs.Alike.Rename

namespace Lox
set_option autoImplicit true

variable {x y : String} {s : Session} {programs : List (Program Binding)} {past : List Machine}
  {source : String} {tree : Program Grammar.Unresolved}

theorem receiverName_ne (hy : Keyword.ofText? y = none) : y ≠ receiverName := by
  rintro rfl
  revert hy
  decide

/-- A line of output does not say where on its line a word stands. -/
theorem Output.eq_of_alike
    (h : List.Forall₂ (Output.Alike fun _ : Unit => .onLines x y) os os') : os' = os := by
  induction h with
  | nil => rfl
  | cons ho _ ih =>
    cases ho with
    | text => rw [ih]
    | error hp =>
      have hline : _ = _ := hp
      rw [ih, hline]

namespace Session

variable {P : Program Binding} {f : Pos → Pos}

/-- The tree of a program with a variable renamed is alike to its own, wherever on its lines a word
stands. -/
theorem Accepts.renamed_alike (hacc : s.Accepts source tree) (hren : tree.resolve.Renames x y P)
    (hy : Keyword.ofText? y = none) (hfresh : y ∉ tree.identifiers) :
    Stmt.AlikeAll (.onLines x y) .none tree.resolve P := by
  apply hren.alike (Program.accepted_resolve hacc.proper).proper hacc.regular (receiverName_ne hy)
  rw [Program.identifiers_resolve]
  exact hfresh

theorem Accepts.renamed_accepted (hacc : s.Accepts source tree) (hren : tree.resolve.Renames x y P)
    (hy : Keyword.ofText? y = none) (hfresh : y ∉ tree.identifiers) : P.Accepted := by
  apply (Program.accepted_resolve hacc.proper).alike (hacc.renamed_alike hren hy hfresh)
    (Likeness.onLines_coherent (receiverName_ne hy))
  rintro z hz rfl
  rw [Program.identifiers_resolve] at hz
  exact hfresh hz

theorem History.renamed_execute (hist : History s programs past) (hacc : s.Accepts source tree)
    (h : Stmt.AlikeAll (.onLines x y) .none tree.resolve P) (n : Nat) :
    (s.run n source).Alike (fun _ : Unit => .onLines x y) (s.begin.execute n P) := by
  have hcode : CodeAlike (fun _ : Unit => Likeness.onLines x y) programs :=
    .of_places (i := ()) Likeness.onLines_one fun _ _ _ _ => rfl
  rw [hacc.run_eq]
  exact hist.execute_alike (Program.accepted_resolve hacc.proper) hacc.regular hcode (i := ()) h n

/-- A variable or parameter `x` of a block or function of an accepted program can be renamed to any
name `y` that is no keyword and that the program does not contain. The renamed program is accepted,
with every reference bound at the same distance. From the same session it writes the same lines,
answers the same and leaves the same environments, also when its words have moved on their lines. -/
theorem renaming_keeps_runs (hist : History s programs past) (hacc : s.Accepts source tree)
    (hy : Keyword.ofText? y = none) (hfresh : y ∉ tree.identifiers) :
    (∀ D ∈ tree.declarations, D.inScope = true → D.kind = .variable ∨ D.kind = .parameter →
      ∃ P, tree.resolve.Renames D.name y P) ∧
    ∀ x P f, tree.resolve.Renames x y P → (∀ p, (f p).line = p.line) →
      let tree' : Program Grammar.Unresolved := P.mapAll f fun _ => ()
      tree'.misuses = [] ∧ tree'.resolve = P.mapAll f id ∧
      (Stmt.referencesAll tree'.resolve).map (·.target) =
        (Stmt.referencesAll tree.resolve).map (·.target) ∧
      ∀ n,
        let renamed := s.begin.execute n tree'.resolve
        renamed.output = (s.run n source).output ∧ renamed.answer = (s.run n source).answer ∧
        (∀ h, renamed.session.store.arena.contains h =
          (s.run n source).session.store.arena.contains h) ∧
        ∀ source', readProgram source' = (tree', []) → s.run n source' = renamed := by
  refine ⟨fun D hD hscope hkind => ?_, fun x P f hren hf => ?_⟩
  · rw [← Program.declarations_resolve] at hD
    refine Program.exists_renames hD ⟨hkind, hscope, Bool.eq_false_iff.2 fun hguard => ?_⟩ y
    rcases hkind with h | h <;> cases h.symm.trans ((hacc.regular D hD).guarded hguard)
  · have halike := hacc.renamed_alike hren hy hfresh
    have hP := hacc.renamed_accepted hren hy hfresh
    have hmoved : Stmt.AlikeAll (.onLines x y) .none tree.resolve (P.mapAll f id) :=
      halike.map_right (fun p p' h => (hf p').trans h) fun _ => id
    have hproper : (P.mapAll f fun _ => () : Program Grammar.Unresolved).misuses = [] :=
      (Program.misuses_mapAll f _ P).2 hP.proper
    have hresolve :
        (P.mapAll f fun _ => () : Program Grammar.Unresolved).resolve = P.mapAll f id := by
      rw [Program.resolve_mapAll, hP.resolved]
    refine ⟨hproper, hresolve, hresolve ▸ hmoved.references, fun n => ?_⟩
    have hrun := hist.renamed_execute hacc hmoved n
    rw [← hresolve] at hrun
    obtain ⟨T, hstore⟩ := hrun.store
    refine ⟨Output.eq_of_alike hrun.output, hrun.answer, fun h => Rel.isSome (hstore.arena.envs h),
      fun source' hread => ?_⟩
    exact Accepts.run_eq ⟨hacc.clean, hread, hproper⟩ n

/-- A variable that a function reads and that is assigned in a block further in. -/
theorem renaming_keeps_runs_captured :
    ∃ source tree P, (new true).Accepts source tree ∧ Keyword.ofText? "b" = none ∧
      "b" ∉ tree.identifiers ∧ tree.resolve.Renames "a" "b" P ∧
      ∃ tree' : Program Grammar.Unresolved, tree'.misuses = [] ∧
        ((new true).begin.execute 60 tree'.resolve).output = [.text "xy"] := by
  let source := "\x7b var a = \"x\"; \x7b fun f() \x7b return a; \x7d a = f() + \"y\"; \x7d " ++
    "print a; \x7d"
  have hacc : (new true).Accepts source (readProgram source).1 :=
    ⟨rfl, Prod.ext rfl (by decide +kernel : (readProgram source).2 = []), by decide +kernel⟩
  have hfresh : "b" ∉ (readProgram source).1.identifiers := by decide +kernel
  have hD : ⟨.variable, "a", true, false⟩ ∈ (readProgram source).1.declarations := by decide +kernel
  have houtput : ((new true).run 60 source).output = [.text "xy"] := by decide +kernel
  obtain ⟨hexists, hall⟩ := renaming_keeps_runs (.new true) hacc (y := "b") (by decide) hfresh
  obtain ⟨P, hren⟩ := hexists _ hD rfl (.inl rfl)
  obtain ⟨hproper, _, _, hruns⟩ := hall "a" P id hren fun _ => rfl
  exact ⟨source, _, P, hacc, by decide, hfresh, hren, _, hproper, (hruns 60).1.trans houtput⟩

end Session

end Lox
