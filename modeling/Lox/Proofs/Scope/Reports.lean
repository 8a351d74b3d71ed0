import Lox.Proofs.Scope.Lexical

namespace Lox
set_option autoImplicit true

def Layer.returnMisuse? (fs : List Layer) (pos : Pos) (hasValue : Bool) : Option Misuse :=
  match Layer.enclosing fs with
  | .none => some ⟨.returnOutside, Keyword.returnWord.text, pos.line⟩
  | .initializer =>
    if hasValue then some ⟨.returnValue, Keyword.returnWord.text, pos.line⟩ else none
  | .function => none
  | .method => none

def Layer.mentionMisuse? (fs : List Layer) (owner : Option String) (m : Mention ρ) :
    Option Misuse :=
  match m.kind with
  | .read =>
    if owner = some m.name ∧ fs ≠ [] then some ⟨.ownInitializer, m.name, m.pos.line⟩ else none
  | .assign => none
  | .receiver =>
    if Layer.inClass fs then none else some ⟨.receiverOutside, m.name, m.pos.line⟩

def Sign.misuse? (fs : List Layer) : Sign ρ → Option Misuse
  | .opening _ => none
  | .closing => none
  | .declaration name =>
    if fs.head?.any (name.name ∈ ·.names) then
      some ⟨.alreadyDeclared, name.name, name.pos.line⟩ else none
  | .mention owner m => Layer.mentionMisuse? fs owner m
  | .ret pos hasValue => Layer.returnMisuse? fs pos hasValue

/-- The misuses at signs, given the scopes that are open before them. -/
def Sign.misuses (fs : List Layer) (signs : List (Sign ρ)) : List Misuse :=
  (Sign.along Sign.misuse? fs signs).flatMap Option.toList

theorem Sign.misuses_cons (fs : List Layer) (s : Sign ρ) (rest : List (Sign ρ)) :
    misuses fs (s :: rest) = (s.misuse? fs).toList ++ misuses (s.pass fs) rest := rfl

theorem Sign.misuses_append (fs : List Layer) (a b : List (Sign ρ)) :
    misuses fs (a ++ b) = misuses fs a ++ misuses (a.foldl pass fs) b := by
  rw [misuses, along_append, List.flatMap_append]
  rfl

/-- In `Γ` the variable `owner` is not ready, if it is local, and all else is. -/
def Context.Awaits (Γ : Context) (owner : Option String) : Prop :=
  ∀ x, Γ.status? x = some .pending ↔ owner = some x ∧ Γ.scopes ≠ []

/-- A context whose scopes are those that are open, with all names ready. -/
structure Context.Stands (Γ : Context) (fs : List Layer) : Prop extends Γ.Matches fs where
  settled : ∀ S ∈ Γ.scopes, Scope.Settled S

namespace Context.Stands

variable {Γ : Context} {fs : List Layer}

theorem nil : Context.Stands {} [] := ⟨.nil, List.forall_mem_nil _⟩

theorem declare (h : Γ.Stands fs) (names : List String) :
    (Γ.declare names).Stands (fs.modifyHead (·.add names)) :=
  ⟨h.toMatches.declare names, settled_declare h.settled names⟩

theorem after (h : Γ.Stands fs) (s : Stmt ρ) :
    (Γ.after s).Stands (s.signs.foldl Sign.pass fs) := by
  rw [after_eq_declare, s.passes]
  exact h.declare _

theorem enter (h : Γ.Stands fs) : Γ.enter.Stands (⟨.block, Opener.block.given⟩ :: fs) :=
  ⟨h.toMatches.enter, List.forall_mem_cons.2 ⟨Scope.settled_nil, h.settled⟩⟩

theorem enterFunction (h : Γ.Stands fs) (hkind : opener.kind? = some kind) :
    (Γ.enterFunction kind).Stands (⟨opener, opener.given⟩ :: fs) :=
  ⟨h.toMatches.enterFunction hkind, List.forall_mem_cons.2 ⟨Scope.settled_nil, h.settled⟩⟩

theorem enterClass (h : Γ.Stands fs) : Γ.enterClass.Stands (⟨.cls, Opener.cls.given⟩ :: fs) :=
  ⟨h.toMatches.enterClass,
    List.forall_mem_cons.2 ⟨Scope.settled_nil.declare [receiverName], h.settled⟩⟩

theorem body (h : Γ.Stands fs) (hkind : opener.kind? = some kind) (params : List Ident) :
    (Γ.body kind params).Stands ((params.map (Sign.declaration : Ident → Sign ρ)).foldl Sign.pass
      (⟨opener, opener.given⟩ :: fs)) := by
  rw [Context.body, params_eq_declare, Sign.foldl_pass_declarations]
  exact (h.enterFunction hkind).declare _

theorem awaits (h : Γ.Stands fs) : Γ.Awaits none := by
  intro x
  refine ⟨fun hx => ?_, fun hx => by cases hx.1⟩
  obtain ⟨S, hS, hx⟩ := Option.bind_eq_some_iff.1 hx
  exact (h.settled S (List.mem_of_mem_head? hS) x hx).elim

theorem awaits_mark (h : Γ.Stands fs) (x : String) : (Γ.mark x .pending).Awaits (some x) := by
  intro y
  cases hS : Γ.scopes with
  | nil => simp [mark_of_nil hS, status?, hS]
  | cons S Ss =>
    have hy := h.settled S (hS ▸ List.mem_cons_self) y
    rw [status?, scopes_mark hS]
    by_cases hxy : x = y <;> simp [hxy, hy]

end Context.Stands

section
variable {Γ : Context} {fs : List Layer}

theorem Context.Matches.redeclared (h : Γ.Matches fs) (name : Ident) :
    Γ.redeclared name = ((Sign.declaration name : Sign ρ).misuse? fs).toList := by
  obtain ⟨hscopes, -, -⟩ := h
  rw [Context.redeclared, status?, Sign.misuse?]
  generalize Γ.scopes = Ss at hscopes
  cases hscopes with
  | nil => rfl
  | @cons S F Ss fs hS _ =>
    have hx : (S.get? name.name).isSome = decide (name.name ∈ F.names) := hS name.name
    rw [List.head?_cons, Option.bind_some, hx, List.head?_cons, Option.any_some]
    cases decide (name.name ∈ F.names) <;> rfl

theorem Context.Matches.redeclaredParams (h : Γ.Matches fs) (params : List Ident) :
    Γ.redeclaredParams params =
      Sign.misuses fs (params.map (Sign.declaration : Ident → Sign ρ)) := by
  induction params generalizing Γ fs with
  | nil => rfl
  | cons p params ih =>
    rw [Context.redeclaredParams, List.map_cons, Sign.misuses_cons, ← h.redeclared p,
      ih (h.mark p.name .ready)]
    rfl

theorem Context.Matches.returnMisuses (h : Γ.Matches fs) (pos : Pos) (hasValue : Bool) :
    Γ.returnMisuses pos hasValue = (Layer.returnMisuse? fs pos hasValue).toList := by
  rw [Context.returnMisuses, Layer.returnMisuse?, h.function]
  cases Layer.enclosing fs <;> cases hasValue <;> rfl

theorem Expr.misuses_mentions (h : Γ.Matches fs) (howner : Γ.Awaits owner) (e : Expr ρ) :
    e.misuses Γ = e.mentions.flatMap fun m => (Layer.mentionMisuse? fs owner m).toList := by
  have hlocal : Γ.scopes ≠ [] ↔ fs ≠ [] := by
    obtain ⟨hscopes, -, -⟩ := h
    generalize Γ.scopes = Ss at hscopes
    cases hscopes <;> simp
  induction e using Expr.rec (motive_2 := fun args => Expr.misusesAll Γ args =
    (Expr.mentionsAll args).flatMap fun m : Mention ρ =>
      (Layer.mentionMisuse? fs owner m).toList) with
  | literal => rfl
  | grouping inner ih => exact ih
  | unary op pos operand ih => exact ih
  | binary left op pos right ihl ihr => rw [misuses, mentions, List.flatMap_append, ihl, ihr]
  | logical left op right ihl ihr => rw [misuses, mentions, List.flatMap_append, ihl, ihr]
  | read name ref =>
    simp only [misuses, mentions, List.flatMap_singleton, Layer.mentionMisuse?, howner name.name,
      hlocal]
    split <;> rfl
  | assign name ref value ih =>
    rw [misuses, mentions, List.flatMap_append, ih, List.flatMap_singleton]
    exact (List.append_nil _).symm
  | call callee args paren ihc iha => rw [misuses, mentions, List.flatMap_append, ihc, iha]
  | get object name ih => exact ih
  | set object name value iho ihv => rw [misuses, mentions, List.flatMap_append, iho, ihv]
  | receiver pos ref =>
    simp only [misuses, mentions, List.flatMap_singleton, Layer.mentionMisuse?, h.inClass]
    split <;> rfl
  | nil => rfl
  | cons e args ihe iha => rw [misusesAll, mentionsAll, List.flatMap_append, ihe, iha]

theorem Expr.misuses_signs (h : Γ.Matches fs) (howner : Γ.Awaits owner) (e : Expr ρ) :
    e.misuses Γ = Sign.misuses fs (e.signs owner) := by
  rw [e.misuses_mentions h howner, Sign.misuses, signs, Sign.along_mentions, List.flatMap_map]
  rfl

/-- The misuses in a statement are those at its signs. -/
def Stmt.MisusesAlong (s : Stmt ρ) : Prop :=
  ∀ Γ fs, Context.Stands Γ fs → s.misuses Γ = Sign.misuses fs s.signs

theorem Stmt.misuses_signsAll_of {body : List (Stmt ρ)} (ih : ∀ s ∈ body, s.MisusesAlong)
    (h : Γ.Stands fs) : Stmt.misusesAll Γ body = Sign.misuses fs (Stmt.signsAll body) := by
  induction body generalizing Γ fs with
  | nil => rfl
  | cons s rest ihr =>
    obtain ⟨ihs, ihrest⟩ := List.forall_mem_cons.1 ih
    rw [misusesAll, signsAll, Sign.misuses_append, ihs Γ fs h, ihr ihrest (h.after s)]

theorem Stmt.misuses_scope_of {body : List (Stmt ρ)} (ih : ∀ s ∈ body, s.MisusesAlong)
    (h : Γ.Stands fs) :
    Stmt.misusesAll Γ body = Sign.misuses fs (Stmt.signsAll body ++ [.closing]) := by
  rw [Sign.misuses_append, ← Stmt.misuses_signsAll_of ih h]
  exact (List.append_nil _).symm

theorem FunDecl.misuses_signs_of {f : FunDecl ρ} (ih : ∀ s ∈ f.body, s.MisusesAlong)
    (h : Γ.Stands fs) (hkind : opener.kind? = some kind) :
    f.misuses Γ kind = Sign.misuses fs (f.signs opener) := by
  obtain ⟨name, params, body⟩ := f
  rw [misuses, signs, Sign.misuses_cons, Sign.pass, Sign.misuses_append,
    (h.enterFunction hkind).redeclaredParams, Stmt.misuses_scope_of ih (h.body hkind params)]
  rfl

theorem FunDecl.misuses_signsAll_of {methods : List (FunDecl ρ)}
    (ih : ∀ f ∈ methods, ∀ s ∈ f.body, s.MisusesAlong) (h : Γ.Stands fs) :
    FunDecl.misusesAll Γ methods = Sign.misuses fs (FunDecl.signsAll methods) := by
  induction methods with
  | nil => rfl
  | cons f rest ihr =>
    obtain ⟨ihf, ihrest⟩ := List.forall_mem_cons.1 ih
    have hf := FunDecl.misuses_signs_of ihf h
      (rfl : (Opener.method f.name.name).kind? = some (Context.methodKind f.name.name))
    rw [misusesAll, signsAll, Sign.misuses_append, hf, FunDecl.foldl_pass_of fun s _ => s.passes,
      ihr ihrest]

end

theorem Stmt.misuses_signs (s : Stmt ρ) : s.MisusesAlong := by
  induction s using Stmt.induction with
  | expression e => exact fun Γ fs h => e.misuses_signs h.toMatches h.awaits
  | print e => exact fun Γ fs h => e.misuses_signs h.toMatches h.awaits
  | varDecl name init =>
    intro Γ fs h
    cases init with
    | none =>
      rw [misuses, h.redeclared, signs, Sign.misuses_cons]
      exact (List.append_nil _).symm
    | some e =>
      rw [misuses, h.redeclared, signs, Sign.misuses_cons,
        e.misuses_signs (h.mark name.name .pending) (h.awaits_mark name.name)]
      rfl
  | block body ih =>
    intro Γ fs h
    exact Stmt.misuses_scope_of ih h.enter
  | branch c yes no ihy ihn =>
    intro Γ fs h
    have hc := c.misuses_signs h.toMatches h.awaits
    cases no with
    | none => rw [misuses, signs, Sign.misuses_append, hc, c.foldl_pass, ihy Γ fs h]
    | some no =>
      rw [misuses, signs, Sign.misuses_append, Sign.misuses_append, List.foldl_append, hc,
        c.foldl_pass, ihy Γ fs h, ihn no rfl _ _ (h.after yes)]
  | loop c body ih =>
    intro Γ fs h
    rw [misuses, signs, Sign.misuses_append, c.misuses_signs h.toMatches h.awaits, c.foldl_pass,
      ih Γ fs h]
  | funDecl decl ih =>
    intro Γ fs h
    have hdecl := FunDecl.misuses_signs_of ih (h.declare [decl.name.name])
      (rfl : Opener.function.kind? = some .function)
    rw [misuses, signs, Sign.misuses_cons]
    exact congrArg₂ _ (h.redeclared decl.name) hdecl
  | ret pos value =>
    intro Γ fs h
    cases value with
    | none =>
      rw [misuses, h.returnMisuses]
      exact (List.append_nil _).symm
    | some e =>
      rw [misuses, h.returnMisuses, e.misuses_signs h.toMatches h.awaits]
      rfl
  | classDecl name methods ih =>
    intro Γ fs h
    have hmethods := FunDecl.misuses_signsAll_of ih (h.declare [name.name]).enterClass
    rw [misuses, signs, Sign.misuses_cons, Sign.misuses_cons, Sign.misuses_append]
    exact congrArg₂ _ (h.redeclared name) (hmethods.trans (List.append_nil _).symm)

/-- The misuses of a program are those at its signs. -/
theorem Program.misuses_signs (P : Program ρ) : P.misuses = Sign.misuses [] P.signs :=
  Stmt.misuses_signsAll_of (fun s _ => s.misuses_signs) .nil

def Opener.IsFunction (opener : Opener) : Prop :=
  opener = .function ∨ ∃ name, opener = .method name

theorem Opener.kind?_eq_none (opener : Opener) : opener.kind? = none ↔ ¬opener.IsFunction := by
  cases opener <;> simp [kind?, IsFunction]

theorem Opener.kind?_eq_initializer (opener : Opener) :
    opener.kind? = some .initializer ↔ opener = .method initializerName := by
  cases opener with
  | block => simp [kind?]
  | function => simp [kind?]
  | method name =>
    simp only [kind?, Context.methodKind, Option.some.injEq, method.injEq]
    split <;> simp [*]
  | cls => simp [kind?]

theorem Opener.kind?_ne_none (opener : Opener) : opener.kind? ≠ some .none := by
  cases opener with
  | method name =>
    simp only [kind?, Context.methodKind]
    split <;> simp
  | _ => simp [kind?]

namespace Sign

/-- The innermost function around a place was opened by `opener`. -/
def InFunction (before : List (Sign ρ)) (opener : Opener) : Prop :=
  ∃ d, OpenedBy before d opener ∧ opener.IsFunction ∧
    ∀ i < d, ∀ inner, OpenedBy before i inner → ¬inner.IsFunction

/-- The faults at a sign, given the signs before it. -/
inductive Fault (before : List (Sign ρ)) : Sign ρ → Misuse → Prop where
  /-- A declaration in a local scope that has the name already. -/
  | alreadyDeclared : DeclaredIn before 0 name.name →
      Fault before (.declaration name) ⟨.alreadyDeclared, name.name, name.pos.line⟩
  /-- A variable that is read in the initializer of a local variable of that name. -/
  | ownInitializer : OpenedBy before 0 opener →
      Fault before (.mention (some x) ⟨.read, x, pos, ref⟩) ⟨.ownInitializer, x, pos.line⟩
  /-- A return with no function around it. -/
  | returnOutside : (∀ d opener, OpenedBy before d opener → ¬opener.IsFunction) →
      Fault before (.ret pos hasValue) ⟨.returnOutside, Keyword.returnWord.text, pos.line⟩
  /-- A return of a value from an initializer. -/
  | returnValue : InFunction before (.method initializerName) →
      Fault before (.ret pos true) ⟨.returnValue, Keyword.returnWord.text, pos.line⟩
  /-- A receiver with no class around it. -/
  | receiverOutside : ¬InClass before →
      Fault before (.mention owner ⟨.receiver, x, pos, ref⟩) ⟨.receiverOutside, x, pos.line⟩

theorem enclosing_eq_none (before : List (Sign ρ)) :
    Layer.enclosing (layers before) = .none ↔
      ∀ d opener, OpenedBy before d opener → ¬opener.IsFunction := by
  have hopener := (describes_layers before).opener
  have hnone : Layer.enclosing (layers before) = .none ↔
      (layers before).findSome? (·.opener.kind?) = none := by
    rw [Layer.enclosing]
    cases hfound : (layers before).findSome? (·.opener.kind?) with
    | none => simp
    | some kind =>
      obtain ⟨F, -, hF⟩ := List.exists_of_findSome?_eq_some hfound
      simp only [Option.getD_some, reduceCtorEq, iff_false]
      exact fun hkind => F.opener.kind?_ne_none (hkind ▸ hF)
  rw [hnone, List.findSome?_eq_none_iff]
  constructor
  · intro h d opener hd
    obtain ⟨F, hF, rfl⟩ := (hopener d opener).1 hd
    exact F.opener.kind?_eq_none.1 (h F (List.mem_of_getElem? hF))
  · intro h F hF
    obtain ⟨d, hd⟩ := List.mem_iff_getElem?.1 hF
    exact F.opener.kind?_eq_none.2 (h d _ ((hopener d _).2 ⟨F, hd, rfl⟩))

theorem enclosing_eq_initializer (before : List (Sign ρ)) :
    Layer.enclosing (layers before) = .initializer ↔
      InFunction before (.method initializerName) := by
  have hopener := (describes_layers before).opener
  have hsome : Layer.enclosing (layers before) = .initializer ↔
      (layers before).findSome? (·.opener.kind?) = some .initializer := by
    rw [Layer.enclosing]
    cases (layers before).findSome? (·.opener.kind?) <;> simp
  rw [hsome, List.findSome?_eq_some_iff]
  constructor
  · rintro ⟨inner, F, outer, heq, hkind, hinner⟩
    have hF : (layers before)[inner.length]? = some F := by simp [heq]
    have hmethod := F.opener.kind?_eq_initializer.1 hkind
    refine ⟨inner.length, (hopener _ _).2 ⟨F, hF, hmethod⟩, .inr ⟨_, rfl⟩, fun i hi opener h => ?_⟩
    obtain ⟨G, hG, rfl⟩ := (hopener i opener).1 h
    rw [Option.mem_def, heq, List.getElem?_append_left hi] at hG
    exact G.opener.kind?_eq_none.1 (hinner G (List.mem_of_getElem? hG))
  · rintro ⟨d, hd, -, hinner⟩
    obtain ⟨F, hF, hmethod⟩ := (hopener d _).1 hd
    obtain ⟨hlt, rfl⟩ := List.getElem?_eq_some_iff.1 hF
    refine ⟨(layers before).take d, _, (layers before).drop (d + 1), ?_,
      Opener.kind?_eq_initializer _ |>.2 hmethod, fun G hG => ?_⟩
    · rw [← List.drop_eq_getElem_cons hlt, List.take_append_drop]
    obtain ⟨i, hi⟩ := List.mem_iff_getElem?.1 hG
    rw [List.getElem?_take] at hi
    split at hi
    · rename_i hlt
      exact G.opener.kind?_eq_none.2 (hinner i hlt _ ((hopener i _).2 ⟨G, hi, rfl⟩))
    · cases hi

theorem misuse?_layers (before : List (Sign ρ)) (s : Sign ρ) (m : Misuse) :
    s.misuse? (layers before) = some m ↔ Fault before s m := by
  have hopener := (describes_layers before).opener
  have hnames := (describes_layers before).names
  constructor
  · intro h
    cases s with
    | opening opener => cases h
    | closing => cases h
    | declaration name =>
      simp only [misuse?, Option.ite_none_right_eq_some, Option.any_eq_true, decide_eq_true_eq] at h
      obtain ⟨⟨F, hF, hx⟩, hm⟩ := h
      cases hm
      exact .alreadyDeclared ((hnames 0 _).2 ⟨F, by rwa [← List.head?_eq_getElem?], hx⟩)
    | mention owner mention =>
      obtain ⟨kind, x, pos, ref⟩ := mention
      cases kind with
      | read =>
        simp only [misuse?, Layer.mentionMisuse?, Option.ite_none_right_eq_some] at h
        obtain ⟨⟨rfl, hlocal⟩, hm⟩ := h
        cases hm
        obtain ⟨F, fs, hfs⟩ := List.exists_cons_of_ne_nil hlocal
        exact .ownInitializer ((hopener 0 F.opener).2 ⟨F, by rw [hfs]; rfl, rfl⟩)
      | assign => cases h
      | receiver =>
        simp only [misuse?, Layer.mentionMisuse?, Option.ite_none_left_eq_some] at h
        obtain ⟨hout, hm⟩ := h
        cases hm
        exact .receiverOutside (mt (inClass_layers before).2 hout)
    | ret pos hasValue =>
      simp only [misuse?, Layer.returnMisuse?] at h
      split at h
      · rename_i hkind
        cases h
        exact .returnOutside ((enclosing_eq_none before).1 hkind)
      · rename_i hkind
        cases hasValue with
        | false => cases h
        | true => cases h; exact .returnValue ((enclosing_eq_initializer before).1 hkind)
      · cases h
      · cases h
  · intro h
    cases h with
    | alreadyDeclared h =>
      obtain ⟨F, hF, hx⟩ := (hnames 0 _).1 h
      rw [← List.head?_eq_getElem?] at hF
      simp [misuse?, Option.mem_def.1 hF, hx]
    | ownInitializer h =>
      obtain ⟨F, hF, -⟩ := (hopener 0 _).1 h
      have hlocal : layers before ≠ [] := by
        intro hnil
        rw [hnil] at hF
        cases hF
      simp [misuse?, Layer.mentionMisuse?, hlocal]
    | returnOutside h =>
      rw [misuse?, Layer.returnMisuse?, (enclosing_eq_none before).2 h]
    | returnValue h =>
      rw [misuse?, Layer.returnMisuse?, (enclosing_eq_initializer before).2 h]
      rfl
    | receiverOutside h =>
      have hout := mt (inClass_layers before).1 h
      simp [misuse?, Layer.mentionMisuse?, hout]

end Sign

theorem exists_indexed (found : List (Option α)) :
    ∃ indexed : List (Nat × α), indexed.Pairwise (fun a b => a.1 < b.1) ∧
      (∀ i a, (i, a) ∈ indexed ↔ found[i]? = some (some a)) ∧
      indexed.map (·.2) = found.flatMap Option.toList := by
  induction found with
  | nil => exact ⟨[], .nil, by simp, rfl⟩
  | cons o rest ih =>
    obtain ⟨indexed, hsorted, hmem, hmap⟩ := ih
    let later := indexed.map fun p => (p.1 + 1, p.2)
    have hlater : later.Pairwise fun a b => a.1 < b.1 :=
      List.pairwise_map.2 (hsorted.imp fun h => Nat.succ_lt_succ h)
    have hpos : ∀ p ∈ later, 0 < p.1 := by
      intro p hp
      obtain ⟨q, -, rfl⟩ := List.mem_map.1 hp
      exact Nat.succ_pos _
    have hsucc : ∀ i a, (i + 1, a) ∈ later ↔ rest[i]? = some (some a) := by
      intro i a
      rw [← hmem i a]
      simp [later]
    have hrest : later.map (·.2) = rest.flatMap Option.toList := by
      rw [List.map_map]
      exact hmap
    cases o with
    | none =>
      refine ⟨later, hlater, fun i a => ?_, hrest⟩
      cases i with
      | zero => exact iff_of_false (fun h => Nat.lt_irrefl 0 (hpos _ h)) (by simp)
      | succ i => exact hsucc i a
    | some b =>
      refine ⟨(0, b) :: later, .cons hpos hlater, fun i a => ?_, congrArg (b :: ·) hrest⟩
      cases i with
      | zero =>
        have hzero : (0, a) ∉ later := fun h => Nat.lt_irrefl 0 (hpos _ h)
        simp [hzero, eq_comm]
      | succ i => simpa using hsucc i a

/-- The misuses that are reported, also on the walk, are the faults at the signs of the program, one
for each and in order. So there are none exactly if the program has no fault. -/
theorem Program.misuses_exact (P : Program ρ) :
    (∃ faults : List (Nat × Misuse), faults.Pairwise (fun f g => f.1 < g.1) ∧
      (∀ i m, (i, m) ∈ faults ↔ ∃ s, P.signs[i]? = some s ∧ Sign.Fault (P.signs.take i) s m) ∧
      P.misuses = faults.map (·.2)) ∧
    (Stmt.walkAll P {}).misuses = P.misuses ∧
    (P.misuses = [] ↔ ¬∃ i s m, P.signs[i]? = some s ∧ Sign.Fault (P.signs.take i) s m) := by
  obtain ⟨faults, hsorted, hmem, hmap⟩ := exists_indexed (Sign.along Sign.misuse? [] P.signs)
  have hfaults : ∀ i m, (i, m) ∈ faults ↔
      ∃ s, P.signs[i]? = some s ∧ Sign.Fault (P.signs.take i) s m := by
    intro i m
    rw [hmem, Sign.getElem?_along, Option.map_eq_some_iff]
    exact exists_congr fun s => and_congr_right fun _ => Sign.misuse?_layers _ s m
  have hmisuses : P.misuses = faults.map (·.2) := P.misuses_signs.trans hmap.symm
  refine ⟨⟨faults, hsorted, hfaults, hmisuses⟩, ?_, ?_⟩
  · rw [Stmt.walkAll_eq_of fun s _ => s.walk_eq]
    rfl
  · rw [hmisuses, List.map_eq_nil_iff, List.eq_nil_iff_forall_not_mem]
    constructor
    · rintro hnone ⟨i, s, m, hs, hfault⟩
      exact hnone (i, m) ((hfaults i m).2 ⟨s, hs, hfault⟩)
    · rintro hnone ⟨i, m⟩ hf
      obtain ⟨s, hs, hfault⟩ := (hfaults i m).1 hf
      exact hnone ⟨i, s, m, hs, hfault⟩

end Lox
