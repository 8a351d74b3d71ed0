import Lox.Proofs.Scope.Signs
import Lox.Proofs.Scope.Walk

namespace Lox
set_option autoImplicit true

def Opener.kind? : Opener → Option Enclosing
  | block | cls => none
  | function => some .function
  | method name => some (Context.methodKind name)

namespace Layer

def enclosing (fs : List Layer) : Enclosing := (fs.findSome? (·.opener.kind?)).getD .none

def inClass (fs : List Layer) : Bool := fs.any (·.opener = .cls)

def binding (fs : List Layer) (x : String) : Binding :=
  (fs.findIdx? (x ∈ ·.names)).elim .free .bound

theorem modifyHead_add (fs : List Layer) (xs ys : List String) :
    (fs.modifyHead (·.add xs)).modifyHead (·.add ys) = fs.modifyHead (·.add (xs ++ ys)) := by
  cases fs <;> simp [add]

theorem modifyHead_add_nil (fs : List Layer) : fs.modifyHead (·.add []) = fs := by
  cases fs <;> rfl

theorem enclosing_modifyHead (fs : List Layer) (names : List String) :
    enclosing (fs.modifyHead (·.add names)) = enclosing fs := by
  cases fs <;> rfl

theorem inClass_modifyHead (fs : List Layer) (names : List String) :
    inClass (fs.modifyHead (·.add names)) = inClass fs := by
  cases fs <;> rfl

end Layer

/-- A scope that has the names of an open one. -/
def Scope.Matches (S : Scope) (F : Layer) : Prop := ∀ x, S.contains x = decide (x ∈ F.names)

theorem Scope.Matches.set {S : Scope} (h : S.Matches F) (x : String) (status : Status) :
    Scope.Matches (S.set x status) (F.add [x]) := by
  intro y
  rw [Bindings.contains_set, h y]
  simp [Layer.add, @eq_comm _ x]

/-- A context whose scopes are those that are open. -/
structure Context.Matches (Γ : Context) (fs : List Layer) : Prop where
  scopes : List.Forall₂ Scope.Matches Γ.scopes fs
  function : Γ.function = Layer.enclosing fs
  inClass : Γ.inClass = Layer.inClass fs

namespace Context.Matches

variable {Γ : Context} {fs : List Layer}

theorem nil : Context.Matches {} [] := ⟨.nil, rfl, rfl⟩

theorem binding (h : Γ.Matches fs) (x : String) : Γ.binding x = Layer.binding fs x := by
  have hidx : ∀ {Ss : List Scope} {fs : List Layer}, List.Forall₂ Scope.Matches Ss fs →
      Ss.findIdx? (·.contains x) = fs.findIdx? (x ∈ ·.names) := by
    intro Ss fs h
    induction h with
    | nil => rfl
    | cons hS _ ih => rw [List.findIdx?_cons, List.findIdx?_cons, ih, hS x]
  rw [Context.binding, Layer.binding, hidx h.scopes]
  cases fs.findIdx? (x ∈ ·.names) <;> rfl

theorem mark (h : Γ.Matches fs) (x : String) (status : Status) :
    (Γ.mark x status).Matches (fs.modifyHead (·.add [x])) := by
  refine ⟨?_, ?_, ?_⟩
  · have hscopes := h.scopes
    generalize hS : Γ.scopes = Ss at hscopes
    cases hscopes with
    | nil => rw [mark_of_nil hS, hS]; exact .nil
    | cons hF hfs => rw [scopes_mark hS]; exact .cons (hF.set x status) hfs
  · rw [function_mark, Layer.enclosing_modifyHead, h.function]
  · rw [inClass_mark, Layer.inClass_modifyHead, h.inClass]

theorem declare (h : Γ.Matches fs) (names : List String) :
    (Γ.declare names).Matches (fs.modifyHead (·.add names)) := by
  induction names generalizing Γ fs with
  | nil => rwa [Layer.modifyHead_add_nil]
  | cons x names ih =>
    have hrest := ih (h.mark x .ready)
    rwa [Layer.modifyHead_add] at hrest

theorem enter (h : Γ.Matches fs) : Γ.enter.Matches (⟨.block, Opener.block.given⟩ :: fs) where
  scopes := .cons (fun _ => rfl) h.scopes
  function := h.function
  inClass := h.inClass

theorem enterFunction (h : Γ.Matches fs) (hkind : opener.kind? = some kind) :
    (Γ.enterFunction kind).Matches (⟨opener, opener.given⟩ :: fs) := by
  cases opener with
  | block => cases hkind
  | function => cases hkind; exact ⟨.cons (fun _ => rfl) h.scopes, rfl, h.inClass⟩
  | method name => cases hkind; exact ⟨.cons (fun _ => rfl) h.scopes, rfl, h.inClass⟩
  | cls => cases hkind

theorem enterClass (h : Γ.Matches fs) :
    Γ.enterClass.Matches (⟨.cls, Opener.cls.given⟩ :: fs) where
  scopes := .cons (fun x => by simp [Bindings.empty, Opener.given, eq_comm]) h.scopes
  function := h.function
  inClass := rfl

end Context.Matches

namespace Sign

variable {ρ β : Type}

/-- What `f` says of each sign, given the scopes that are open before it. -/
def along (f : List Layer → Sign ρ → β) : List Layer → List (Sign ρ) → List β
  | _, [] => []
  | fs, s :: rest => f fs s :: along f (s.pass fs) rest

variable (f : List Layer → Sign ρ → β) (fs : List Layer)

theorem along_append (a b : List (Sign ρ)) :
    along f fs (a ++ b) = along f fs a ++ along f (a.foldl pass fs) b := by
  induction a generalizing fs with
  | nil => rfl
  | cons s rest ih => rw [List.cons_append, along, ih]; rfl

theorem getElem?_along (signs : List (Sign ρ)) (i : Nat) :
    (along f fs signs)[i]? = signs[i]?.map (f ((signs.take i).foldl pass fs)) := by
  induction signs generalizing fs i with
  | nil => rfl
  | cons s rest ih =>
    cases i with
    | zero => rfl
    | succ i => exact ih (s.pass fs) i

theorem foldl_pass_mentions (owner : Option String) (ms : List (Mention ρ)) :
    (ms.map (mention owner)).foldl pass fs = fs := by
  induction ms with
  | nil => rfl
  | cons m ms ih => exact ih

theorem along_mentions (owner : Option String) (ms : List (Mention ρ)) :
    along f fs (ms.map (mention owner)) = ms.map fun m => f fs (.mention owner m) := by
  induction ms with
  | nil => rfl
  | cons m ms ih => rw [List.map_cons, along, pass, ih, List.map_cons]

theorem foldl_pass_declarations (names : List Ident) :
    (names.map (declaration : Ident → Sign ρ)).foldl pass fs =
      fs.modifyHead (·.add (names.map (·.name))) := by
  induction names generalizing fs with
  | nil => exact (Layer.modifyHead_add_nil fs).symm
  | cons name names ih => exact (ih _).trans (Layer.modifyHead_add fs [name.name] _)

end Sign

/-- Behind a statement the open scopes are those before it, with the names that it declares. -/
def Stmt.Passes (s : Stmt ρ) : Prop :=
  ∀ fs : List Layer, s.signs.foldl Sign.pass fs = fs.modifyHead (·.add s.names)

theorem Stmt.foldl_pass_of {body : List (Stmt ρ)} (h : ∀ s ∈ body, s.Passes) (fs : List Layer) :
    (Stmt.signsAll body).foldl Sign.pass fs =
      fs.modifyHead (·.add (body.flatMap Stmt.names)) := by
  induction body generalizing fs with
  | nil => exact (Layer.modifyHead_add_nil fs).symm
  | cons s rest ih =>
    obtain ⟨hs, hrest⟩ := List.forall_mem_cons.1 h
    rw [signsAll, List.foldl_append, hs, ih hrest, Layer.modifyHead_add, List.flatMap_cons]

theorem Stmt.foldl_pass_scope_of {body : List (Stmt ρ)} (h : ∀ s ∈ body, s.Passes) (F : Layer)
    (fs : List Layer) : (Stmt.signsAll body ++ [Sign.closing]).foldl Sign.pass (F :: fs) = fs := by
  rw [List.foldl_append, Stmt.foldl_pass_of h]
  rfl

theorem FunDecl.foldl_pass_of {f : FunDecl ρ} (h : ∀ s ∈ f.body, s.Passes) (opener : Opener)
    (fs : List Layer) : (f.signs opener).foldl Sign.pass fs = fs := by
  obtain ⟨name, params, body⟩ := f
  rw [signs, List.foldl_cons, List.foldl_append, Sign.foldl_pass_declarations]
  exact Stmt.foldl_pass_scope_of h _ fs

theorem FunDecl.foldl_pass_all_of {methods : List (FunDecl ρ)}
    (h : ∀ f ∈ methods, ∀ s ∈ f.body, s.Passes) (fs : List Layer) :
    (FunDecl.signsAll methods).foldl Sign.pass fs = fs := by
  induction methods with
  | nil => rfl
  | cons f rest ih =>
    obtain ⟨hf, hrest⟩ := List.forall_mem_cons.1 h
    rw [signsAll, List.foldl_append, FunDecl.foldl_pass_of hf, ih hrest]

theorem Expr.foldl_pass (e : Expr ρ) (owner : Option String) (fs : List Layer) :
    (e.signs owner).foldl Sign.pass fs = fs := Sign.foldl_pass_mentions fs owner e.mentions

theorem Stmt.passes (s : Stmt ρ) : s.Passes := by
  induction s using Stmt.induction with
  | expression e =>
    intro fs
    rw [signs, e.foldl_pass]
    exact (Layer.modifyHead_add_nil fs).symm
  | print e =>
    intro fs
    rw [signs, e.foldl_pass]
    exact (Layer.modifyHead_add_nil fs).symm
  | varDecl name init =>
    intro fs
    cases init with
    | none => rfl
    | some e => exact e.foldl_pass _ _
  | block body ih =>
    intro fs
    exact (Stmt.foldl_pass_scope_of ih _ fs).trans (Layer.modifyHead_add_nil fs).symm
  | branch c yes no ihy ihn =>
    intro fs
    cases no with
    | none => rw [signs, List.foldl_append, c.foldl_pass, ihy, names]
    | some no =>
      rw [signs, List.foldl_append, List.foldl_append, c.foldl_pass, ihy, ihn no rfl,
        Layer.modifyHead_add, names]
  | loop c body ih =>
    intro fs
    rw [signs, List.foldl_append, c.foldl_pass, ih, names]
  | funDecl decl ih =>
    intro fs
    exact FunDecl.foldl_pass_of ih _ _
  | ret pos value =>
    intro fs
    cases value with
    | none => exact (Layer.modifyHead_add_nil fs).symm
    | some e => exact (e.foldl_pass none fs).trans (Layer.modifyHead_add_nil fs).symm
  | classDecl name methods ih =>
    intro fs
    rw [signs, List.foldl_cons, List.foldl_cons, List.foldl_append, FunDecl.foldl_pass_all_of ih]
    rfl

def Mention.noted (m : Mention ρ) (note : σ) : Mention σ := ⟨m.kind, m.name, m.pos, note⟩

/-- What resolution notes at a reference: nothing at a receiver outside of all classes. -/
def Context.note (Γ : Context) (m : Mention ρ) : Binding :=
  if m.kind = .receiver ∧ Γ.inClass = false then .free else Γ.binding m.name

def Layer.note (fs : List Layer) (m : Mention ρ) : Binding :=
  if m.kind = .receiver ∧ Layer.inClass fs = false then .free else Layer.binding fs m.name

def Sign.resolve (fs : List Layer) : Sign ρ → Sign Binding
  | .opening opener => .opening opener
  | .closing => .closing
  | .declaration name => .declaration name
  | .mention owner m => .mention owner (m.noted (Layer.note fs m))
  | .ret pos hasValue => .ret pos hasValue

theorem Expr.mentions_resolve (Γ : Context) (e : Expr ρ) :
    (e.resolve Γ).mentions = e.mentions.map fun m => m.noted (Γ.note m) := by
  induction e using Expr.rec (motive_2 := fun args =>
    Expr.mentionsAll (Expr.resolveAll Γ args) =
      (Expr.mentionsAll args).map fun m : Mention ρ => m.noted (Γ.note m)) with
  | literal => rfl
  | grouping inner ih => exact ih
  | unary op pos operand ih => exact ih
  | binary left op pos right ihl ihr => rw [resolve, mentions, mentions, List.map_append, ihl, ihr]
  | logical left op right ihl ihr => rw [resolve, mentions, mentions, List.map_append, ihl, ihr]
  | read => rfl
  | assign name ref value ih =>
    rw [resolve, mentions, mentions, List.map_append, ih]
    rfl
  | call callee args paren ihc iha => rw [resolve, mentions, mentions, List.map_append, ihc, iha]
  | get object name ih => exact ih
  | set object name value iho ihv => rw [resolve, mentions, mentions, List.map_append, iho, ihv]
  | receiver pos ref =>
    cases hin : Γ.inClass <;> simp [resolve, mentions, Mention.noted, Context.note, hin]
  | nil => rfl
  | cons e args ihe iha => rw [resolveAll, mentionsAll, mentionsAll, List.map_append, ihe, iha]

section
variable {Γ : Context} {fs : List Layer}

theorem Context.Matches.note (h : Γ.Matches fs) (m : Mention ρ) : Γ.note m = Layer.note fs m := by
  rw [Context.note, Layer.note, h.inClass, h.binding]

theorem Expr.signs_resolve (h : Γ.Matches fs) (e : Expr ρ) (owner : Option String) :
    (e.resolve Γ).signs owner = Sign.along Sign.resolve fs (e.signs owner) := by
  rw [signs, signs, e.mentions_resolve, Sign.along_mentions, List.map_map]
  exact List.map_congr_left fun m _ => by rw [Function.comp_apply, h.note m]; rfl

theorem Context.Matches.after (h : Γ.Matches fs) (s : Stmt ρ) :
    (Γ.after s).Matches (s.signs.foldl Sign.pass fs) := by
  rw [after_eq_declare, s.passes]
  exact h.declare _

/-- The signs of a resolved statement are its signs, with the notes that the scopes around it give.
-/
def Stmt.ResolvesAlong (s : Stmt ρ) : Prop :=
  ∀ Γ fs, Context.Matches Γ fs → (s.resolve Γ).signs = Sign.along Sign.resolve fs s.signs

theorem Stmt.signs_resolveAll_of {body : List (Stmt ρ)} (ih : ∀ s ∈ body, s.ResolvesAlong)
    (h : Γ.Matches fs) : Stmt.signsAll (Stmt.resolveAll Γ body) =
      Sign.along Sign.resolve fs (Stmt.signsAll body) := by
  induction body generalizing Γ fs with
  | nil => rfl
  | cons s rest ihr =>
    obtain ⟨ihs, ihrest⟩ := List.forall_mem_cons.1 ih
    rw [resolveAll, signsAll, signsAll, Sign.along_append, ihs Γ fs h, ihr ihrest (h.after s)]

theorem Stmt.signs_scope_of {body : List (Stmt ρ)} (ih : ∀ s ∈ body, s.ResolvesAlong)
    (h : Γ.Matches fs) : Stmt.signsAll (Stmt.resolveAll Γ body) ++ [.closing] =
      Sign.along Sign.resolve fs (Stmt.signsAll body ++ [.closing]) := by
  rw [Sign.along_append, Stmt.signs_resolveAll_of ih h]
  rfl

theorem Sign.along_declarations (fs : List Layer) (names : List Ident) :
    Sign.along Sign.resolve fs (names.map (declaration : Ident → Sign ρ)) =
      names.map declaration := by
  induction names generalizing fs with
  | nil => rfl
  | cons name names ih => rw [List.map_cons, along, ih]; rfl

theorem Context.Matches.body (h : Γ.Matches fs) (hkind : opener.kind? = some kind)
    (params : List Ident) : (Γ.body kind params).Matches
      ((params.map (Sign.declaration : Ident → Sign ρ)).foldl Sign.pass
        (⟨opener, opener.given⟩ :: fs)) := by
  rw [Context.body, params_eq_declare, Sign.foldl_pass_declarations]
  exact (h.enterFunction hkind).declare _

theorem FunDecl.signs_resolve_of {f : FunDecl ρ} (ih : ∀ s ∈ f.body, s.ResolvesAlong)
    (h : Γ.Matches fs) (hkind : opener.kind? = some kind) :
    (f.resolve Γ kind).signs opener = Sign.along Sign.resolve fs (f.signs opener) := by
  obtain ⟨name, params, body⟩ := f
  rw [resolve, signs, signs, Sign.along, Sign.pass, Sign.along_append, Sign.along_declarations,
    Stmt.signs_scope_of ih (h.body hkind params)]
  rfl

theorem FunDecl.signs_resolveAll_of {methods : List (FunDecl ρ)}
    (ih : ∀ f ∈ methods, ∀ s ∈ f.body, s.ResolvesAlong) (h : Γ.Matches fs) :
    FunDecl.signsAll (FunDecl.resolveAll Γ methods) =
      Sign.along Sign.resolve fs (FunDecl.signsAll methods) := by
  induction methods with
  | nil => rfl
  | cons f rest ihr =>
    obtain ⟨ihf, ihrest⟩ := List.forall_mem_cons.1 ih
    rw [resolveAll, signsAll, signsAll, name_resolve, Sign.along_append,
      FunDecl.signs_resolve_of ihf h rfl, FunDecl.foldl_pass_of fun s _ => s.passes, ihr ihrest]

end

theorem Stmt.signs_resolve (s : Stmt ρ) : s.ResolvesAlong := by
  induction s using Stmt.induction with
  | expression e => exact fun Γ fs h => e.signs_resolve h none
  | print e => exact fun Γ fs h => e.signs_resolve h none
  | varDecl name init =>
    intro Γ fs h
    cases init with
    | none => rfl
    | some e =>
      exact congrArg (Sign.declaration name :: ·) (e.signs_resolve (h.mark name.name .pending) _)
  | block body ih =>
    intro Γ fs h
    exact congrArg (Sign.opening .block :: ·) (Stmt.signs_scope_of ih h.enter)
  | branch c yes no ihy ihn =>
    intro Γ fs h
    cases no with
    | none =>
      rw [resolve, signs, signs, Sign.along_append, c.signs_resolve h, c.foldl_pass, ihy Γ fs h]
    | some no =>
      rw [resolve, signs, signs, Sign.along_append, Sign.along_append, List.foldl_append,
        c.signs_resolve h, c.foldl_pass, ihy Γ fs h, ihn no rfl _ _ (h.after yes)]
  | loop c body ih =>
    intro Γ fs h
    rw [resolve, signs, signs, Sign.along_append, c.signs_resolve h, c.foldl_pass, ih Γ fs h]
  | funDecl decl ih =>
    intro Γ fs h
    have hdecl := FunDecl.signs_resolve_of ih (h.mark decl.name.name .ready)
      (rfl : Opener.function.kind? = some .function)
    rw [resolve, signs, signs, FunDecl.name_resolve, hdecl]
    rfl
  | ret pos value =>
    intro Γ fs h
    cases value with
    | none => rfl
    | some e => exact congrArg (Sign.ret pos true :: ·) (e.signs_resolve h none)
  | classDecl name methods ih =>
    intro Γ fs h
    have hmethods := FunDecl.signs_resolveAll_of ih (h.mark name.name .ready).enterClass
    rw [resolve, signs, signs, hmethods, Sign.along, Sign.along, Sign.along_append]
    rfl

/-- The signs of a resolved program are those of the program, with the notes that the scopes around
each reference give. -/
theorem Program.signs_resolve (P : Program ρ) :
    P.resolve.signs = Sign.along Sign.resolve [] P.signs :=
  Stmt.signs_resolveAll_of (fun s _ => s.signs_resolve) .nil

def Sign.entries : Sign Binding → List Reference
  | .mention _ m => m.entry
  | .opening _ | .closing | .declaration _ | .ret _ _ => []

theorem Expr.references_signs (e : Expr Binding) (owner : Option String) :
    e.references = (e.signs owner).flatMap Sign.entries := by
  rw [e.references_eq, signs, List.flatMap_map]
  rfl

theorem Stmt.references_signsAll_of {body : List (Stmt Binding)}
    (ih : ∀ s ∈ body, Stmt.references s = s.signs.flatMap Sign.entries) :
    Stmt.referencesAll body = (Stmt.signsAll body).flatMap Sign.entries := by
  induction body with
  | nil => rfl
  | cons s rest ihr =>
    obtain ⟨ihs, ihrest⟩ := List.forall_mem_cons.1 ih
    rw [referencesAll, signsAll, List.flatMap_append, ihs, ihr ihrest]

theorem FunDecl.references_signs_of {f : FunDecl Binding}
    (ih : ∀ s ∈ f.body, Stmt.references s = s.signs.flatMap Sign.entries) (opener : Opener) :
    f.references = (f.signs opener).flatMap Sign.entries := by
  obtain ⟨name, params, body⟩ := f
  have hparams : (params.map Sign.declaration).flatMap Sign.entries = [] := by
    simp [List.flatMap_map, Sign.entries]
  rw [signs, List.flatMap_cons, List.flatMap_append, hparams, List.flatMap_append,
    ← Stmt.references_signsAll_of ih]
  exact (List.append_nil _).symm

theorem Stmt.references_signs (s : Stmt Binding) :
    s.references = s.signs.flatMap Sign.entries := by
  induction s using Stmt.induction with
  | expression e => exact e.references_signs none
  | print e => exact e.references_signs none
  | varDecl name init =>
    cases init with
    | none => rfl
    | some e => exact e.references_signs _
  | block body ih =>
    rw [references, signs, List.flatMap_cons, List.flatMap_append, ← references_signsAll_of ih]
    exact (List.append_nil _).symm
  | branch c yes no ihy ihn =>
    cases no with
    | none => rw [references, signs, List.flatMap_append, ← c.references_signs, ihy]
    | some no =>
      rw [references, signs, List.flatMap_append, List.flatMap_append, ← c.references_signs, ihy,
        ihn no rfl]
  | loop c body ih => rw [references, signs, List.flatMap_append, ← c.references_signs, ih]
  | funDecl decl ih => exact FunDecl.references_signs_of ih .function
  | ret pos value =>
    cases value with
    | none => rfl
    | some e => exact e.references_signs none
  | classDecl name methods ih =>
    have hmethods : FunDecl.referencesAll methods =
        (FunDecl.signsAll methods).flatMap Sign.entries := by
      induction methods with
      | nil => rfl
      | cons f rest ihr =>
        obtain ⟨ihf, ihrest⟩ := List.forall_mem_cons.1 ih
        rw [FunDecl.referencesAll, FunDecl.signsAll, List.flatMap_append,
          FunDecl.references_signs_of ihf, ihr ihrest]
    rw [references, signs, List.flatMap_cons, List.flatMap_cons, List.flatMap_append, ← hmethods]
    exact (List.append_nil _).symm

namespace Sign

/-- The `d`-th scope around a place is the innermost one that has a name. -/
def Innermost (before : List (Sign ρ)) (d : Nat) (x : String) : Prop :=
  DeclaredIn before d x ∧ ∀ i < d, ¬DeclaredIn before i x

/-- A place inside a class. -/
def InClass (before : List (Sign ρ)) : Prop := ∃ d, OpenedBy before d .cls

theorem inClass_layers (before : List (Sign ρ)) :
    Layer.inClass (layers before) = true ↔ InClass before := by
  simp only [InClass, (describes_layers before).opener, Layer.inClass, List.any_eq_true,
    decide_eq_true_eq, List.mem_iff_getElem?, Option.mem_def]
  exact ⟨fun ⟨F, ⟨d, hF⟩, ho⟩ => ⟨d, F, hF, ho⟩, fun ⟨d, F, hF, ho⟩ => ⟨F, ⟨d, hF⟩, ho⟩⟩

theorem binding_layers (before : List (Sign ρ)) (x : String) (d : Nat) :
    Layer.binding (layers before) x = .bound d ↔ Innermost before d x := by
  have hbound : Layer.binding (layers before) x = .bound d ↔
      (layers before).findIdx? (x ∈ ·.names) = some d := by
    rw [Layer.binding]
    cases (layers before).findIdx? (x ∈ ·.names) <;> simp
  have hdeclared := (describes_layers before).names
  rw [hbound, List.findIdx?_eq_some_iff_getElem]
  constructor
  · rintro ⟨hd, hx, hinner⟩
    refine ⟨(hdeclared d x).2 ⟨_, List.getElem?_eq_getElem hd, of_decide_eq_true hx⟩, ?_⟩
    intro i hi hdecl
    obtain ⟨F, hF, hx⟩ := (hdeclared i x).1 hdecl
    obtain ⟨_, rfl⟩ := List.getElem?_eq_some_iff.1 hF
    exact hinner i hi (decide_eq_true hx)
  · rintro ⟨hdecl, hinner⟩
    obtain ⟨F, hF, hx⟩ := (hdeclared d x).1 hdecl
    obtain ⟨hd, rfl⟩ := List.getElem?_eq_some_iff.1 hF
    refine ⟨hd, decide_eq_true hx, fun i hi hx => hinner i hi ?_⟩
    exact (hdeclared i x).2
      ⟨_, List.getElem?_eq_getElem (Nat.lt_trans hi hd), of_decide_eq_true hx⟩

theorem note_layers (before : List (Sign ρ)) (m : Mention ρ) (d : Nat) :
    Layer.note (layers before) m = .bound d ↔
      (m.kind = .receiver → InClass before) ∧ Innermost before d m.name := by
  rw [← binding_layers, ← inClass_layers, Layer.note]
  split
  · rename_i h
    simp [h.1, h.2]
  · rename_i h
    simp only [not_and, Bool.not_eq_false] at h
    exact ⟨fun hd => ⟨h, hd⟩, And.right⟩

end Sign

/-- Resolution notes at every reference the distance to the innermost scope around it in which its
name is declared before it, and at a receiver only inside a class. These notes are what the walk
enters, in order. The walk leaves every statement with the scopes and kinds with which it came, but
for the names that the statement declares in the innermost scope. -/
theorem Program.distances_lexical (P : Program ρ) :
    (∀ i owner m, P.signs[i]? = some (.mention owner m) → ∃ note,
      P.resolve.signs[i]? = some (.mention owner (m.noted note)) ∧
      ∀ d, note = .bound d ↔ (m.kind = .receiver → Sign.InClass (P.signs.take i)) ∧
        Sign.Innermost (P.signs.take i) d m.name) ∧
    (Stmt.walkAll P {}).entries = P.resolve.signs.flatMap Sign.entries ∧
    ∀ (s : Stmt ρ) (w : Walk), (s.walk w).context =
      { w.context with scopes := w.context.scopes.modifyHead (Scope.declare · s.names) } := by
  refine ⟨fun i owner m hm => ?_, ?_, fun s w => ?_⟩
  · refine ⟨Layer.note (Sign.layers (P.signs.take i)) m, ?_, fun d => Sign.note_layers _ m d⟩
    rw [P.signs_resolve, Sign.getElem?_along, hm]
    rfl
  · rw [Stmt.walkAll_eq_of fun s _ => s.walk_eq]
    exact Stmt.references_signsAll_of fun s _ => s.references_signs
  · rw [s.walk_eq w, Walk.context_goTo, Context.after_eq_declare, Context.declare_eq]

/-- A local variable, and a function with a local variable of the same name, which is read before
its declaration and in its own initializer. -/
def Program.shadowed : Program Unit :=
  [.block [.varDecl ⟨"x", ⟨1, 6⟩⟩ none, .funDecl ⟨⟨"f", ⟨1, 13⟩⟩, [⟨"y", ⟨1, 15⟩⟩],
    [.print (.read ⟨"x", ⟨1, 26⟩⟩ ()), .varDecl ⟨"x", ⟨1, 33⟩⟩ (some (.read ⟨"x", ⟨1, 37⟩⟩ ()))]⟩]]

theorem Program.distances_lexical_shadowed :
    (∃ m, shadowed.signs[5]? = some (.mention none m) ∧ m.name = "x" ∧
      Sign.Innermost (shadowed.signs.take 5) 1 "x") ∧
    ∃ m, shadowed.signs[7]? = some (.mention (some "x") m) ∧ m.name = "x" ∧
      Sign.Innermost (shadowed.signs.take 7) 0 "x" := by
  have hresolved : shadowed.resolve.signs[5]? =
        some (.mention none ⟨.read, "x", ⟨1, 26⟩, .bound 1⟩) ∧
      shadowed.resolve.signs[7]? = some (.mention (some "x") ⟨.read, "x", ⟨1, 37⟩, .bound 0⟩) :=
    ⟨rfl, rfl⟩
  obtain ⟨note, hnote, hd⟩ := shadowed.distances_lexical.1 5 none _ rfl
  obtain ⟨note', hnote', hd'⟩ := shadowed.distances_lexical.1 7 (some "x") _ rfl
  cases hresolved.1.symm.trans hnote
  cases hresolved.2.symm.trans hnote'
  exact ⟨⟨_, rfl, rfl, ((hd 1).1 rfl).2⟩, ⟨_, rfl, rfl, ((hd' 0).1 rfl).2⟩⟩

end Lox
