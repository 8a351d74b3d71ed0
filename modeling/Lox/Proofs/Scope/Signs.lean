import Lox.Proofs.Scope.Mentions
import Mathlib.Data.List.Induction

namespace Lox
set_option autoImplicit true

/-- What opens a scope. -/
inductive Opener where
  | block
  | function
  | method (name : String)
  | cls
deriving DecidableEq, Repr

def Opener.given : Opener → List String
  | cls => [receiverName]
  | block | function | method _ => []

inductive Sign (ρ : Type) where
  | opening (opener : Opener)
  | closing
  | declaration (name : Ident)
  /-- A reference, and the variable in whose initializer it stands, if it stands in one. -/
  | mention (owner : Option String) (m : Mention ρ)
  | ret (pos : Pos) (hasValue : Bool)

section
variable {ρ : Type}

def Expr.signs (owner : Option String) (e : Expr ρ) : List (Sign ρ) :=
  e.mentions.map (.mention owner)

mutual

def Stmt.signs : Stmt ρ → List (Sign ρ)
  | .expression e => e.signs none
  | .print e => e.signs none
  | .varDecl name none => [.declaration name]
  | .varDecl name (some init) => .declaration name :: init.signs (some name.name)
  | .block body => .opening .block :: (Stmt.signsAll body ++ [.closing])
  | .branch condition yes none => condition.signs none ++ yes.signs
  | .branch condition yes (some no) => condition.signs none ++ yes.signs ++ no.signs
  | .loop condition body => condition.signs none ++ body.signs
  | .funDecl decl => .declaration decl.name :: decl.signs .function
  | .ret pos none => [.ret pos false]
  | .ret pos (some value) => .ret pos true :: value.signs none
  | .classDecl name methods =>
    .declaration name :: .opening .cls :: (FunDecl.signsAll methods ++ [.closing])

def Stmt.signsAll : List (Stmt ρ) → List (Sign ρ)
  | [] => []
  | s :: rest => s.signs ++ Stmt.signsAll rest

def FunDecl.signs (opener : Opener) : FunDecl ρ → List (Sign ρ)
  | ⟨_, params, body⟩ =>
    .opening opener :: (params.map .declaration ++ (Stmt.signsAll body ++ [.closing]))

def FunDecl.signsAll : List (FunDecl ρ) → List (Sign ρ)
  | [] => []
  | f :: rest => f.signs (.method f.name.name) ++ FunDecl.signsAll rest

end

def Program.signs (P : Program ρ) : List (Sign ρ) := Stmt.signsAll P

end

namespace Sign

/-- The number of scopes that are open behind signs, if `n` are open before them. There is none if
more scopes are closed than are open. -/
def level : Nat → List (Sign ρ) → Option Nat
  | n, [] => some n
  | n, .opening _ :: rest => level (n + 1) rest
  | 0, .closing :: _ => none
  | n + 1, .closing :: rest => level n rest
  | n, .declaration _ :: rest => level n rest
  | n, .mention _ _ :: rest => level n rest
  | n, .ret _ _ :: rest => level n rest

/-- Behind the signs `before`, the scope that `opener` opened is the `d`-th around, counted from the
innermost, and `inside` are the signs behind its opening. -/
def Around (before : List (Sign ρ)) (d : Nat) (opener : Opener) (inside : List (Sign ρ)) : Prop :=
  ∃ outside, before = outside ++ .opening opener :: inside ∧ level 0 inside = some d

/-- The scope that `opener` opened has a name: it is given, or it is declared by one of the signs
behind the opening, and in no scope further inside. -/
def Declares (opener : Opener) (inside : List (Sign ρ)) (x : String) : Prop :=
  x ∈ opener.given ∨ ∃ earlier name later,
    inside = earlier ++ .declaration name :: later ∧ level 0 earlier = some 0 ∧ name.name = x

/-- The `d`-th scope around a place was opened by `opener`. -/
def OpenedBy (before : List (Sign ρ)) (d : Nat) (opener : Opener) : Prop :=
  ∃ inside, Around before d opener inside

/-- The `d`-th scope around a place has a name before that place. -/
def DeclaredIn (before : List (Sign ρ)) (d : Nat) (x : String) : Prop :=
  ∃ opener inside, Around before d opener inside ∧ Declares opener inside x

variable {s t : Sign ρ} {before outside inside : List (Sign ρ)}

theorem level_append (n : Nat) (a b : List (Sign ρ)) :
    level n (a ++ b) = (level n a).bind fun m => level m b := by
  fun_induction level n a with
  | case1 => rfl
  | case2 _ _ _ ih => exact ih
  | case3 => rfl
  | case4 _ _ ih => exact ih
  | case5 _ _ _ ih => exact ih
  | case6 _ _ _ _ ih => exact ih
  | case7 _ _ _ _ ih => exact ih

theorem level_closing (e d : Nat) :
    level e ([.closing] : List (Sign ρ)) = some d ↔ e = d + 1 := by
  cases e <;> simp [level]

theorem concat_split (h : before ++ [s] = outside ++ t :: inside) :
    s = t ∧ before = outside ∧ inside = [] ∨
      ∃ inside', inside = inside' ++ [s] ∧ before = outside ++ t :: inside' := by
  induction inside using List.reverseRecOn with
  | nil =>
    obtain ⟨hb, hs⟩ := List.append_inj' h rfl
    exact .inl ⟨(List.cons.inj hs).1, hb, rfl⟩
  | append_singleton inside' u =>
    rw [← List.cons_append, ← List.append_assoc] at h
    obtain ⟨hb, hs⟩ := List.append_inj' h rfl
    cases hs
    exact .inr ⟨inside', rfl, hb⟩

theorem around_concat : Around (before ++ [s]) d opener inside ↔
    s = .opening opener ∧ inside = [] ∧ d = 0 ∨
      ∃ e inside', Around before e opener inside' ∧ inside = inside' ++ [s] ∧
        level e [s] = some d := by
  constructor
  · rintro ⟨outside, heq, hd⟩
    rcases concat_split heq with ⟨hs, -, rfl⟩ | ⟨inside', rfl, hb⟩
    · exact .inl ⟨hs, rfl, (Option.some.inj hd).symm⟩
    · rw [level_append] at hd
      obtain ⟨e, he, hs⟩ := Option.bind_eq_some_iff.1 hd
      exact .inr ⟨e, inside', ⟨outside, hb, he⟩, rfl, hs⟩
  · rintro (⟨rfl, rfl, rfl⟩ | ⟨e, inside', ⟨outside, rfl, he⟩, rfl, hs⟩)
    · exact ⟨before, rfl, rfl⟩
    · refine ⟨outside, by simp, ?_⟩
      rw [level_append, he]
      exact hs

theorem declares_concat : Declares opener (inside ++ [s]) x ↔
    Declares opener inside x ∨
      ∃ name, s = .declaration name ∧ name.name = x ∧ level 0 inside = some 0 := by
  constructor
  · rintro (hx | ⟨earlier, name, later, heq, hlevel, hx⟩)
    · exact .inl (.inl hx)
    · rcases concat_split heq with ⟨hs, rfl, -⟩ | ⟨later', -, rfl⟩
      · exact .inr ⟨name, hs, hx, hlevel⟩
      · exact .inl (.inr ⟨earlier, name, later', rfl, hlevel, hx⟩)
  · rintro ((hx | ⟨earlier, name, later, rfl, hlevel, hx⟩) | ⟨name, rfl, hx, hlevel⟩)
    · exact .inl hx
    · exact .inr ⟨earlier, name, later ++ [s], by simp, hlevel, hx⟩
    · exact .inr ⟨inside, name, [], rfl, hlevel, hx⟩

theorem openedBy_concat : OpenedBy (before ++ [s]) d opener ↔
    s = .opening opener ∧ d = 0 ∨ ∃ e, OpenedBy before e opener ∧ level e [s] = some d := by
  simp only [OpenedBy, around_concat]
  constructor
  · rintro ⟨inside, ⟨hs, -, hd⟩ | ⟨e, inside', h, -, hd⟩⟩
    · exact .inl ⟨hs, hd⟩
    · exact .inr ⟨e, ⟨inside', h⟩, hd⟩
  · rintro (⟨hs, hd⟩ | ⟨e, ⟨inside', h⟩, hd⟩)
    · exact ⟨[], .inl ⟨hs, rfl, hd⟩⟩
    · exact ⟨_, .inr ⟨e, inside', h, rfl, hd⟩⟩

theorem declaredIn_concat : DeclaredIn (before ++ [s]) d x ↔
    (∃ opener, s = .opening opener ∧ d = 0 ∧ x ∈ opener.given) ∨
    (∃ name opener, s = .declaration name ∧ d = 0 ∧ name.name = x ∧ OpenedBy before 0 opener) ∨
    ∃ e, DeclaredIn before e x ∧ level e [s] = some d := by
  simp only [DeclaredIn, around_concat]
  constructor
  · rintro ⟨opener, inside, ⟨hs, rfl, hd⟩ | ⟨e, inside', h, rfl, hd⟩, hx⟩
    · refine .inl ⟨opener, hs, hd, hx.resolve_right ?_⟩
      simp
    · rcases declares_concat.1 hx with hx | ⟨name, rfl, hx, hlevel⟩
      · exact .inr (.inr ⟨e, ⟨opener, inside', h, hx⟩, hd⟩)
      · obtain ⟨outside, heq, he⟩ := h
        cases he.symm.trans hlevel
        exact .inr (.inl ⟨name, opener, rfl, (Option.some.inj hd).symm, hx, inside', outside, heq,
          hlevel⟩)
  · rintro (⟨opener, hs, hd, hx⟩ | ⟨name, opener, rfl, rfl, hx, inside, h⟩ |
      ⟨e, ⟨opener, inside, h, hx⟩, hd⟩)
    · exact ⟨opener, [], .inl ⟨hs, rfl, hd⟩, .inl hx⟩
    · obtain ⟨outside, heq, hlevel⟩ := h
      refine ⟨opener, _, .inr ⟨0, inside, ⟨outside, heq, hlevel⟩, rfl, by simp [level]⟩, ?_⟩
      exact declares_concat.2 (.inr ⟨name, rfl, hx, hlevel⟩)
    · exact ⟨opener, _, .inr ⟨e, inside, h, rfl, hd⟩, declares_concat.2 (.inl hx)⟩

end Sign

/-- A scope that is open: what opened it, and the names it has so far. -/
structure Layer where
  opener : Opener
  names : List String

def Layer.add (F : Layer) (names : List String) : Layer :=
  { F with names := names.reverse ++ F.names }

namespace Sign

/-- The scopes that are open behind a sign, the innermost first. -/
def pass (layers : List Layer) : Sign ρ → List Layer
  | .opening opener => ⟨opener, opener.given⟩ :: layers
  | .closing => layers.tail
  | .declaration name => layers.modifyHead (·.add [name.name])
  | .mention _ _ => layers
  | .ret _ _ => layers

def layers (before : List (Sign ρ)) : List Layer := before.foldl pass []

theorem layers_concat (before : List (Sign ρ)) (s : Sign ρ) :
    layers (before ++ [s]) = s.pass (layers before) := by
  rw [layers, List.foldl_append]
  rfl

/-- Open scopes that are those around a place, with the names declared before it. -/
structure Describes (fs : List Layer) (before : List (Sign ρ)) : Prop where
  opener : ∀ d o, OpenedBy before d o ↔ ∃ F ∈ fs[d]?, F.opener = o
  names : ∀ d x, DeclaredIn before d x ↔ ∃ F ∈ fs[d]?, x ∈ F.names

theorem Describes.nil : Describes [] ([] : List (Sign ρ)) where
  opener := by simp [OpenedBy, Around]
  names := by simp [DeclaredIn, Around]

theorem Describes.concat {before : List (Sign ρ)} (h : Describes fs before) (s : Sign ρ) :
    Describes (s.pass fs) (before ++ [s]) := by
  constructor
  · intro d o
    rw [openedBy_concat]
    simp only [h.opener]
    cases s with
    | opening opener => cases d <;> simp [level, pass]
    | closing => simp [level_closing, pass, List.getElem?_tail]
    | declaration name => cases fs <;> cases d <;> simp [level, pass, Layer.add]
    | mention owner m => simp [level, pass]
    | ret pos hasValue => simp [level, pass]
  · intro d x
    rw [declaredIn_concat]
    simp only [h.names, h.opener]
    cases s with
    | opening opener => cases d <;> simp [level, pass]
    | closing => simp [level_closing, pass, List.getElem?_tail]
    | declaration name => cases fs <;> cases d <;> simp [level, pass, Layer.add, @eq_comm _ x]
    | mention owner m => simp [level, pass]
    | ret pos hasValue => simp [level, pass]

theorem describes_layers (before : List (Sign ρ)) : Describes (layers before) before := by
  induction before using List.reverseRecOn with
  | nil => exact .nil
  | append_singleton before s ih =>
    rw [layers_concat]
    exact ih.concat s

end Sign

end Lox
