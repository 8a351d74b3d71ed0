import Lox.Proofs.Tree
import Lox.Scope.Misuse
import Lox.Scope.Resolve

namespace Lox
set_option autoImplicit true

@[simp] theorem Bindings.get?_nil (x : String) : (⟨[]⟩ : Bindings α).get? x = none := rfl

@[simp] theorem Bindings.contains_nil (x : String) : (⟨[]⟩ : Bindings α).contains x = false := rfl

theorem Bindings.contains_iff {b : Bindings α} {x : String} :
    b.contains x = true ↔ ∃ v, b.get? x = some v := Option.isSome_iff_exists

@[simp] theorem Bindings.contains_set (b : Bindings α) (n x : String) (v : α) :
    (b.set n v).contains x = (decide (n = x) || b.contains x) := by
  by_cases h : n = x <;> simp [contains, h]

theorem Bindings.mem_of_get?_ofList {entries : List (String × α)}
    (h : (Bindings.ofList entries).get? x = some v) : (x, v) ∈ entries := by
  -- the entries that are left are bound on top of `b`
  have hfold : ∀ (rest : List (String × α)) (b : Bindings α),
      (rest.foldl (fun b entry => b.set entry.1 entry.2) b).get? x = some v →
        b.get? x = some v ∨ (x, v) ∈ rest := by
    intro rest
    induction rest with
    | nil => exact fun b hb => .inl hb
    | cons entry rest ih =>
      intro b hb
      rcases ih _ hb with hset | hmem
      · rw [Bindings.get?_set] at hset
        split at hset
        · rename_i hn
          cases hset
          exact .inr (by simp [← hn])
        · exact .inl hset
      · exact .inr (List.mem_cons_of_mem _ hmem)
  rcases hfold entries .empty h with hb | hmem
  · simp at hb
  · exact hmem

theorem Bindings.contains_ofList (entries : List (String × α)) (x : String) :
    (Bindings.ofList entries).contains x = true ↔ x ∈ entries.map (·.1) := by
  have hfold : ∀ (rest : List (String × α)) (b : Bindings α),
      (rest.foldl (fun b entry => b.set entry.1 entry.2) b).contains x = true ↔
        b.contains x = true ∨ x ∈ rest.map (·.1) := by
    intro rest
    induction rest with
    | nil => simp
    | cons entry rest ih =>
      intro b
      rw [List.foldl_cons, ih, contains_set, Bool.or_eq_true, decide_eq_true_eq, List.map_cons,
        List.mem_cons, or_assoc, or_left_comm, @eq_comm _ x]
  exact (hfold entries .empty).trans (by simp [contains])

/-- The names that a statement declares in the scope it stands in. -/
def Stmt.names : Stmt ρ → List String
  | .varDecl name _ => [name.name]
  | .funDecl decl => [decl.name.name]
  | .classDecl name _ => [name.name]
  | .branch _ yes none => yes.names
  | .branch _ yes (some no) => yes.names ++ no.names
  | .loop _ body => body.names
  | .expression _ | .print _ | .block _ | .ret _ _ => []

def Scope.declare (S : Scope) (names : List String) : Scope :=
  names.foldl (fun S x => S.set x .ready) S

theorem Scope.get?_declare (S : Scope) (names : List String) (x : String) :
    (S.declare names).get? x = if x ∈ names then some .ready else S.get? x := by
  induction names generalizing S with
  | nil => rfl
  | cons n names ih =>
    simp only [declare, List.foldl_cons] at ih ⊢
    rw [ih]
    by_cases hx : x ∈ names
    · simp [hx]
    · by_cases hn : n = x
      · simp [hn]
      · simp [hx, hn, Ne.symm hn]

theorem Scope.contains_declare (S : Scope) (names : List String) (x : String) :
    (S.declare names).contains x = true ↔ x ∈ names ∨ S.contains x = true := by
  simp only [Bindings.contains, get?_declare]
  split <;> simp [*]

namespace Context

def inner (Γ : Context) : Scope := Γ.scopes.headD {}

def declare (Γ : Context) (names : List String) : Context :=
  names.foldl (fun Γ x => Γ.mark x .ready) Γ

def afterAll (Γ : Context) (body : List (Stmt ρ)) : Context := body.foldl after Γ

theorem declare_append (Γ : Context) (xs ys : List String) :
    Γ.declare (xs ++ ys) = (Γ.declare xs).declare ys := List.foldl_append

theorem after_eq_declare (Γ : Context) (s : Stmt ρ) : Γ.after s = Γ.declare s.names := by
  fun_induction Stmt.names s generalizing Γ with
  | case1 => rfl
  | case2 => rfl
  | case3 => rfl
  | case4 c yes ih => exact ih Γ
  | case5 c yes no ihy ihn => rw [declare_append, ← ihy, ← ihn, after]
  | case6 c body ih => exact ih Γ
  | case7 => rfl
  | case8 => rfl
  | case9 => rfl
  | case10 => rfl

theorem params_eq_declare (Γ : Context) (ps : List Ident) :
    Γ.params ps = Γ.declare (ps.map (·.name)) := by
  rw [params, declare, List.foldl_map]

theorem afterAll_eq_declare (Γ : Context) (body : List (Stmt ρ)) :
    Γ.afterAll body = Γ.declare (body.flatMap Stmt.names) := by
  induction body generalizing Γ with
  | nil => rfl
  | cons s rest ih =>
    rw [List.flatMap_cons, declare_append, ← after_eq_declare]
    exact ih _

theorem mark_of_nil {Γ : Context} (h : Γ.scopes = []) (x : String) (status : Status) :
    Γ.mark x status = Γ := by
  simp only [mark, h]

theorem scopes_mark {Γ : Context} (h : Γ.scopes = S :: Ss) (x : String) (status : Status) :
    (Γ.mark x status).scopes = S.set x status :: Ss := by
  simp only [mark, h]

theorem declare_of_nil {Γ : Context} (h : Γ.scopes = []) (names : List String) :
    Γ.declare names = Γ := by
  induction names with
  | nil => rfl
  | cons n names ih =>
    simp only [declare, List.foldl_cons, mark_of_nil h] at ih ⊢
    exact ih

theorem scopes_declare {Γ : Context} (h : Γ.scopes = S :: Ss) (names : List String) :
    (Γ.declare names).scopes = S.declare names :: Ss := by
  induction names generalizing Γ S with
  | nil => exact h
  | cons n names ih => exact ih (scopes_mark h n .ready)

@[simp] theorem length_mark (Γ : Context) (x : String) (status : Status) :
    (Γ.mark x status).scopes.length = Γ.scopes.length := by
  cases h : Γ.scopes with
  | nil => rw [mark_of_nil h, h]
  | cons S Ss => rw [scopes_mark h]; rfl

@[simp] theorem length_declare (Γ : Context) (names : List String) :
    (Γ.declare names).scopes.length = Γ.scopes.length := by
  cases h : Γ.scopes with
  | nil => rw [declare_of_nil h, h]
  | cons S Ss => rw [scopes_declare h]; rfl

theorem scopes_body (Γ : Context) (kind : Enclosing) (ps : List Ident) :
    (Γ.body kind ps).scopes = Scope.declare {} (ps.map (·.name)) :: Γ.scopes := by
  rw [body, params_eq_declare]
  exact scopes_declare rfl _

end Context

end Lox
