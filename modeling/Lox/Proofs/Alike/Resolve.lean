import Lox.Proofs.Alike.Tree

namespace Lox
set_option autoImplicit true

section
variable {ρ : Type}

mutual

def Expr.identifiers : Expr ρ → List String
  | .literal _ | .receiver .. => []
  | .grouping inner => inner.identifiers
  | .unary _ _ operand => operand.identifiers
  | .binary left _ _ right => left.identifiers ++ right.identifiers
  | .logical left _ right => left.identifiers ++ right.identifiers
  | .read name _ => [name.name]
  | .assign name _ value => name.name :: value.identifiers
  | .call callee args _ => callee.identifiers ++ Expr.identifiersAll args
  | .get object name => object.identifiers ++ [name.name]
  | .set object name value => object.identifiers ++ name.name :: value.identifiers

def Expr.identifiersAll : List (Expr ρ) → List String
  | [] => []
  | e :: rest => e.identifiers ++ Expr.identifiersAll rest

end

mutual

def Stmt.identifiers : Stmt ρ → List String
  | .expression e => e.identifiers
  | .print e => e.identifiers
  | .varDecl name none => [name.name]
  | .varDecl name (some init) => name.name :: init.identifiers
  | .block body => Stmt.identifiersAll body
  | .branch condition yes none => condition.identifiers ++ yes.identifiers
  | .branch condition yes (some no) =>
    condition.identifiers ++ yes.identifiers ++ no.identifiers
  | .loop condition body => condition.identifiers ++ body.identifiers
  | .funDecl decl => decl.identifiers
  | .ret _ none => []
  | .ret _ (some value) => value.identifiers
  | .classDecl name methods => name.name :: FunDecl.identifiersAll methods

def Stmt.identifiersAll : List (Stmt ρ) → List String
  | [] => []
  | s :: rest => s.identifiers ++ Stmt.identifiersAll rest

def FunDecl.identifiers : FunDecl ρ → List String
  | ⟨name, params, body⟩ => name.name :: (params.map (·.name) ++ Stmt.identifiersAll body)

def FunDecl.identifiersAll : List (FunDecl ρ) → List String
  | [] => []
  | f :: rest => f.identifiers ++ FunDecl.identifiersAll rest

end

def Program.identifiers (P : Program ρ) : List String := Stmt.identifiersAll P

theorem Stmt.names_subset (s : Stmt ρ) : s.names ⊆ s.identifiers := by
  fun_induction Stmt.names s with
  | case1 name init => cases init <;> simp [Stmt.identifiers]
  | case2 decl => cases decl; simp [Stmt.identifiers, FunDecl.identifiers]
  | case3 => simp [Stmt.identifiers]
  | case4 c yes ih => exact List.subset_append_of_subset_right _ ih
  | case5 c yes no ihy ihn =>
    refine List.append_subset.2 ⟨?_, List.subset_append_of_subset_right _ ihn⟩
    exact List.subset_append_of_subset_left _ (List.subset_append_of_subset_right _ ihy)
  | case6 c body ih => exact List.subset_append_of_subset_right _ ih
  | case7 => exact List.nil_subset _
  | case8 => exact List.nil_subset _
  | case9 => exact List.nil_subset _
  | case10 => exact List.nil_subset _

theorem Expr.identifiers_resolve (Γ : Context) (e : Expr ρ) :
    (e.resolve Γ).identifiers = e.identifiers := by
  induction e using Expr.rec (motive_2 := fun args =>
    Expr.identifiersAll (Expr.resolveAll Γ args) = Expr.identifiersAll args) with
  | literal => rfl
  | grouping inner ih => exact ih
  | unary op pos operand ih => exact ih
  | binary left op pos right ihl ihr => simp only [Expr.resolve, Expr.identifiers, ihl, ihr]
  | logical left op right ihl ihr => simp only [Expr.resolve, Expr.identifiers, ihl, ihr]
  | read => rfl
  | assign name ref value ih => simp only [Expr.resolve, Expr.identifiers, ih]
  | call callee args paren ihc iha => simp only [Expr.resolve, Expr.identifiers, ihc, iha]
  | get object name ih => simp only [Expr.resolve, Expr.identifiers, ih]
  | set object name value iho ihv => simp only [Expr.resolve, Expr.identifiers, iho, ihv]
  | receiver => rfl
  | nil => rfl
  | cons e args ihe iha => simp only [Expr.resolveAll, Expr.identifiersAll, ihe, iha]

theorem Stmt.identifiersAll_resolveAll {body : List (Stmt ρ)}
    (h : ∀ s ∈ body, ∀ Γ, (Stmt.resolve Γ s).identifiers = s.identifiers) (Γ : Context) :
    Stmt.identifiersAll (Stmt.resolveAll Γ body) = Stmt.identifiersAll body := by
  induction body generalizing Γ with
  | nil => rfl
  | cons s rest ih =>
    obtain ⟨hs, hrest⟩ := List.forall_mem_cons.1 h
    simp only [Stmt.resolveAll, Stmt.identifiersAll, hs, ih hrest]

theorem FunDecl.identifiers_resolve {f : FunDecl ρ}
    (h : ∀ s ∈ f.body, ∀ Γ, (Stmt.resolve Γ s).identifiers = s.identifiers) (Γ : Context)
    (kind : Enclosing) : (f.resolve Γ kind).identifiers = f.identifiers := by
  cases f
  simp only [FunDecl.resolve, FunDecl.identifiers, Stmt.identifiersAll_resolveAll h]

theorem Stmt.identifiers_resolve (Γ : Context) (s : Stmt ρ) :
    (s.resolve Γ).identifiers = s.identifiers := by
  induction s using Stmt.induction generalizing Γ with
  | expression e => exact e.identifiers_resolve Γ
  | print e => exact e.identifiers_resolve Γ
  | varDecl name init =>
    cases init with
    | none => rfl
    | some e => exact congrArg _ (e.identifiers_resolve _)
  | block body ih => exact Stmt.identifiersAll_resolveAll ih _
  | branch c yes no ihy ihn =>
    cases no with
    | none => simp only [Stmt.resolve, Stmt.identifiers, c.identifiers_resolve, ihy]
    | some no => simp only [Stmt.resolve, Stmt.identifiers, c.identifiers_resolve, ihy, ihn no rfl]
  | loop c body ih => simp only [Stmt.resolve, Stmt.identifiers, c.identifiers_resolve, ih]
  | funDecl decl ih => exact FunDecl.identifiers_resolve ih _ _
  | ret pos value =>
    cases value with
    | none => rfl
    | some e => exact e.identifiers_resolve Γ
  | classDecl name methods ih =>
    simp only [Stmt.resolve, Stmt.identifiers]
    congr 1
    induction methods with
    | nil => rfl
    | cons f rest ihr =>
      obtain ⟨hf, hrest⟩ := List.forall_mem_cons.1 ih
      simp only [FunDecl.resolveAll, FunDecl.identifiersAll, FunDecl.identifiers_resolve hf,
        ihr hrest]

theorem Program.identifiers_resolve (P : Program ρ) : P.resolve.identifiers = P.identifiers :=
  Stmt.identifiersAll_resolveAll (fun s _ Γ => s.identifiers_resolve Γ) {}

end

/-- No two names in use are made the same, not even by the renamings of two scopes. -/
structure Likeness.Coherent (L : Likeness) (U : String → Prop) : Prop where
  one : L.renames 1
  apart : ∀ θ φ, L.renames θ → L.renames φ → ∀ x y, U x → U y → θ x = φ y → x = y
  receiver : U receiverName

/-- Scopes of which the second ones have their names renamed. -/
inductive Scopes.Alike (U : String → Prop) : Renaming → List Scope → List Scope → Prop where
  | nil : Scopes.Alike U σ [] []
  | cons : (∀ x, S'.get? (σ 0 x) = S.get? x) → (∀ x, S.contains x = true → U x) →
      Scopes.Alike U σ.outer Ss Ss' → Scopes.Alike U σ (S :: Ss) (S' :: Ss')

structure Context.Alike (L : Likeness) (U : String → Prop) (σ : Renaming) (Γ Γ' : Context) :
    Prop where
  scopes : Scopes.Alike U σ Γ.scopes Γ'.scopes
  renames : ∀ d, L.renames (σ d)
  function : Γ'.function = Γ.function
  inClass : Γ'.inClass = Γ.inClass

variable {L : Likeness} {U : String → Prop} {σ : Renaming} {Γ Γ' : Context}

theorem Likeness.Coherent.get?_eq {S S' : Scope} (hL : L.Coherent U) (hθ : L.renames θ)
    (hφ : L.renames φ) (hS : ∀ x, S'.get? (θ x) = S.get? x) (hU : ∀ x, S.contains x = true → U x)
    (hx : U x) (hget : S'.get? (φ x) = some status) : S.get? x = some status := by
  have hinv : S.get? (θ.symm (φ x)) = some status := by
    rw [← hS, Equiv.apply_symm_apply]
    exact hget
  have hsame : θ.symm (φ x) = x := by
    apply hL.apart θ φ hθ hφ _ _ _ hx (Equiv.apply_symm_apply _ _)
    exact hU _ (Bindings.contains_iff.2 ⟨_, hinv⟩)
  rwa [hsame] at hinv

theorem Likeness.Coherent.contains_eq_false {S S' : Scope} (hL : L.Coherent U)
    (hθ : L.renames θ) (hφ : L.renames φ) (hS : ∀ x, S'.get? (θ x) = S.get? x)
    (hU : ∀ x, S.contains x = true → U x) (hx : U x) (hnot : S.contains x = false) :
    S'.contains (φ x) = false := by
  cases hget : S'.get? (φ x) with
  | none => simp [Bindings.contains, hget]
  | some status =>
    have hold := hL.get?_eq hθ hφ hS hU hx hget
    simp [Bindings.contains, hold] at hnot

theorem Scopes.Alike.findIdx?_some (h : Scopes.Alike U σ Ss Ss') (hL : L.Coherent U)
    (hσ : ∀ d, L.renames (σ d)) (hx : U x) (hd : Ss.findIdx? (·.contains x) = some d) :
    Ss'.findIdx? (·.contains (σ d x)) = some d := by
  induction h generalizing d with
  | nil => cases hd
  | @cons Ss Ss' σ S S' hS hU _ ih =>
    rw [List.findIdx?_cons] at hd ⊢
    cases hc : S.contains x with
    | true =>
      rw [hc] at hd
      cases hd
      simp only [Bindings.contains, hS] at hc ⊢
      rw [hc]
      rfl
    | false =>
      rw [hc] at hd
      simp only [Bool.false_eq_true, ↓reduceIte, Option.map_eq_some_iff] at hd
      obtain ⟨e, he, rfl⟩ := hd
      have hrest : Ss'.findIdx? (·.contains (σ (e + 1) x)) = some e :=
        ih (fun d => hσ (d + 1)) he
      rw [hL.contains_eq_false (hσ 0) (hσ (e + 1)) hS hU hx hc, hrest]
      rfl

theorem Scopes.Alike.findIdx?_none (h : Scopes.Alike U σ Ss Ss') (hL : L.Coherent U)
    (hσ : ∀ d, L.renames (σ d)) (hx : U x) (hd : Ss.findIdx? (·.contains x) = none) :
    Ss'.findIdx? (·.contains x) = none := by
  induction h with
  | nil => rfl
  | @cons Ss Ss' σ S S' hS hU _ ih =>
    rw [List.findIdx?_cons] at hd ⊢
    cases hc : S.contains x with
    | true =>
      rw [hc] at hd
      cases hd
    | false =>
      rw [hc] at hd
      simp only [Bool.false_eq_true, ↓reduceIte, Option.map_eq_none_iff] at hd
      have hone : S'.contains x = false := hL.contains_eq_false (hσ 0) hL.one hS hU hx hc
      rw [hone, ih (fun d => hσ (d + 1)) hd]
      rfl

namespace Context.Alike

theorem binding (h : Context.Alike L U σ Γ Γ') (hL : L.Coherent U) (hx : U x) :
    Γ'.binding (σ.along (Γ.binding x) x) = Γ.binding x := by
  unfold Context.binding
  cases hd : Γ.scopes.findIdx? (·.contains x) with
  | none =>
    have hnone := h.scopes.findIdx?_none hL h.renames hx hd
    simp only [Renaming.along, Equiv.Perm.coe_one, id, hnone]
  | some d =>
    have hsome := h.scopes.findIdx?_some hL h.renames hx hd
    simp only [Renaming.along, hsome]

theorem isSome_status? (h : Context.Alike L U σ Γ Γ') (x : String) :
    (Γ'.status? (σ 0 x)).isSome = (Γ.status? x).isSome := by
  unfold Context.status?
  have hs := h.scopes
  generalize Γ.scopes = Ss, Γ'.scopes = Ss' at hs
  cases hs with
  | nil => rfl
  | cons hS => exact congrArg Option.isSome (hS x)

theorem status?_of_pending (h : Context.Alike L U σ Γ Γ') (hL : L.Coherent U) (hx : U x)
    (hθ : L.renames θ) (hp : Γ'.status? (θ x) = some status) : Γ.status? x = some status := by
  unfold Context.status? at hp ⊢
  have hs := h.scopes
  have hσ := h.renames 0
  generalize Γ.scopes = Ss, Γ'.scopes = Ss' at hs hp
  cases hs with
  | nil => cases hp
  | cons hS hU => exact hL.get?_eq hσ hθ hS hU hx hp

theorem mark (h : Context.Alike L U σ Γ Γ') (hx : U x) (status : Status) :
    Context.Alike L U σ (Γ.mark x status) (Γ'.mark (σ 0 x) status) := by
  have hs := h.scopes
  unfold Context.mark
  generalize hΓ : Γ.scopes = Ss, hΓ' : Γ'.scopes = Ss' at hs
  cases hs with
  | nil => exact h
  | cons hS hU hrest =>
    refine ⟨.cons (fun y => ?_) (fun y hy => ?_) hrest, h.renames, h.function, h.inClass⟩
    · simp only [Bindings.get?_set, (σ 0).injective.eq_iff, hS]
    · rw [Bindings.contains_set, Bool.or_eq_true, decide_eq_true_eq] at hy
      rcases hy with rfl | hy
      · exact hx
      · exact hU y hy

theorem mark_fixed (h : Context.Alike L U σ Γ Γ') (hx : U x) (hfix : σ 0 x = x) (status : Status) :
    Context.Alike L U σ (Γ.mark x status) (Γ'.mark x status) := by
  have hmark := h.mark hx status
  rwa [hfix] at hmark

theorem declare {names : List String} (h : Context.Alike L U σ Γ Γ') (hx : ∀ x ∈ names, U x) :
    Context.Alike L U σ (Γ.declare names) (Γ'.declare (names.map (σ 0))) := by
  induction names generalizing Γ Γ' with
  | nil => exact h
  | cons x names ih =>
    obtain ⟨hx, hrest⟩ := List.forall_mem_cons.1 hx
    exact ih (h.mark hx .ready) hrest

theorem enter (h : Context.Alike L U σ Γ Γ') (hθ : L.renames θ) :
    Context.Alike L U (σ.push θ) Γ.enter Γ'.enter := by
  refine ⟨.cons (fun x => rfl) (fun x hx => ?_) h.scopes, fun d => ?_, h.function, h.inClass⟩
  · simp at hx
  · cases d with
    | zero => exact hθ
    | succ d => exact h.renames d

theorem enterFunction (h : Context.Alike L U σ Γ Γ') (hθ : L.renames θ) (kind : Enclosing) :
    Context.Alike L U (σ.push θ) (Γ.enterFunction kind) (Γ'.enterFunction kind) :=
  ⟨(h.enter hθ).scopes, (h.enter hθ).renames, rfl, h.inClass⟩

theorem enterClass (h : Context.Alike L U σ Γ Γ') (hL : L.Coherent U) :
    Context.Alike L U (σ.push 1) Γ.enterClass Γ'.enterClass := by
  have hin := h.enter hL.one
  refine ⟨.cons (fun x => rfl) (fun x hx => ?_) h.scopes, hin.renames, h.function, rfl⟩
  have hx' : receiverName = x := by simpa [Bindings.contains] using hx
  exact hx' ▸ hL.receiver

theorem body {params params' : List Ident} (h : Context.Alike L U σ Γ Γ') (hθ : L.renames θ)
    (hparams : List.Forall₂ (Ident.Alike L θ) params params')
    (hx : ∀ x ∈ params.map (·.name), U x) (kind : Enclosing) :
    Context.Alike L U (σ.push θ) (Γ.body kind params) (Γ'.body kind params') := by
  have hnames : params'.map (·.name) = (params.map (·.name)).map θ := by
    clear hx
    induction hparams with
    | nil => rfl
    | cons hp _ ih => simp only [List.map_cons, hp.name, ih]
  rw [Context.body, Context.body, Context.params_eq_declare, Context.params_eq_declare, hnames]
  exact (h.enterFunction hθ kind).declare hx

end Context.Alike

theorem Stmt.Alike.names {s s' : Stmt Binding} (h : Stmt.Alike L σ s s') :
    s'.names = s.names.map (σ 0) := by
  induction h using Stmt.Alike.rec (motive_2 := fun _ _ _ _ => True)
    (motive_3 := fun _ _ _ _ => True) (motive_4 := fun _ _ _ _ => True) with
  | expression => rfl
  | print => rfl
  | varDecl hn => exact congrArg (fun x => [x]) hn.name
  | varInit hn => exact congrArg (fun x => [x]) hn.name
  | block => rfl
  | branch _ _ ih => exact ih
  | branchElse _ _ _ ihy ihn => simp only [Stmt.names, List.map_append, ihy, ihn]
  | loop _ _ ih => exact ih
  | funDecl hfix hf => exact congrArg (fun x => [x]) (hf.name_eq.trans hfix.symm)
  | ret => rfl
  | retValue => rfl
  | classDecl hfix hn => exact congrArg (fun x => [x]) (hn.name.trans hfix.symm)
  | _ => trivial

theorem Context.Alike.after {s s' : Stmt Binding} (h : Context.Alike L U σ Γ Γ')
    (hs : Stmt.Alike L σ s s') (hx : ∀ x ∈ s.identifiers, U x) :
    Context.Alike L U σ (Γ.after s) (Γ'.after s') := by
  rw [Context.after_eq_declare, Context.after_eq_declare, hs.names]
  exact h.declare fun x hx' => hx x (s.names_subset hx')

theorem Context.Alike.redeclared {n n' : Ident} (h : Context.Alike L U σ Γ Γ')
    (hn : n'.name = σ 0 n.name) (hr : Γ.redeclared n = []) : Γ'.redeclared n' = [] := by
  have hsome := h.isSome_status? n.name
  rw [← hn] at hsome
  rw [Context.redeclared] at hr ⊢
  rw [hsome]
  split at hr
  · cases hr
  · rename_i hnone
    rw [if_neg hnone]

theorem Context.Alike.redeclaredParams {params params' : List Ident}
    (h : Context.Alike L U σ Γ Γ') (hp : List.Forall₂ (Ident.Alike L (σ 0)) params params')
    (hx : ∀ x ∈ params.map (·.name), U x) (hr : Γ.redeclaredParams params = []) :
    Γ'.redeclaredParams params' = [] := by
  induction hp generalizing Γ Γ' with
  | nil => rfl
  | cons hn _ ih =>
    obtain ⟨hx, hrest⟩ := List.forall_mem_cons.1 hx
    obtain ⟨hr, hr'⟩ := List.append_eq_nil_iff.1 hr
    rw [Context.redeclaredParams, h.redeclared hn.name hr, hn.name]
    exact ih (h.mark hx .ready) hrest hr'

mutual

theorem Expr.Alike.proper {e e' : Expr Binding} (he : Expr.Alike L σ e e')
    (h : Context.Alike L U σ Γ Γ') (hL : L.Coherent U) (hU : ∀ x ∈ e.identifiers, U x)
    (hr : e.resolve Γ = e) (hm : e.misuses Γ = []) :
    e'.resolve Γ' = e' ∧ e'.misuses Γ' = [] := by
  cases he with
  | literal => exact ⟨rfl, rfl⟩
  | grouping he =>
    have ih := he.proper h hL hU (Expr.grouping.inj hr) hm
    exact ⟨congrArg _ ih.1, ih.2⟩
  | unary _ he =>
    have ih := he.proper h hL hU (Expr.unary.inj hr).2.2 hm
    exact ⟨congrArg _ ih.1, ih.2⟩
  | binary _ hl hr' =>
    obtain ⟨hUl, hUr⟩ := List.forall_mem_append.1 hU
    obtain ⟨hml, hmr⟩ := List.append_eq_nil_iff.1 hm
    have ihl := hl.proper h hL hUl (Expr.binary.inj hr).1 hml
    have ihr := hr'.proper h hL hUr (Expr.binary.inj hr).2.2.2 hmr
    simp only [Expr.resolve, Expr.misuses, ihl, ihr, List.append_nil, and_self]
  | logical hl hr' =>
    obtain ⟨hUl, hUr⟩ := List.forall_mem_append.1 hU
    obtain ⟨hml, hmr⟩ := List.append_eq_nil_iff.1 hm
    have ihl := hl.proper h hL hUl (Expr.logical.inj hr).1 hml
    have ihr := hr'.proper h hL hUr (Expr.logical.inj hr).2.2 hmr
    simp only [Expr.resolve, Expr.misuses, ihl, ihr, List.append_nil, and_self]
  | @read ref n n' hn =>
    have href := (Expr.read.inj hr).2
    have hx : U n.name := hU _ List.mem_cons_self
    have hbind := h.binding hL hx
    rw [href, ← hn.name] at hbind
    refine ⟨by rw [Expr.resolve, hbind], ?_⟩
    rw [Expr.misuses] at hm ⊢
    rw [if_neg fun hp => ?_]
    rw [hn.name] at hp
    have hθ : L.renames (σ.along ref) := by
      cases ref with
      | free => exact hL.one
      | bound d => exact h.renames d
    rw [if_pos (h.status?_of_pending hL hx hθ hp)] at hm
    cases hm
  | @assign ref n n' e e' hn he =>
    obtain ⟨_, href, hval⟩ := Expr.assign.inj hr
    obtain ⟨hx, hU⟩ := List.forall_mem_cons.1 hU
    have hbind := h.binding hL hx
    rw [href, ← hn.name] at hbind
    have ih := he.proper h hL hU hval hm
    exact ⟨by rw [Expr.resolve, hbind, ih.1], ih.2⟩
  | call _ hc hargs =>
    obtain ⟨hUc, hUa⟩ := List.forall_mem_append.1 hU
    obtain ⟨hmc, hma⟩ := List.append_eq_nil_iff.1 hm
    have ihc := hc.proper h hL hUc (Expr.call.inj hr).1 hmc
    have iha := hargs.proper h hL hUa (Expr.call.inj hr).2.1 hma
    simp only [Expr.resolve, Expr.misuses, ihc, iha, List.append_nil, and_self]
  | get _ he =>
    have ih := he.proper h hL (List.forall_mem_append.1 hU).1 (Expr.get.inj hr).1 hm
    exact ⟨by rw [Expr.resolve, ih.1], ih.2⟩
  | set _ he hv =>
    obtain ⟨hUo, hUv⟩ := List.forall_mem_append.1 hU
    obtain ⟨hmv, hmo⟩ := List.append_eq_nil_iff.1 hm
    have iho := he.proper h hL hUo (Expr.set.inj hr).1 hmo
    have ihv := hv.proper h hL (List.forall_mem_cons.1 hUv).2 (Expr.set.inj hr).2.2 hmv
    simp only [Expr.resolve, Expr.misuses, iho, ihv, List.append_nil, and_self]
  | receiver _ hfix =>
    have href := (Expr.receiver.inj hr).2
    have hbind := h.binding hL hL.receiver
    simp only [Expr.resolve, Expr.misuses, h.inClass] at hm ⊢
    split at hm
    · rename_i hin
      rw [if_pos hin] at href ⊢
      rw [href, hfix] at hbind
      rw [hbind]
      exact ⟨rfl, if_pos hin⟩
    · cases hm

theorem Expr.AlikeAll.proper {es es' : List (Expr Binding)} (hes : Expr.AlikeAll L σ es es')
    (h : Context.Alike L U σ Γ Γ') (hL : L.Coherent U) (hU : ∀ x ∈ Expr.identifiersAll es, U x)
    (hr : Expr.resolveAll Γ es = es) (hm : Expr.misusesAll Γ es = []) :
    Expr.resolveAll Γ' es' = es' ∧ Expr.misusesAll Γ' es' = [] := by
  cases hes with
  | nil => exact ⟨rfl, rfl⟩
  | cons he hes =>
    obtain ⟨hUe, hUs⟩ := List.forall_mem_append.1 hU
    obtain ⟨hme, hms⟩ := List.append_eq_nil_iff.1 hm
    have ihe := he.proper h hL hUe (List.cons.inj hr).1 hme
    have ihs := hes.proper h hL hUs (List.cons.inj hr).2 hms
    simp only [Expr.resolveAll, Expr.misusesAll, ihe, ihs, List.append_nil, and_self]

end

theorem Context.Alike.returnMisuses (h : Context.Alike L U σ Γ Γ') (p p' : Pos) (b : Bool)
    (hm : Γ.returnMisuses p b = []) : Γ'.returnMisuses p' b = [] := by
  unfold Context.returnMisuses at hm ⊢
  rw [h.function]
  cases hf : Γ.function <;> simp_all

theorem Stmt.AlikeAll.proper {ss ss' : List (Stmt Binding)} (hss : Stmt.AlikeAll L σ ss ss')
    (h : Context.Alike L U σ Γ Γ') (hL : L.Coherent U) (hU : ∀ x ∈ Stmt.identifiersAll ss, U x)
    (hr : Stmt.resolveAll Γ ss = ss) (hm : Stmt.misusesAll Γ ss = []) :
    Stmt.resolveAll Γ' ss' = ss' ∧ Stmt.misusesAll Γ' ss' = [] := by
  induction hss using Stmt.AlikeAll.rec
    (motive_1 := fun σ s s' _ => ∀ Γ Γ', Context.Alike L U σ Γ Γ' → (∀ x ∈ s.identifiers, U x) →
      s.resolve Γ = s → s.misuses Γ = [] → s'.resolve Γ' = s' ∧ s'.misuses Γ' = [])
    (motive_3 := fun σ f f' _ => ∀ Γ Γ' kind, Context.Alike L U σ Γ Γ' →
      (∀ x ∈ f.identifiers, U x) → f.resolve Γ kind = f → f.misuses Γ kind = [] →
      f'.resolve Γ' kind = f' ∧ f'.misuses Γ' kind = [])
    (motive_4 := fun σ fs fs' _ => ∀ Γ Γ', Context.Alike L U σ Γ Γ' →
      (∀ x ∈ FunDecl.identifiersAll fs, U x) → FunDecl.resolveAll Γ fs = fs →
      FunDecl.misusesAll Γ fs = [] →
      FunDecl.resolveAll Γ' fs' = fs' ∧ FunDecl.misusesAll Γ' fs' = [])
    generalizing Γ Γ' with
  | expression he Γ Γ' h hU hr hm =>
    have hproper := he.proper h hL hU (Stmt.expression.inj hr) hm
    exact ⟨congrArg _ hproper.1, hproper.2⟩
  | print he Γ Γ' h hU hr hm =>
    have hproper := he.proper h hL hU (Stmt.print.inj hr) hm
    exact ⟨congrArg _ hproper.1, hproper.2⟩
  | varDecl hn Γ Γ' h hU hr hm =>
    exact ⟨rfl, h.redeclared hn.name hm⟩
  | varInit hn he Γ Γ' h hU hr hm =>
    obtain ⟨hx, hU⟩ := List.forall_mem_cons.1 hU
    obtain ⟨hmn, hme⟩ := List.append_eq_nil_iff.1 hm
    have hmark := h.mark hx .pending
    rw [← hn.name] at hmark
    have hproper := he.proper hmark hL hU (Option.some.inj (Stmt.varDecl.inj hr).2) hme
    simp only [Stmt.resolve, Stmt.misuses, Option.map_some, hproper, h.redeclared hn.name hmn,
      List.append_nil, and_self]
  | block hθ _ ih Γ Γ' h hU hr hm =>
    have ih := ih (h.enter hθ) hU (Stmt.block.inj hr) hm
    exact ⟨congrArg _ ih.1, ih.2⟩
  | branch hc _ ih Γ Γ' h hU hr hm =>
    obtain ⟨hUc, hUy⟩ := List.forall_mem_append.1 hU
    obtain ⟨hmc, hmy⟩ := List.append_eq_nil_iff.1 hm
    have hproper := hc.proper h hL hUc (Stmt.branch.inj hr).1 hmc
    have ih := ih Γ Γ' h hUy (Stmt.branch.inj hr).2.1 hmy
    simp only [Stmt.resolve, Stmt.misuses, hproper, ih, List.append_nil, and_self]
  | branchElse hc hyes _ ihy ihn Γ Γ' h hU hr hm =>
    obtain ⟨hUcy, hUn⟩ := List.forall_mem_append.1 hU
    obtain ⟨hUc, hUy⟩ := List.forall_mem_append.1 hUcy
    obtain ⟨hmcy, hmn⟩ := List.append_eq_nil_iff.1 hm
    obtain ⟨hmc, hmy⟩ := List.append_eq_nil_iff.1 hmcy
    obtain ⟨hrc, hry, hrn⟩ := Stmt.branch.inj hr
    have hproper := hc.proper h hL hUc hrc hmc
    have ihy := ihy Γ Γ' h hUy hry hmy
    have ihn := ihn _ _ (h.after hyes hUy) hUn (Option.some.inj hrn) hmn
    simp only [Stmt.resolve, Stmt.misuses, hproper, ihy, ihn, List.append_nil, and_self]
  | loop hc _ ih Γ Γ' h hU hr hm =>
    obtain ⟨hUc, hUb⟩ := List.forall_mem_append.1 hU
    obtain ⟨hmc, hmb⟩ := List.append_eq_nil_iff.1 hm
    have hproper := hc.proper h hL hUc (Stmt.loop.inj hr).1 hmc
    have ih := ih Γ Γ' h hUb (Stmt.loop.inj hr).2 hmb
    simp only [Stmt.resolve, Stmt.misuses, hproper, ih, List.append_nil, and_self]
  | @funDecl _ f f' hfix hf ih Γ Γ' h hU hr hm =>
    obtain ⟨hmn, hmf⟩ := List.append_eq_nil_iff.1 hm
    have hname := hf.name_eq
    have hx : U f.name.name := hU _ (Stmt.names_subset (.funDecl f) List.mem_cons_self)
    have ih := ih _ _ _ (h.mark_fixed hx hfix .ready) hU (Stmt.funDecl.inj hr) hmf
    simp only [Stmt.resolve, Stmt.misuses, hname, ih, h.redeclared (hname.trans hfix.symm) hmn,
      List.append_nil, and_self]
  | ret _ Γ Γ' h hU hr hm =>
    exact ⟨rfl, h.returnMisuses _ _ _ hm⟩
  | retValue _ he Γ Γ' h hU hr hm =>
    obtain ⟨hmr, hme⟩ := List.append_eq_nil_iff.1 hm
    have hproper := he.proper h hL hU (Option.some.inj (Stmt.ret.inj hr).2) hme
    simp only [Stmt.resolve, Stmt.misuses, Option.map_some, hproper, h.returnMisuses _ _ _ hmr,
      List.append_nil, and_self]
  | classDecl hfix hn _ ih Γ Γ' h hU hr hm =>
    obtain ⟨hx, hU⟩ := List.forall_mem_cons.1 hU
    obtain ⟨hmn, hmf⟩ := List.append_eq_nil_iff.1 hm
    have hname := hn.name
    rw [Equiv.Perm.one_apply] at hname
    have ih := ih _ _ ((h.mark_fixed hx hfix .ready).enterClass hL) hU (Stmt.classDecl.inj hr).2 hmf
    simp only [Stmt.resolve, Stmt.misuses, hname, ih, h.redeclared (hname.trans hfix.symm) hmn,
      List.append_nil, and_self]
  | nil => exact ⟨rfl, rfl⟩
  | cons hs _ ihs ihss =>
    obtain ⟨hUs, hUss⟩ := List.forall_mem_append.1 hU
    obtain ⟨hms, hmss⟩ := List.append_eq_nil_iff.1 hm
    have ihs := ihs Γ Γ' h hUs (List.cons.inj hr).1 hms
    have ihss := ihss (h.after hs hUs) hUss (List.cons.inj hr).2 hmss
    simp only [Stmt.resolveAll, Stmt.misusesAll, ihs, ihss, List.append_nil, and_self]
  | mk hn hθ hparams _ ih Γ Γ' kind h hU hr hm =>
    obtain ⟨hUp, hUb⟩ := List.forall_mem_append.1 (List.forall_mem_cons.1 hU).2
    obtain ⟨hmp, hmb⟩ := List.append_eq_nil_iff.1 hm
    have hproper := (h.enterFunction hθ kind).redeclaredParams hparams hUp hmp
    have ih := ih (h.body hθ hparams hUp kind) hUb (FunDecl.mk.inj hr).2.2 hmb
    simp only [FunDecl.resolve, FunDecl.misuses, hproper, ih, List.append_nil, and_self]
  | none Γ Γ' h hU hr hm =>
    exact ⟨rfl, rfl⟩
  | more hf _ ihf ihfs Γ Γ' h hU hr hm =>
    obtain ⟨hUf, hUfs⟩ := List.forall_mem_append.1 hU
    obtain ⟨hmf, hmfs⟩ := List.append_eq_nil_iff.1 hm
    have ihf := ihf Γ Γ' _ h hUf (List.cons.inj hr).1 hmf
    have ihfs := ihfs Γ Γ' h hUfs (List.cons.inj hr).2 hmfs
    simp only [FunDecl.resolveAll, FunDecl.misusesAll, hf.name_eq, ihf, ihfs, List.append_nil,
      and_self]

/-- The counterpart of an accepted program is accepted, with the same scope noted at every
reference. -/
theorem Program.Accepted.alike {P P' : Program Binding} (hP : P.Accepted)
    (h : Stmt.AlikeAll L .none P P') (hL : L.Coherent U) (hU : ∀ x ∈ P.identifiers, U x) :
    P'.Accepted := by
  have hΓ : Context.Alike L U .none {} {} := ⟨.nil, fun _ => hL.one, rfl, rfl⟩
  have hproper := h.proper hΓ hL hU hP.resolved hP.proper
  exact ⟨hproper.1, hproper.2⟩

end Lox
