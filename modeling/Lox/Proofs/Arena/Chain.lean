import Lox.Proofs.Arena.Lookup
import Lox.Proofs.Scope.Site
import Mathlib.Data.List.Perm.Subperm
import Std.Data.TreeMap.Lemmas

namespace Lox
set_option autoImplicit true

/-- The zone of the source for which each environment was made. -/
abbrev Roles := Handle → Option (Zone Binding)

def Roles.Extends (W' W : Roles) : Prop := ∀ h z, W h = some z → W' h = some z

theorem Roles.Extends.refl (W : Roles) : W.Extends W := fun _ _ => id

namespace Arena

/-- An environment and all around it, up to the globals, are there and captured. -/
inductive Kept (a : Arena) : Handle → Prop where
  | globals {e} : a.get? globals = some e → e.enclosing = none → e.captured = true → Kept a globals
  | link {h outer e} : a.get? h = some e → e.enclosing = some outer → e.captured = true →
      Kept a outer → Kept a h

/-- What an environment has of the scope of its zone: the names that are ready, save those whose
declaration is guarded. -/
def Has (e : Environment) (z : Zone Binding) (S : Scope) : Prop :=
  ∀ x, S.get? x = some .ready → e.values.contains x = true ∨ z.Guards x

/-- From `h` outward there is one environment for each of the zones `zs`, which has the scope of
that zone, and then the globals. -/
inductive Chain (a : Arena) (W : Roles) : Handle → List (Zone Binding) → List Scope → Prop where
  | globals {e} : a.get? globals = some e → e.enclosing = none → Chain a W globals [] []
  | link {h outer e z S zs Ss} : a.get? h = some e → e.enclosing = some outer → outer < h →
      W h = some z → Has e z S → Chain a W outer zs Ss → Chain a W h (z :: zs) (S :: Ss)

variable {a a' : Arena} {W W' : Roles} {b h outer : Handle} {e : Environment}
  {zs : List (Zone Binding)} {Ss : List Scope}

theorem Kept.keep (hk : Kept a h) (ha : Keeps b a a') : Kept a' h := by
  induction hk with
  | globals hg he hc =>
    obtain ⟨e', hg', hgrows⟩ := ha _ _ hg (.inr hc)
    exact .globals hg' (hgrows.enclosing.trans he) (hgrows.captured hc)
  | link hg he hc _ ih =>
    obtain ⟨e', hg', hgrows⟩ := ha _ _ hg (.inr hc)
    exact .link hg' (hgrows.enclosing.trans he) (hgrows.captured hc) ih

theorem Kept.captured (hk : Kept a h) : ∃ e, a.get? h = some e ∧ e.captured = true := by
  cases hk with
  | globals hg _ hc => exact ⟨_, hg, hc⟩
  | link hg _ hc _ => exact ⟨_, hg, hc⟩

theorem Kept.enclosing (hk : Kept a h) (hg : a.get? h = some e) (he : e.enclosing = some outer) :
    Kept a outer := by
  cases hk with
  | globals hg' he' _ =>
    cases hg.symm.trans hg'
    cases he.symm.trans he'
  | link hg' he' _ hk =>
    cases hg.symm.trans hg'
    cases he.symm.trans he'
    exact hk

theorem Chain.keep (hc : Chain a W h zs Ss) (ha : Keeps b a a') (hW : W'.Extends W) (hb : h ≤ b) :
    Chain a' W' h zs Ss := by
  induction hc with
  | globals hg he =>
    obtain ⟨e', hg', hgrows⟩ := ha _ _ hg (.inl hb)
    exact .globals hg' (hgrows.enclosing.trans he)
  | link hg he hlt hz hS _ ih =>
    obtain ⟨e', hg', hgrows⟩ := ha _ _ hg (.inl hb)
    exact .link hg' (hgrows.enclosing.trans he) hlt (hW _ _ hz)
      (fun x hx => (hS x hx).imp_left (hgrows.values x))
      (ih (Nat.le_trans (Nat.le_of_lt hlt) hb))

theorem Chain.keep_captured (hc : Chain a W h zs Ss) (hk : Kept a h) (ha : Keeps b a a')
    (hW : W'.Extends W) : Chain a' W' h zs Ss := by
  induction hc with
  | globals hg he =>
    obtain ⟨e, hg₁, hcap⟩ := hk.captured
    obtain ⟨e', hg', hgrows⟩ := ha _ _ hg (.inr (by cases hg.symm.trans hg₁; exact hcap))
    exact .globals hg' (hgrows.enclosing.trans he)
  | link hg he hlt hz hS _ ih =>
    obtain ⟨e, hg₁, hcap⟩ := hk.captured
    obtain ⟨e', hg', hgrows⟩ := ha _ _ hg (.inr (by cases hg.symm.trans hg₁; exact hcap))
    exact .link hg' (hgrows.enclosing.trans he) hlt (hW _ _ hz)
      (fun x hx => (hS x hx).imp_left (hgrows.values x)) (ih (hk.enclosing hg he))

theorem Chain.live (hc : Chain a W h zs Ss) : ∃ e, a.get? h = some e := by
  cases hc with
  | globals hg _ => exact ⟨_, hg⟩
  | link hg => exact ⟨_, hg⟩

theorem Chain.outer_live (hc : Chain a W h zs Ss) (hg : a.get? h = some e)
    (he : e.enclosing = some outer) : ∃ f, a.get? outer = some f := by
  cases hc with
  | globals hg' he' =>
    cases hg.symm.trans hg'
    cases he.symm.trans he'
  | link hg' he' _ _ _ hout =>
    cases hg.symm.trans hg'
    cases he.symm.trans he'
    exact hout.live

theorem Chain.globals_live (hc : Chain a W h zs Ss) :
    ∃ e, a.get? Lox.globals = some e ∧ e.enclosing = none := by
  induction hc with
  | globals hg he => exact ⟨_, hg, he⟩
  | link _ _ _ _ _ _ ih => exact ih

theorem Chain.handles (hc : Chain a W h zs Ss) :
    ∃ hs : List Handle, hs.length = zs.length + 1 ∧ hs.Nodup ∧
      ∀ i ∈ hs, i ≤ h ∧ (a.get? i).isSome = true := by
  induction hc with
  | globals hg _ => exact ⟨[Lox.globals], rfl, by simp, by simp [hg]⟩
  | @link h outer e z S zs Ss hg he hlt hz hS _ ih =>
    obtain ⟨hs, hlen, hnd, hmem⟩ := ih
    refine ⟨h :: hs, by simp [hlen], List.nodup_cons.2 ⟨fun hh => ?_, hnd⟩, ?_⟩
    · exact absurd (hmem h hh).1 (Nat.not_le_of_lt hlt)
    · refine List.forall_mem_cons.2 ⟨⟨Nat.le_refl _, by simp [hg]⟩, fun i hi => ?_⟩
      exact ⟨Nat.le_trans (hmem i hi).1 (Nat.le_of_lt hlt), (hmem i hi).2⟩

theorem Chain.length_lt_size (hc : Chain a W h zs Ss) : zs.length < a.size := by
  obtain ⟨hs, hlen, hnd, hmem⟩ := hc.handles
  have hsub : hs ⊆ a.records.keys := fun i hi => by
    rw [Std.TreeMap.mem_keys, Std.TreeMap.mem_iff_isSome_getElem?]
    exact (hmem i hi).2
  have hle := (List.subperm_of_subset hnd hsub).length_le
  rw [Std.TreeMap.length_keys] at hle
  exact Nat.lt_of_lt_of_le (by omega) hle

theorem Chain.ancestor (hc : Chain a W h zs Ss) (hS : Ss[d]? = some S) :
    ∃ i e z, a.ancestor h d = .ok (i, e) ∧ a.get? i = some e ∧ zs[d]? = some z ∧ W i = some z ∧
      Has e z S := by
  induction hc generalizing d with
  | globals => simp at hS
  | @link h outer e z T zs Ss hg he _ hz hT _ ih =>
    cases d with
    | zero =>
      cases hS
      exact ⟨h, e, z, ancestor_zero hg, hg, rfl, hz, hT⟩
    | succ d =>
      obtain ⟨i, f, z, ha, hi⟩ := ih hS
      exact ⟨i, f, z, (ancestor_link hg he d).trans ha, hi⟩

theorem Chain.weaken (hc : Chain a W h (z :: zs) (S :: Ss))
    (hS : ∀ x, Bindings.get? S' x = some .ready → S.get? x = some .ready ∨ z.Guards x) :
    Chain a W h (z :: zs) (S' :: Ss) := by
  cases hc with
  | link hg he hlt hz hhas hout =>
    refine .link hg he hlt hz (fun x hx => ?_) hout
    rcases hS x hx with hx | hx
    · exact hhas x hx
    · exact .inr hx

theorem Chain.new (hc : Chain a W h zs Ss) (ha : Below a) (hW : W'.Extends W)
    (hz : W' a.next = some z) (hS : Has { enclosing := some h, values } z S) :
    Chain (a.new (some h) values).2 W' a.next (z :: zs) (S :: Ss) := by
  obtain ⟨e, hg⟩ := hc.live
  exact .link (by rw [get?_new, if_pos rfl]) rfl (ha h e hg) hz hS
    (hc.keep (keeps_new ha h _ _) hW (Nat.le_refl _))

theorem Chain.length (hc : Chain a W h zs Ss) : Ss.length = zs.length := by
  induction hc with
  | globals => rfl
  | link _ _ _ _ _ _ ih => simp [ih]

theorem Chain.role (hc : Chain a W h zs Ss) (hW : W Lox.globals = none) : W h = zs.head? := by
  cases hc with
  | globals => exact hW
  | link _ _ _ hz => exact hz

theorem Chain.define {Γ : Context} (hc : Chain a W h zs (Γ.mark x .pending).scopes)
    (hg : a.get? h = some e) (v : Value) :
    Chain (a.put h { e with values := e.values.set x v }) W h zs (Γ.mark x .ready).scopes := by
  have hgrows := e.grows_set x v
  cases hS : Γ.scopes with
  | nil =>
    rw [Context.mark_of_nil hS] at hc ⊢
    exact hc.keep (keeps_put h hg hgrows) (.refl W) (Nat.le_refl _)
  | cons S Ss =>
    rw [Context.scopes_mark hS] at hc ⊢
    cases hc with
    | link hg' he hlt hz hhas hout =>
      cases hg.symm.trans hg'
      have hput : (a.put h { e with values := e.values.set x v }).get? h =
          some { e with values := e.values.set x v } := by rw [get?_put, if_pos rfl]
      refine .link hput he hlt hz (fun y hy => ?_)
        (hout.keep (keeps_put h hg hgrows) (.refl W) (Nat.le_of_lt hlt))
      by_cases hxy : x = y
      · exact .inl (by simp [hxy])
      · refine (hhas y ?_).imp_left (hgrows.values y)
        simpa [hxy] using hy

end Arena

/-- A context asks no more of environments than another one does. -/
def Context.Covers (zs : List (Zone Binding)) (Γ Γ' : Context) : Prop :=
  ∀ ⦃a W h⦄, Arena.Chain a W h zs Γ.scopes → Arena.Chain a W h zs Γ'.scopes

namespace Context

variable {zs : List (Zone Binding)} {Γ Γ' Γ'' : Context}

theorem Covers.refl (zs : List (Zone Binding)) (Γ : Context) : Covers zs Γ Γ := fun _ _ _ => id

theorem Covers.trans (h : Covers zs Γ Γ') (h' : Covers zs Γ' Γ'') : Covers zs Γ Γ'' :=
  fun _ _ _ hc => h' (h hc)

theorem covers_mark_pending (zs : List (Zone Binding)) (Γ : Context) (x : String) :
    Covers zs Γ (Γ.mark x .pending) := by
  intro a W h hc
  cases hS : Γ.scopes with
  | nil => rwa [mark_of_nil hS]
  | cons S Ss =>
    rw [hS] at hc
    rw [scopes_mark hS]
    cases zs with
    | nil => cases hc
    | cons z zs =>
      refine hc.weaken fun y hy => .inl ?_
      by_cases hxy : x = y
      · simp [hxy] at hy
      · simpa [hxy] using hy

/-- What is declared under a branch or a loop need not have been executed. -/
theorem covers_after_under (hs : Site programs zs Δ (.stmt t)) (hu : Stmt.Under s t) :
    Covers zs Γ (Γ.after s) := by
  intro a W h hc
  rw [after_eq_declare]
  cases hS : Γ.scopes with
  | nil => rwa [declare_of_nil hS]
  | cons S Ss =>
    rw [hS] at hc
    rw [scopes_declare hS]
    cases zs with
    | nil => cases hc
    | cons z zs =>
      refine hc.weaken fun x hx => ?_
      rw [Scope.get?_declare] at hx
      split at hx
      · rename_i hmem
        exact .inr (hs.guards hu hmem)
      · exact .inl hx

theorem after_covers (zs : List (Zone Binding)) (Γ : Context) (s : Stmt ρ) :
    Covers zs (Γ.after s) Γ := by
  intro a W h hc
  rw [after_eq_declare] at hc
  cases hS : Γ.scopes with
  | nil => rwa [declare_of_nil hS, hS] at hc
  | cons S Ss =>
    rw [scopes_declare hS] at hc
    cases zs with
    | nil => cases hc
    | cons z zs =>
      refine hc.weaken fun x hx => .inl ?_
      rw [Scope.get?_declare]
      split
      · rfl
      · exact hx

end Context

end Lox
