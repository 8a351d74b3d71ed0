import Lox.Proofs.Scope.Declarations

namespace Lox
set_option autoImplicit true

/-- A scope has the names with which its zone begins. -/
def Scope.Begins (S : Scope) (z : Zone ρ) : Prop := ∀ x ∈ z.given, S.contains x = true

theorem Zone.begins_given (z : Zone ρ) : Scope.Begins (Scope.declare {} z.given) z :=
  fun _ hx => (Scope.contains_declare _ _ _).2 (.inl hx)

theorem Context.begins_declare {Γ : Context} {zs : List (Zone ρ)}
    (h : List.Forall₂ Scope.Begins Γ.scopes zs) (names : List String) :
    List.Forall₂ Scope.Begins (Γ.declare names).scopes zs := by
  generalize hS : Γ.scopes = scopes at h
  cases h with
  | nil => rw [declare_of_nil hS, hS]; exact .nil
  | cons hz hzs =>
    rw [scopes_declare hS]
    exact .cons (fun x hx => (Scope.contains_declare _ _ _).2 (.inr (hz x hx))) hzs

theorem Context.begins_mark {Γ : Context} {zs : List (Zone ρ)}
    (h : List.Forall₂ Scope.Begins Γ.scopes zs) (x : String) (status : Status) :
    List.Forall₂ Scope.Begins (Γ.mark x status).scopes zs := by
  generalize hS : Γ.scopes = scopes at h
  cases h with
  | nil => rw [mark_of_nil hS, hS]; exact .nil
  | cons hz hzs =>
    rw [scopes_mark hS]
    exact .cons (fun y hy => by rw [Bindings.contains_set, hz y hy, Bool.or_true]) hzs

theorem Site.begins (h : Site programs zs Γ c) : List.Forall₂ Scope.Begins Γ.scopes zs := by
  induction h with
  | program => exact .nil
  | next _ ih =>
    rw [Context.after_eq_declare]
    exact Context.begins_declare ih _
  | first _ ih => exact ih
  | yes _ ih => exact ih
  | no _ ih =>
    rw [Context.after_eq_declare]
    exact Context.begins_declare ih _
  | loop _ ih => exact ih
  | @block _ _ body _ ih => exact .cons (Zone.block body).begins_given ih
  | @function _ _ decl _ ih =>
    rw [Context.scopes_body]
    exact .cons (Zone.function decl).begins_given (Context.begins_mark ih _ _)
  | @method _ _ name methods decl _ _ ih =>
    rw [Context.scopes_body]
    exact .cons (Zone.function decl).begins_given
      (.cons Zone.receiver.begins_given (Context.begins_mark ih _ _))
  | clause _ hc ih =>
    rcases Stmt.clause?_cases hc with rfl | ⟨name, rfl, rfl⟩
    · exact ih
    · exact Context.begins_mark ih _ _
  | part _ _ ih => exact ih

variable {programs : List (Program ρ)} {zs : List (Zone ρ)}

/-- The name of the receiver is in the scopes of classes, and in no others. -/
theorem Site.receiver_scopes (hP : ∀ P ∈ programs, ∀ D ∈ Program.declarations P, D.Regular)
    (h : Site programs zs Γ c) :
    List.Forall₂ (fun S z => S.contains receiverName = true ↔ z = Zone.receiver) Γ.scopes zs := by
  obtain ⟨P, hmem, hown⟩ := h.own_program
  refine List.forall₂_iff_get.2 ⟨h.length, fun i hi hi' => ⟨fun hx => ?_, fun hz => ?_⟩⟩
  · have hregular := fun D hD => hP P hmem D (hown.declarations.2 _ (List.get_mem zs ⟨i, hi'⟩) hD)
    exact Zone.eq_receiver hregular (h.within.get hi hi' _ hx)
  · have hbegins := h.begins.get hi hi'
    rw [hz] at hbegins
    exact hbegins receiverName List.mem_cons_self

theorem findIdx?_receiver {Ss : List Scope} {before : List (Zone ρ)}
    (h : List.Forall₂ (fun S z => S.contains receiverName = true ↔ z = Zone.receiver) Ss
      (before ++ .receiver :: around)) (hb : Zone.receiver ∉ before) :
    Ss.findIdx? (·.contains receiverName) = some before.length := by
  induction before generalizing Ss with
  | nil =>
    cases h with
    | cons hS _ => rw [List.findIdx?_cons, if_pos (hS.2 rfl)]; rfl
  | cons z before ih =>
    obtain ⟨hz, hb⟩ := not_or.1 (mt List.mem_cons.2 hb)
    cases h with
    | cons hS h =>
      rw [List.findIdx?_cons, if_neg fun hx => hz (hS.1 hx).symm, ih h hb]
      rfl

theorem Site.method_inside {before around : List (Zone ρ)} (h : Site programs zs Γ c)
    (hz : zs = before ++ .receiver :: around) :
    ∃ inside decl, before = inside ++ [.function decl] := by
  induction h generalizing before with
  | program => cases before <;> cases hz
  | next _ ih => exact ih hz
  | first _ ih => exact ih hz
  | yes _ ih => exact ih hz
  | no _ ih => exact ih hz
  | loop _ ih => exact ih hz
  | block _ ih =>
    cases before with
    | nil => cases hz
    | cons z before =>
      obtain ⟨zs, decl, rfl⟩ := ih (List.cons.inj hz).2
      exact ⟨z :: zs, decl, rfl⟩
  | function _ ih =>
    cases before with
    | nil => cases hz
    | cons z before =>
      obtain ⟨zs, decl, rfl⟩ := ih (List.cons.inj hz).2
      exact ⟨z :: zs, decl, rfl⟩
  | method _ _ ih =>
    cases before with
    | nil => cases hz
    | cons z before =>
      cases before with
      | nil => cases hz; exact ⟨[], _, rfl⟩
      | cons z' before =>
        obtain ⟨zs, decl, rfl⟩ := ih (List.cons.inj (List.cons.inj hz).2).2
        exact ⟨z :: z' :: zs, decl, rfl⟩
  | clause _ _ ih => exact ih hz
  | part _ _ ih => exact ih hz

/-- The receiver is bound to the scope of the innermost class, one outside that of the method. -/
theorem Site.receiver_zones {programs : List (Program Binding)} {zs : List (Zone Binding)}
    (hP : ∀ P ∈ programs, Program.Accepted P)
    (hreg : ∀ P ∈ programs, ∀ D ∈ Program.declarations P, D.Regular)
    (h : Site programs zs Γ (.expr (.receiver pos ref))) :
    ∃ inside decl around, zs = inside ++ .function decl :: .receiver :: around ∧
      Zone.receiver ∉ inside ∧ ref = .bound (inside.length + 1) := by
  obtain ⟨d, rfl⟩ := h.receiver_bound hP
  have hbind := (h.proper hP).binding rfl
  obtain ⟨S, hS, hx, _⟩ := Context.binding_eq_bound hbind
  have hscopes := h.receiver_scopes hreg
  have hmem : Zone.receiver ∈ zs := by
    obtain ⟨hd, rfl⟩ := List.getElem?_eq_some_iff.1 hS
    have hd' : d < zs.length := h.length ▸ hd
    exact (hscopes.get hd hd').1 hx ▸ List.get_mem zs ⟨d, hd'⟩
  obtain ⟨before, around, hzs, hb⟩ := List.eq_append_cons_of_mem hmem
  obtain ⟨inside, decl, rfl⟩ := h.method_inside hzs
  rw [hzs] at hscopes
  rw [Context.binding, findIdx?_receiver hscopes hb, List.length_append] at hbind
  refine ⟨inside, decl, around, ?_, fun hin => hb (List.mem_append_left _ hin), hbind.symm⟩
  rw [hzs, List.append_assoc]
  rfl

end Lox
