import Lox.Proofs.Alike.Run
import Lox.Proofs.Tree.Map

namespace Lox
set_option autoImplicit true

section
variable {ρ : Type}

mutual

def Expr.places : Expr ρ → List Pos
  | .literal _ => []
  | .grouping inner => inner.places
  | .unary _ pos operand => pos :: operand.places
  | .binary left _ pos right => pos :: (left.places ++ right.places)
  | .logical left _ right => left.places ++ right.places
  | .read name _ => [name.pos]
  | .assign name _ value => name.pos :: value.places
  | .call callee args paren => paren :: (callee.places ++ Expr.placesAll args)
  | .get object name => name.pos :: object.places
  | .set object name value => name.pos :: (object.places ++ value.places)
  | .receiver pos _ => [pos]

def Expr.placesAll : List (Expr ρ) → List Pos
  | [] => []
  | e :: rest => e.places ++ Expr.placesAll rest

end

mutual

def Stmt.places : Stmt ρ → List Pos
  | .expression e => e.places
  | .print e => e.places
  | .varDecl name none => [name.pos]
  | .varDecl name (some init) => name.pos :: init.places
  | .block body => Stmt.placesAll body
  | .branch condition yes none => condition.places ++ yes.places
  | .branch condition yes (some no) => condition.places ++ (yes.places ++ no.places)
  | .loop condition body => condition.places ++ body.places
  | .funDecl decl => decl.places
  | .ret pos none => [pos]
  | .ret pos (some value) => pos :: value.places
  | .classDecl name methods => name.pos :: FunDecl.placesAll methods

def Stmt.placesAll : List (Stmt ρ) → List Pos
  | [] => []
  | s :: rest => s.places ++ Stmt.placesAll rest

def FunDecl.places : FunDecl ρ → List Pos
  | ⟨name, params, body⟩ => name.pos :: (params.map (·.pos) ++ Stmt.placesAll body)

def FunDecl.placesAll : List (FunDecl ρ) → List Pos
  | [] => []
  | f :: rest => f.places ++ FunDecl.placesAll rest

end

def Program.places (P : Program ρ) : List Pos := Stmt.placesAll P

theorem FunDecl.places_subset {methods : List (FunDecl ρ)} (hf : f ∈ methods) :
    f.places ⊆ FunDecl.placesAll methods := by
  induction methods with
  | nil => cases hf
  | cons g rest ih =>
    rw [FunDecl.placesAll]
    rcases List.mem_cons.1 hf with rfl | hf
    · exact List.subset_append_left _ _
    · exact List.subset_append_of_subset_right _ (ih hf)

theorem FunDecl.body_places_subset (f : FunDecl ρ) : Stmt.placesAll f.body ⊆ f.places := by
  cases f
  exact List.subset_cons_of_subset _ (List.subset_append_right _ _)

end

variable {L L' : Likeness}

theorem Ident.alike_self (i : Ident) (h : L.place i.pos i.pos) : Ident.Alike L 1 i i := ⟨rfl, h⟩

theorem Expr.alike_self (e : Expr Binding) (h : ∀ p ∈ e.places, L.place p p) :
    Expr.Alike L .none e e := by
  induction e using Expr.rec (motive_2 := fun args =>
    (∀ p ∈ Expr.placesAll args, L.place p p) → Expr.AlikeAll L .none args args) with
  | literal => exact .literal
  | grouping inner ih => exact .grouping (ih h)
  | unary op pos operand ih =>
    obtain ⟨hp, h⟩ := List.forall_mem_cons.1 h
    exact .unary hp (ih h)
  | binary left op pos right ihl ihr =>
    obtain ⟨hp, h⟩ := List.forall_mem_cons.1 h
    obtain ⟨hl, hr⟩ := List.forall_mem_append.1 h
    exact .binary hp (ihl hl) (ihr hr)
  | logical left op right ihl ihr =>
    obtain ⟨hl, hr⟩ := List.forall_mem_append.1 h
    exact .logical (ihl hl) (ihr hr)
  | read name ref =>
    apply Expr.Alike.read
    rw [Renaming.along_none]
    exact name.alike_self (h _ List.mem_cons_self)
  | assign name ref value ih =>
    obtain ⟨hp, h⟩ := List.forall_mem_cons.1 h
    refine .assign ?_ (ih h)
    rw [Renaming.along_none]
    exact name.alike_self hp
  | call callee args paren ihc iha =>
    obtain ⟨hp, h⟩ := List.forall_mem_cons.1 h
    obtain ⟨hc, ha⟩ := List.forall_mem_append.1 h
    exact .call hp (ihc hc) (iha ha)
  | get object name ih =>
    obtain ⟨hp, h⟩ := List.forall_mem_cons.1 h
    exact .get (name.alike_self hp) (ih h)
  | set object name value iho ihv =>
    obtain ⟨hp, h⟩ := List.forall_mem_cons.1 h
    obtain ⟨ho, hv⟩ := List.forall_mem_append.1 h
    exact .set (name.alike_self hp) (iho ho) (ihv hv)
  | receiver pos ref =>
    refine .receiver (h _ List.mem_cons_self) ?_
    rw [Renaming.along_none, Equiv.Perm.one_apply]
  | nil => exact .nil
  | cons e args ihe iha =>
    rename_i h
    obtain ⟨he, ha⟩ := List.forall_mem_append.1 h
    exact .cons (ihe he) (iha ha)

theorem Stmt.alikeAll_self {body : List (Stmt Binding)}
    (ih : ∀ s ∈ body, (∀ p ∈ Stmt.places s, L.place p p) → Stmt.Alike L .none s s)
    (h : ∀ p ∈ Stmt.placesAll body, L.place p p) : Stmt.AlikeAll L .none body body := by
  induction body with
  | nil => exact .nil
  | cons s rest ihr =>
    obtain ⟨ihs, ihrest⟩ := List.forall_mem_cons.1 ih
    obtain ⟨hs, hrest⟩ := List.forall_mem_append.1 h
    exact .cons (ihs hs) (ihr ihrest hrest)

section
variable (one : L.renames 1)
include one

theorem FunDecl.alike_self_of {f : FunDecl Binding}
    (ih : ∀ s ∈ f.body, (∀ p ∈ Stmt.places s, L.place p p) → Stmt.Alike L .none s s)
    (h : ∀ p ∈ f.places, L.place p p) : FunDecl.Alike L .none f f := by
  obtain ⟨name, params, body⟩ := f
  obtain ⟨hp, h⟩ := List.forall_mem_cons.1 h
  obtain ⟨hparams, hbody⟩ := List.forall_mem_append.1 h
  refine .mk (name.alike_self hp) one ?_ ?_
  · rw [List.forall₂_same]
    exact fun i hi => i.alike_self (hparams _ (List.mem_map_of_mem hi))
  · rw [Renaming.push_none]
    exact Stmt.alikeAll_self ih hbody

theorem FunDecl.alikeAll_self {fs : List (FunDecl Binding)}
    (ih : ∀ f ∈ fs, ∀ s ∈ f.body, (∀ p ∈ Stmt.places s, L.place p p) → Stmt.Alike L .none s s)
    (h : ∀ p ∈ FunDecl.placesAll fs, L.place p p) : FunDecl.AlikeAll L .none fs fs := by
  induction fs with
  | nil => exact .none
  | cons f rest ihr =>
    obtain ⟨ihf, ihrest⟩ := List.forall_mem_cons.1 ih
    obtain ⟨hf, hrest⟩ := List.forall_mem_append.1 h
    exact .more (FunDecl.alike_self_of one ihf hf) (ihr ihrest hrest)

theorem Stmt.alike_self (s : Stmt Binding) (h : ∀ p ∈ s.places, L.place p p) :
    Stmt.Alike L .none s s := by
  induction s using Stmt.induction with
  | expression e => exact .expression (e.alike_self h)
  | print e => exact .print (e.alike_self h)
  | varDecl name init =>
    cases init with
    | none => exact .varDecl (name.alike_self (h _ List.mem_cons_self))
    | some e =>
      obtain ⟨hp, h⟩ := List.forall_mem_cons.1 h
      exact .varInit (name.alike_self hp) (e.alike_self h)
  | block body ih =>
    refine .block one ?_
    rw [Renaming.push_none]
    exact Stmt.alikeAll_self ih h
  | branch c yes no ihy ihn =>
    cases no with
    | none =>
      obtain ⟨hc, hy⟩ := List.forall_mem_append.1 h
      exact .branch (c.alike_self hc) (ihy hy)
    | some no =>
      obtain ⟨hc, h⟩ := List.forall_mem_append.1 h
      obtain ⟨hy, hn⟩ := List.forall_mem_append.1 h
      exact .branchElse (c.alike_self hc) (ihy hy) (ihn no rfl hn)
  | loop c body ih =>
    obtain ⟨hc, hb⟩ := List.forall_mem_append.1 h
    exact .loop (c.alike_self hc) (ih hb)
  | funDecl decl ih => exact .funDecl rfl (FunDecl.alike_self_of one ih h)
  | ret pos value =>
    cases value with
    | none => exact .ret (h _ List.mem_cons_self)
    | some e =>
      obtain ⟨hp, h⟩ := List.forall_mem_cons.1 h
      exact .retValue hp (e.alike_self h)
  | classDecl name methods ih =>
    obtain ⟨hp, h⟩ := List.forall_mem_cons.1 h
    refine .classDecl rfl (name.alike_self hp) ?_
    rw [Renaming.push_none]
    exact FunDecl.alikeAll_self one ih h

theorem FunDecl.alike_self (f : FunDecl Binding) (h : ∀ p ∈ f.places, L.place p p) :
    FunDecl.Alike L .none f f :=
  FunDecl.alike_self_of one (fun s _ => s.alike_self one) h

theorem Program.alike_self (P : Program Binding) (h : ∀ p ∈ P.places, L.place p p) :
    Stmt.AlikeAll L .none P P :=
  Stmt.alikeAll_self (fun s _ => s.alike_self one) h

end

section
variable {f g : Pos → Pos} (hplace : ∀ p p', L.place p p' → L'.place (f p) (g p'))
include hplace

theorem Ident.Alike.move (h : Ident.Alike L θ i i') : Ident.Alike L' θ (i.move f) (i'.move g) :=
  ⟨h.name, hplace _ _ h.place⟩

theorem Expr.Alike.map (h : Expr.Alike L σ e e') :
    Expr.Alike L' σ (e.map f id) (e'.map g id) := by
  induction h using Expr.Alike.rec
    (motive_2 := fun es es' _ =>
      Expr.AlikeAll L' σ (Expr.mapAll f id es) (Expr.mapAll g id es')) with
  | literal => exact .literal
  | grouping _ ih => exact .grouping ih
  | unary hp _ ih => exact .unary (hplace _ _ hp) ih
  | binary hp _ _ ihl ihr => exact .binary (hplace _ _ hp) ihl ihr
  | logical _ _ ihl ihr => exact .logical ihl ihr
  | read hn => exact .read (hn.move hplace)
  | assign hn _ ih => exact .assign (hn.move hplace) ih
  | call hp _ _ ihc iha => exact .call (hplace _ _ hp) ihc iha
  | get hn _ ih => exact .get (hn.move hplace) ih
  | set hn _ _ iho ihv => exact .set (hn.move hplace) iho ihv
  | receiver hp hfix => exact .receiver (hplace _ _ hp) hfix
  | nil => exact .nil
  | cons _ _ ihe ihes => exact .cons ihe ihes

/-- What is alike stays so when the places are moved. -/
theorem Stmt.AlikeAll.map (h : Stmt.AlikeAll L σ ss ss')
    (hrenames : ∀ θ, L.renames θ → L'.renames θ) :
    Stmt.AlikeAll L' σ (Stmt.mapAll f id ss) (Stmt.mapAll g id ss') := by
  induction h using Stmt.AlikeAll.rec
    (motive_1 := fun σ s s' _ => Stmt.Alike L' σ (s.map f id) (s'.map g id))
    (motive_3 := fun σ d d' _ => FunDecl.Alike L' σ (d.map f id) (d'.map g id))
    (motive_4 := fun σ ds ds' _ =>
      FunDecl.AlikeAll L' σ (FunDecl.mapAll f id ds) (FunDecl.mapAll g id ds')) with
  | expression he => exact .expression (he.map hplace)
  | print he => exact .print (he.map hplace)
  | varDecl hn => exact .varDecl (hn.move hplace)
  | varInit hn he => exact .varInit (hn.move hplace) (he.map hplace)
  | block hθ _ ih => exact .block (hrenames _ hθ) ih
  | branch hc _ ih => exact .branch (hc.map hplace) ih
  | branchElse hc _ _ ihy ihn => exact .branchElse (hc.map hplace) ihy ihn
  | loop hc _ ih => exact .loop (hc.map hplace) ih
  | funDecl hfix _ ih =>
    refine .funDecl ?_ ih
    rw [FunDecl.name_map]
    exact hfix
  | ret hp => exact .ret (hplace _ _ hp)
  | retValue hp he => exact .retValue (hplace _ _ hp) (he.map hplace)
  | classDecl hfix hn _ ih => exact .classDecl hfix (hn.move hplace) ih
  | nil => exact .nil
  | cons _ _ ihs ihss => exact .cons ihs ihss
  | mk hn hθ hparams _ ih =>
    refine .mk (hn.move hplace) (hrenames _ hθ) ?_ ih
    rw [List.forall₂_map_left_iff, List.forall₂_map_right_iff]
    exact hparams.imp fun _ _ hp => hp.move hplace
  | none => exact .none
  | more _ _ ihd ihds => exact .more ihd ihds

end

theorem Stmt.AlikeAll.map_right {f : Pos → Pos}
    (hplace : ∀ p p', L.place p p' → L'.place p (f p')) (h : Stmt.AlikeAll L σ ss ss')
    (hrenames : ∀ θ, L.renames θ → L'.renames θ) :
    Stmt.AlikeAll L' σ ss (Stmt.mapAll f id ss') := by
  have hmap := Stmt.AlikeAll.map (f := id) hplace h hrenames
  rwa [Stmt.mapAll_id fun s _ => s.map_id] at hmap

section
variable {f : Pos → Pos} (hplace : ∀ p p', L.place p p' → p' = f p)
include hplace

theorem Ident.Alike.eq_move (h : Ident.Alike L 1 i i') : i' = i.move f := by
  obtain ⟨name, pos⟩ := i
  obtain ⟨name', pos'⟩ := i'
  obtain ⟨hname, hpos⟩ := h
  cases hname
  cases hplace _ _ hpos
  rfl

theorem Expr.Alike.eq_map (h : Expr.Alike L .none e e') : e' = e.map f id := by
  induction h using Expr.Alike.rec
    (motive_2 := fun es es' _ => es' = Expr.mapAll f id es) with
  | literal => rfl
  | grouping _ ih => rw [ih]; rfl
  | unary hp _ ih => rw [ih, hplace _ _ hp]; rfl
  | binary hp _ _ ihl ihr => rw [ihl, ihr, hplace _ _ hp]; rfl
  | logical _ _ ihl ihr => rw [ihl, ihr]; rfl
  | read hn =>
    rw [Renaming.along_none] at hn
    rw [hn.eq_move hplace]
    rfl
  | assign hn _ ih =>
    rw [Renaming.along_none] at hn
    rw [hn.eq_move hplace, ih]
    rfl
  | call hp _ _ ihc iha => rw [ihc, iha, hplace _ _ hp]; rfl
  | get hn _ ih => rw [hn.eq_move hplace, ih]; rfl
  | set hn _ _ iho ihv => rw [hn.eq_move hplace, iho, ihv]; rfl
  | receiver hp => rw [hplace _ _ hp]; rfl
  | nil => rfl
  | cons _ _ ihe ihes => rw [ihe, ihes]; rfl

/-- Where no name changes, what is alike is the same up to its places. -/
theorem FunDecl.Alike.eq_map (hone : ∀ θ, L.renames θ → θ = 1)
    (h : FunDecl.Alike L σ d d') (hσ : σ = .none) : d' = d.map f id := by
  induction h using FunDecl.Alike.rec
    (motive_1 := fun σ s s' _ => σ = .none → s' = s.map f id)
    (motive_2 := fun σ ss ss' _ => σ = .none → ss' = Stmt.mapAll f id ss)
    (motive_4 := fun σ ds ds' _ => σ = .none → ds' = FunDecl.mapAll f id ds) with
  | expression he hσ => subst hσ; rw [he.eq_map hplace]; rfl
  | print he hσ => subst hσ; rw [he.eq_map hplace]; rfl
  | varDecl hn hσ =>
    subst hσ
    rw [Ident.Alike.eq_move hplace hn]
    rfl
  | varInit hn he hσ =>
    subst hσ
    rw [Ident.Alike.eq_move hplace hn, he.eq_map hplace]
    rfl
  | block hθ _ ih hσ =>
    rw [ih (by rw [hσ, hone _ hθ, Renaming.push_none])]
    rfl
  | branch hc _ ih hσ =>
    rw [ih hσ]
    subst hσ
    rw [hc.eq_map hplace]
    rfl
  | branchElse hc _ _ ihy ihn hσ =>
    rw [ihy hσ, ihn hσ]
    subst hσ
    rw [hc.eq_map hplace]
    rfl
  | loop hc _ ih hσ =>
    rw [ih hσ]
    subst hσ
    rw [hc.eq_map hplace]
    rfl
  | funDecl _ _ ih hσ => rw [ih hσ]; rfl
  | ret hp hσ => rw [hplace _ _ hp]; rfl
  | retValue hp he hσ =>
    subst hσ
    rw [hplace _ _ hp, he.eq_map hplace]
    rfl
  | classDecl _ hn _ ih hσ =>
    rw [hn.eq_move hplace, ih (by rw [hσ, Renaming.push_none])]
    rfl
  | nil hσ => rfl
  | cons _ _ ihs ihss hσ => rw [ihs hσ, ihss hσ]; rfl
  | mk hn hθ hparams _ ih =>
    have hθ := hone _ hθ
    rw [hn.eq_move hplace, ih (by rw [hσ, hθ, Renaming.push_none])]
    congr 1
    clear ih
    induction hparams with
    | nil => rfl
    | cons hp _ ih =>
      rw [hθ] at hp
      rw [List.map_cons, hp.eq_move hplace, ih]
  | none hσ => rfl
  | more _ _ ihd ihds hσ => rw [ihd hσ, ihds hσ]; rfl

end

/-- Code stands at places of its program. -/
def Code.places : Code ρ → List Pos
  | .row body => Stmt.placesAll body
  | .stmt s => s.places
  | .expr e => e.places

theorem Expr.places_subset_all {args : List (Expr ρ)} (h : e ∈ args) :
    e.places ⊆ Expr.placesAll args := by
  induction args with
  | nil => cases h
  | cons a rest ih =>
    rcases List.mem_cons.1 h with rfl | h
    · exact List.subset_append_left _ _
    · exact List.subset_append_of_subset_right _ (ih h)

theorem Expr.part_places_subset {e : Expr ρ} (h : e' ∈ e.parts) : e'.places ⊆ e.places := by
  cases e with
  | literal => cases h
  | read => cases h
  | receiver => cases h
  | grouping inner =>
    cases List.mem_singleton.1 h
    exact List.Subset.refl _
  | unary op pos operand =>
    cases List.mem_singleton.1 h
    exact List.subset_cons_self _ _
  | assign name ref value =>
    cases List.mem_singleton.1 h
    exact List.subset_cons_self _ _
  | get object name =>
    cases List.mem_singleton.1 h
    exact List.subset_cons_self _ _
  | binary left op pos right =>
    rcases List.mem_pair.1 h with rfl | rfl
    · exact List.subset_cons_of_subset _ (List.subset_append_left _ _)
    · exact List.subset_cons_of_subset _ (List.subset_append_right _ _)
  | logical left op right =>
    rcases List.mem_pair.1 h with rfl | rfl
    · exact List.subset_append_left _ _
    · exact List.subset_append_right _ _
  | set object name value =>
    rcases List.mem_pair.1 h with rfl | rfl
    · exact List.subset_cons_of_subset _ (List.subset_append_left _ _)
    · exact List.subset_cons_of_subset _ (List.subset_append_right _ _)
  | call callee args paren =>
    apply List.subset_cons_of_subset
    rcases List.mem_cons.1 h with rfl | h
    · exact List.subset_append_left _ _
    · exact List.subset_append_of_subset_right _ (Expr.places_subset_all h)

theorem Stmt.clause_places_subset {s : Stmt ρ} (h : s.clause? Γ = some (Δ, e)) :
    e.places ⊆ s.places := by
  cases s with
  | expression =>
    cases h
    exact List.Subset.refl _
  | print =>
    cases h
    exact List.Subset.refl _
  | varDecl name init =>
    cases init with
    | none => cases h
    | some e =>
      cases h
      exact List.subset_cons_self _ _
  | branch c yes no =>
    cases h
    cases no <;> exact List.subset_append_left _ _
  | loop c body =>
    cases h
    exact List.subset_append_left _ _
  | ret pos value =>
    cases value with
    | none => cases h
    | some e =>
      cases h
      exact List.subset_cons_self _ _
  | block => cases h
  | funDecl => cases h
  | classDecl => cases h

theorem Site.places_subset (h : Site [P] zs Γ c) : c.places ⊆ P.places := by
  induction h with
  | program hP =>
    cases List.mem_singleton.1 hP
    exact List.Subset.refl _
  | next _ ih => exact (List.append_subset.1 ih).2
  | first _ ih => exact (List.append_subset.1 ih).1
  | @yes _ _ c yes no _ ih =>
    cases no with
    | none => exact (List.append_subset.1 ih).2
    | some no => exact (List.append_subset.1 (List.append_subset.1 ih).2).1
  | no _ ih => exact (List.append_subset.1 (List.append_subset.1 ih).2).2
  | loop _ ih => exact (List.append_subset.1 ih).2
  | block _ ih => exact ih
  | @function _ _ decl _ ih => exact List.Subset.trans decl.body_places_subset ih
  | @method _ _ name methods decl _ hd ih =>
    have hmethods := List.Subset.trans (FunDecl.places_subset hd) (List.cons_subset.1 ih).2
    exact List.Subset.trans decl.body_places_subset hmethods
  | clause _ hc ih => exact List.Subset.trans (Stmt.clause_places_subset hc) ih
  | part _ hp ih => exact List.Subset.trans (Expr.part_places_subset hp) ih

theorem CodeAlike.of_places {ι : Type} {R : ι → Likeness} {programs : List (Program Binding)}
    {i : ι} (one : (R i).renames 1)
    (h : ∀ P ∈ programs, ∀ p ∈ P.places, (R i).place p p) : CodeAlike R programs := by
  constructor
  · intro zs Γ f hsite
    obtain ⟨P, hP, hsite⟩ := hsite.own_program
    exact ⟨i, f.alike_self one fun p hp => h P hP p (hsite.places_subset hp)⟩
  · intro zs Γ name methods f hsite hf
    obtain ⟨P, hP, hsite⟩ := hsite.own_program
    refine ⟨i, f.alike_self one fun p hp => h P hP p (hsite.places_subset ?_)⟩
    exact List.mem_cons_of_mem _ (FunDecl.places_subset hf hp)

end Lox
