import Lox.Proofs.Tree.Map
import Lox.Proofs.Tree.Plain

namespace Lox
set_option autoImplicit true
open Outline Text

def Expr.bare (e : Expr ρ) : Expr Unit := e.map (fun _ => ⟨0, 0⟩) fun _ => ()

def Stmt.bare (s : Stmt ρ) : Stmt Unit := s.map (fun _ => ⟨0, 0⟩) fun _ => ()

theorem Expr.outline_map (f : Pos → Pos) (g : ρ → ρ') (e : Expr ρ) :
    (e.map f g).outline = e.outline := by
  induction e using Expr.rec (motive_2 := fun args =>
    Expr.outlines (Expr.mapAll f g args) = Expr.outlines args) with
  | literal => rfl
  | grouping inner ih => rw [Expr.map, Expr.outline, ih, Expr.outline]
  | unary op pos operand ih => rw [Expr.map, Expr.outline, ih, Expr.outline]
  | binary left op pos right ihl ihr => rw [Expr.map, Expr.outline, ihl, ihr, Expr.outline]
  | logical left op right ihl ihr => rw [Expr.map, Expr.outline, ihl, ihr, Expr.outline]
  | read => rfl
  | assign name ref value ih => rw [Expr.map, Expr.outline, ih, Expr.outline]; rfl
  | call callee args paren ihc iha =>
    rw [Expr.map, Expr.outline_call, ihc, iha, Expr.outline_call]
  | get object name ih => rw [Expr.map, Expr.outline, ih, Expr.outline]; rfl
  | set object name value iho ihv => rw [Expr.map, Expr.outline, iho, ihv, Expr.outline]; rfl
  | receiver => rfl
  | nil => rfl
  | cons e args ihe iha => rw [Expr.mapAll, Expr.outlines, ihe, iha, Expr.outlines]

theorem outlines_mapAll {body : List (Stmt ρ)} {f : Pos → Pos} {g : ρ → ρ'}
    (h : ∀ s ∈ body, (s.map f g).outline = s.outline) :
    Stmt.outlines (Stmt.mapAll f g body) = Stmt.outlines body := by
  induction body with
  | nil => rfl
  | cons s rest ih =>
    obtain ⟨hs, hrest⟩ := List.forall_mem_cons.1 h
    rw [Stmt.mapAll, Stmt.outlines, hs, ih hrest, Stmt.outlines]

theorem FunDecl.outline_map {d : FunDecl ρ} {f : Pos → Pos} {g : ρ → ρ'}
    (h : ∀ s ∈ d.body, (s.map f g).outline = s.outline) : (d.map f g).outline = d.outline := by
  obtain ⟨name, params, body⟩ := d
  rw [FunDecl.map, FunDecl.outline_mk, FunDecl.outline_mk, outlines_mapAll h, Ident.map_name_move]
  rfl

theorem outlines_map_methods {methods : List (FunDecl ρ)} {f : Pos → Pos} {g : ρ → ρ'}
    (h : ∀ d ∈ methods, ∀ s ∈ d.body, (s.map f g).outline = s.outline) :
    FunDecl.outlines (FunDecl.mapAll f g methods) = FunDecl.outlines methods := by
  induction methods with
  | nil => rfl
  | cons d rest ih =>
    obtain ⟨hd, hrest⟩ := List.forall_mem_cons.1 h
    rw [FunDecl.mapAll, FunDecl.outlines, FunDecl.outline_map hd, ih hrest, FunDecl.outlines]

theorem outline_map_option (f : Pos → Pos) (g : ρ → ρ') (init : Option (Expr ρ)) :
    (init.map (·.map f g)).map Expr.outline = init.map Expr.outline := by
  cases init with
  | none => rfl
  | some e => exact congrArg some (e.outline_map f g)

/-- Places are not shown. -/
theorem Stmt.outline_map (f : Pos → Pos) (g : ρ → ρ') (s : Stmt ρ) :
    (s.map f g).outline = s.outline := by
  induction s using Stmt.induction with
  | expression e => rw [Stmt.map, Stmt.outline, e.outline_map, Stmt.outline]
  | print e => rw [Stmt.map, Stmt.outline, e.outline_map, Stmt.outline]
  | varDecl name init =>
    rw [Stmt.map, Stmt.outline_varDecl, Stmt.outline_varDecl, outline_map_option]
    rfl
  | block body ih => rw [Stmt.map, Stmt.outline_block, Stmt.outline_block, outlines_mapAll ih]
  | branch c yes no ihy ihn =>
    cases no with
    | none => rw [Stmt.map, Stmt.outline, c.outline_map, ihy, Stmt.outline]
    | some no => rw [Stmt.map, Stmt.outline, c.outline_map, ihy, ihn no rfl, Stmt.outline]
  | loop c body ih => rw [Stmt.map, Stmt.outline, c.outline_map, ih, Stmt.outline]
  | funDecl decl ih => exact FunDecl.outline_map ih
  | ret pos value => rw [Stmt.map, Stmt.outline_ret, Stmt.outline_ret, outline_map_option]
  | classDecl name methods ih =>
    rw [Stmt.map, Stmt.outline_classDecl, Stmt.outline_classDecl, outlines_map_methods ih]
    rfl

theorem Stmt.display_bare (s : Stmt ρ) : s.bare.display = s.display := by
  rw [Stmt.display, Stmt.bare, Stmt.outline_map, Stmt.display]

@[simp] theorem wordText_inj : wordText w = wordText w' ↔ w = w' := by
  refine ⟨fun h => ?_, fun h => h ▸ rfl⟩
  have hchars := congrArg String.toList h
  rw [toList_wordText, toList_wordText] at hchars
  exact String.toList_inj.1 (List.append_cancel_right (List.cons.inj hchars).2)

@[simp] theorem UnaryOp.text_inj {op op' : UnaryOp} : op.text = op'.text ↔ op = op' := by
  cases op <;> cases op' <;> decide

@[simp] theorem BinaryOp.text_inj {op op' : BinaryOp} : op.text = op'.text ↔ op = op' := by
  cases op <;> cases op' <;> decide

@[simp] theorem LogicalOp.text_inj {op op' : LogicalOp} : op.text = op'.text ↔ op = op' := by
  cases op <;> cases op' <;> decide

/-- The text of a number has only characters of numbers. -/
theorem Decimal.text_ne {w : String} (h : w.toList.all isNumberChar = false) (x : Float) :
    Decimal.text x ≠ w := by
  rintro rfl
  rw [List.all_eq_true.2 (numberChar_text x)] at h
  cases h

/-- A quoted text begins with a quote. -/
theorem Text.quoted_ne {w : String} (h : w.toList.head?.all isInner = true) (s : String) :
    quoted s ≠ w := by
  rintro rfl
  rw [quoted, String.toList_ofList] at h
  exact (isQuote_quoteFor _).not_inner h

theorem Text.quoted_ne_number (s : String) (x : Float) : quoted s ≠ Decimal.text x := by
  refine Text.quoted_ne ?_ s
  have hchars := Decimal.numberChar_text x
  cases htext : (Decimal.text x).toList with
  | nil => rfl
  | cons c cs =>
    rw [htext] at hchars
    exact isInner_of_isNumberChar (hchars c List.mem_cons_self)

theorem Literal.outlineText_injective : Function.Injective Literal.outlineText := by
  intro l l' h
  cases l with
  | nil =>
    cases l' with
    | nil => rfl
    | bool b => cases b <;> exact absurd h (by decide)
    | number x => exact absurd h.symm (Decimal.text_ne (by decide) x)
    | string s => exact absurd h.symm (Text.quoted_ne (by decide) s)
  | bool b =>
    cases l' with
    | nil => cases b <;> exact absurd h (by decide)
    | bool b' => cases b <;> cases b' <;> first | rfl | exact absurd h (by decide)
    | number x => cases b <;> exact absurd h.symm (Decimal.text_ne (by decide) x)
    | string s => cases b <;> exact absurd h.symm (Text.quoted_ne (by decide) s)
  | number x =>
    cases l' with
    | nil => exact absurd h (Decimal.text_ne (by decide) x)
    | bool b => cases b <;> exact absurd h (Decimal.text_ne (by decide) x)
    | number y => rw [Decimal.text_injective h]
    | string s => exact absurd h.symm (Text.quoted_ne_number s x)
  | string s =>
    cases l' with
    | nil => exact absurd h (Text.quoted_ne (by decide) s)
    | bool b => cases b <;> exact absurd h (Text.quoted_ne (by decide) s)
    | number x => exact absurd h (Text.quoted_ne_number s x)
    | string t => rw [quoted_injective h]

@[simp] theorem Literal.outlineText_inj {l l' : Literal} :
    l.outlineText = l'.outlineText ↔ l = l' := outlineText_injective.eq_iff

theorem Ident.move_eq {i j : Ident} (h : i.name = j.name) (p : Pos) :
    i.move (fun _ => p) = j.move (fun _ => p) := by
  rw [Ident.move, h, Ident.move]

theorem Expr.bare_eq_of_outline (e : Expr ρ) :
    ∀ e' : Expr ρ, e.outline = e'.outline → e.bare = e'.bare := by
  unfold Expr.bare
  induction e using Expr.rec (motive_2 := fun args => ∀ args' : List (Expr ρ),
    Expr.outlines args = Expr.outlines args' →
      Expr.mapAll (fun _ => ⟨0, 0⟩) (fun _ => ()) args =
        Expr.mapAll (fun _ => ⟨0, 0⟩) (fun _ => ()) args') with
  | literal value =>
    intro e' h
    cases e' with
    | literal value' =>
      have hvalue : value = value' := by simpa [Expr.outline] using h
      rw [hvalue]
    | _ => simp [Expr.outline] at h
  | grouping inner ih =>
    intro e' h
    cases e' with
    | grouping inner' =>
      have hinner : inner.outline = inner'.outline := by simpa [Expr.outline] using h
      rw [Expr.map, ih _ hinner, Expr.map]
    | _ => simp [Expr.outline] at h
  | unary op pos operand ih =>
    intro e' h
    cases e' with
    | unary op' pos' operand' =>
      obtain ⟨rfl, hoperand⟩ : op = op' ∧ operand.outline = operand'.outline := by
        simpa [Expr.outline] using h
      rw [Expr.map, ih _ hoperand, Expr.map]
    | _ => simp [Expr.outline] at h
  | binary left op pos right ihl ihr =>
    intro e' h
    cases e' with
    | binary left' op' pos' right' =>
      obtain ⟨rfl, hleft, hright⟩ :
          op = op' ∧ left.outline = left'.outline ∧ right.outline = right'.outline := by
        simpa [Expr.outline] using h
      rw [Expr.map, ihl _ hleft, ihr _ hright, Expr.map]
    | _ => simp [Expr.outline] at h
  | logical left op right ihl ihr =>
    intro e' h
    cases e' with
    | logical left' op' right' =>
      obtain ⟨rfl, hleft, hright⟩ :
          op = op' ∧ left.outline = left'.outline ∧ right.outline = right'.outline := by
        simpa [Expr.outline] using h
      rw [Expr.map, ihl _ hleft, ihr _ hright, Expr.map]
    | _ => simp [Expr.outline] at h
  | read name ref =>
    intro e' h
    cases e' with
    | read name' ref' =>
      have hname : name.name = name'.name := by simpa [Expr.outline] using h
      rw [Expr.map, Ident.move_eq hname, Expr.map]
    | _ => simp [Expr.outline] at h
  | assign name ref value ih =>
    intro e' h
    cases e' with
    | assign name' ref' value' =>
      obtain ⟨hname, hvalue⟩ : name.name = name'.name ∧ value.outline = value'.outline := by
        simpa [Expr.outline] using h
      rw [Expr.map, Ident.move_eq hname, ih _ hvalue, Expr.map]
    | _ => simp [Expr.outline] at h
  | call callee args paren ihc iha =>
    intro e' h
    cases e' with
    | call callee' args' paren' =>
      rw [Expr.outline_call, Expr.outline_call] at h
      obtain ⟨-, -, hnodes⟩ := Outline.node.inj h
      obtain ⟨hcallee, hargs⟩ := List.cons.inj hnodes
      rw [Expr.map, ihc _ hcallee, iha _ hargs, Expr.map]
    | _ => simp [Expr.outline] at h
  | get object name ih =>
    intro e' h
    cases e' with
    | get object' name' =>
      obtain ⟨hname, hobject⟩ : name.name = name'.name ∧ object.outline = object'.outline := by
        simpa [Expr.outline] using h
      rw [Expr.map, ih _ hobject, Ident.move_eq hname, Expr.map]
    | _ => simp [Expr.outline] at h
  | set object name value iho ihv =>
    intro e' h
    cases e' with
    | set object' name' value' =>
      obtain ⟨hname, hobject, hvalue⟩ : name.name = name'.name ∧
          object.outline = object'.outline ∧ value.outline = value'.outline := by
        simpa [Expr.outline] using h
      rw [Expr.map, iho _ hobject, Ident.move_eq hname, ihv _ hvalue, Expr.map]
    | _ => simp [Expr.outline] at h
  | receiver pos ref =>
    intro e' h
    cases e' with
    | receiver => rfl
    | _ => simp [Expr.outline] at h
  | nil args' h =>
    cases args' with
    | nil => rfl
    | cons => cases h
  | cons e args ihe iha args' h =>
    cases args' with
    | nil => cases h
    | cons e' args' =>
      obtain ⟨he, hargs⟩ := List.cons.inj h
      rw [Expr.mapAll, ihe _ he, iha _ hargs, Expr.mapAll]

def behindCommas (names : List String) : List Char := names.flatMap fun x => ',' :: ' ' :: x.toList

theorem toList_intercalate_cons (x : String) (rest : List String) :
    (", ".intercalate (x :: rest)).toList = x.toList ++ behindCommas rest := by
  induction rest generalizing x with
  | nil => simp [behindCommas]
  | cons y rest ih =>
    rw [String.intercalate_cons_cons, String.toList_append, ih]
    simp [behindCommas]

theorem exists_behindCommas (names : List String) (r : List Char) :
    ∃ c cs, behindCommas names ++ ']' :: r = c :: cs ∧ ¬Scan.isWordChar c = true := by
  cases names with
  | nil => exact ⟨_, _, rfl, by decide⟩
  | cons => exact ⟨_, _, rfl, by decide⟩

theorem word_cancel (hx : IsWord x) (hy : IsWord y)
    (h : x.toList ++ (behindCommas xs ++ ']' :: r) = y.toList ++ (behindCommas ys ++ ']' :: r')) :
    x = y ∧ behindCommas xs ++ ']' :: r = behindCommas ys ++ ']' :: r' := by
  obtain ⟨c, cs, hxs, hc⟩ := exists_behindCommas xs r
  obtain ⟨d, ds, hys, hd⟩ := exists_behindCommas ys r'
  rw [hxs, hys] at h ⊢
  obtain ⟨hword, hrest⟩ := cancel_of_forall hx.2 hy.2 hc hd h
  exact ⟨String.toList_inj.1 hword, hrest⟩

theorem behindCommas_cancel (hxs : Words xs) (hys : Words ys)
    (h : behindCommas xs ++ ']' :: r = behindCommas ys ++ ']' :: r') : xs = ys := by
  induction xs generalizing ys with
  | nil =>
    cases ys with
    | nil => rfl
    | cons => exact absurd (List.cons.inj h).1 (by decide)
  | cons x xs ih =>
    cases ys with
    | nil => exact absurd (List.cons.inj h).1 (by decide)
    | cons y ys =>
      obtain ⟨hx, hxrest⟩ := words_cons.1 hxs
      obtain ⟨hy, hyrest⟩ := words_cons.1 hys
      have hword : x.toList ++ (behindCommas xs ++ ']' :: r) =
          y.toList ++ (behindCommas ys ++ ']' :: r') := by
        simpa [behindCommas] using h
      obtain ⟨rfl, hrest⟩ := word_cancel hx hy hword
      rw [ih hxrest hyrest hrest]

/-- Different lists of words have different texts. -/
theorem list_inj (hxs : Words xs) (hys : Words ys)
    (h : "[" ++ ", ".intercalate xs ++ "]" = "[" ++ ", ".intercalate ys ++ "]") : xs = ys := by
  have hchars :
      (", ".intercalate xs).toList ++ ']' :: [] = (", ".intercalate ys).toList ++ ']' :: [] := by
    simpa using congrArg String.toList h
  have hbegin : ∀ {z}, IsWord z → ∀ cs, z.toList ++ cs ≠ ']' :: [] := by
    intro z hz cs heq
    cases hlist : z.toList with
    | nil => exact hz.1 hlist
    | cons c rest =>
      rw [hlist] at heq
      have hc := hz.2 c (hlist ▸ List.mem_cons_self)
      rw [(List.cons.inj heq).1] at hc
      exact absurd hc (by decide)
  cases xs with
  | nil =>
    cases ys with
    | nil => rfl
    | cons y ys =>
      rw [toList_intercalate_cons, List.append_assoc] at hchars
      exact absurd hchars.symm (hbegin (words_cons.1 hys).1 _)
  | cons x xs =>
    obtain ⟨hx, hxrest⟩ := words_cons.1 hxs
    rw [toList_intercalate_cons, List.append_assoc] at hchars
    cases ys with
    | nil => exact absurd hchars (hbegin hx _)
    | cons y ys =>
      obtain ⟨hy, hyrest⟩ := words_cons.1 hys
      rw [toList_intercalate_cons, List.append_assoc] at hchars
      obtain ⟨rfl, hrest⟩ := word_cancel hx hy hchars
      rw [behindCommas_cancel hxrest hyrest hrest]

def Stmt.kind : Stmt ρ → String
  | .expression _ => "Expression"
  | .print _ => "Print"
  | .varDecl .. => "Var"
  | .block _ => "Block"
  | .branch .. => "If"
  | .loop .. => "While"
  | .funDecl _ => "Function"
  | .ret .. => "Return"
  | .classDecl .. => "Class"

def Outline.kind : Outline → String
  | .node kind _ _ => kind

theorem Stmt.kind_eq {s t : Stmt ρ} (h : s.outline = t.outline) : s.kind = t.kind := by
  have hkind : ∀ s : Stmt ρ, s.outline.kind = s.kind := by
    intro s
    cases s with
    | branch c yes no => cases no <;> rfl
    | funDecl decl => cases decl; rfl
    | _ => rfl
  rw [← hkind s, h, hkind t]

/-- Among the trees with words for names, those with the outline of `s` are `s`, up to places. -/
def Stmt.Told (s : Stmt ρ) : Prop :=
  ∀ t : Stmt ρ, Words s.identifiers → Words t.identifiers → s.outline = t.outline → s.bare = t.bare

theorem mapAll_eq_of_outlines {body body' : List (Stmt ρ)} (hbody : ∀ s ∈ body, s.Told)
    (hw : Words (Stmt.identifiersAll body)) (hw' : Words (Stmt.identifiersAll body'))
    (h : Stmt.outlines body = Stmt.outlines body') :
    Stmt.mapAll (fun _ => ⟨0, 0⟩) (fun _ => ()) body =
      Stmt.mapAll (fun _ => ⟨0, 0⟩) (fun _ => ()) body' := by
  induction body generalizing body' with
  | nil =>
    cases body' with
    | nil => rfl
    | cons => cases h
  | cons s rest ih =>
    cases body' with
    | nil => cases h
    | cons t rest' =>
      obtain ⟨hs, hrest⟩ := List.forall_mem_cons.1 hbody
      obtain ⟨hws, hwrest⟩ := words_append.1 hw
      obtain ⟨hwt, hwrest'⟩ := words_append.1 hw'
      obtain ⟨hhead, htail⟩ := List.cons.inj h
      have hst : s.map (fun _ => ⟨0, 0⟩) (fun _ => ()) = t.map (fun _ => ⟨0, 0⟩) (fun _ => ()) :=
        hs t hws hwt hhead
      rw [Stmt.mapAll, hst, ih hrest hwrest hwrest' htail, Stmt.mapAll]

theorem map_move_eq {is js : List Ident} (h : is.map (·.name) = js.map (·.name)) (p : Pos) :
    is.map (·.move fun _ => p) = js.map (·.move fun _ => p) := by
  have hmove : ∀ ks : List Ident, ks.map (·.move fun _ => p) = (ks.map (·.name)).map (⟨·, p⟩) := by
    intro ks
    rw [List.map_map]
    rfl
  rw [hmove, h, ← hmove]

theorem FunDecl.map_eq_of_outline {f g : FunDecl ρ} (hbody : ∀ s ∈ f.body, s.Told)
    (hf : Words f.identifiers) (hg : Words g.identifiers) (h : f.outline = g.outline) :
    f.map (fun _ => ⟨0, 0⟩) (fun _ => ()) = g.map (fun _ => ⟨0, 0⟩) (fun _ => ()) := by
  obtain ⟨name, params, body⟩ := f
  obtain ⟨name', params', body'⟩ := g
  obtain ⟨hparams, hwords⟩ := words_append.1 (words_cons.1 hf).2
  obtain ⟨hparams', hwords'⟩ := words_append.1 (words_cons.1 hg).2
  rw [FunDecl.outline_mk, FunDecl.outline_mk] at h
  obtain ⟨-, hattributes, hnodes⟩ := Outline.node.inj h
  obtain ⟨hname, hattributes⟩ := List.cons.inj hattributes
  have htext := congrArg Prod.snd (List.cons.inj hattributes).1
  rw [FunDecl.map, Ident.move_eq (wordText_inj.1 (congrArg Prod.snd hname)),
    map_move_eq (list_inj hparams hparams' htext),
    mapAll_eq_of_outlines hbody hwords hwords' hnodes, FunDecl.map]

theorem mapAll_eq_of_methods {methods methods' : List (FunDecl ρ)}
    (hbody : ∀ f ∈ methods, ∀ s ∈ f.body, s.Told)
    (hw : Words (FunDecl.identifiersAll methods)) (hw' : Words (FunDecl.identifiersAll methods'))
    (h : FunDecl.outlines methods = FunDecl.outlines methods') :
    FunDecl.mapAll (fun _ => ⟨0, 0⟩) (fun _ => ()) methods =
      FunDecl.mapAll (fun _ => ⟨0, 0⟩) (fun _ => ()) methods' := by
  induction methods generalizing methods' with
  | nil =>
    cases methods' with
    | nil => rfl
    | cons => cases h
  | cons f rest ih =>
    cases methods' with
    | nil => cases h
    | cons g rest' =>
      obtain ⟨hf, hrest⟩ := List.forall_mem_cons.1 hbody
      obtain ⟨hwf, hwrest⟩ := words_append.1 hw
      obtain ⟨hwg, hwrest'⟩ := words_append.1 hw'
      obtain ⟨hhead, htail⟩ := List.cons.inj h
      rw [FunDecl.mapAll, FunDecl.map_eq_of_outline hf hwf hwg hhead,
        ih hrest hwrest hwrest' htail, FunDecl.mapAll]

theorem map_option_eq {init init' : Option (Expr ρ)}
    (h : (init.map Expr.outline).toList = (init'.map Expr.outline).toList) :
    init.map (·.map (fun _ => ⟨0, 0⟩) (fun _ => ())) =
      init'.map (·.map (fun _ => ⟨0, 0⟩) (fun _ => ())) := by
  cases init with
  | none =>
    cases init' with
    | none => rfl
    | some => cases h
  | some e =>
    cases init' with
    | none => cases h
    | some e' => exact congrArg some (e.bare_eq_of_outline e' (List.cons.inj h).1)

theorem Stmt.told (s : Stmt ρ) : s.Told := by
  induction s using Stmt.induction with
  | expression e =>
    intro t _ _ h
    have hkind := Stmt.kind_eq h
    cases t with
    | expression e' =>
      have he := (List.cons.inj (Outline.node.inj h).2.2).1
      exact congrArg Stmt.expression (e.bare_eq_of_outline e' he)
    | _ => simp [Stmt.kind] at hkind
  | print e =>
    intro t _ _ h
    have hkind := Stmt.kind_eq h
    cases t with
    | print e' =>
      have he := (List.cons.inj (Outline.node.inj h).2.2).1
      exact congrArg Stmt.print (e.bare_eq_of_outline e' he)
    | _ => simp [Stmt.kind] at hkind
  | varDecl name init =>
    intro t _ _ h
    have hkind := Stmt.kind_eq h
    cases t with
    | varDecl name' init' =>
      rw [Stmt.outline_varDecl, Stmt.outline_varDecl] at h
      obtain ⟨-, hattributes, hnodes⟩ := Outline.node.inj h
      have hname := congrArg Prod.snd (List.cons.inj hattributes).1
      rw [Stmt.bare, Stmt.map, Ident.move_eq (wordText_inj.1 hname), map_option_eq hnodes, Stmt.bare,
        Stmt.map]
    | _ => simp [Stmt.kind] at hkind
  | block body ih =>
    intro t hs ht h
    have hkind := Stmt.kind_eq h
    cases t with
    | block body' =>
      rw [Stmt.outline_block, Stmt.outline_block] at h
      have hnodes := (Outline.node.inj h).2.2
      exact congrArg Stmt.block (mapAll_eq_of_outlines ih hs ht hnodes)
    | _ => simp [Stmt.kind] at hkind
  | branch c yes no ihy ihn =>
    intro t hs ht h
    have hkind := Stmt.kind_eq h
    cases t with
    | branch c' yes' no' =>
      cases no with
      | none =>
        cases no' with
        | none =>
          obtain ⟨hc, hrest⟩ := List.cons.inj (Outline.node.inj h).2.2
          have hyes : yes.bare = yes'.bare :=
            ihy yes' (words_append.1 hs).2 (words_append.1 ht).2 (List.cons.inj hrest).1
          exact congrArg₂ (Stmt.branch · · none) (c.bare_eq_of_outline c' hc) hyes
        | some no' => simp [Stmt.outline] at h
      | some no =>
        cases no' with
        | none => simp [Stmt.outline] at h
        | some no' =>
          obtain ⟨hfirst, hwno⟩ := words_append.1 hs
          obtain ⟨hfirst', hwno'⟩ := words_append.1 ht
          obtain ⟨hc, hrest⟩ := List.cons.inj (Outline.node.inj h).2.2
          obtain ⟨hyes, hrest⟩ := List.cons.inj hrest
          have hyes : yes.bare = yes'.bare :=
            ihy yes' (words_append.1 hfirst).2 (words_append.1 hfirst').2 hyes
          have hno : no.bare = no'.bare := ihn no rfl no' hwno hwno' (List.cons.inj hrest).1
          have hc : c.bare = c'.bare := c.bare_eq_of_outline c' hc
          show Stmt.branch c.bare yes.bare (some no.bare) = .branch c'.bare yes'.bare (some no'.bare)
          rw [hc, hyes, hno]
    | _ => simp [Stmt.kind] at hkind
  | loop c body ih =>
    intro t hs ht h
    have hkind := Stmt.kind_eq h
    cases t with
    | loop c' body' =>
      obtain ⟨hc, hrest⟩ := List.cons.inj (Outline.node.inj h).2.2
      have hbody := ih body' (words_append.1 hs).2 (words_append.1 ht).2 (List.cons.inj hrest).1
      exact congrArg₂ Stmt.loop (c.bare_eq_of_outline c' hc) hbody
    | _ => simp [Stmt.kind] at hkind
  | funDecl decl ih =>
    intro t hs ht h
    have hkind := Stmt.kind_eq h
    cases t with
    | funDecl decl' => exact congrArg Stmt.funDecl (FunDecl.map_eq_of_outline ih hs ht h)
    | _ => simp [Stmt.kind] at hkind
  | ret pos value =>
    intro t _ _ h
    have hkind := Stmt.kind_eq h
    cases t with
    | ret pos' value' =>
      rw [Stmt.outline_ret, Stmt.outline_ret] at h
      exact congrArg (Stmt.ret _) (map_option_eq (Outline.node.inj h).2.2)
    | _ => simp [Stmt.kind] at hkind
  | classDecl name methods ih =>
    intro t hs ht h
    have hkind := Stmt.kind_eq h
    cases t with
    | classDecl name' methods' =>
      rw [Stmt.outline_classDecl, Stmt.outline_classDecl] at h
      obtain ⟨-, hattributes, hnodes⟩ := Outline.node.inj h
      have hname := congrArg Prod.snd (List.cons.inj hattributes).1
      have hmethods := mapAll_eq_of_methods ih (words_cons.1 hs).2 (words_cons.1 ht).2 hnodes
      exact congrArg₂ Stmt.classDecl (Ident.move_eq (wordText_inj.1 hname) _) hmethods
    | _ => simp [Stmt.kind] at hkind

/-- The tree display tells programs apart. Two statements read from any texts, whether the texts have
errors or not, have the same display if and only if they are the same up to the places of their
tokens. -/
theorem display_eq_iff (hs : s ∈ (readProgram source).1) (ht : t ∈ (readProgram source').1) :
    s.display = t.display ↔ s.bare = t.bare := by
  constructor
  · intro h
    have hwords := words_of_readProgram hs
    have hwords' := words_of_readProgram ht
    exact s.told t hwords hwords' (render_inj (s.plain_outline hwords) (t.plain_outline hwords') h)
  · intro h
    rw [← s.display_bare, h, t.display_bare]

theorem display_eq_iff_moved :
    ∃ s ∈ (readProgram "print f(\"it's [1], nodes=[\", 1.50);").1,
      ∃ t ∈ (readProgram "\nprint f(\n\"it's [1], nodes=[\",\n1.5\n);").1,
        s.display = t.display ∧ s.bare = t.bare := by
  have hsome : (readProgram "print f(\"it's [1], nodes=[\", 1.50);").1.head?.isSome = true := by
    decide +kernel
  have hequal : (readProgram "print f(\"it's [1], nodes=[\", 1.50);").1.head?.map Stmt.display =
      (readProgram "\nprint f(\n\"it's [1], nodes=[\",\n1.5\n);").1.head?.map Stmt.display := by
    decide +kernel
  obtain ⟨s, hs⟩ := Option.isSome_iff_exists.1 hsome
  rw [hs] at hequal
  obtain ⟨t, ht, hdisplay⟩ := Option.map_eq_some_iff.1 hequal.symm
  have hmem := List.mem_of_head? hs
  have hmem' := List.mem_of_head? ht
  exact ⟨s, hmem, t, hmem', hdisplay.symm, (display_eq_iff hmem hmem').1 hdisplay.symm⟩

end Lox
