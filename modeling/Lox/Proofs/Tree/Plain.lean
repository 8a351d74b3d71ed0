import Lox.Proofs.Decimal.Layout
import Lox.Proofs.Grammar.Identifiers
import Lox.Proofs.Token.Spelling
import Lox.Proofs.Tree.Outline

namespace Lox
set_option autoImplicit true

def IsWord (x : String) : Prop := x.toList ≠ [] ∧ ∀ c ∈ x.toList, Scan.isWordChar c = true

/-- The names of a text, whether it can be read or not, are words. -/
theorem isWord_of_mem_scan (h : ⟨.identifier x, p⟩ ∈ (scan source).list.tokens) : IsWord x := by
  obtain ⟨⟨pos, piece⟩, hmem, htoken⟩ := List.mem_filterMap.1 h
  obtain ⟨c, rest, hpiece⟩ := Scan.exists_next_of_mem_cut _ (Scan.mem_of_mem_locate hmem)
  cases piece with
  | token kind =>
    cases htoken
    have hbegins := Scan.begins_next c rest
    rw [← hpiece] at hbegins
    generalize c :: rest = cs at hbegins
    generalize (Scan.next c rest).2 = after at hbegins
    cases hbegins with
    | piece hspells =>
      cases hspells with
      | identifier hc hcs =>
        rw [IsWord, String.toList_ofList]
        refine ⟨List.cons_ne_nil _ _, fun d hd => Scan.isWordChar_iff.2 ?_⟩
        exact List.forall_mem_cons.2 ⟨.inl hc, hcs⟩ d hd
  | _ => cases htoken

def Words (names : List String) : Prop := ∀ x ∈ names, IsWord x

theorem words_append : Words (xs ++ ys) ↔ Words xs ∧ Words ys := List.forall_mem_append

theorem words_cons : Words (x :: xs) ↔ IsWord x ∧ Words xs := List.forall_mem_cons

theorem words_of_readProgram (hs : s ∈ (readProgram source).1) : Words s.identifiers := by
  intro x hx
  obtain ⟨p, hp⟩ := worded_of_readProgram hs x hx
  exact isWord_of_mem_scan hp

open Outline Text

/-- Characters that need no escape between single quotes. -/
def isPlainChar (c : Char) : Bool := c ≠ singleQuote && c ≠ '\\'

theorem toList_wordText (w : String) :
    (wordText w).toList = singleQuote :: (w.toList ++ [singleQuote]) := by
  rw [wordText, String.toList_append, String.toList_append]
  rfl

theorem framed_wordText (h : w.toList.all isPlainChar = true) : Framed (wordText w).toList := by
  rw [toList_wordText]
  refine .quoted (.inl rfl) (quotable_of_forall fun c hc => ?_)
  have hplain := List.all_eq_true.1 h c hc
  rw [isPlainChar, Bool.and_eq_true] at hplain
  exact ⟨of_decide_eq_true hplain.1, of_decide_eq_true hplain.2⟩

theorem IsWord.plain (h : IsWord x) : x.toList.all isPlainChar = true := by
  refine List.all_eq_true.2 fun c hc => ?_
  have hword := h.2 c hc
  rw [isPlainChar, Bool.and_eq_true, decide_eq_true_iff, decide_eq_true_iff]
  constructor
  · rintro rfl
    exact absurd hword (by decide)
  · rintro rfl
    exact absurd hword (by decide)

theorem plainAttribute (hname : PlainName name) {text : String} (h : Framed text.toList) :
    PlainAttribute (name, text) := ⟨hname, h⟩

theorem plain_unaryOp (op : UnaryOp) : op.text.toList.all isPlainChar = true := by
  cases op <;> decide

theorem plain_binaryOp (op : BinaryOp) : op.text.toList.all isPlainChar = true := by
  cases op <;> decide

theorem plain_logicalOp (op : LogicalOp) : op.text.toList.all isPlainChar = true := by
  cases op <;> decide

theorem isInner_of_isNumberChar (h : Decimal.isNumberChar c = true) : isInner c = true := by
  by_contra hframe
  rw [isInner, Bool.not_eq_true, Bool.not_eq_false', List.contains_eq_mem, decide_eq_true_iff] at hframe
  simp only [List.mem_cons, List.not_mem_nil, or_false] at hframe
  rcases hframe with rfl | rfl | rfl | rfl | rfl <;> exact absurd h (by decide)

theorem framed_plain {text : List Char} (hne : text ≠ []) (h : ∀ c ∈ text, isInner c = true) :
    Framed text := by
  cases text with
  | nil => exact absurd rfl hne
  | cons => exact .plain h

theorem Literal.framed_outlineText (l : Literal) : Framed l.outlineText.toList := by
  cases l with
  | nil => exact framed_plain (by decide) (List.all_eq_true.1 (by decide))
  | bool b => cases b <;> exact framed_plain (by decide) (List.all_eq_true.1 (by decide))
  | string s => exact framed_quoted s
  | number x => exact framed_plain (Decimal.text_ne_nil x) fun c hc =>
      isInner_of_isNumberChar (Decimal.numberChar_text x c hc)

theorem framed_none : Framed "None".toList :=
  framed_plain (by decide) (List.all_eq_true.1 (by decide))

/-- A list of texts without a closing bracket. -/
theorem framed_list {texts : List String} (h : ∀ text ∈ texts, ']' ∉ text.toList) :
    Framed ("[" ++ ", ".intercalate texts ++ "]").toList := by
  have hbody : ']' ∉ (", ".intercalate texts).toList := by
    induction texts with
    | nil => decide
    | cons t rest ih =>
      obtain ⟨ht, hrest⟩ := List.forall_mem_cons.1 h
      cases rest with
      | nil => simpa using ht
      | cons u rest =>
        rw [String.intercalate_cons_cons]
        simpa [ht] using ih hrest
  rw [String.toList_append, String.toList_append]
  exact .listed hbody

@[simp] theorem listField_snd (name : String) (nodes : List Outline) :
    (listField name nodes).2 = nodes := by
  cases nodes <;> rfl

@[simp] theorem optionField_snd (name : String) (node : Option Outline) :
    (optionField name node).2 = node.toList := by
  cases node <;> rfl

theorem Expr.outline_call (callee : Expr ρ) (args : List (Expr ρ)) (paren : Pos) :
    (Expr.call callee args paren).outline =
      .node "Call" (("paren", wordText Symbol.rightParen.text) ::
        (listField "arguments" (Expr.outlines args)).1) (callee.outline :: Expr.outlines args) := by
  refine congrArg (fun nodes => Outline.node _ _ (callee.outline :: nodes)) ?_
  exact listField_snd "arguments" _

theorem Stmt.outline_varDecl (name : Ident) (init : Option (Expr ρ)) :
    (Stmt.varDecl name init).outline =
      .node "Var" (("name", wordText name.name) ::
        (optionField "initializer" (init.map Expr.outline)).1) (init.map Expr.outline).toList :=
  congrArg (Outline.node _ _) (optionField_snd "initializer" _)

theorem Stmt.outline_block (body : List (Stmt ρ)) :
    (Stmt.block body).outline =
      .node "Block" (listField "statements" (Stmt.outlines body)).1 (Stmt.outlines body) :=
  congrArg (Outline.node _ _) (listField_snd "statements" _)

theorem Stmt.outline_ret (pos : Pos) (value : Option (Expr ρ)) :
    (Stmt.ret pos value).outline =
      .node "Return" (("keyword", wordText Keyword.returnWord.text) ::
        (optionField "value" (value.map Expr.outline)).1) (value.map Expr.outline).toList :=
  congrArg (Outline.node _ _) (optionField_snd "value" _)

theorem Stmt.outline_classDecl (name : Ident) (methods : List (FunDecl ρ)) :
    (Stmt.classDecl name methods).outline =
      .node "Class" (("name", wordText name.name) ::
        (listField "methods" (FunDecl.outlines methods)).1) (FunDecl.outlines methods) :=
  congrArg (Outline.node _ _) (listField_snd "methods" _)

theorem FunDecl.outline_mk (name : Ident) (params : List Ident) (body : List (Stmt ρ)) :
    FunDecl.outline ⟨name, params, body⟩ =
      .node "Function" (("name", wordText name.name) ::
        ("params", "[" ++ ", ".intercalate (params.map (·.name)) ++ "]") ::
          (listField "body" (Stmt.outlines body)).1) (Stmt.outlines body) :=
  congrArg (Outline.node _ _) (listField_snd "body" _)

theorem plain_listField (hname : PlainName name) (nodes : List Outline) :
    ∀ a ∈ (listField name nodes).1, PlainAttribute a := by
  cases nodes with
  | nil => exact List.forall_mem_singleton.2 (plainAttribute hname (framed_list (List.forall_mem_nil _)))
  | cons => exact List.forall_mem_nil _

theorem plain_optionField (hname : PlainName name) (node : Option Outline) :
    ∀ a ∈ (optionField name node).1, PlainAttribute a := by
  cases node with
  | none => exact List.forall_mem_singleton.2 (plainAttribute hname framed_none)
  | some => exact List.forall_mem_nil _

theorem plain_name (hx : IsWord x) : PlainAttribute ("name", wordText x) :=
  plainAttribute (by decide) (framed_wordText hx.plain)

theorem Expr.plain_outline (e : Expr ρ) (h : Words e.identifiers) : e.outline.Plain := by
  induction e using Expr.rec (motive_2 := fun args => Words (Expr.identifiersAll args) →
    ∀ o ∈ Expr.outlines args, o.Plain) with
  | literal value =>
    exact .node _ _ _ (by decide)
      (List.forall_mem_singleton.2 (plainAttribute (by decide) value.framed_outlineText))
      (List.forall_mem_nil _)
  | grouping inner ih =>
    exact .node _ _ _ (by decide) (List.forall_mem_nil _) (List.forall_mem_singleton.2 (ih h))
  | unary op pos operand ih =>
    exact .node _ _ _ (by decide)
      (List.forall_mem_singleton.2 (plainAttribute (by decide) (framed_wordText (plain_unaryOp op))))
      (List.forall_mem_singleton.2 (ih h))
  | binary left op pos right ihl ihr =>
    obtain ⟨hl, hr⟩ := words_append.1 h
    exact .node _ _ _ (by decide)
      (List.forall_mem_singleton.2 (plainAttribute (by decide) (framed_wordText (plain_binaryOp op))))
      (List.forall_mem_cons.2 ⟨ihl hl, List.forall_mem_singleton.2 (ihr hr)⟩)
  | logical left op right ihl ihr =>
    obtain ⟨hl, hr⟩ := words_append.1 h
    exact .node _ _ _ (by decide)
      (List.forall_mem_singleton.2 (plainAttribute (by decide) (framed_wordText (plain_logicalOp op))))
      (List.forall_mem_cons.2 ⟨ihl hl, List.forall_mem_singleton.2 (ihr hr)⟩)
  | read name ref =>
    exact .node _ _ _ (by decide) (List.forall_mem_singleton.2 (plain_name (words_cons.1 h).1))
      (List.forall_mem_nil _)
  | assign name ref value ih =>
    obtain ⟨hname, hvalue⟩ := words_cons.1 h
    exact .node _ _ _ (by decide) (List.forall_mem_singleton.2 (plain_name hname))
      (List.forall_mem_singleton.2 (ih hvalue))
  | call callee args paren ihc iha =>
    obtain ⟨hcallee, hargs⟩ := words_append.1 h
    rw [Expr.outline_call]
    exact .node _ _ _ (by decide)
      (List.forall_mem_cons.2 ⟨plainAttribute (by decide) (framed_wordText (by decide)),
        plain_listField (by decide) _⟩)
      (List.forall_mem_cons.2 ⟨ihc hcallee, iha hargs⟩)
  | get object name ih =>
    obtain ⟨hobject, hname⟩ := words_append.1 h
    exact .node _ _ _ (by decide) (List.forall_mem_singleton.2 (plain_name (words_cons.1 hname).1))
      (List.forall_mem_singleton.2 (ih hobject))
  | set object name value iho ihv =>
    obtain ⟨hobject, hrest⟩ := words_append.1 h
    obtain ⟨hname, hvalue⟩ := words_cons.1 hrest
    exact .node _ _ _ (by decide) (List.forall_mem_singleton.2 (plain_name hname))
      (List.forall_mem_cons.2 ⟨iho hobject, List.forall_mem_singleton.2 (ihv hvalue)⟩)
  | receiver pos ref =>
    exact .node _ _ _ (by decide)
      (List.forall_mem_singleton.2 (plainAttribute (by decide) (framed_wordText (by decide))))
      (List.forall_mem_nil _)
  | nil _ o ho => cases ho
  | cons e args ihe iha h o ho =>
    obtain ⟨he, hargs⟩ := words_append.1 h
    exact List.forall_mem_cons.2 ⟨ihe he, iha hargs⟩ o ho

theorem plain_outlines {body : List (Stmt ρ)}
    (hbody : ∀ s ∈ body, Words s.identifiers → s.outline.Plain)
    (h : Words (Stmt.identifiersAll body)) : ∀ o ∈ Stmt.outlines body, o.Plain := by
  induction body with
  | nil => exact List.forall_mem_nil _
  | cons s rest ih =>
    obtain ⟨hs, hrest⟩ := List.forall_mem_cons.1 hbody
    obtain ⟨hwords, hwordsRest⟩ := words_append.1 h
    exact List.forall_mem_cons.2 ⟨hs hwords, ih hrest hwordsRest⟩

theorem IsWord.no_bracket (h : IsWord x) : ']' ∉ x.toList :=
  fun hmem => absurd (h.2 _ hmem) (by decide)

theorem FunDecl.plain_outline {f : FunDecl ρ}
    (hbody : ∀ s ∈ f.body, Words s.identifiers → s.outline.Plain) (h : Words f.identifiers) :
    f.outline.Plain := by
  obtain ⟨name, params, body⟩ := f
  obtain ⟨hname, hrest⟩ := words_cons.1 h
  obtain ⟨hparams, hwords⟩ := words_append.1 hrest
  have hlist := framed_list fun x hx => (hparams x hx).no_bracket
  rw [FunDecl.outline_mk]
  exact .node _ _ _ (by decide) (List.forall_mem_cons.2 ⟨plain_name hname,
    List.forall_mem_cons.2 ⟨plainAttribute (by decide) hlist, plain_listField (by decide) _⟩⟩)
    (plain_outlines hbody hwords)

theorem plain_methods {methods : List (FunDecl ρ)}
    (hbody : ∀ f ∈ methods, ∀ s ∈ f.body, Words s.identifiers → s.outline.Plain)
    (h : Words (FunDecl.identifiersAll methods)) : ∀ o ∈ FunDecl.outlines methods, o.Plain := by
  induction methods with
  | nil => exact List.forall_mem_nil _
  | cons f rest ih =>
    obtain ⟨hf, hrest⟩ := List.forall_mem_cons.1 hbody
    obtain ⟨hwords, hwordsRest⟩ := words_append.1 h
    exact List.forall_mem_cons.2 ⟨FunDecl.plain_outline hf hwords, ih hrest hwordsRest⟩

theorem plain_option {init : Option (Expr ρ)} (h : ∀ e ∈ init, Words e.identifiers) :
    ∀ o ∈ (init.map Expr.outline).toList, o.Plain := by
  cases init with
  | none => exact List.forall_mem_nil _
  | some e => exact List.forall_mem_singleton.2 (e.plain_outline (h e rfl))

theorem Stmt.plain_outline (s : Stmt ρ) (h : Words s.identifiers) : s.outline.Plain := by
  induction s using Stmt.induction with
  | expression e =>
    exact .node _ _ _ (by decide) (List.forall_mem_nil _)
      (List.forall_mem_singleton.2 (e.plain_outline h))
  | print e =>
    exact .node _ _ _ (by decide) (List.forall_mem_nil _)
      (List.forall_mem_singleton.2 (e.plain_outline h))
  | varDecl name init =>
    have hwords : IsWord name.name ∧ ∀ e ∈ init, Words e.identifiers := by
      cases init with
      | none => exact ⟨(words_cons.1 h).1, fun e he => by cases he⟩
      | some e => exact ⟨(words_cons.1 h).1, fun e' he => Option.some.inj he ▸ (words_cons.1 h).2⟩
    rw [Stmt.outline_varDecl]
    exact .node _ _ _ (by decide)
      (List.forall_mem_cons.2 ⟨plain_name hwords.1, plain_optionField (by decide) _⟩)
      (plain_option hwords.2)
  | block body ih =>
    rw [Stmt.outline_block]
    exact .node _ _ _ (by decide) (plain_listField (by decide) _) (plain_outlines ih h)
  | branch c yes no ihy ihn =>
    cases no with
    | none =>
      obtain ⟨hc, hyes⟩ := words_append.1 h
      exact .node _ _ _ (by decide)
        (List.forall_mem_singleton.2 (plainAttribute (by decide) framed_none))
        (List.forall_mem_cons.2 ⟨c.plain_outline hc, List.forall_mem_singleton.2 (ihy hyes)⟩)
    | some no =>
      obtain ⟨hboth, hno⟩ := words_append.1 h
      obtain ⟨hc, hyes⟩ := words_append.1 hboth
      exact .node _ _ _ (by decide) (List.forall_mem_nil _)
        (List.forall_mem_cons.2 ⟨c.plain_outline hc,
          List.forall_mem_cons.2 ⟨ihy hyes, List.forall_mem_singleton.2 (ihn no rfl hno)⟩⟩)
  | loop c body ih =>
    obtain ⟨hc, hbody⟩ := words_append.1 h
    exact .node _ _ _ (by decide) (List.forall_mem_nil _)
      (List.forall_mem_cons.2 ⟨c.plain_outline hc, List.forall_mem_singleton.2 (ih hbody)⟩)
  | funDecl decl ih => exact FunDecl.plain_outline ih h
  | ret pos value =>
    have hwords : ∀ e ∈ value, Words e.identifiers := by
      cases value with
      | none => exact fun e he => by cases he
      | some e => exact fun e' he => Option.some.inj he ▸ h
    rw [Stmt.outline_ret]
    exact .node _ _ _ (by decide)
      (List.forall_mem_cons.2 ⟨plainAttribute (by decide) (framed_wordText (by decide)),
        plain_optionField (by decide) _⟩)
      (plain_option hwords)
  | classDecl name methods ih =>
    obtain ⟨hname, hmethods⟩ := words_cons.1 h
    rw [Stmt.outline_classDecl]
    exact .node _ _ _ (by decide)
      (List.forall_mem_cons.2 ⟨plain_name hname, plain_listField (by decide) _⟩)
      (plain_methods ih hmethods)

end Lox
