import Lox.Proofs.Text.Quoted
import Lox.Tree.Outline

namespace Lox
set_option autoImplicit true

namespace Text

variable {a b r r' : List Char}

theorem cancel_of_forall {P : Char → Prop} (ha : ∀ c ∈ a, P c) (hb : ∀ c ∈ b, P c) (hx : ¬P x)
    (hy : ¬P y) (h : a ++ x :: r = b ++ y :: r') : a = b ∧ x :: r = y :: r' := by
  induction a generalizing b with
  | nil =>
    cases b with
    | nil => exact ⟨rfl, h⟩
    | cons d b => exact absurd ((List.cons.inj h).1 ▸ (List.forall_mem_cons.1 hb).1) hx
  | cons c a ih =>
    obtain ⟨hc, ha⟩ := List.forall_mem_cons.1 ha
    cases b with
    | nil => exact absurd ((List.cons.inj h).1 ▸ hc) hy
    | cons d b =>
      obtain ⟨rfl, hrest⟩ := List.cons.inj h
      obtain ⟨rfl, hr⟩ := ih ha (List.forall_mem_cons.1 hb).2 hrest
      exact ⟨rfl, hr⟩

theorem head_cancel (h : c :: a ++ r = d :: b ++ r') : c = d ∧ a ++ r = b ++ r' := List.cons.inj h

/-- Texts without a character are cut off by it. -/
theorem cancel_of_not_mem (ha : x ∉ a) (hb : x ∉ b) (h : a ++ x :: r = b ++ x :: r') :
    a = b ∧ r = r' := by
  have hne : ∀ {cs : List Char}, x ∉ cs → ∀ c ∈ cs, c ≠ x := fun hcs c hc heq => hcs (heq ▸ hc)
  obtain ⟨hab, hr⟩ := cancel_of_forall (hne ha) (hne hb) (not_not_intro rfl) (not_not_intro rfl) h
  exact ⟨hab, (List.cons.inj hr).2⟩

/-- Characters that neither begin nor end a frame. -/
def isInner (c : Char) : Bool := !([singleQuote, doubleQuote, '[', ',', ')'].contains c)

/-- The text of an attribute: between quotes, between brackets, or of inner characters only. -/
inductive Framed : List Char → Prop
  | quoted (hq : IsQuote q) (h : Quotable q body) : Framed (q :: (body ++ [q]))
  | listed (h : ']' ∉ body) : Framed ('[' :: (body ++ [']']))
  | plain (h : ∀ d ∈ c :: cs, isInner d = true) : Framed (c :: cs)

/-- What may follow an attribute. -/
def Ends (r : List Char) : Prop := ∃ c rest, r = c :: rest ∧ (c = ',' ∨ c = ')')

theorem IsQuote.ne_bracket (h : IsQuote q) : q ≠ '[' := by
  rcases h with rfl | rfl <;> decide

theorem IsQuote.not_inner (h : IsQuote q) : ¬isInner q = true := by
  rcases h with rfl | rfl <;> decide

theorem not_inner_of_end (h : c = ',' ∨ c = ')') : ¬isInner c = true := by
  rcases h with rfl | rfl <;> decide

theorem Framed.cancel (ha : Framed a) (hb : Framed b) (hr : Ends r) (hr' : Ends r')
    (h : a ++ r = b ++ r') : a = b ∧ r = r' := by
  cases ha with
  | quoted hq ha =>
    cases hb with
    | quoted _ hb =>
      obtain ⟨rfl, hrest⟩ := head_cancel h
      rw [List.append_assoc, List.append_assoc] at hrest
      obtain ⟨rfl, rfl⟩ := ha.cancel hq hb hrest
      exact ⟨rfl, rfl⟩
    | listed => exact absurd (List.cons.inj h).1 hq.ne_bracket
    | plain hb => exact absurd ((List.cons.inj h).1 ▸ hb _ List.mem_cons_self) hq.not_inner
  | listed ha =>
    cases hb with
    | quoted hq => exact absurd (List.cons.inj h).1.symm hq.ne_bracket
    | listed hb =>
      have hrest := (head_cancel h).2
      rw [List.append_assoc, List.append_assoc] at hrest
      obtain ⟨rfl, rfl⟩ := cancel_of_not_mem ha hb hrest
      exact ⟨rfl, rfl⟩
    | plain hb => exact absurd ((List.cons.inj h).1 ▸ hb _ List.mem_cons_self) (by decide)
  | plain ha =>
    cases hb with
    | quoted hq => exact absurd ((List.cons.inj h).1 ▸ ha _ List.mem_cons_self) hq.not_inner
    | listed => exact absurd ((List.cons.inj h).1 ▸ ha _ List.mem_cons_self) (by decide)
    | plain hb =>
      obtain ⟨x, rest, rfl, hx⟩ := hr
      obtain ⟨y, rest', rfl, hy⟩ := hr'
      exact cancel_of_forall ha hb (not_inner_of_end hx) (not_inner_of_end hy) h

theorem framed_quoted (s : String) : Framed (quoted s).toList := by
  rw [quoted, String.toList_ofList]
  exact .quoted (isQuote_quoteFor _) (quotable_flatMap (isQuote_quoteFor _) _)

end Text

namespace Outline
open Text

@[elab_as_elim]
theorem induction {motive : Outline → Prop}
    (node : ∀ kind attributes children, (∀ o ∈ children, motive o) →
      motive (.node kind attributes children)) (o : Outline) : motive o :=
  Outline.rec (motive_1 := motive) (motive_2 := fun os => ∀ o ∈ os, motive o) node
    (List.forall_mem_nil _) (fun _ _ ih ihs => List.forall_mem_cons.2 ⟨ih, ihs⟩) o

def attributeChars : String × String → List Char
  | (name, text) => ',' :: ' ' :: (name.toList ++ '=' :: text.toList)

mutual

/-- The text of an outline. Every field but the first stands behind a comma. -/
def chars (depth : Nat) : Outline → List Char
  | node kind attributes children =>
    (indent depth).toList ++ (kind.toList ++
      '(' :: ((attributes.flatMap attributeChars ++ nodesChars depth children).drop 2 ++ [')']))

def nodesChars (depth : Nat) : List Outline → List Char
  | [] => []
  | first :: rest =>
    ',' :: ' ' :: ("nodes".toList ++
      '=' :: '[' :: '\n' :: (first.chars (depth + 1) ++ childrenChars (depth + 1) rest ++
        '\n' :: ((indent depth).toList ++ [']'])))

/-- Children, each behind a comma and on a line of its own. -/
def childrenChars (depth : Nat) : List Outline → List Char
  | [] => []
  | child :: rest => ',' :: '\n' :: (child.chars depth ++ childrenChars depth rest)

end

theorem toList_attributeText (attributes : List (String × String)) :
    (attributeText attributes).toList = (attributes.flatMap attributeChars).drop 2 := by
  rw [attributeText]
  induction attributes with
  | nil => rfl
  | cons a rest ih =>
    cases rest with
    | nil => simp [attributeChars]
    | cons b rest =>
      rw [List.map_cons] at ih
      rw [List.map_cons, List.map_cons, String.intercalate_cons_cons, String.toList_append,
        String.toList_append, ih]
      simp [attributeChars]

theorem toList_writeRest {os : List Outline}
    (h : ∀ o ∈ os, ∀ out depth, (o.write out depth).toList = out.toList ++ o.chars depth)
    (out : String) (depth : Nat) :
    (writeRest out depth os).toList = out.toList ++ childrenChars depth os := by
  induction os generalizing out with
  | nil => simp [writeRest, childrenChars]
  | cons o os ih =>
    obtain ⟨ho, hos⟩ := List.forall_mem_cons.1 h
    rw [writeRest, ih hos, ho]
    simp [childrenChars]

theorem toList_write (o : Outline) (out : String) (depth : Nat) :
    (o.write out depth).toList = out.toList ++ o.chars depth := by
  induction o using Outline.induction generalizing out depth with
  | node kind attributes children ih =>
    cases children with
    | nil => simp [write, chars, nodesChars, toList_attributeText]
    | cons first rest =>
      obtain ⟨hfirst, hrest⟩ := List.forall_mem_cons.1 ih
      cases attributes with
      | nil => simp [write, chars, nodesChars, toList_attributeText, toList_writeRest hrest, hfirst]
      | cons a attributes =>
        simp [write, chars, nodesChars, toList_attributeText, toList_writeRest hrest, hfirst,
          attributeChars]

theorem toList_render (o : Outline) : o.render.toList = o.chars 0 := by
  rw [render, toList_write]
  rfl

/-- A name that ends before its text, and that is not the name of the children. -/
def PlainName (name : String) : Prop :=
  (name.toList.head?.any (· ≠ ')') = true ∧ '=' ∉ name.toList) ∧ name ≠ "nodes"

instance (name : String) : Decidable (PlainName name) := inferInstanceAs (Decidable (_ ∧ _))

theorem PlainName.head (h : PlainName name) : ∃ c cs, name.toList = c :: cs ∧ c ≠ ')' := by
  obtain ⟨⟨hhead, _⟩, _⟩ := h
  cases hname : name.toList with
  | nil =>
    rw [hname] at hhead
    cases hhead
  | cons c cs =>
    rw [hname] at hhead
    exact ⟨c, cs, rfl, of_decide_eq_true hhead⟩

/-- An attribute with a plain name and a text that has an end. -/
structure PlainAttribute (a : String × String) : Prop where
  named : PlainName a.1
  framed : Framed a.2.toList

/-- Outlines whose kinds and attributes are plain. -/
inductive Plain : Outline → Prop
  | node (kind : String) (attributes : List (String × String)) (children : List Outline)
      (hkind : '(' ∉ kind.toList) (hattributes : ∀ a ∈ attributes, PlainAttribute a)
      (hchildren : ∀ o ∈ children, Plain o) : Plain (.node kind attributes children)

theorem attributeChars_cancel (ha : PlainAttribute a) (hb : PlainAttribute b) (hr : Ends r)
    (hr' : Ends r') (h : attributeChars a ++ r = attributeChars b ++ r') : a = b ∧ r = r' := by
  have hfields := (head_cancel (head_cancel h).2).2
  rw [List.append_assoc, List.append_assoc] at hfields
  obtain ⟨hname, htext⟩ := cancel_of_not_mem ha.named.1.2 hb.named.1.2 hfields
  obtain ⟨hvalue, hrest⟩ := ha.framed.cancel hb.framed hr hr' htext
  exact ⟨Prod.ext (String.toList_inj.1 hname) (String.toList_inj.1 hvalue), hrest⟩

/-- The field of the children is no attribute. -/
theorem attributeChars_ne_nodesChars (ha : PlainAttribute a) (children : List Outline) :
    attributeChars a ++ r ≠ nodesChars depth children ++ ')' :: r' := by
  intro h
  cases children with
  | nil => exact absurd (List.cons.inj h).1 (by decide)
  | cons first rest =>
    have hfields := (head_cancel (head_cancel h).2).2
    rw [List.append_assoc, List.append_assoc] at hfields
    have hname := (cancel_of_not_mem ha.named.1.2 (by decide) hfields).1
    exact ha.named.2 (String.toList_inj.1 hname)

theorem ends_fields (attributes : List (String × String)) (children : List Outline) (depth : Nat)
    (r : List Char) :
    Ends (attributes.flatMap attributeChars ++ (nodesChars depth children ++ ')' :: r)) := by
  cases attributes with
  | nil =>
    cases children with
    | nil => exact ⟨_, _, rfl, .inr rfl⟩
    | cons => exact ⟨_, _, rfl, .inl rfl⟩
  | cons => exact ⟨_, _, rfl, .inl rfl⟩

theorem attributes_cancel {attributes attributes' : List (String × String)}
    {children children' : List Outline} (ha : ∀ a ∈ attributes, PlainAttribute a)
    (hb : ∀ a ∈ attributes', PlainAttribute a)
    (h : attributes.flatMap attributeChars ++ (nodesChars depth children ++ ')' :: r) =
      attributes'.flatMap attributeChars ++ (nodesChars depth children' ++ ')' :: r')) :
    attributes = attributes' ∧
      nodesChars depth children ++ ')' :: r = nodesChars depth children' ++ ')' :: r' := by
  induction attributes generalizing attributes' with
  | nil =>
    cases attributes' with
    | nil => exact ⟨rfl, h⟩
    | cons b rest =>
      rw [List.flatMap_cons, List.append_assoc] at h
      exact absurd h.symm (attributeChars_ne_nodesChars (List.forall_mem_cons.1 hb).1 children)
  | cons a rest ih =>
    obtain ⟨ha, harest⟩ := List.forall_mem_cons.1 ha
    rw [List.flatMap_cons, List.append_assoc] at h
    cases attributes' with
    | nil => exact absurd h (attributeChars_ne_nodesChars ha children')
    | cons b rest' =>
      obtain ⟨hb, hbrest⟩ := List.forall_mem_cons.1 hb
      rw [List.flatMap_cons, List.append_assoc] at h
      obtain ⟨rfl, hrest⟩ := attributeChars_cancel ha hb (ends_fields rest children depth r)
        (ends_fields rest' children' depth r') h
      obtain ⟨rfl, hnodes⟩ := ih harest hbrest hrest
      exact ⟨rfl, hnodes⟩

/-- Fields are none, or the first begins behind a comma and not with a parenthesis. -/
theorem fields_begin {attributes : List (String × String)}
    (h : ∀ a ∈ attributes, PlainAttribute a) (children : List Outline) (depth : Nat) :
    attributes.flatMap attributeChars ++ nodesChars depth children = [] ∨
      ∃ c cs, attributes.flatMap attributeChars ++ nodesChars depth children = ',' :: ' ' :: c :: cs ∧
        c ≠ ')' := by
  cases attributes with
  | nil =>
    cases children with
    | nil => exact .inl rfl
    | cons => exact .inr ⟨_, _, rfl, by decide⟩
  | cons a rest =>
    obtain ⟨c, cs, hname, hc⟩ := (List.forall_mem_cons.1 h).1.named.head
    refine .inr ⟨c, cs ++ '=' :: a.2.toList ++ (rest.flatMap attributeChars ++ nodesChars depth children),
      ?_, hc⟩
    simp [attributeChars, hname]

theorem fields_cancel {attributes attributes' : List (String × String)}
    {children children' : List Outline} (ha : ∀ a ∈ attributes, PlainAttribute a)
    (hb : ∀ a ∈ attributes', PlainAttribute a)
    (h : (attributes.flatMap attributeChars ++ nodesChars depth children).drop 2 ++ ')' :: r =
      (attributes'.flatMap attributeChars ++ nodesChars depth children').drop 2 ++ ')' :: r') :
    attributes = attributes' ∧
      nodesChars depth children ++ ')' :: r = nodesChars depth children' ++ ')' :: r' := by
  refine attributes_cancel ha hb ?_
  rw [← List.append_assoc, ← List.append_assoc]
  rcases fields_begin ha children depth with hnone | ⟨c, cs, hsome, hc⟩ <;>
    rcases fields_begin hb children' depth with hnone' | ⟨c', cs', hsome', hc'⟩
  · rw [hnone, hnone'] at h ⊢
    exact h
  · rw [hnone, hsome'] at h
    exact absurd (List.cons.inj h).1.symm hc'
  · rw [hsome, hnone'] at h
    exact absurd (List.cons.inj h).1 hc
  · rw [hsome, hsome'] at h ⊢
    exact congrArg (',' :: ' ' :: ·) h

/-- What the text of an outline is cut off from does not depend on what follows it. -/
def Cancels (o : Outline) : Prop :=
  ∀ depth o' r r', o'.Plain → o.chars depth ++ r = o'.chars depth ++ r' → o = o' ∧ r = r'

theorem childrenChars_cancel {os os' : List Outline} (hos : ∀ o ∈ os, o.Cancels)
    (hplain : ∀ o ∈ os', o.Plain)
    (h : childrenChars depth os ++ '\n' :: r = childrenChars depth os' ++ '\n' :: r') :
    os = os' ∧ r = r' := by
  induction os generalizing os' with
  | nil =>
    cases os' with
    | nil => exact ⟨rfl, (List.cons.inj h).2⟩
    | cons => exact absurd (List.cons.inj h).1 (by decide)
  | cons o os ih =>
    obtain ⟨ho, hos⟩ := List.forall_mem_cons.1 hos
    cases os' with
    | nil => exact absurd (List.cons.inj h).1 (by decide)
    | cons o' os' =>
      obtain ⟨ho', hos'⟩ := List.forall_mem_cons.1 hplain
      have hchild := (head_cancel (head_cancel h).2).2
      rw [List.append_assoc, List.append_assoc] at hchild
      obtain ⟨rfl, hrest⟩ := ho _ _ _ _ ho' hchild
      obtain ⟨rfl, rfl⟩ := ih hos hos' hrest
      exact ⟨rfl, rfl⟩

theorem nodesChars_cancel {os os' : List Outline} (hos : ∀ o ∈ os, o.Cancels)
    (hplain : ∀ o ∈ os', o.Plain)
    (h : nodesChars depth os ++ ')' :: r = nodesChars depth os' ++ ')' :: r') :
    os = os' ∧ r = r' := by
  cases os with
  | nil =>
    cases os' with
    | nil => exact ⟨rfl, (List.cons.inj h).2⟩
    | cons => exact absurd (List.cons.inj h).1 (by decide)
  | cons o os =>
    cases os' with
    | nil => exact absurd (List.cons.inj h).1 (by decide)
    | cons o' os' =>
      -- Behind a comma, the first child is like the others.
      have hchildren : childrenChars (depth + 1) (o :: os) ++
            '\n' :: ((indent depth).toList ++ ']' :: ')' :: r) =
          childrenChars (depth + 1) (o' :: os') ++
            '\n' :: ((indent depth).toList ++ ']' :: ')' :: r') := by
        simpa [nodesChars, childrenChars] using h
      obtain ⟨hos, hrest⟩ := childrenChars_cancel hos hplain hchildren
      have hclosed := (List.cons.inj (List.append_cancel_left hrest)).2
      exact ⟨hos, (List.cons.inj hclosed).2⟩

theorem Plain.cancels (h : Plain o) : o.Cancels := by
  induction h with
  | node kind attributes children hkind hattributes _ ih =>
    intro depth o' r r' ho' heq
    cases ho' with
    | node kind' attributes' children' hkind' hattributes' hchildren' =>
      have hnode : kind.toList ++ '(' ::
            ((attributes.flatMap attributeChars ++ nodesChars depth children).drop 2 ++ ')' :: r) =
          kind'.toList ++ '(' ::
            ((attributes'.flatMap attributeChars ++ nodesChars depth children').drop 2 ++ ')' :: r') := by
        simpa [chars] using heq
      obtain ⟨hkinds, hfields⟩ := cancel_of_not_mem hkind hkind' hnode
      obtain ⟨rfl, hnodes⟩ := fields_cancel hattributes hattributes' hfields
      obtain ⟨rfl, rfl⟩ := nodesChars_cancel ih hchildren' hnodes
      exact ⟨by rw [String.toList_inj.1 hkinds], rfl⟩

/-- Different plain outlines have different texts. -/
theorem render_inj (h : Plain o) (h' : Plain o') (heq : o.render = o'.render) : o = o' := by
  have hchars : o.chars 0 ++ [] = o'.chars 0 ++ [] := by
    rw [← toList_render, ← toList_render, heq]
  exact (h.cancels 0 o' [] [] h' hchars).1

end Outline

end Lox
