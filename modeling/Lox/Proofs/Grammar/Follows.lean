import Lox.Proofs.Grammar.Observed
import Lox.Proofs.Grammar.Spends

namespace Lox
set_option autoImplicit true

/-- A call within `ts` goes forward. What does not break off has used a token, and a declaration
does not break off. -/
structure Call.Sound (c : Call) (ts : List Token) : Prop where
  within : c.start <:+ ts
  forward : c.stop <:+ c.start
  caught : c.attempt = .declaration → c.broke = false
  uses : c.broke = false → c.stop.length < c.start.length

theorem Call.Sound.extend {c : Call} (h : c.Sound us) (hus : us <:+ ts) : c.Sound ts :=
  { h with within := h.within.trans hus }

def Call.declarations (calls : List Call) : Nat := calls.countP (·.attempt = .declaration)

theorem Call.declarations_append (calls calls' : List Call) :
    declarations (calls ++ calls') = declarations calls + declarations calls' :=
  List.countP_append

/-- A run on `ts` stays within them, its calls are sound, and `Q` holds of its result. If it reads
declarations, it uses a token for each and `spare` more. -/
structure Observation.Sound (run : Observation α) (spare : Nat) (ts : List Token)
    (Q : α → List Token → Prop) : Prop where
  rest : run.reply.rest <:+ ts
  looks : ∀ us ∈ run.looks, us <:+ ts
  calls : ∀ c ∈ run.calls, c.Sound ts
  count : Call.declarations run.calls = 0 ∨
    Call.declarations run.calls + run.reply.rest.length + spare ≤ ts.length
  result : ∀ a, run.reply.result = some a → Q a run.reply.rest

/-- A run goes on with another one. The second may spare fewer tokens if the first has made no call:
then the tokens that the first has used are spared too. -/
theorem Observation.Sound.append {R : α → List Token → Prop} {Q : β → List Token → Prop}
    {run : Observation β} (h : Observation.Sound ⟨⟨some a, errors, mid⟩, seen, made⟩ spare ts R)
    (h' : run.Sound s mid Q) (hs : s = spare ∨ made = [])
    (hspare : spare + mid.length ≤ s + ts.length) :
    Observation.Sound
      ⟨⟨run.reply.result, errors', run.reply.rest⟩, seen ++ run.looks, made ++ run.calls⟩ spare ts Q
      where
  rest := h'.rest.trans h.rest
  looks us hus := by
    rcases List.mem_append.1 hus with hus | hus
    · exact h.looks us hus
    · exact (h'.looks us hus).trans h.rest
  calls c hc := by
    rcases List.mem_append.1 hc with hc | hc
    · exact h.calls c hc
    · exact (h'.calls c hc).extend h.rest
  count := by
    have hle : mid.length ≤ ts.length := h.rest.length_le
    have hle' : run.reply.rest.length ≤ mid.length := h'.rest.length_le
    have hcount := h.count
    have hcount' := h'.count
    simp only [Call.declarations_append] at hcount ⊢
    rcases hs with hs | hs
    · omega
    · rw [hs] at hcount ⊢
      simp only [Call.declarations, List.countP_nil] at hcount ⊢ hcount'
      omega
  result := h'.result

namespace Observed

/-- On `ts` an observed parser gives the reply of `q`, in a sound run. -/
def Follows (p : Observed α) (q : Parser α) (spare : Nat) (ts : List Token)
    (Q : α → List Token → Prop) : Prop :=
  (p ts).reply = q ts ∧ (p ts).Sound spare ts Q

/-- Follows on fewer than `k` tokens, and uses a token for a result. -/
def Tracks (p : Observed α) (q : Parser α) (spare k : Nat) : Prop :=
  ∀ ts, ts.length < k → p.Follows q spare ts fun _ rest => rest.length < ts.length

variable {p : Observed α} {q : Parser α} {f : α → Observed β} {g : α → Parser β}
  {spare : Nat} {ts : List Token} {Q Q' R : α → List Token → Prop}

theorem Follows.mono (h : p.Follows q spare ts Q)
    (hQ : ∀ a rest, rest.length ≤ ts.length → Q a rest → Q' a rest) : p.Follows q spare ts Q' :=
  ⟨h.1, { h.2 with result := fun a ha => hQ a _ h.2.rest.length_le (h.2.result a ha) }⟩

theorem Follows.congr (h : p.Follows q spare ts Q) (heq : q ts = q' ts) :
    p.Follows q' spare ts Q := ⟨h.1.trans heq, h.2⟩

theorem Follows.pure (h : Q a ts) :
    (Pure.pure a : Observed α).Follows (Pure.pure a) spare ts Q :=
  ⟨rfl, List.suffix_rfl, List.forall_mem_nil _, List.forall_mem_nil _, .inl rfl, by
    rintro _ ⟨⟩
    exact h⟩

theorem Follows.bind_spare {s : α → Nat} {Q : β → List Token → Prop} (hp : p.Follows q spare ts R)
    (hs : (∀ a, s a = spare) ∨ (p ts).calls = [])
    (hf : ∀ a mid, mid.length ≤ ts.length → R a mid →
      spare + mid.length ≤ s a + ts.length ∧ (f a).Follows (g a) (s a) mid Q) :
    (p >>= f).Follows (q >>= g) spare ts Q := by
  obtain ⟨hreply, hsound⟩ := hp
  unfold Follows
  simp only [Bind.bind, Observed.bind, Parser.bind]
  rw [← hreply]
  rcases hrun : p ts with ⟨⟨result, errors, mid⟩, looks, calls⟩
  rw [hrun] at hs hsound
  cases result with
  | none => exact ⟨rfl, { hsound with result := by rintro _ ⟨⟩ }⟩
  | some a =>
    obtain ⟨hspare, hreply', hsound'⟩ := hf a mid hsound.rest.length_le (hsound.result a rfl)
    refine ⟨?_, hsound.append hsound' (hs.imp (fun hs => hs a) id) hspare⟩
    simp only [hreply']

theorem Follows.bind {Q : β → List Token → Prop} (hp : p.Follows q spare ts R)
    (hf : ∀ a mid, mid.length ≤ ts.length → R a mid → (f a).Follows (g a) spare mid Q) :
    (p >>= f).Follows (q >>= g) spare ts Q :=
  hp.bind_spare (.inl fun _ => rfl) fun a mid hle hR =>
    ⟨Nat.add_le_add_left hle _, hf a mid hle hR⟩

theorem Follows.map {h : α → β} {Q : β → List Token → Prop}
    (hp : p.Follows q spare ts fun a => Q (h a)) : (h <$> p).Follows (h <$> q) spare ts Q :=
  .bind hp fun _ _ _ hQ => .pure hQ

theorem Follows.look (hrest : (q ts).rest <:+ ts)
    (hresult : ∀ a, (q ts).result = some a → Q a (q ts).rest) :
    (look q).Follows q spare ts Q :=
  ⟨rfl, hrest, List.forall_mem_singleton.2 List.suffix_rfl, List.forall_mem_nil _, .inl rfl,
    hresult⟩

theorem Follows.look_of_eq (heq : q ts = ⟨result, errors, rest⟩) (hrest : rest <:+ ts)
    (hresult : ∀ a, result = some a → Q a rest) : (Observed.look q).Follows q spare ts Q := by
  apply Follows.look
  · rw [heq]
    exact hrest
  · rw [heq]
    exact hresult

theorem Follows.fail (fault : SyntaxFault) :
    (Observed.look (Parser.fail fault) : Observed α).Follows (Parser.fail fault) spare ts Q :=
  .look List.suffix_rfl (by rintro _ ⟨⟩)

theorem Follows.report (fault : SyntaxFault) : (Observed.look (Parser.report fault)).Follows
    (Parser.report fault) spare ts fun _ _ => True :=
  .look List.suffix_rfl fun _ _ => trivial

theorem Follows.reportAt (fault : SyntaxFault) (token : Token) :
    (Observed.look (Parser.reportAt fault token)).Follows (Parser.reportAt fault token) spare ts
      fun _ _ => True :=
  .look List.suffix_rfl fun _ _ => trivial

theorem Follows.nextIs (kind : TokenKind) : (Observed.look (Parser.nextIs kind)).Follows
    (Parser.nextIs kind) spare ts fun _ _ => True :=
  .look List.suffix_rfl fun _ _ => trivial

theorem Follows.peek : (Observed.look Parser.peek).Follows Parser.peek spare ts
    fun r rest => rest = ts ∧ r = ts.head? :=
  .look List.suffix_rfl (by rintro _ ⟨⟩; exact ⟨rfl, rfl⟩)

theorem Follows.take? (f : TokenKind → Option β) :
    (Observed.look (Parser.take? f)).Follows (Parser.take? f) spare ts
      fun r rest => r.isSome → rest.length < ts.length := by
  cases ts with
  | nil => exact .look List.suffix_rfl fun r hr hsome => by cases hr; cases hsome
  | cons t rest =>
    cases hf : f t.kind with
    | none =>
      have htake : Parser.take? f (t :: rest) = { result := some none, rest := t :: rest } := by
        simp only [Parser.take?, hf]
      exact .look_of_eq htake List.suffix_rfl fun r hr hsome => by cases hr; cases hsome
    | some b =>
      have htake : Parser.take? f (t :: rest) = { result := some (some (b, t)), rest } := by
        simp only [Parser.take?, hf]
      exact .look_of_eq htake (List.suffix_cons _ _) fun _ _ _ => Nat.lt_succ_self _

/-- Two parsers in a row, seen as one look. -/
theorem Follows.look_bind {g : α → Parser β} {Q : β → List Token → Prop}
    (hq : (Observed.look q).Follows q spare ts R)
    (hg : ∀ a mid, mid.length ≤ ts.length → R a mid →
      (Observed.look (g a)).Follows (g a) spare mid Q) :
    (Observed.look (q >>= g)).Follows (q >>= g) spare ts Q := by
  obtain ⟨hreply, hsound⟩ := hq.bind hg
  have hrest := hsound.rest
  have hresult := hsound.result
  rw [hreply] at hrest hresult
  exact .look hrest hresult

theorem Follows.look_pure (h : Q a ts) :
    (Observed.look (Pure.pure a)).Follows (Pure.pure a) spare ts Q :=
  .look List.suffix_rfl (by rintro _ ⟨⟩; exact h)

theorem Follows.accept (kind : TokenKind) : (Observed.look (Parser.accept kind)).Follows
    (Parser.accept kind) spare ts fun b rest => b = true → rest.length < ts.length :=
  .look_bind (.take? _) fun _ _ _ h => .look_pure h

theorem Follows.expect (f : TokenKind → Option β) (fault : SyntaxFault) :
    (Observed.look (Parser.expect f fault)).Follows (Parser.expect f fault) spare ts
      fun _ rest => rest.length < ts.length := by
  refine .look_bind (.take? f) fun found mid _ h => ?_
  cases found with
  | none => exact .fail fault
  | some found => exact .look_pure (h rfl)

theorem Follows.symbol (s : Symbol) (fault : SyntaxFault) :
    (Observed.look (Parser.symbol s fault)).Follows (Parser.symbol s fault) spare ts
      fun _ rest => rest.length < ts.length :=
  .look_bind (.expect _ fault) fun _ _ _ h => .look_pure h

theorem Follows.ident (fault : SyntaxFault) :
    (Observed.look (Parser.ident fault)).Follows (Parser.ident fault) spare ts
      fun _ rest => rest.length < ts.length :=
  .expect _ fault

theorem Follows.atom : (Observed.look Grammar.atom).Follows Grammar.atom spare ts
    fun r rest => r.isSome → rest.length < ts.length := by
  cases ts with
  | nil => exact .look List.suffix_rfl fun r hr hsome => by cases hr; cases hsome
  | cons t rest =>
    cases hatom : Grammar.atom? t.pos t.kind with
    | none =>
      have heq : Grammar.atom (t :: rest) = { result := some none, rest := t :: rest } := by
        simp only [Grammar.atom, hatom]
      exact .look_of_eq heq List.suffix_rfl fun r hr hsome => by cases hr; cases hsome
    | some e =>
      have heq : Grammar.atom (t :: rest) = { result := some (some e), rest } := by
        simp only [Grammar.atom, hatom]
      exact .look_of_eq heq (List.suffix_cons _ _) fun _ _ _ => Nat.lt_succ_self _

/-- A loop whose steps use a token each ends before its bound does. -/
theorem Follows.iterate {step : α → Observed (Option α)} {step' : α → Parser (Option α)}
    {exit : List Token → Prop}
    (hstep : ∀ a us, us.length ≤ ts.length → (step a).Follows (step' a) spare us
      fun r rest => r.elim (exit rest) fun _ => rest.length < us.length)
    (hend : ∀ a, step' a [] = ⟨some none, [], []⟩) (hn : ts.length ≤ n) (hm : ts.length ≤ m) :
    (Parser.iterate step n a).Follows (Parser.iterate step' m a) spare ts fun _ => exit := by
  have hexit : exit [] := by
    have hresult := (hstep a [] (Nat.zero_le _)).2.result
    rw [(hstep a [] (Nat.zero_le _)).1, hend] at hresult
    exact hresult none rfl
  have hstop : ∀ m a, (Pure.pure a : Parser α) [] = Parser.iterate step' m a [] := by
    intro m a
    cases m with
    | zero => rfl
    | succ m =>
      simp only [Parser.iterate, Bind.bind, Parser.bind, hend]
      rfl
  induction n generalizing m a ts with
  | zero =>
    -- the bound is reached at the end of the text only, where another step gives none
    obtain rfl := List.length_eq_zero_iff.1 (Nat.le_zero.1 hn)
    exact .congr (.pure hexit) (hstop m a)
  | succ n ih =>
    have hsucc : ∀ m, ts.length ≤ m + 1 → (Parser.iterate step (n + 1) a).Follows
        (Parser.iterate step' (m + 1) a) spare ts fun _ => exit := by
      intro m hm
      refine .bind (hstep a ts (Nat.le_refl _)) fun r mid hle hr => ?_
      cases r with
      | none => exact .pure hr
      | some b =>
        have hlt : mid.length < ts.length := hr
        exact ih (fun a us hus => hstep a us (hus.trans hle)) (by omega) (by omega)
    cases m with
    | zero =>
      obtain rfl := List.length_eq_zero_iff.1 (Nat.le_zero.1 hm)
      exact (hsucc 0 (Nat.zero_le _)).congr ((hstop 1 a).symm.trans (hstop 0 a))
    | succ m => exact hsucc m hm

open Grammar

variable {expr : Observed (Expr Unresolved)} {expr' : Parser (Expr Unresolved)}

section
variable (he : expr.Tracks expr' spare k)
include he

theorem tracks_primary : (primary expr).Tracks (primary expr') spare (k + 1) := by
  intro ts hts
  refine .bind .atom fun r mid hle hr => ?_
  cases r with
  | some e => exact .pure (hr rfl)
  | none =>
    refine .bind (.accept _) fun found mid' hle' hfound => ?_
    cases found with
    | false => exact .fail _
    | true =>
      have hlt := hfound rfl
      refine .bind (he mid' (by omega)) fun inner rest _ hinner => ?_
      exact .bind (.symbol _ _) fun _ rest' _ hrest' => .pure (by omega)

theorem tracks_argument (args : List (Expr Unresolved)) :
    (argument expr args).Tracks (argument expr' args) spare k := by
  intro ts hts
  have hexpr : ∀ us : List Token, us.length ≤ ts.length →
      (expr >>= fun e => pure (args ++ [e])).Follows (expr' >>= fun e => pure (args ++ [e])) spare
        us fun _ rest => rest.length < ts.length :=
    fun us hus => .bind (he us (by omega)) fun _ rest _ hrest => .pure (by omega)
  unfold argument
  by_cases hmax : maxArguments ≤ args.length
  · simp only [if_pos hmax]
    exact .bind (.report _) fun _ mid hle _ => hexpr mid hle
  · simp only [if_neg hmax]
    exact hexpr ts (Nat.le_refl _)

theorem follows_arguments (hts : ts.length < k) (hn : ts.length ≤ n) (hm : ts.length ≤ m) :
    (arguments n expr).Follows (arguments m expr') spare ts fun _ _ => True := by
  refine .bind (.nextIs _) fun found mid hle _ => ?_
  cases found with
  | true => exact .pure trivial
  | false =>
    refine .bind (tracks_argument he [] mid (by omega)) fun args rest _ hrest => ?_
    refine .iterate (fun args us hus => ?_) (fun _ => rfl) (by omega) (by omega)
    refine .bind (.accept _) fun found mid _ hfound => ?_
    cases found with
    | false => exact .pure trivial
    | true =>
      have hlt := hfound rfl
      exact .map ((tracks_argument he args mid (by omega)).mono fun _ rest _ h => h.trans hlt)

theorem follows_suffix? (hts : ts.length ≤ k) (hn : ts.length ≤ n) (hm : ts.length ≤ m)
    (e : Expr Unresolved) : (suffix? n expr e).Follows (suffix? m expr' e) spare ts
      fun r rest => r.elim True fun _ => rest.length < ts.length := by
  refine .bind (.accept _) fun found mid hle hfound => ?_
  cases found with
  | true =>
    have hlt := hfound rfl
    refine .bind (follows_arguments he (by omega) (by omega) (by omega)) fun args rest hrest _ => ?_
    exact .bind (.symbol _ _) fun paren rest' _ hrest' =>
      .pure (show rest'.length < ts.length by omega)
  | false =>
    refine .bind (.accept _) fun found mid' hle' hfound => ?_
    cases found with
    | false => exact .pure trivial
    | true =>
      have hlt := hfound rfl
      exact .bind (.ident _) fun name rest _ hrest => .pure (show rest.length < ts.length by omega)

theorem tracks_call (hn : k ≤ n) (hm : k ≤ m) :
    (call n expr).Tracks (call m expr') spare (k + 1) := by
  intro ts hts
  refine .bind (tracks_primary he ts hts) fun e mid _ hmid => ?_
  refine .iterate (fun e us hus => ?_) (fun _ => rfl) (by omega) (by omega)
  refine (follows_suffix? he (by omega) (by omega) (by omega) e).mono fun r rest hle hr => ?_
  cases r with
  | none => exact hle.trans_lt (hus.trans_lt hmid)
  | some e => exact hr

theorem tracks_unary (hn : k ≤ n) (hm : k ≤ m) :
    (unary n expr).Tracks (unary m expr') spare (k + 1) := by
  intro ts hts
  have hops : (Parser.iterate nextUnary? n [] : Observed _).Follows
      (Parser.iterate nextUnary? m []) spare ts fun _ _ => True := by
    refine .iterate (fun ops us hus => ?_) (fun _ => rfl) (by omega) (by omega)
    refine .bind (.take? _) fun found mid _ hfound => ?_
    cases found with
    | none => exact .pure trivial
    | some found => exact .pure (hfound rfl)
  refine .bind hops fun ops mid hle _ => ?_
  have hoperand := tracks_call he hn hm mid (hle.trans_lt hts)
  exact .bind hoperand fun operand rest _ hrest => .pure (hrest.trans_le hle)

end

theorem tracks_chain {ω : Type} {op? : TokenKind → Option ω}
    {join : Expr Unresolved → ω → Pos → Expr Unresolved → Expr Unresolved}
    (he : expr.Tracks expr' spare (k + 1)) (hn : k ≤ n) (hm : k ≤ m) :
    (chain op? join n expr).Tracks (chain op? join m expr') spare (k + 1) := by
  intro ts hts
  refine .bind (he ts hts) fun first mid _ hmid => ?_
  refine .iterate (fun left us hus => ?_) (fun _ => rfl) (by omega) (by omega)
  refine .bind (.take? _) fun found mid' hle hfound => ?_
  cases found with
  | none => exact .pure (show mid'.length < ts.length by omega)
  | some found =>
    have hlt := hfound rfl
    exact .bind (he mid' (by omega)) fun right rest _ hrest => .pure (hrest.trans hlt)

section
variable (he : expr.Tracks expr' spare k)
include he

theorem tracks_disjunction (hn : k ≤ n) (hm : k ≤ m) :
    (disjunction n expr).Tracks (disjunction m expr') spare (k + 1) := by
  have hfactor : (factor n expr).Tracks (factor m expr') spare (k + 1) :=
    tracks_chain (tracks_unary he hn hm) hn hm
  have hterm : (term n expr).Tracks (term m expr') spare (k + 1) := tracks_chain hfactor hn hm
  have hcomparison : (comparison n expr).Tracks (comparison m expr') spare (k + 1) :=
    tracks_chain hterm hn hm
  have hequality : (equality n expr).Tracks (equality m expr') spare (k + 1) :=
    tracks_chain hcomparison hn hm
  have hconjunction : (conjunction n expr).Tracks (conjunction m expr') spare (k + 1) :=
    tracks_chain hequality hn hm
  exact tracks_chain hconjunction hn hm

theorem tracks_assignment (hn : k ≤ n) (hm : k ≤ m) :
    (assignment n expr).Tracks (assignment m expr') spare (k + 1) := by
  intro ts hts
  refine .bind (tracks_disjunction he hn hm ts hts) fun target mid _ hmid => ?_
  refine .bind (.take? _) fun found mid' hle hfound => ?_
  cases found with
  | none => exact .pure (hle.trans_lt hmid)
  | some found =>
    have hlt := hfound rfl
    refine .bind (he mid' (by omega)) fun value rest hle' _ => ?_
    cases assignTo? target value with
    | some e => exact .pure (by omega)
    | none => exact .bind (.reportAt _ _) fun _ rest' hle'' _ => .pure (by omega)

end

theorem tracks_expression (hn : k ≤ n) (hm : k ≤ m) :
    (expression n : Observed _).Tracks (expression m) spare k := by
  induction k generalizing n m with
  | zero => exact fun ts hts => absurd hts (Nat.not_lt_zero _)
  | succ k ih =>
    obtain ⟨n, rfl⟩ := Nat.exists_eq_add_one_of_ne_zero (Nat.ne_zero_of_lt hn)
    obtain ⟨m, rfl⟩ := Nat.exists_eq_add_one_of_ne_zero (Nat.ne_zero_of_lt hm)
    have hn : k ≤ n := Nat.le_of_succ_le_succ hn
    have hm : k ≤ m := Nat.le_of_succ_le_succ hm
    exact tracks_assignment (ih hn hm) hn hm

end Observed

end Lox
