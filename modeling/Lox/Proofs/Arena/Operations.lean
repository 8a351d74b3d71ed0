import Lox.Proofs.Arena.Lookup
import Lox.Proofs.Arena.Marking

namespace Lox
set_option autoImplicit true

namespace Arena

inductive Op where
  | new (enclosing : Option Handle) (values : Bindings Value)
  | define (h : Handle) (name : String) (value : Value)
  | assign (h : Handle) (name : String) (value : Value)
  | assignAt (h : Handle) (distance : Nat) (name : String) (value : Value)
  | capture (h : Handle)
  | release (h : Handle)

/-- An operation that fails leaves the arena as it was. -/
def settle (a : Arena) : Except ArenaFault Arena → Arena × Except ArenaFault (Option Handle)
  | .ok a' => (a', .ok none)
  | .error fault => (a, .error fault)

namespace Op

/-- What an operation leaves, and its answer: the handle of a new environment, or how it failed. A
capture that fails keeps the marks it has made. -/
def apply (a : Arena) : Op → Arena × Except ArenaFault (Option Handle)
  | new enclosing values => ((a.new enclosing values).2, .ok (some (a.new enclosing values).1))
  | define h name value => a.settle (a.define h name value)
  | assign h name value => a.settle (a.assign h name value)
  | assignAt h distance name value => a.settle (a.assignAt h distance name value)
  | capture h =>
    match a.capture h with
    | (a, none) => (a, .ok none)
    | (a, some missing) => (a, .error (.missing (some missing)))
  | release h => a.settle (a.release h)

def isNew : Op → Bool
  | new .. => true
  | define .. | assign .. | assignAt .. | capture _ | release _ => false

/-- A new environment is put inside one that is there, or inside none; and a capture does not
fail. -/
def Proper (a : Arena) : Op → Prop
  | new enclosing _ => ∀ outer ∈ enclosing, a.contains outer = true
  | capture h => (a.capture h).2 = none
  | define .. | assign .. | assignAt .. | release _ => True

instance (a : Arena) : (op : Op) → Decidable (op.Proper a)
  | new enclosing _ => inferInstanceAs (Decidable (∀ outer ∈ enclosing, a.contains outer = true))
  | capture h => inferInstanceAs (Decidable ((a.capture h).2 = none))
  | define .. | assign .. | assignAt .. | release _ => inferInstanceAs (Decidable True)

def next (a : Arena) (op : Op) : Arena := (op.apply a).1

end Op

def after (a : Arena) (ops : List Op) : Arena := ops.foldl Op.next a

/-- Operations each of which is proper when it comes. -/
def Admits (a : Arena) : List Op → Prop
  | [] => True
  | op :: ops => op.Proper a ∧ (op.next a).Admits ops

instance Admits.decidable (a : Arena) : (ops : List Op) → Decidable (a.Admits ops)
  | [] => inferInstanceAs (Decidable True)
  | op :: ops =>
    have := Admits.decidable (op.next a) ops
    inferInstanceAs (Decidable (op.Proper a ∧ (op.next a).Admits ops))

def handles (a : Arena) : List Op → List Handle
  | [] => []
  | op :: ops => ((op.apply a).2.toOption.bind id).toList ++ (op.next a).handles ops

/-- What an operation makes of an arena when it makes no new environment. -/
inductive Change (a : Arena) : Arena → Prop where
  | same : Change a a
  | write : a.get? h = some e → Change a (a.put h { e with values })
  | capture : (a.capture h).2 = none → Change a (a.capture h).1
  | release : a.get? h = some e → e.captured = false → Change a (a.drop h)

/-- Around what is captured all is captured. -/
def CapturedAround (a : Arena) : Prop :=
  ∀ h e outer, a.get? h = some e → e.captured = true → e.enclosing = some outer → a.Captured outer

/-- Handles in use are old ones, links point to smaller ones, and captured chains are not broken. -/
structure Orderly (a : Arena) : Prop where
  below : a.Below
  descends : a.Descends
  around : a.CapturedAround

variable {a a' : Arena} {op : Op} {ops : List Op} {h i outer : Handle} {e f : Environment}

instance (a : Arena) (i : Handle) : Decidable (a.Captured i) :=
  decidable_of_iff ((a.get? i).any (·.captured) = true) (by simp [Captured, Option.any_eq_true])

theorem Change.settle {r : Except ArenaFault Arena} (hr : ∀ a', r = .ok a' → Change a a') :
    Change a (a.settle r).1 := by
  cases r with
  | ok a' => exact hr a' rfl
  | error => exact .same

theorem change_define (hr : a.define h x v = .ok a') : Change a a' := by
  cases hg : a.get? h with
  | none => simp [define, find, hg, bind, Except.bind] at hr
  | some e =>
    rw [define_eq_ok hg] at hr
    cases hr
    exact .write hg

theorem change_assign (ha : a.Descends) (hr : a.assign h x v = .ok a') : Change a a' := by
  have hw := walk_nearest ha x h
  generalize hn : a.nearest h x = r at hw
  cases hw with
  | found hnear =>
    rw [assign_of_nearest hn] at hr
    cases hr
    exact .write hnear.outward.get?
  | undefined => rw [assign_of_error hn] at hr; cases hr
  | broken => rw [assign_of_error hn] at hr; cases hr

theorem change_assignAt (hr : a.assignAt h d x v = .ok a') : Change a a' := by
  cases hanc : a.ancestor h d with
  | error fault => rw [assignAt, hanc] at hr; cases hr
  | ok found =>
    have ho := outward_of_ancestor hanc
    rw [ho.assignAt] at hr
    cases hr
    exact .write ho.get?

theorem change_release (hr : a.release h = .ok a') : Change a a' := by
  cases hg : a.get? h with
  | none => simp [release, find, hg, bind, Except.bind] at hr
  | some e =>
    rw [release_eq_ok hg] at hr
    cases hr
    cases hc : e.captured with
    | true => exact .same
    | false => exact .release hg hc

theorem Op.next_capture (a : Arena) (h : Handle) : (Op.capture h).next a = (a.capture h).1 := by
  rw [next, apply]
  split
  · rename_i hcap
    rw [hcap]
  · rename_i hcap
    rw [hcap]

theorem Op.change (ha : a.Descends) (hp : op.Proper a) (hnew : op.isNew = false) :
    Change a (op.next a) := by
  cases op with
  | new => cases hnew
  | define => exact .settle fun a' hr => change_define hr
  | assign => exact .settle fun a' hr => change_assign ha hr
  | assignAt => exact .settle fun a' hr => change_assignAt hr
  | capture h =>
    rw [Op.next_capture]
    exact .capture hp
  | release => exact .settle fun a' hr => change_release hr

theorem answer_settle (a : Arena) (r : Except ArenaFault Arena) :
    (a.settle r).2.toOption.bind id = none := by
  cases r <;> rfl

theorem Op.answer (a : Arena) (op : Op) :
    (op.apply a).2.toOption.bind id = if op.isNew then some a.next else none := by
  cases op with
  | new => rfl
  | define => exact answer_settle a _
  | assign => exact answer_settle a _
  | assignAt => exact answer_settle a _
  | capture h =>
    rw [apply]
    split <;> rfl
  | release => exact answer_settle a _

theorem Change.next_eq (h : Change a a') : a'.next = a.next := by
  cases h with
  | same => rfl
  | write => rfl
  | capture => exact next_captureUpTo _ _ _
  | release => rfl

theorem Change.linked (h : Change a a') : Linked a a' := by
  cases h with
  | same => exact fun i e hi => ⟨e, hi, rfl⟩
  | write hg => exact linked_put hg rfl
  | capture => exact linked_captureUpTo _ _ _
  | release => exact linked_drop _ _

theorem Change.captured (h : Change a a') (hi : a.Captured i) : a'.Captured i := by
  cases h with
  | same => exact hi
  | @write h e values hg =>
    obtain ⟨f, hf, hc⟩ := hi
    by_cases hhi : h = i
    · subst hhi
      cases hg.symm.trans hf
      exact ⟨{ e with values }, by rw [get?_put, if_pos rfl], hc⟩
    · exact ⟨f, by rw [get?_put, if_neg hhi, hf], hc⟩
  | capture => exact hi.keep (keeps_captureUpTo i _ _ _)
  | @release h e hg hc =>
    obtain ⟨f, hf, hcf⟩ := hi
    have hhi : h ≠ i := by
      rintro rfl
      cases hg.symm.trans hf
      exact absurd hcf (by simp [hc])
    exact ⟨f, by rw [get?_drop, if_neg hhi, hf], hcf⟩

theorem captured_put_mark (hg : a.get? h = some e) :
    (a.put h (e.mark true)).Captured i ↔ i = h ∨ a.Captured i := by
  constructor
  · rintro ⟨f, hf, hc⟩
    exact captured_of_put hf hc
  · rintro (rfl | hi)
    · exact ⟨e.mark true, by rw [get?_put, if_pos rfl], by simp [Environment.mark]⟩
    · exact hi.keep (keeps_put i hg (e.grows_mark true))

/-- A capture that does not fail marks the environment, and leaves no captured chain broken. Before
it, only links to the environment itself may lead from a captured one to one that is not. -/
theorem capture_around (a : Arena) (h : Handle) :
    (a.capture h).2 = none →
    (∀ i f outer, a.get? i = some f → f.captured = true → f.enclosing = some outer →
      outer = h ∨ a.Captured outer) →
    (∀ i, a.Captured i → (a.capture h).1.Captured i) ∧ (a.capture h).1.Captured h ∧
      (a.capture h).1.CapturedAround := by
  induction a, h using capture_induction with
  | missing =>
    intro hnone
    cases hnone
  | captured hg hc =>
    refine fun _ hup => ⟨fun i => id, ⟨_, hg, hc⟩, fun i f outer hf hcf ho => ?_⟩
    rcases hup i f outer hf hcf ho with rfl | hout
    · exact ⟨_, hg, hc⟩
    · exact hout
  | @outermost a h e hg hc he =>
    refine fun _ hup => ⟨fun i hi => (captured_put_mark hg).2 (.inr hi),
      (captured_put_mark hg).2 (.inl rfl), fun i f outer hf hcf ho => ?_⟩
    rw [get?_put] at hf
    split at hf
    · cases hf
      cases he.symm.trans ho
    · exact (captured_put_mark hg).2 (hup i f outer hf hcf ho)
  | @link a h e outer r hg hc he ih =>
    intro hnone hup
    obtain ⟨hkeep, hout, haround⟩ := ih hnone fun i f outer' hf hcf ho => by
      rw [get?_put] at hf
      split at hf
      · cases hf
        cases he.symm.trans ho
        exact .inl rfl
      · exact .inr ((captured_put_mark hg).2 (hup i f outer' hf hcf ho))
    have hput : ∀ i, i = h ∨ a.Captured i → r.1.Captured i := fun i hi =>
      hkeep i ((captured_put_mark hg).2 hi)
    exact ⟨fun i hi => hput i (.inr hi), hput h (.inl rfl), haround⟩

theorem Change.orderly (h : Change a a') (ha : a.Orderly) : a'.Orderly := by
  refine ⟨fun i e hi => ?_, fun i e outer hi ho => ?_, ?_⟩
  · obtain ⟨f, hf, _⟩ := h.linked i e hi
    rw [h.next_eq]
    exact ha.below i f hf
  · obtain ⟨f, hf, he⟩ := h.linked i e hi
    exact ha.descends i f outer hf (he.trans ho)
  · cases h with
    | same => exact ha.around
    | @write h e values hg =>
      intro i f outer hf hc ho
      refine (Change.write hg).captured ?_
      rw [get?_put] at hf
      split at hf
      · rename_i hhi
        cases hf
        exact ha.around h e outer hg hc ho
      · exact ha.around i f outer hf hc ho
    | capture hnone =>
      exact (capture_around a _ hnone fun i f outer hf hc ho => .inr (ha.around i f outer hf hc ho)).2.2
    | release hg hc =>
      intro i f outer hf hcf ho
      refine (Change.release hg hc).captured ?_
      rw [get?_drop] at hf
      split at hf
      · cases hf
      · exact ha.around i f outer hf hcf ho

theorem Orderly.new (ha : a.Orderly) (hp : ∀ outer ∈ enclosing, a.contains outer = true)
    (values : Bindings Value) : (a.new enclosing values).2.Orderly := by
  refine ⟨ha.below.new _ _, fun i f outer hf ho => ?_, fun i f outer hf hc ho => ?_⟩
  · rw [get?_new] at hf
    split at hf
    · rename_i hi
      cases hf
      obtain ⟨e, hg⟩ := Option.isSome_iff_exists.1 (hp outer ho)
      exact hi ▸ ha.below outer e hg
    · exact ha.descends i f outer hf ho
  · rw [get?_new] at hf
    split at hf
    · cases hf
      cases hc
    · obtain ⟨e, hg, hce⟩ := ha.around i f outer hf hc ho
      exact Captured.keep ⟨e, hg, hce⟩ (keeps_new ha.below i _ _)

/-- What one operation keeps. -/
theorem Orderly.step (ha : a.Orderly) (hp : op.Proper a) :
    (op.next a).Orderly ∧ (∀ i, a.Captured i → (op.next a).Captured i) ∧
      (op.next a).next = a.next + [op].countP Op.isNew := by
  cases hnew : op.isNew with
  | true =>
    cases op with
    | new enclosing values =>
      exact ⟨ha.new hp values, fun i hi => hi.keep (keeps_new ha.below i _ _), rfl⟩
    | _ => cases hnew
  | false =>
    have hch := Op.change ha.descends hp hnew
    refine ⟨hch.orderly ha, fun i => hch.captured, hch.next_eq.trans ?_⟩
    simp [hnew]

theorem Orderly.after (ha : a.Orderly) (hops : a.Admits ops) :
    (a.after ops).Orderly ∧ (∀ i, a.Captured i → (a.after ops).Captured i) ∧
      (a.after ops).next = a.next + ops.countP Op.isNew := by
  induction ops generalizing a with
  | nil => exact ⟨ha, fun _ => id, rfl⟩
  | cons op ops ih =>
    obtain ⟨hop, hops⟩ := hops
    obtain ⟨horderly, hkeep, hnext⟩ := ha.step hop
    obtain ⟨horderly', hkeep', hnext'⟩ := ih horderly hops
    refine ⟨horderly', fun i hi => hkeep' i (hkeep i hi), ?_⟩
    rw [Arena.after, List.foldl_cons, ← Arena.after, hnext', hnext, Nat.add_assoc,
      ← List.countP_append, List.singleton_append]

theorem handles_eq (ha : a.Orderly) (hops : a.Admits ops) :
    a.handles ops = List.range' a.next (ops.countP Op.isNew) := by
  induction ops generalizing a with
  | nil => rfl
  | cons op ops ih =>
    obtain ⟨hop, hops⟩ := hops
    obtain ⟨horderly, _, hnext⟩ := ha.step hop
    rw [handles, ih horderly hops, hnext, Op.answer]
    cases hnew : op.isNew <;> simp [hnew, List.range'_succ]

theorem admits_append (a : Arena) (earlier later : List Op) :
    a.Admits (earlier ++ later) ↔ a.Admits earlier ∧ (a.after earlier).Admits later := by
  induction earlier generalizing a with
  | nil => simp [Admits, after]
  | cons op ops ih =>
    rw [List.cons_append, Admits, Admits, ih, and_assoc]
    rfl

theorem orderly_empty : Orderly {} := by
  have hnone : ∀ h, get? {} h = none := fun h => by simp [get?]
  refine ⟨fun h e hg => ?_, fun h e outer hg => ?_, fun h e outer hg => ?_⟩
  all_goals
    rw [hnone] at hg
    cases hg

/-- The second arena is the first one with the environments of `P` marked as captured. -/
structure Marks (P : Handle → Prop) (a a' : Arena) : Prop where
  next : a'.next = a.next
  marked : ∀ i e, a.get? i = some e → P i → a'.get? i = some { e with captured := true }
  others : ∀ i, ¬(P i ∧ a.contains i = true) → a'.get? i = a.get? i

theorem CapturedAround.encloses (ha : a.CapturedAround) (hj : a.Captured j) (h : Encloses a i j) :
    a.Captured i := by
  induction h with
  | refl => exact hj
  | outer hg he _ ih =>
    obtain ⟨f, hf, hc⟩ := hj
    cases hg.symm.trans hf
    exact ih (ha _ _ _ hg hc he)

/-- Where captured chains are not broken, a capture that does not fail marks all around, although it
stops at the first environment that is captured. -/
theorem CapturedAround.marks (ha : a.CapturedAround) (hnone : (a.capture h).2 = none) :
    Marks (Encloses a · h) a (a.capture h).1 := by
  obtain ⟨_, hcap, haround⟩ := capture_around a h hnone fun i f outer hf hc ho =>
    .inr (ha i f outer hf hc ho)
  refine ⟨next_captureUpTo _ _ _, fun i e hg henc => ?_, fun i hi => ?_⟩
  · obtain ⟨c, hget⟩ := get?_captureUpTo a (a.size + 1) h i
    obtain ⟨f, hf, hc⟩ := haround.encloses hcap
      (henc.keep fun b => keeps_captureUpTo b a (a.size + 1) h)
    rw [capture] at hf ⊢
    rw [hg, Option.map_some] at hget
    cases hget.symm.trans hf
    rw [hget]
    exact congrArg some (congrArg (Environment.mk e.values e.enclosing) hc)
  · obtain ⟨c, hget⟩ := get?_captureUpTo a (a.size + 1) h i
    rw [capture, hget]
    cases hg : a.get? i with
    | none => rfl
    | some e =>
      -- a mark on it that is new would mean that it is around
      have hold : (e.captured || c) = e.captured := by
        cases hc : (e.captured || c) with
        | false => exact (Bool.or_eq_false_iff.1 hc).1.symm
        | true =>
          have hmarked : (a.captureUpTo (a.size + 1) h).1.Captured i :=
            ⟨e.mark c, by rw [hget, hg, Option.map_some], hc⟩
          rcases captured_of_captureUpTo hmarked with ⟨f, hf, hcf⟩ | henc
          · cases hg.symm.trans hf
            exact hcf.symm
          · exact absurd ⟨henc, by rw [contains, hg, Option.isSome_some]⟩ hi
      exact congrArg some (congrArg (Environment.mk e.values e.enclosing) hold)

/-- After any operations in any order, of which none puts an environment inside one that is not there
and no capture has failed: the new environments have got the handles 0, 1, 2 and so on; every link
points to a smaller handle; what was captured at any time is still there and captured, and so is the
environment around it, if any; and a capture that does not fail marks the environment and all around
it, and changes nothing else. -/
theorem captured_chains_kept (hops : Admits {} ops) :
    handles {} ops = List.range (ops.countP Op.isNew) ∧
    (∀ h, (after {} ops).contains h = true → h < ops.countP Op.isNew) ∧
    (∀ h e outer, (after {} ops).get? h = some e → e.enclosing = some outer → outer < h) ∧
    (∀ earlier later h, ops = earlier ++ later → (after {} earlier).Captured h →
      (after {} ops).Captured h) ∧
    (∀ h e, (after {} ops).get? h = some e → e.captured = true →
      e.enclosing = none ∨ ∃ outer, e.enclosing = some outer ∧ (after {} ops).Captured outer) ∧
    ∀ h, ((after {} ops).capture h).2 = none →
      Marks ((after {} ops).Encloses · h) (after {} ops) ((after {} ops).capture h).1 := by
  obtain ⟨ho, _, hnext⟩ := orderly_empty.after hops
  refine ⟨?_, fun h hh => ?_, ho.descends, ?_, fun h e hg hc => ?_, fun h => ho.around.marks⟩
  · rw [handles_eq orderly_empty hops, List.range_eq_range']
  · obtain ⟨e, hg⟩ := Option.isSome_iff_exists.1 hh
    have hcount : (after {} ops).next = ops.countP Op.isNew := hnext.trans (Nat.zero_add _)
    exact hcount ▸ ho.below h e hg
  · rintro earlier later h rfl hcap
    obtain ⟨hearlier, hlater⟩ := (admits_append _ _ _).1 hops
    obtain ⟨_, hkeep, _⟩ := (orderly_empty.after hearlier).1.after hlater
    rw [after, List.foldl_append]
    exact hkeep h hcap
  · cases he : e.enclosing with
    | none => exact .inl rfl
    | some outer => exact .inr ⟨outer, rfl, ho.around h e outer hg hc he⟩

/-- An environment is released with another one inside it still there; a sibling is captured, and
stays when it is released. -/
theorem captured_chains_kept_orphan :
    ∃ earlier later, Admits {} (earlier ++ later) ∧ (after {} earlier).Captured 3 ∧
      (after {} (earlier ++ later)).contains 1 = false ∧
      (after {} (earlier ++ later)).contains 2 = true ∧
      handles {} (earlier ++ later) = [0, 1, 2, 3] ∧ (after {} (earlier ++ later)).Captured 3 ∧
      Marks ((after {} (earlier ++ later)).Encloses · 3) (after {} (earlier ++ later))
        ((after {} (earlier ++ later)).capture 3).1 := by
  let earlier : List Op := [.new none {}, .new (some 0) {}, .new (some 1) {}, .release 1,
    .new (some 0) {}, .capture 3]
  let later : List Op := [.release 3, .assign 2 "a" .nil, .release 1]
  have hops : Admits {} (earlier ++ later) := by decide +kernel
  have hcap : (after {} earlier).Captured 3 := by decide +kernel
  obtain ⟨hhandles, _, _, hkept, _, hmarks⟩ := captured_chains_kept hops
  exact ⟨earlier, later, hops, hcap, by decide +kernel, by decide +kernel, hhandles,
    hkept earlier later 3 rfl hcap, hmarks 3 (by decide +kernel)⟩

end Arena

end Lox
