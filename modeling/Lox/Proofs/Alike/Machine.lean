import Lox.Proofs.Alike.Store
import Lox.Proofs.Machine.Preservation

namespace Lox
set_option autoImplicit true

mutual

/-- Continuations of a piece of code, which comes from the text `i` and stands in scopes with the
renaming `σ`. -/
inductive ValueCont.Alike {ι : Type} (R : ι → Likeness) (T : Renamings) :
    ι → Renaming → ValueCont → ValueCont → Prop where
  | unary : (R i).place p p' → ValueCont.Alike R T i σ k k' →
      ValueCont.Alike R T i σ (.unary op p k) (.unary op p' k')
  | left : (R i).place p p' → Expr.Alike (R i) σ e e' → ValueCont.Alike R T i σ k k' →
      ValueCont.Alike R T i σ (.left op p e k) (.left op p' e' k')
  | right : v.Alike R T v' → (R i).place p p' → ValueCont.Alike R T i σ k k' →
      ValueCont.Alike R T i σ (.right v op p k) (.right v' op p' k')
  | logical : Expr.Alike (R i) σ e e' → ValueCont.Alike R T i σ k k' →
      ValueCont.Alike R T i σ (.logical op e k) (.logical op e' k')
  | assign : Ident.Alike (R i) (σ.along ref) n n' → ValueCont.Alike R T i σ k k' →
      ValueCont.Alike R T i σ (.assign n ref k) (.assign n' ref k')
  | callee : Expr.AlikeAll (R i) σ args args' → (R i).place p p' → ValueCont.Alike R T i σ k k' →
      ValueCont.Alike R T i σ (.callee args p k) (.callee args' p' k')
  | argument : v.Alike R T v' → List.Forall₂ (Value.Alike R T) done done' →
      Expr.AlikeAll (R i) σ rest rest' → (R i).place p p' → ValueCont.Alike R T i σ k k' →
      ValueCont.Alike R T i σ (.argument v done rest p k) (.argument v' done' rest' p' k')
  | get : Ident.Alike (R i) 1 n n' → ValueCont.Alike R T i σ k k' →
      ValueCont.Alike R T i σ (.get n k) (.get n' k')
  | setObject : Ident.Alike (R i) 1 n n' → Expr.Alike (R i) σ e e' → ValueCont.Alike R T i σ k k' →
      ValueCont.Alike R T i σ (.setObject n e k) (.setObject n' e' k')
  | setValue : o.Alike R T o' → Ident.Alike (R i) 1 n n' → ValueCont.Alike R T i σ k k' →
      ValueCont.Alike R T i σ (.setValue o n k) (.setValue o' n' k')
  | discard : DoneCont.Alike R T i σ k k' → ValueCont.Alike R T i σ (.discard k) (.discard k')
  | print : DoneCont.Alike R T i σ k k' → ValueCont.Alike R T i σ (.print k) (.print k')
  | define : Ident.Alike (R i) (σ 0) n n' → DoneCont.Alike R T i σ k k' →
      ValueCont.Alike R T i σ (.define n k) (.define n' k')
  | branch : Stmt.Alike (R i) σ yes yes' → DoneCont.Alike R T i σ k k' →
      ValueCont.Alike R T i σ (.branch yes none k) (.branch yes' none k')
  | branchElse : Stmt.Alike (R i) σ yes yes' → Stmt.Alike (R i) σ no no' →
      DoneCont.Alike R T i σ k k' →
      ValueCont.Alike R T i σ (.branch yes (some no) k) (.branch yes' (some no') k')
  | test : Expr.Alike (R i) σ c c' → Stmt.Alike (R i) σ body body' → DoneCont.Alike R T i σ k k' →
      ValueCont.Alike R T i σ (.test c body k) (.test c' body' k')
  | ret : DoneCont.Alike R T i σ k k' → ValueCont.Alike R T i σ (.ret k) (.ret k')

inductive DoneCont.Alike {ι : Type} (R : ι → Likeness) (T : Renamings) :
    ι → Renaming → DoneCont → DoneCont → Prop where
  | program : Stmt.AlikeAll (R i) σ rest rest' →
      DoneCont.Alike R T i σ (.program rest) (.program rest')
  | sequence : Stmt.AlikeAll (R i) σ rest rest' → DoneCont.Alike R T i σ k k' →
      DoneCont.Alike R T i σ (.sequence rest k) (.sequence rest' k')
  | again : Expr.Alike (R i) σ c c' → Stmt.Alike (R i) σ body body' → DoneCont.Alike R T i σ k k' →
      DoneCont.Alike R T i σ (.again c body k) (.again c' body' k')
  | leaveBlock : T outer = some τ → DoneCont.Alike R T i τ k k' →
      DoneCont.Alike R T i σ (.leaveBlock outer k) (.leaveBlock outer k')
  /-- The caller may come from another text. -/
  | leaveCall : T outer = some τ → Option.Rel (Instance.Alike R T) result result' →
      ValueCont.Alike R T j τ k k' →
      DoneCont.Alike R T i σ (.leaveCall outer self result k) (.leaveCall outer self result' k')

end

/-- An error points at corresponding places. What breaks out of a run is the same. -/
inductive Fault.Alike {ι : Type} (R : ι → Likeness) : Fault → Fault → Prop where
  | error : (R i).place p p' → Fault.Alike R (.error f p.line) (.error f p'.line)
  | escape : Fault.Alike R (.escape f) (.escape f)

inductive Completion.Alike {ι : Type} (R : ι → Likeness) (T : Renamings) :
    Completion → Completion → Prop where
  | normal : Completion.Alike R T .normal .normal
  | returning : v.Alike R T v' → Completion.Alike R T (.returning v) (.returning v')
  | failing : f.Alike R f' → Completion.Alike R T (.failing f) (.failing f')

inductive Control.Alike {ι : Type} (R : ι → Likeness) (T : Renamings) (σ : Renaming) :
    Control → Control → Prop where
  | eval : Expr.Alike (R i) σ e e' → ValueCont.Alike R T i σ k k' →
      Control.Alike R T σ (.eval e k) (.eval e' k')
  | exec : Stmt.Alike (R i) σ s s' → DoneCont.Alike R T i σ k k' →
      Control.Alike R T σ (.exec s k) (.exec s' k')
  | value : v.Alike R T v' → ValueCont.Alike R T i σ k k' →
      Control.Alike R T σ (.value v k) (.value v' k')
  | complete : c.Alike R T c' → DoneCont.Alike R T i σ k k' →
      Control.Alike R T σ (.complete c k) (.complete c' k')

/-- All but what is done next is alike. -/
structure Machine.Level {ι : Type} (R : ι → Likeness) (T : Renamings) (σ : Renaming)
    (m m' : Machine) : Prop where
  store : m.store.Alike R T m'.store
  env : m'.env = m.env
  scopes : T m.env = some σ
  depth : m'.depth = m.depth
  printed : m'.printed = m.printed

def Machine.Alike {ι : Type} (R : ι → Likeness) (T : Renamings) (m m' : Machine) : Prop :=
  ∃ σ, m.Level R T σ m' ∧ m.control.Alike R T σ m'.control

variable {ι : Type} {R : ι → Likeness} {T T' : Renamings}

mutual

theorem ValueCont.Alike.mono (hk : ValueCont.Alike R T i σ k k') (hT : T'.Extends T) :
    ValueCont.Alike R T' i σ k k' := by
  cases hk with
  | unary hp hk => exact .unary hp (hk.mono hT)
  | left hp he hk => exact .left hp he (hk.mono hT)
  | right hv hp hk => exact .right (hv.mono hT) hp (hk.mono hT)
  | logical he hk => exact .logical he (hk.mono hT)
  | assign hn hk => exact .assign hn (hk.mono hT)
  | callee he hp hk => exact .callee he hp (hk.mono hT)
  | argument hv hd he hp hk =>
    exact .argument (hv.mono hT) (hd.imp fun _ _ hv => hv.mono hT) he hp (hk.mono hT)
  | get hn hk => exact .get hn (hk.mono hT)
  | setObject hn he hk => exact .setObject hn he (hk.mono hT)
  | setValue ho hn hk => exact .setValue (ho.mono hT) hn (hk.mono hT)
  | discard hk => exact .discard (hk.mono hT)
  | print hk => exact .print (hk.mono hT)
  | define hn hk => exact .define hn (hk.mono hT)
  | branch hyes hk => exact .branch hyes (hk.mono hT)
  | branchElse hyes hno hk => exact .branchElse hyes hno (hk.mono hT)
  | test hc hbody hk => exact .test hc hbody (hk.mono hT)
  | ret hk => exact .ret (hk.mono hT)

theorem DoneCont.Alike.mono (hk : DoneCont.Alike R T i σ k k') (hT : T'.Extends T) :
    DoneCont.Alike R T' i σ k k' := by
  cases hk with
  | program hs => exact .program hs
  | sequence hs hk => exact .sequence hs (hk.mono hT)
  | again hc hbody hk => exact .again hc hbody (hk.mono hT)
  | leaveBlock ho hk => exact .leaveBlock (hT _ _ ho) (hk.mono hT)
  | leaveCall ho hr hk =>
    exact .leaveCall (hT _ _ ho) (Rel.mono hr fun _ _ h => h.mono hT) (hk.mono hT)

end

theorem ValueCont.Alike.enclosing (hk : ValueCont.Alike R T i σ k k') :
    DoneCont.Alike R T i σ k.enclosing k'.enclosing := by
  induction hk using ValueCont.Alike.rec (motive_2 := fun _ _ _ _ _ => True) with
  | unary _ _ ih => exact ih
  | left _ _ _ ih => exact ih
  | right _ _ _ ih => exact ih
  | logical _ _ ih => exact ih
  | assign _ _ ih => exact ih
  | callee _ _ _ ih => exact ih
  | argument _ _ _ _ _ ih => exact ih
  | get _ _ ih => exact ih
  | setObject _ _ _ ih => exact ih
  | setValue _ _ _ ih => exact ih
  | discard hk => exact hk
  | print hk => exact hk
  | define _ hk => exact hk
  | branch _ hk => exact hk
  | branchElse _ _ hk => exact hk
  | test _ _ hk => exact hk
  | ret hk => exact hk
  | _ => trivial

variable {σ τ : Renaming} {i : ι}

theorem Fault.alike_ofArena (hp : (R i).place p p') (f : ArenaFault) :
    Fault.Alike R (.ofArena f p.line) (.ofArena f p'.line) := by
  cases f with
  | undefined => exact .error hp
  | missing => exact .escape
  | unbound => exact .escape
  | endless => exact .escape

section
variable {v v' u u' : Value}

theorem Value.alike_ofLiteral (l : Literal) :
    (Value.ofLiteral l).Alike R T (Value.ofLiteral l) := by
  cases l with
  | nil => exact .nil
  | bool => exact .bool
  | number => exact .number
  | string => exact .string

theorem Value.Alike.isTruthy (hv : v.Alike R T v') : v'.isTruthy = v.isTruthy := by
  cases hv <;> rfl

theorem Value.Alike.text (hv : v.Alike R T v') : v'.text = v.text := by
  cases hv with
  | cls hc => exact hc.name
  | object hi => exact congrArg (· ++ " instance") hi.cls.name
  | _ => rfl

theorem Value.Alike.equals (hv : v.Alike R T v') (hu : u.Alike R T u') :
    v'.equals u' = v.equals u := by
  cases hv with
  | cls hc =>
    cases hu with
    | cls hd => simp only [Value.equals, hc.id, hd.id]
    | _ => rfl
  | object hi =>
    cases hu with
    | object hj => simp only [Value.equals, hi.id, hj.id]
    | _ => rfl
  | _ => cases hu <;> rfl

theorem UnaryOp.apply_alike (op : UnaryOp) (hv : v.Alike R T v') :
    Agree (Value.Alike R T) (op.apply v) (op.apply v') := by
  cases op with
  | not =>
    rw [UnaryOp.apply, UnaryOp.apply, hv.isTruthy]
    exact .ok .bool
  | negate =>
    cases hv with
    | number => exact .ok .number
    | _ => exact .error

theorem BinaryOp.alike_onNumbers (op : BinaryOp) (x y : Float) :
    (op.onNumbers x y).Alike R T (op.onNumbers x y) := by
  cases op <;> constructor

theorem BinaryOp.apply_alike (op : BinaryOp) (hv : v.Alike R T v') (hu : u.Alike R T u') :
    Agree (Value.Alike R T) (op.apply v u) (op.apply v' u') := by
  have hsame : op.apply v' u' = op.apply v u := by
    cases op with
    | equal => rw [BinaryOp.apply, BinaryOp.apply, hv.equals hu]
    | notEqual => rw [BinaryOp.apply, BinaryOp.apply, hv.equals hu]
    | _ => cases hv <;> cases hu <;> rfl
  rw [hsame]
  unfold BinaryOp.apply
  split
  · exact .ok .bool
  · exact .ok .bool
  · split
    · exact .error
    · split
      · exact .ok (op.alike_onNumbers _ _)
      · exact .ok .string
      · exact .error
      · exact .error

theorem LogicalOp.stopsAt_alike (op : LogicalOp) (hv : v.Alike R T v') :
    op.stopsAt v' = op.stopsAt v := by
  cases op <;> simp only [LogicalOp.stopsAt, hv.isTruthy]

end

theorem FunDecl.Alike.arity {f f' : FunDecl Binding} (h : FunDecl.Alike L σ f f') :
    f'.params.length = f.params.length := by
  cases h with
  | mk _ _ hparams _ => exact hparams.length_eq.symm

theorem Closure.Alike.arity {c c' : Closure} (h : c.Alike R T inward c') : c'.arity = c.arity := by
  obtain ⟨_, _, _, _, hdecl⟩ := h
  exact hdecl.arity

theorem ClassObject.Alike.initializer? {c c' : ClassObject} (h : c.Alike R T c') :
    Option.Rel (Closure.AlikeMethod R T) c.initializer? c'.initializer? :=
  h.methods initializerName

theorem ClassObject.Alike.arity {c c' : ClassObject} (h : c.Alike R T c') : c'.arity = c.arity := by
  have hinit := h.initializer?
  unfold ClassObject.arity
  generalize c.initializer? = o, c'.initializer? = o' at hinit
  cases hinit with
  | none => rfl
  | some hc => exact Closure.Alike.arity hc

theorem Ident.zip_alike {params params' : List Ident} {args args' : List Value}
    (hp : List.Forall₂ (Ident.Alike L θ) params params')
    (ha : List.Forall₂ (Value.Alike R T) args args') :
    List.Forall₂ (fun p p' => p'.1 = θ p.1 ∧ p.2.Alike R T p'.2)
      ((params.map (·.name)).zip args) ((params'.map (·.name)).zip args') := by
  induction hp generalizing args args' with
  | nil => exact .nil
  | cons hn _ ih =>
    cases ha with
    | nil => exact .nil
    | cons hv hargs => exact .cons ⟨hn.name, hv⟩ (ih hargs)

end Lox
