import Lox.Proofs.Machine.Fits

namespace Lox
set_option autoImplicit true

namespace Arena

variable {a : Arena}

theorem nearest_globals (hg : a.get? globals = some e) (he : e.enclosing = none) (x : String) :
    a.nearest globals x = match e.values.get? x with
      | some v => .ok (globals, e, v)
      | none => .error (.undefined x) := by
  rw [nearest, nearestUpTo, find_eq_ok hg]
  simp only [bind, Except.bind, he]
  cases e.values.get? x <;> rfl

end Arena

namespace Store

variable {P : List (Program Binding)} {W W' : Roles} {s : Store} {a : Arena} {b env h : Handle}
  {e : Environment} {zs : List (Zone Binding)} {Ss : List Scope} {Γ : Context} {v : Value}
  {x : String}

theorem Fits.later (hs : s.Fits P W) (hl : World.Later b (s.world P W) ⟨P, a, W'⟩)
    (ha : World.Sound ⟨P, a, W'⟩) : Store.Fits P W' { s with arena := a } :=
  ⟨ha, fun i x v hv => (hs.fields i x v hv).later hl⟩

theorem Fits.fresh (hs : s.Fits P W) : s.fresh.2.Fits P W := ⟨hs.sound, hs.fields⟩

theorem read_bound (ha : s.arena.ancestor env d = .ok (h, e)) (x : String) :
    s.read env x (.bound d) = match e.values.get? x with
      | some v => .ok v
      | none => .error (.unbound x) := by
  rw [Store.read, Arena.getAt, ha]
  simp only [bind, Except.bind]
  cases e.values.get? x <;> rfl

theorem Fits.read (hs : s.Fits P W) (hc : s.arena.Chain W env zs Ss)
    (hr : s.read env x ref = .ok v) : v.Fits (s.world P W) := by
  cases ref with
  | bound d =>
    cases ha : s.arena.ancestor env d with
    | error f => rw [Store.read, Arena.getAt, ha] at hr; cases hr
    | ok found =>
      rw [read_bound ha] at hr
      cases hv : found.2.values.get? x with
      | none => rw [hv] at hr; cases hr
      | some u =>
        rw [hv] at hr
        cases hr
        exact hs.sound.values _ _ x _ (Arena.outward_of_ancestor ha).get? hv
  | free =>
    obtain ⟨e, hg, he⟩ := hc.globals_live
    rw [Store.read, Arena.get, Arena.nearest_globals hg he] at hr
    cases hv : e.values.get? x with
    | none => rw [hv] at hr; cases hr
    | some u =>
      rw [hv] at hr
      cases hr
      exact hs.sound.values _ _ x _ hg hv

theorem read_free_eq_error (hc : s.arena.Chain W env zs Ss)
    (hr : s.read env x .free = .error fault) : fault = .undefined x := by
  obtain ⟨e, hg, he⟩ := hc.globals_live
  rw [Store.read, Arena.get, Arena.nearest_globals hg he] at hr
  cases hv : e.values.get? x with
  | none => rw [hv] at hr; cases hr; rfl
  | some u => rw [hv] at hr; cases hr

theorem Fits.put (hs : s.Fits P W) (hg : s.arena.get? h = some e)
    (hv : v.Fits ((s.world P W).define h e x v))
    (hx : ∀ z, W h = some z → z.scope.contains x = true) :
    Store.Fits P W { s with arena := s.arena.put h { e with values := e.values.set x v } } :=
  hs.later (World.later_define (w := s.world P W) hg h x v) (hs.sound.define hg hv hx)

/-- An assignment finds the environment of the scope that resolution meant, or a global. -/
theorem assign_cases (hs : s.Fits P W) (hc : s.arena.Chain W env zs Γ.scopes)
    (hsite : Site P zs Γ (.expr (.assign name ref value))) (v : Value) :
    (∃ h e, s.arena.get? h = some e ∧ (∀ z, W h = some z → z.scope.contains name.name = true) ∧
      s.assign env name.name ref v =
        .ok { s with arena := s.arena.put h { e with values := e.values.set name.name v } }) ∨
    s.assign env name.name ref v = .error (.undefined name.name) := by
  have href : Γ.binding name.name = ref :=
    (Expr.assign.inj (Code.expr.inj (hsite.proper hs.sound.accepted).resolved)).2.1
  cases ref with
  | bound d =>
    obtain ⟨S, hS, hcont, _⟩ := Context.binding_eq_bound href
    obtain ⟨i, e, z, ha, hg, hz, hW, _⟩ := hc.ancestor hS
    refine .inl ⟨i, e, hg, fun z' hz' => ?_, ?_⟩
    · cases hW.symm.trans hz'
      exact hsite.within_at hS hz _ hcont
    · rw [Store.assign, Arena.assignAt, ha]
      rfl
  | free =>
    obtain ⟨e, hg, he⟩ := hc.globals_live
    have hn := Arena.nearest_globals hg he name.name
    cases hv : e.values.get? name.name with
    | some u =>
      rw [hv] at hn
      refine .inl ⟨globals, e, hg, fun z hz => ?_, ?_⟩
      · cases hs.sound.globals.symm.trans hz
      · rw [Store.assign, Arena.assign, hn]
        rfl
    | none =>
      rw [hv] at hn
      exact .inr (by rw [Store.assign, Arena.assign, hn]; rfl)

theorem define_eq_ok (hg : s.arena.get? env = some e) (x : String) (v : Value) :
    s.define env x v =
      .ok { s with arena := s.arena.put env { e with values := e.values.set x v } } := by
  rw [Store.define, Arena.define_eq_ok hg]
  rfl

theorem fieldsOf_setField (s : Store) (i j : Instance) (x : String) (v : Value) :
    (s.setField i x v).fieldsOf j =
      if i.id = j.id then (s.fieldsOf i).set x v else s.fieldsOf j := by
  simp only [fieldsOf, setField, Std.TreeMap.getElem?_insert]
  split <;> simp_all

theorem Fits.setField (hs : s.Fits P W) (hv : v.Fits (s.world P W)) (i : Instance) (x : String) :
    (s.setField i x v).Fits P W := by
  refine ⟨hs.sound, fun j y u hu => ?_⟩
  rw [fieldsOf_setField] at hu
  split at hu
  · rw [Bindings.get?_set] at hu
    split at hu
    · cases hu
      exact hv
    · exact hs.fields i y u hu
  · exact hs.fields j y u hu

theorem Fits.property? (hs : s.Fits P W) (hi : i.cls.Fits (s.world P W))
    (hp : s.property? i x = some (v, s')) : v.Fits (s.world P W) ∧ s'.Fits P W ∧
      s'.arena = s.arena := by
  rw [Store.property?] at hp
  split at hp
  · rename_i u hu
    cases hp
    exact ⟨hs.fields i x v hu, hs, rfl⟩
  · split at hp
    · rename_i m hm
      cases hp
      exact ⟨⟨(hi x m hm).2, hi⟩, hs.fresh, rfl⟩
    · cases hp

end Store

end Lox
