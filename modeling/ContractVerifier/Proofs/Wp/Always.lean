import ContractVerifier.Proofs.Wp.Names
import ContractVerifier.Proofs.Wp.Walk

/-!
# Formulas over stores

A formula of the generator speaks of declared variables, whose values are those of a store, and of
fresh ones, whose values are arbitrary.

* `overlay Γ s a` : the assignment that takes declared variables from `s` and all others from `a`;
* `Always` : a formula is true in a store whatever the fresh variables are;
* `valid_iff` : a formula is valid exactly when it is always true in every typed store;
* `always_call`, `always_havoc` : a fresh variable of a formula stands for all values of its type.
-/

namespace ContractVerifier

/-- A variable of the program: its name is never given as a fresh one, and has one type. -/
def Var.Declared (Γ : String → Ty) (v : Var) : Prop := Fresh.Plain v.name ∧ v.type = Γ v.name

namespace Expr

def Declared (Γ : String → Ty) (e : Expr) : Prop := ∀ v ∈ e.vars, v.Declared Γ

/-- Over variables of the program and fresh ones given so far. -/
def Known (Γ : String → Ty) (c : Counters) (e : Expr) : Prop :=
  ∀ v ∈ e.vars, v.Declared Γ ∨ Fresh.Given c v.name

variable {Γ : String → Ty} {c d : Counters}

theorem Declared.known {e : Expr} (h : e.Declared Γ) : e.Known Γ c := fun v hv => .inl (h v hv)

theorem Known.mono {e : Expr} (h : e.Known Γ c) (hg : Fresh.Grow c d) : e.Known Γ d :=
  fun v hv => (h v hv).imp_right fun hc => hc.mono hg

theorem Known.bin {op : BinOp} {l r : Expr} (hl : l.Known Γ c) (hr : r.Known Γ c) : (Expr.bin op l r).Known Γ c := by
  intro v hv
  rcases List.mem_append.1 hv with hv | hv
  · exact hl v hv
  · exact hr v hv

theorem Known.implies {p q : Expr} (hp : p.Known Γ c) (hq : q.Known Γ c) : (p.implies q).Known Γ c := hp.bin hq

theorem Known.negate {p : Expr} (hp : p.Known Γ c) : p.negate.Known Γ c := hp

theorem Known.conjoin {es : List Expr} (h : ∀ e ∈ es, e.Known Γ c) : (conjoin es).Known Γ c := by
  intro v hv
  obtain ⟨e, he, hv⟩ := mem_vars_conjoin.1 hv
  exact h e he v hv

theorem Known.subst {e t : Expr} {x : String} (he : e.Known Γ c) (ht : t.Known Γ c) : (e.subst x t).Known Γ c := by
  intro v hv
  rcases mem_vars_subst hv with ⟨hv, -⟩ | hv
  · exact he v hv
  · exact ht v hv

/-- A fresh variable is not in what was known before. -/
theorem Known.notMem {e : Expr} (h : e.Known Γ c) {w : Var} (hg : Fresh.Given d w.name)
    (hf : ¬ Fresh.Given c w.name) :
    w ∉ e.vars := by
  intro hw
  rcases h w hw with hd | hc
  · exact Fresh.not_plain_of_given hg hd.1
  · exact hf hc

end Expr

namespace Wp

open ContractVerifier.Flow

/-! ## overlays -/

open Classical in
/-- Declared variables from the store, all others from the assignment. -/
noncomputable def overlay (Γ : String → Ty) (s : Store) (a : Var → Value) (v : Var) : Value :=
  if v.Declared Γ then s v.name else a v

section

variable {z : Int → Int} {Γ : String → Ty} {c d : Counters} {s : Store} {a b : Var → Value}

theorem overlay_declared {v : Var} (h : v.Declared Γ) : overlay Γ s a v = s v.name := by
  unfold overlay
  rw [if_pos h]

theorem overlay_given {v : Var} (h : Fresh.Given c v.name) : overlay Γ s a v = a v := by
  unfold overlay
  rw [if_neg fun hd => Fresh.not_plain_of_given h hd.1]

theorem eval_overlay {M : Meaning} {e : Expr} (he : e.Declared Γ) :
    e.eval M (overlay Γ s a) = e.eval M s.read :=
  Expr.eval_congr fun v hv => overlay_declared (he v hv)

theorem holds_overlay {e : Expr} (he : e.Declared Γ) :
    e.Holds z (overlay Γ s a) ↔ e.Holds z s.read :=
  Expr.holds_congr fun v hv => overlay_declared (he v hv)

theorem map_eval_overlay {es : List Expr} (h : ∀ e ∈ es, e.Declared Γ) :
    es.map (·.eval (.standard z) (overlay Γ s a)) = es.map (·.value z s) :=
  List.map_congr_left fun e he => eval_overlay (h e he)

theorem fitting_overlay (ha : Fitting a) (hs : s.Typed Γ) : Fitting (overlay Γ s a) := by
  intro v
  unfold overlay
  split
  · rename_i h
    rw [h.2]
    exact hs v.name
  · exact ha v

/-- Fresh variables that a formula does not have do not matter. -/
theorem holds_overlay_congr {e : Expr} (h : ∀ v ∈ e.vars, ¬ v.Declared Γ → a v = b v) :
    e.Holds z (overlay Γ s a) ↔ e.Holds z (overlay Γ s b) := by
  refine Expr.holds_congr fun v hv => ?_
  unfold overlay
  split
  · rfl
  · rename_i hd
    exact h v hv hd

/-- To substitute is to set. -/
theorem holds_subst {e t : Expr} {x : String} (he : e.Known Γ c) (hx : Fresh.Plain x) :
    (e.subst x t).Holds z (overlay Γ s a) ↔
      e.Holds z (overlay Γ (s.set x (t.eval (.standard z) (overlay Γ s a))) a) := by
  unfold Expr.Holds
  rw [Expr.eval_subst]
  refine iff_of_eq (congrArg (fun v : Value => v.toBool = true) (Expr.eval_congr fun v hv => ?_))
  rcases he v hv with hd | hg
  · rw [overlay_declared hd, overlay_declared hd]
    rfl
  · have hne : x ≠ v.name := fun h => Fresh.not_plain_of_given hg (h ▸ hx)
    rw [if_neg hne, overlay_given hg, overlay_given hg]

end

/-! ## contracts -/

section

variable {z : Int → Int} {b : Var → Value} {c : Contract} {args : List Expr}

theorem get?_actuals (hl : args.length = c.params.length) {x : String}
    (hx : x ∈ c.params.map (·.name)) :
    ∃ e, (Keyed.ofList ((c.params.map (·.name)).zip args)).get? x = some e := by
  apply Keyed.exists_get?_ofList
  rwa [List.map_fst_zip (by simp [hl])]

theorem holds_pre (hc : ∀ v ∈ c.pre.vars, v.name ∈ c.params.map (·.name))
    (hl : args.length = c.params.length) :
    (c.pre.substitute (.ofList ((c.params.map (·.name)).zip args))).Holds z b ↔
      c.Pre z (args.map (·.eval (.standard z) b)) := by
  unfold Contract.Pre Expr.Holds
  rw [Expr.eval_substitute]
  refine iff_of_eq (congrArg (fun v : Value => v.toBool = true) (Expr.eval_congr fun v hv => ?_))
  obtain ⟨e, he⟩ := get?_actuals hl (hc v hv)
  simp only [Expr.update, Store.read, Store.ofArgs, Keyed.get?_ofList_zip_map, he, Option.map_some,
    Option.getD_some]

theorem holds_post (hc : ∀ v ∈ c.post.vars, v.name = resultName ∨ v.name ∈ c.params.map (·.name))
    (hl : args.length = c.params.length) {t : Expr} :
    (c.post.substitute ((Keyed.ofList ((c.params.map (·.name)).zip args)).put resultName t)).Holds z b ↔
      c.Post z (args.map (·.eval (.standard z) b)) (t.eval (.standard z) b) := by
  unfold Contract.Post Expr.Holds
  rw [Expr.eval_substitute]
  refine iff_of_eq (congrArg (fun v : Value => v.toBool = true) (Expr.eval_congr fun v hv => ?_))
  simp only [Expr.update, Store.read, Store.set, Keyed.get?_put]
  by_cases hr : resultName = v.name
  · simp [hr]
  · obtain ⟨e, he⟩ := get?_actuals hl ((hc v hv).resolve_left (Ne.symm hr))
    simp only [if_neg hr, Store.ofArgs, Keyed.get?_ofList_zip_map, he, Option.map_some,
      Option.getD_some]

end

/-! ## formulas that are always true -/

/-- True in the store for all values of the variables that are not declared. -/
def Always (z : Int → Int) (Γ : String → Ty) (e : Expr) (s : Store) : Prop :=
  ∀ a, Fitting a → e.Holds z (overlay Γ s a)

section

variable {z : Int → Int} {Γ : String → Ty} {c d : Counters} {s : Store}

theorem exists_fitting : ∃ a, Fitting a :=
  ⟨fun v => (Value.exists_fits v.type).choose, fun v => (Value.exists_fits v.type).choose_spec⟩

theorem valid_iff {e : Expr} : e.Valid z ↔ ∀ s : Store, s.Typed Γ → Always z Γ e s := by
  constructor
  · exact fun h s hs a ha => h _ (fitting_overlay ha hs)
  · intro h a ha
    -- the store that gives every name what `a` gives the variable of its type
    have h1 := h (fun x => a ⟨x, Γ x⟩) (fun x => ha ⟨x, Γ x⟩) a ha
    refine (Expr.holds_congr fun v hv => ?_).1 h1
    unfold overlay
    split
    · rename_i hd
      obtain ⟨x, t⟩ := v
      simp only [Var.Declared] at hd
      rw [hd.2]
    · rfl

theorem always_declared {e : Expr} (he : e.Declared Γ) : Always z Γ e s ↔ e.Holds z s.read := by
  constructor
  · intro h
    obtain ⟨a, ha⟩ := exists_fitting
    exact (holds_overlay he).1 (h a ha)
  · exact fun h a _ => (holds_overlay he).2 h

theorem always_subst {e t : Expr} {x : String} (he : e.Known Γ c) (ht : t.Declared Γ)
    (hx : Fresh.Plain x) :
    Always z Γ (e.subst x t) s ↔ Always z Γ e (s.set x (t.value z s)) := by
  refine forall_congr' fun a => imp_congr_right fun _ => ?_
  rw [holds_subst he hx, eval_overlay ht]
  rfl

theorem always_implies {p e : Expr} (hp : p.Declared Γ) :
    Always z Γ (p.implies e) s ↔ (p.Holds z s.read → Always z Γ e s) := by
  unfold Always
  simp only [Expr.holds_implies, holds_overlay hp]
  exact ⟨fun h hs a ha => h a ha hs, fun h a ha hs => h hs a ha⟩

theorem always_conjoin {es : List Expr} : Always z Γ (Expr.conjoin es) s ↔ ∀ e ∈ es, Always z Γ e s := by
  unfold Always
  simp only [Expr.holds_conjoin]
  exact ⟨fun h e he a ha => h a ha e he, fun h a ha e he => h e he a ha⟩

theorem always_branch {g p q : Expr} (hg : g.Declared Γ) :
    Always z Γ (Expr.conjoin [g.implies p, g.negate.implies q]) s ↔
      (g.Holds z s.read → Always z Γ p s) ∧ (¬ g.Holds z s.read → Always z Γ q s) := by
  rw [always_conjoin]
  simp only [List.mem_cons, List.not_mem_nil, or_false, forall_eq_or_imp, forall_eq]
  rw [always_implies hg, always_implies (p := g.negate) hg, Expr.holds_negate]

/-! ## fresh variables -/

open Classical in
/-- One variable has another value. -/
noncomputable def reassign (a : Var → Value) (w : Var) (x : Value) : Var → Value := fun v => if v = w then x else a v

theorem fitting_reassign {a : Var → Value} (ha : Fitting a) {w : Var} {x : Value}
    (hx : x.Fits w.type) :
    Fitting (reassign a w x) := by
  intro v
  unfold reassign
  split
  · rename_i h
    exact h ▸ hx
  · exact ha v

/-- The precondition of the callee, and its postcondition for the result `r` as assumption. -/
def callFormula (k : Contract) (args : List Expr) (t : Option Var) (r : Var) (post : Expr) : Expr :=
  let m := Keyed.ofList ((k.params.map (·.name)).zip args)
  .conjoin [k.pre.substitute m, (k.post.substitute (m.put resultName (.var r))).implies
    (match t with
      | some w => post.subst w.name (.var r)
      | none => post)]

/-- Under one assignment, what a call asks for and what it gives. -/
theorem holds_call {k : Contract} {args : List Expr} {post : Expr} {t : Option Var} {r : Var}
    {a : Var → Value} (hk : k.Scoped) (hl : args.length = k.params.length)
    (hargs : ∀ e ∈ args, e.Declared Γ) (hp : post.Known Γ c)
    (ht : ∀ w, t = some w → Fresh.Plain w.name) (hr : Fresh.Given d r.name) :
    (callFormula k args t r post).Holds z (overlay Γ s a) ↔
      k.Pre z (args.map (·.value z s)) ∧
        (k.Post z (args.map (·.value z s)) (a r) → post.Holds z (overlay Γ (s.bind t (a r)) a)) := by
  have hval : (Expr.var r).eval (.standard z) (overlay Γ s a) = a r := overlay_given hr
  unfold callFormula
  rw [Expr.holds_conjoin]
  simp only [List.mem_cons, List.not_mem_nil, or_false, forall_eq_or_imp, forall_eq,
    Expr.holds_implies]
  rw [holds_pre hk.pre hl, holds_post hk.post hl, map_eval_overlay hargs, hval]
  cases t with
  | none => rfl
  | some w =>
    simp only
    rw [holds_subst hp (ht w rfl), hval]
    rfl

theorem always_call {k : Contract} {args : List Expr} {post : Expr} {t : Option Var} {r : Var}
    (hk : k.Scoped) (hl : args.length = k.params.length) (hargs : ∀ e ∈ args, e.Declared Γ)
    (hp : post.Known Γ c) (ht : ∀ w, t = some w → Fresh.Plain w.name) (hr : Fresh.Given d r.name)
    (hf : ¬ Fresh.Given c r.name) (hty : r.type = k.result) :
    Always z Γ (callFormula k args t r post) s ↔
      k.Pre z (args.map (·.value z s)) ∧ ∀ v : Value, v.Fits k.result →
        k.Post z (args.map (·.value z s)) v → Always z Γ post (s.bind t v) := by
  unfold Always
  simp only [holds_call hk hl hargs hp ht hr]
  constructor
  · intro h
    refine ⟨?_, fun v hv hq a ha => ?_⟩
    · obtain ⟨a, ha⟩ := exists_fitting
      exact (h a ha).1
    · -- `post` does not speak of the fresh variable, so it may have the value `v`
      have h1 := (h (reassign a r v) (fitting_reassign ha (hty ▸ hv))).2
      rw [show reassign a r v r = v from if_pos rfl] at h1
      refine (holds_overlay_congr fun w hw _ => ?_).1 (h1 hq)
      unfold reassign
      rw [if_neg]
      rintro rfl
      exact hp.notMem hr hf hw
  · rintro ⟨hpre, h⟩ a ha
    exact ⟨hpre, fun hq => h (a r) (hty ▸ ha r) hq a ha⟩

/-! ## many fresh variables -/

/-- The names take the values, one by one. -/
def setAll (s : Store) (xs : List String) (vals : List Value) : Store := fun x =>
  ((⟨xs.zip vals⟩ : Keyed String Value).get? x).getD (s x)

theorem setAll_of_notMem {xs : List String} {vals : List Value} {x : String} (hx : x ∉ xs) :
    setAll s xs vals x = s x := by
  unfold setAll
  rw [Keyed.get?_zip_of_notMem hx]
  rfl

theorem type_getElem {vs ws : List Var} (ht : ws.map (·.type) = vs.map (·.type)) {i : Nat}
    (hw : i < ws.length) (hv : i < vs.length) : ws[i].type = vs[i].type := by
  have := congrArg (·[i]?) ht
  simpa [hw, hv] using this

theorem typed_setAll {vs ws : List Var} {a : Var → Value} (hs : s.Typed Γ) (ha : Fitting a)
    (hv : ∀ v ∈ vs, v.Declared Γ) (ht : ws.map (·.type) = vs.map (·.type)) :
    (setAll s (vs.map (·.name)) (ws.map a)).Typed Γ := by
  intro x
  unfold setAll
  cases h : (⟨(vs.map (·.name)).zip (ws.map a)⟩ : Keyed String Value).get? x with
  | none => exact hs x
  | some y =>
    obtain ⟨i, hi, he⟩ := List.mem_iff_getElem.1 (Keyed.mem_of_get? h)
    simp only [List.length_zip, List.length_map, Nat.lt_min] at hi
    simp only [List.getElem_zip, List.getElem_map, Prod.mk.injEq] at he
    obtain ⟨hx, hy⟩ := he
    rw [Option.getD_some, ← hx, ← hy, ← (hv vs[i] (List.getElem_mem _)).2,
      ← type_getElem ht hi.2 hi.1]
    exact ha ws[i]

/-- To put fresh variables in is to take the values of the fresh variables. -/
theorem holds_havoc {e : Expr} {vs ws : List Var} {a : Var → Value} (he : e.Known Γ c)
    (hw : ∀ w ∈ ws, Fresh.Given d w.name) (hv : ∀ v ∈ vs, v.Declared Γ) :
    (e.substitute ⟨(vs.map (·.name)).zip (ws.map .var)⟩).Holds z (overlay Γ s a) ↔
      e.Holds z (overlay Γ (setAll s (vs.map (·.name)) (ws.map a)) a) := by
  have hvals : (ws.map Expr.var).map (·.eval (.standard z) (overlay Γ s a)) = ws.map a := by
    rw [List.map_map]
    exact List.map_congr_left fun w h => overlay_given (hw w h)
  unfold Expr.Holds
  rw [Expr.eval_substitute]
  refine iff_of_eq (congrArg (fun v : Value => v.toBool = true) (Expr.eval_congr fun v hmem => ?_))
  unfold Expr.update
  rw [← Keyed.get?_zip_map, hvals]
  rcases he v hmem with hd | hg
  · rw [overlay_declared hd, overlay_declared hd]
    rfl
  · have hx : v.name ∉ vs.map (·.name) := by
      intro hm
      obtain ⟨u, hu, hn⟩ := List.mem_map.1 hm
      exact Fresh.not_plain_of_given hg (hn ▸ (hv u hu).1)
    rw [overlay_given hg, overlay_given hg]
    exact setAll_of_notMem (s := fun _ => a v) hx

/-- The assignment under which the fresh variables have the values of the store. -/
def readBack (s : Store) (vs ws : List Var) (a : Var → Value) : Var → Value := fun v =>
  ((⟨ws.zip (vs.map fun v => s v.name)⟩ : Keyed Var Value).get? v).getD (a v)

theorem fitting_readBack {vs ws : List Var} {a : Var → Value} (hs : s.Typed Γ) (ha : Fitting a)
    (hv : ∀ v ∈ vs, v.Declared Γ) (ht : ws.map (·.type) = vs.map (·.type)) : Fitting (readBack s vs ws a) := by
  intro w
  unfold readBack
  cases h : (⟨ws.zip (vs.map fun v => s v.name)⟩ : Keyed Var Value).get? w with
  | none => exact ha w
  | some y =>
    obtain ⟨i, hi, he⟩ := List.mem_iff_getElem.1 (Keyed.mem_of_get? h)
    simp only [List.length_zip, List.length_map, Nat.lt_min] at hi
    simp only [List.getElem_zip, List.getElem_map, Prod.mk.injEq] at he
    obtain ⟨hw, hy⟩ := he
    rw [Option.getD_some, ← hw, ← hy, type_getElem ht hi.1 hi.2, (hv vs[i] (List.getElem_mem _)).2]
    exact hs _

theorem setAll_readBack {s₀ : Store} {vs ws : List Var} {a : Var → Value} (hn : ws.Nodup)
    (hl : ws.length = vs.length) (hs : ∀ x, x ∉ vs.map (·.name) → s x = s₀ x) :
    setAll s₀ (vs.map (·.name)) (ws.map (readBack s vs ws a)) = s := by
  have hvals : ws.map (readBack s vs ws a) = (vs.map (·.name)).map s := by
    rw [List.map_map]
    exact Keyed.map_get?_zip a hn (by simp [hl])
  funext x
  unfold setAll
  rw [hvals, Keyed.get?_zip_map_self]
  split
  · rfl
  · rename_i hx
    exact (hs x hx).symm

/-- A formula with fresh variables for the names of `vs` is always true in a store when the formula
itself is in all stores that differ from it at these names only. -/
theorem always_havoc {e : Expr} {vs ws : List Var} (he : e.Known Γ c) (hb : Fresh.Batch c d vs ws)
    (hv : ∀ v ∈ vs, v.Declared Γ) (hs : s.Typed Γ) :
    Always z Γ (e.substitute ⟨(vs.map (·.name)).zip (ws.map .var)⟩) s ↔
      ∀ s' : Store, s'.Typed Γ → (∀ x, x ∉ vs.map (·.name) → s' x = s x) → Always z Γ e s' := by
  have hl : ws.length = vs.length := by simpa using congrArg List.length hb.types
  unfold Always
  simp only [holds_havoc he hb.given hv]
  constructor
  · intro h s' hs' hx a ha
    have h1 := h (readBack s' vs ws a) (fitting_readBack hs' ha hv hb.types)
    rw [setAll_readBack (List.Nodup.of_map _ hb.nodup) hl hx] at h1
    refine (holds_overlay_congr fun v hmem _ => ?_).1 h1
    -- `e` does not speak of the fresh variables
    have hfresh : v ∉ ws := fun hw => he.notMem (hb.given v hw) (hb.fresh v hw) hmem
    unfold readBack
    rw [Keyed.get?_zip_of_notMem hfresh]
    rfl
  · exact fun h a ha => h _ (typed_setAll hs ha hv hb.types) (fun x hx => setAll_of_notMem hx) a ha

end

end Wp

end ContractVerifier
