import ContractVerifier.Proofs.Wp.Exact

/-!
# Two runs side by side

Two generators that differ in their postconditions only take the same steps, and give the same
names.  A relation between formulas that survives what a generator does with them then holds between
all formulas of the two runs.

* `Expr.Unmarked`, `Block.Unmarked`, `Contract.Unmarked` : names of a source, without `#`;
* `Expr.Ordinary` : names of a source and fresh ones, which is all that a generator puts into a
  formula;
* `Carries` : a relation that survives;
* `Gen.Relates` : two computations keep formulas related, and fail alike;
* `relates_wp`, `relates_condition` : so do two generators;
* `buildVc_related` : and so do the verification conditions for two postconditions.
-/

namespace ContractVerifier

open ContractVerifier.Flow ContractVerifier.Flow.Graph

/-! ## names -/

/-- A name of a source or a fresh one. -/
def Fresh.Ordinary (x : String) : Prop := '#' ∉ x.toList ∨ ¬ Fresh.Plain x

namespace Expr

def Unmarked (e : Expr) : Prop := ∀ v ∈ e.vars, '#' ∉ v.name.toList

def Ordinary (e : Expr) : Prop := ∀ v ∈ e.vars, Fresh.Ordinary v.name

instance (e : Expr) : Decidable e.Unmarked :=
  inferInstanceAs (Decidable (∀ v ∈ e.vars, '#' ∉ v.name.toList))

theorem Unmarked.ordinary {e : Expr} (h : e.Unmarked) : e.Ordinary := fun v hv => .inl (h v hv)

theorem ordinary_var {v : Var} (h : ¬ Fresh.Plain v.name) : (var v).Ordinary := by
  intro w hw
  rw [List.mem_singleton.1 hw]
  exact .inr h

theorem Ordinary.substitute {e : Expr} {m : Keyed String Expr} (he : e.Ordinary)
    (hm : ∀ x t, m.get? x = some t → t.Ordinary) : (e.substitute m).Ordinary := by
  intro w hw
  rcases mem_vars_substitute hw with ⟨hw, -⟩ | ⟨v, -, t, ht, hw⟩
  · exact he w hw
  · exact hm v.name t ht w hw

end Expr

namespace Flow

def Op.Unmarked : Op → Prop
  | assign x e => '#' ∉ x.name.toList ∧ e.Unmarked
  | call t _ args => (∀ w, t = some w → '#' ∉ w.name.toList) ∧ ∀ e ∈ args, e.Unmarked

def Terminator.Unmarked : Terminator → Prop
  | goto _ => True
  | branch e _ _ => e.Unmarked
  | ret e => ∀ v, e = some v → v.Unmarked

structure Block.Unmarked (b : Block) : Prop where
  ops : ∀ op ∈ b.ops, op.Unmarked
  term : ∀ t, b.term = some t → t.Unmarked
  invariant : ∀ e, b.invariant = some e → e.Unmarked

instance : (op : Op) → Decidable op.Unmarked
  | .assign x e => inferInstanceAs (Decidable ('#' ∉ x.name.toList ∧ e.Unmarked))
  | .call t _ args => inferInstanceAs (Decidable ((∀ w ∈ t, '#' ∉ w.name.toList) ∧ ∀ e ∈ args, e.Unmarked))

instance : (t : Terminator) → Decidable t.Unmarked
  | .goto _ => inferInstanceAs (Decidable True)
  | .branch e _ _ => inferInstanceAs (Decidable e.Unmarked)
  | .ret e => inferInstanceAs (Decidable (∀ v ∈ e, v.Unmarked))

instance (b : Block) : Decidable b.Unmarked :=
  decidable_of_iff ((∀ op ∈ b.ops, op.Unmarked) ∧ (∀ t ∈ b.term, t.Unmarked) ∧ ∀ e ∈ b.invariant, e.Unmarked)
    ⟨fun h => ⟨h.1, h.2.1, h.2.2⟩, fun h => ⟨h.ops, h.term, h.invariant⟩⟩

theorem Op.Unmarked.target {op : Op} (h : op.Unmarked) {w : Var} (hw : op.target = some w) : '#' ∉ w.name.toList := by
  cases op with
  | assign x e =>
    cases hw
    exact h.1
  | call t f args => exact h.1 w hw

end Flow

structure Contract.Unmarked (c : Contract) : Prop where
  pre : c.pre.Unmarked
  post : c.post.Unmarked

instance (c : Contract) : Decidable c.Unmarked :=
  decidable_of_iff (c.pre.Unmarked ∧ c.post.Unmarked) ⟨fun h => ⟨h.1, h.2⟩, fun h => ⟨h.pre, h.post⟩⟩

namespace Wp

structure Setting.Unmarked (S : Setting) : Prop where
  block : ∀ i b, S.graph.Reaches i → S.graph.block? i = some b → b.Unmarked
  contract : ∀ f c, S.contracts.get? f = some c → c.Unmarked

theorem Setting.Unmarked.writes {S : Setting} (hS : S.Unmarked) {x : String} (h : S.graph.Writes x) : '#' ∉ x.toList := by
  obtain ⟨i, b, op, w, hi, hb, hop, hw, rfl⟩ := h
  exact ((hS.block i b hi hb).ops op hop).target hw

/-! ## relations that survive -/

/-- A relation between formulas that holds of everything the graph and the contracts give, and is
kept by connectives and by replacing names that the graph writes. -/
structure Carries (g : Graph) (R : Expr → Expr → Prop) : Prop where
  bin : ∀ op {p q p' q'}, R p q → R p' q' → R (.bin op p p') (.bin op q q')
  keep : ∀ e : Expr, e.Ordinary → R e e
  substitute : ∀ {m p q}, (∀ x t, m.get? x = some t → (x = resultName ∨ g.Writes x) ∧ t.Ordinary) → R p q →
    R (p.substitute m) (q.substitute m)

namespace Carries

variable {g : Graph} {R : Expr → Expr → Prop} {p q : Expr}

theorem subst (hR : Carries g R) {x : String} {t : Expr} (hx : x = resultName ∨ g.Writes x)
    (ht : t.Ordinary) (h : R p q) : R (p.subst x t) (q.subst x t) := by
  refine hR.substitute (fun y u hy => ?_) h
  rw [Keyed.get?_cons, Keyed.get?_nil] at hy
  split at hy
  · rename_i hxy
    cases hy
    exact ⟨hxy ▸ hx, ht⟩
  · cases hy

theorem implies (hR : Carries g R) {p' q' : Expr} (h : R p q) (h' : R p' q') :
    R (p.implies p') (q.implies q') :=
  hR.bin .imp h h'

theorem conjoin (hR : Carries g R) {es es' : List Expr} (h : R p q) (hes : List.Forall₂ R es es') :
    R (Expr.conjoin (p :: es)) (Expr.conjoin (q :: es')) := by
  show R (es.foldl (.bin .and) p) (es'.foldl (.bin .and) q)
  induction hes generalizing p q with
  | nil => exact h
  | cons he _ ih => exact ih (hR.bin .and h he)

/-- A call asks for and gives the same on both sides. -/
theorem call (hR : Carries g R) {k : Contract} {args : List Expr} {t : Option Var} {r : Var}
    (hk : k.Unmarked) (hargs : ∀ e ∈ args, e.Unmarked) (ht : ∀ w, t = some w → g.Writes w.name)
    (hr : ¬ Fresh.Plain r.name) (h : R p q) :
    R (callFormula k args t r p) (callFormula k args t r q) := by
  have hactual : ∀ x e, (Keyed.ofList ((k.params.map (·.name)).zip args)).get? x = some e → e.Ordinary :=
    fun x e hx => (hargs e (List.of_mem_zip (Keyed.mem_of_get?_ofList hx)).2).ordinary
  have hrequires := hR.keep _ (hk.pre.ordinary.substitute hactual)
  have hensures := hR.keep _ (hk.post.ordinary.substitute
    (m := (Keyed.ofList ((k.params.map (·.name)).zip args)).put resultName (.var r)) fun x e hx => by
      rw [Keyed.get?_put] at hx
      split at hx
      · cases hx
        exact Expr.ordinary_var hr
      · exact hactual x e hx)
  refine hR.conjoin hrequires (.cons (hR.implies hensures ?_) .nil)
  cases t with
  | none => exact h
  | some w => exact hR.subst (.inr (ht w rfl)) (Expr.ordinary_var hr) h

end Carries

/-! ## computations -/

/-- The same names are given, and what is kept is related. -/
structure State.Related (R : Expr → Expr → Prop) (st st' : State) : Prop where
  counters : st'.counters = st.counters
  cache : ∀ i, Option.Rel R (st.cache.get? i) (st'.cache.get? i)
  obligations : List.Forall₂ R st.obligations st'.obligations

/-- Both runs failed in the same way, or both returned. -/
def Outcomes {α β : Type} (R : Expr → Expr → Prop) (Q : α → β → Prop) :
    Except Failure α × State → Except Failure β × State → Prop
  | (.ok a, st), (.ok b, st') => Q a b ∧ st.Related R st'
  | (.error e, _), (.error e', _) => e = e'
  | _, _ => False

namespace Gen

variable {α β γ δ : Type} {R : Expr → Expr → Prop} {P : γ → δ → Prop} {Q : α → β → Prop}

def Relates (R : Expr → Expr → Prop) (Q : α → β → Prop) (x : Gen α) (y : Gen β) : Prop :=
  ∀ st st' : State, st.Related R st' → Outcomes R Q (x.exec st) (y.exec st')

theorem relates_pure {a : α} {b : β} (h : Q a b) : Relates R Q (pure a) (pure b) :=
  fun _ _ hst => ⟨h, hst⟩

theorem relates_throw (e : Failure) : Relates R Q (throw e) (throw e) := fun _ _ _ => rfl

theorem relates_raise (e : Error) : Relates R Q (raise e) (raise e) := fun _ _ _ => rfl

theorem relates_get : Relates R (State.Related R) get get := fun _ _ hst => ⟨hst, hst⟩

theorem Relates.bind {x : Gen γ} {y : Gen δ} {f : γ → Gen α} {h : δ → Gen β} (hx : Relates R P x y)
    (hf : ∀ a b, P a b → Relates R Q (f a) (h b)) : Relates R Q (x >>= f) (y >>= h) := by
  intro st st' hst
  have hrun := hx st st' hst
  rw [exec_bind, exec_bind]
  generalize x.exec st = r at hrun
  generalize y.exec st' = r' at hrun
  obtain ⟨r, st₁⟩ := r
  obtain ⟨r', st₁'⟩ := r'
  cases r with
  | error e =>
    cases r' with
    | error e' => exact hrun
    | ok b => exact hrun.elim
  | ok a =>
    cases r' with
    | error e' => exact hrun.elim
    | ok b => exact hf a b hrun.1 st₁ st₁' hrun.2

/-- What is noted may differ. -/
theorem relates_note (s s' : Step) : Relates R (fun _ _ => True) (note s) (note s') :=
  fun _ _ hst => ⟨trivial, hst.counters, hst.cache, hst.obligations⟩

theorem relates_freshVar (v : Var) : Relates R (fun w w' => w = w' ∧ ¬ Fresh.Plain w.name) (freshVar v) (freshVar v) := by
  intro st st' hst
  have hsame : Fresh.var st'.counters v = Fresh.var st.counters v := by rw [hst.counters]
  refine ⟨⟨congrArg Prod.fst hsame.symm, ?_⟩, congrArg Prod.snd hsame, hst.cache, hst.obligations⟩
  exact Fresh.not_plain_of_given (Fresh.given_next _ _)

theorem relates_freshVars (vs : List Var) :
    Relates R (fun ws ws' => ws = ws' ∧ ∀ w ∈ ws, ¬ Fresh.Plain w.name) (freshVars vs) (freshVars vs) := by
  intro st st' hst
  have hsame : Fresh.vars st'.counters vs = Fresh.vars st.counters vs := by rw [hst.counters]
  refine ⟨⟨congrArg Prod.fst hsame.symm, fun w hw => ?_⟩, congrArg Prod.snd hsame, hst.cache, hst.obligations⟩
  exact Fresh.not_plain_of_given ((Fresh.batch_vars st.counters vs).given w hw)

/-- Related formulas of a block are kept. -/
theorem relates_visit (i : Node) {e e' : Expr} (h : R e e') :
    Relates R R (do
      note (.visited i e)
      modify fun st => { st with cache := st.cache.put i e }
      return e) (do
      note (.visited i e')
      modify fun st => { st with cache := st.cache.put i e' }
      return e') := by
  refine fun st st' hst => ⟨h, hst.counters, fun j => ?_, hst.obligations⟩
  show Option.Rel R ((st.cache.put i e).get? j) ((st'.cache.put i e').get? j)
  rw [Keyed.get?_put, Keyed.get?_put]
  by_cases hij : i = j
  · rw [if_pos hij, if_pos hij]
    exact .some h
  · rw [if_neg hij, if_neg hij]
    exact hst.cache j

end Gen

open Gen

/-! ## blocks -/

/-- The generator for another postcondition. -/
def Generator.withPost (gen : Generator) (post : Expr) : Generator := { gen with post := post }

theorem withPost_graph (gen : Generator) (post : Expr) : (gen.withPost post).graph = gen.graph :=
  rfl

theorem withPost_loops (gen : Generator) (post : Expr) : (gen.withPost post).loops = gen.loops :=
  rfl

section

variable {R : Expr → Expr → Prop} {gen : Generator} {post' : Expr} {i h : Node} {p q : Expr}

theorem relates_callWp (hR : Carries gen.graph R) (hS : gen.setting.Unmarked) {line : Option Int}
    {t : Option Var} {f : String} {args : List Expr}
    (ht : ∀ w, t = some w → gen.graph.Writes w.name) (hargs : ∀ e ∈ args, e.Unmarked)
    (hpq : R p q) : Relates R R (gen.callWp line t f args p) (gen.callWp line t f args q) := by
  unfold Generator.callWp
  cases hc : gen.contractOf line f args with
  | error e => exact relates_raise e
  | ok k =>
    have hk : k.Unmarked := hS.contract f k (contractOf_ok hc).1
    simp only [pure_bind]
    refine (relates_freshVar _).bind fun r r' hr => ?_
    obtain ⟨rfl, hfresh⟩ := hr
    exact (relates_note _ _).bind fun _ _ _ => relates_pure (hR.call hk hargs ht hfresh hpq)

theorem relates_opsWp (hR : Carries gen.graph R) (hS : gen.setting.Unmarked) {line : Option Int}
    {ops : List Op}
    (hops : ∀ op ∈ ops, op.Unmarked ∧ ∀ w, op.target = some w → gen.graph.Writes w.name)
    (hpq : R p q) :
    Relates R R (gen.opsWp line ops p) (gen.opsWp line ops q) := by
  induction ops with
  | nil => exact relates_pure hpq
  | cons op ops ih =>
    obtain ⟨⟨hop, htarget⟩, hrest⟩ := List.forall_mem_cons.1 hops
    unfold Generator.opsWp
    refine (ih hrest).bind fun p q hpq => ?_
    cases op with
    | assign x e => exact relates_pure (hR.subst (.inr (htarget x rfl)) hop.2.ordinary hpq)
    | call t f args => exact relates_callWp hR hS htarget hop.2 hpq

/-- The operations of a block do not look at the postcondition of the function. -/
theorem opsWp_withPost (line : Option Int) (ops : List Op) (p : Expr) :
    (gen.withPost post').opsWp line ops p = gen.opsWp line ops p := by
  induction ops with
  | nil => rfl
  | cons op ops ih =>
    unfold Generator.opsWp
    rw [ih]
    refine congrArg _ (funext fun e => ?_)
    cases op with
    | assign x v => rfl
    | call t f args => rfl

theorem relates_termWp (hR : Carries gen.graph R) (hpost : R gen.post post')
    {wp wp' : Node → Gen Expr} {t : Option Terminator} (ht : ∀ u, t = some u → u.Unmarked)
    (hwp : ∀ u, t = some u → ∀ j ∈ u.successors, Relates R R (wp j) (wp' j)) :
    Relates R R (gen.termWp wp i t) ((gen.withPost post').termWp wp' i t) := by
  cases t with
  | none => exact relates_throw _
  | some u =>
    cases u with
    | ret v =>
      cases v with
      | none => exact relates_pure hpost
      | some v => exact relates_pure (hR.subst (.inl rfl) (ht _ rfl v rfl).ordinary hpost)
    | goto j => exact hwp _ rfl j (by simp [Terminator.successors])
    | branch g j k =>
      have hg : g.Unmarked := ht _ rfl
      have hnot : g.negate.Ordinary := hg.ordinary
      refine (hwp _ rfl j (by simp [Terminator.successors])).bind fun p q hpq => ?_
      refine (hwp _ rfl k (by simp [Terminator.successors])).bind fun p' q' hpq' => relates_pure ?_
      exact hR.conjoin (hR.implies (hR.keep g hg.ordinary) hpq)
        (.cons (hR.implies (hR.keep _ hnot) hpq') .nil)

theorem relates_blockWp (hR : Carries gen.graph R) (hS : gen.setting.Unmarked)
    (hpost : R gen.post post') {wp wp' : Node → Gen Expr} {b : Block} (hi : gen.graph.Reaches i)
    (hb : gen.graph.block? i = some b) (hwp : ∀ j ∈ b.successors, Relates R R (wp j) (wp' j)) :
    Relates R R (gen.blockWp wp i b) ((gen.withPost post').blockWp wp' i b) := by
  have hblock : b.Unmarked := hS.block i b hi hb
  rw [blockWp_eq, blockWp_eq]
  refine (relates_termWp hR hpost hblock.term fun u hu j hj => hwp j (mem_successors hu hj)).bind fun p q hpq => ?_
  rw [opsWp_withPost]
  refine relates_opsWp hR hS (fun op hop => ⟨hblock.ops op hop, fun w hw => ?_⟩) hpq
  exact ⟨i, b, op, w, hi, hb, hop, hw, rfl⟩

theorem relates_block (i : Node) :
    Relates R (fun b b' => b = b' ∧ gen.graph.block? i = some b) (gen.block i) ((gen.withPost post').block i) := by
  show Relates R _ (gen.block i) (gen.block i)
  unfold Generator.block
  cases hb : gen.graph.block? i with
  | none => exact relates_throw _
  | some b => exact relates_pure ⟨rfl, rfl⟩

theorem relates_headerInvariant (hR : Carries gen.graph R) {b : Block} (hb : b.Unmarked) :
    Relates R (fun e e' => e = e' ∧ R e e) (Generator.headerInvariant b) (Generator.headerInvariant b) := by
  unfold Generator.headerInvariant Generator.invariantOf
  cases hinv : b.invariant with
  | none => exact relates_raise _
  | some e => exact relates_pure ⟨rfl, hR.keep e (hb.invariant e hinv).ordinary⟩

theorem relates_wp (hR : Carries gen.graph R) (hS : gen.setting.Unmarked) (hpost : R gen.post post')
    (n : Nat) (hi : gen.graph.Reaches i) :
    Relates R R (gen.wp n i) ((gen.withPost post').wp n i) := by
  induction n generalizing i with
  | zero => exact relates_throw _
  | succ n ih =>
    unfold Generator.wp
    refine relates_get.bind fun st st' hst => ?_
    have hcache := hst.cache i
    generalize st.cache.get? i = kept at hcache ⊢
    generalize st'.cache.get? i = kept' at hcache ⊢
    cases hcache with
    | some h => exact relates_pure h
    | none =>
      refine (relates_block i).bind fun b b' hb => ?_
      obtain ⟨rfl, hb⟩ := hb
      rw [withPost_loops]
      by_cases hh : gen.loops.contains i = true
      · rw [if_pos hh, if_pos hh]
        refine (relates_headerInvariant hR (hS.block i b hi hb)).bind fun e e' he => ?_
        obtain ⟨rfl, he⟩ := he
        exact relates_visit i he
      · rw [if_neg hh, if_neg hh]
        refine (relates_blockWp hR hS hpost hi hb fun j hj => ?_).bind fun e e' he => relates_visit i he
        exact ih (hi.step ((edge_iff hb).2 hj))

/-! ## obligations -/

theorem relates_rawObligations (hR : Carries gen.graph R) (hS : gen.setting.Unmarked)
    (hpost : R gen.post post') {b : Block} (hh : gen.graph.Reaches h)
    (hb : gen.graph.block? h = some b) {inv : Expr} (hinv : R inv inv) :
    Relates R (List.Forall₂ R) (gen.rawObligations h b inv) ((gen.withPost post').rawObligations h b inv) := by
  have hwp : ∀ j ∈ b.successors, Relates R R (gen.wp gen.fuel j) ((gen.withPost post').wp gen.fuel j) :=
    fun j hj => relates_wp hR hS hpost gen.fuel (hh.step ((edge_iff hb).2 hj))
  unfold Generator.rawObligations
  split
  · rename_i g j k ht hops
    have hg : g.Unmarked := (hS.block h b hh hb).term _ ht
    have hnot : g.negate.Ordinary := hg.ordinary
    refine (hwp j (mem_successors ht (by simp [Terminator.successors]))).bind fun p q hpq => ?_
    refine (hwp k (mem_successors ht (by simp [Terminator.successors]))).bind fun p' q' hpq' => relates_pure ?_
    refine .cons (hR.implies ?_ hpq) (.cons (hR.implies ?_ hpq') .nil)
    · exact hR.conjoin hinv (.cons (hR.keep g hg.ordinary) .nil)
    · exact hR.conjoin hinv (.cons (hR.keep _ hnot) .nil)
  · refine (relates_blockWp hR hS hpost hh hb hwp).bind fun p q hpq => relates_pure ?_
    exact .cons (hR.implies hinv hpq) .nil

/-- Fresh variables are put in for the written ones, on both sides. -/
theorem Carries.havoc (hR : Carries gen.graph R) {vs : Keyed String Var} {ws : List Var}
    (hvs : gen.graph.reachable.bind gen.graph.assigned = .ok vs)
    (hws : ∀ w ∈ ws, ¬ Fresh.Plain w.name) (hpq : R p q) :
    R (p.substitute ⟨vs.keys.zip (ws.map .var)⟩) (q.substitute ⟨vs.keys.zip (ws.map .var)⟩) := by
  refine hR.substitute (fun x t hx => ?_) hpq
  obtain ⟨hkey, hvalue⟩ := List.of_mem_zip (Keyed.mem_of_get? hx)
  obtain ⟨w, hw, rfl⟩ := List.mem_map.1 hvalue
  exact ⟨.inr (((reachable_assigned hvs).2.2 x).1 hkey), Expr.ordinary_var (hws w hw)⟩

theorem relates_loopObligations (hR : Carries gen.graph R) (hS : gen.setting.Unmarked)
    (hpost : R gen.post post') (hh : gen.graph.Reaches h) :
    Relates R (List.Forall₂ R) (gen.loopObligations h) ((gen.withPost post').loopObligations h) := by
  unfold Generator.loopObligations
  refine (relates_block h).bind fun b b' hb => ?_
  obtain ⟨rfl, hb⟩ := hb
  refine (relates_headerInvariant hR (hS.block h b hh hb)).bind fun inv inv' hinv => ?_
  obtain ⟨rfl, hinv⟩ := hinv
  refine (relates_rawObligations hR hS hpost hh hb hinv).bind fun os os' hos => ?_
  rw [withPost_graph]
  cases hvs : gen.graph.reachable.bind gen.graph.assigned with
  | error f => exact relates_throw _
  | ok vs =>
    simp only [pure_bind]
    refine (relates_freshVars vs.values).bind fun ws ws' hws => ?_
    obtain ⟨rfl, hfresh⟩ := hws
    refine (relates_note _ _).bind fun _ _ _ => relates_pure ?_
    rw [List.forall₂_map_left_iff, List.forall₂_map_right_iff]
    exact hos.imp fun p q hpq => hR.havoc hvs hfresh hpq

theorem relates_addObligations (hR : Carries gen.graph R) (hS : gen.setting.Unmarked)
    (hpost : R gen.post post') {hs : List Node} (hh : ∀ h ∈ hs, gen.graph.Reaches h) :
    Relates R (fun _ _ => True) (gen.addObligations hs) ((gen.withPost post').addObligations hs) := by
  induction hs with
  | nil => exact relates_pure trivial
  | cons h hs ih =>
    obtain ⟨hfirst, hrest⟩ := List.forall_mem_cons.1 hh
    unfold Generator.addObligations
    refine (relates_loopObligations hR hS hpost hfirst).bind fun os os' hos => ?_
    have hadd : Relates R (fun _ _ => True) (modify fun st => { st with obligations := st.obligations ++ os })
        (modify fun st => { st with obligations := st.obligations ++ os' }) :=
      fun st st' hst => ⟨trivial, hst.counters, hst.cache, List.rel_append hst.obligations hos⟩
    exact hadd.bind fun _ _ _ => ih hrest

theorem relates_checkInvariants (hR : Carries gen.graph R) (hS : gen.setting.Unmarked)
    {hs : List Node} (hh : ∀ h ∈ hs, gen.graph.Reaches h) :
    Relates R (fun _ _ => True) (gen.checkInvariants hs) ((gen.withPost post').checkInvariants hs) := by
  induction hs with
  | nil => exact relates_pure trivial
  | cons h hs ih =>
    obtain ⟨hfirst, hrest⟩ := List.forall_mem_cons.1 hh
    unfold Generator.checkInvariants
    refine (relates_block h).bind fun b b' hb => ?_
    obtain ⟨rfl, hb⟩ := hb
    exact (relates_headerInvariant hR (hS.block h b hfirst hb)).bind fun _ _ _ => ih hrest

/-! ## conditions -/

theorem relates_generate (hR : Carries gen.graph R) (hS : gen.setting.Unmarked)
    (hpost : R gen.post post') (hl : gen.graph.loops = .ok gen.loops) :
    Relates R R gen.generate (gen.withPost post').generate := by
  have hheader : ∀ h ∈ gen.loops.keys, gen.graph.Reaches h := by
    intro h hh
    rw [Keyed.mem_keys_iff, ← Keyed.contains_iff, contains_loops hl] at hh
    exact hh.reaches
  unfold Generator.generate
  refine (relates_checkInvariants hR hS hheader).bind fun _ _ _ => ?_
  refine (relates_wp hR hS hpost gen.fuel .refl).bind fun e e' he => ?_
  exact (relates_addObligations hR hS hpost hheader).bind fun _ _ _ => relates_pure he

theorem relates_notes (os os' : List Expr) (hos : List.Forall₂ R os os') :
    Relates R (fun _ _ => True)
      (forIn os PUnit.unit fun o _ => do
        note (.obligation o)
        pure (.yield PUnit.unit))
      (forIn os' PUnit.unit fun o _ => do
        note (.obligation o)
        pure (.yield PUnit.unit)) := by
  induction hos with
  | nil => exact relates_pure trivial
  | cons _ _ ih =>
    rw [List.forIn_cons, List.forIn_cons]
    simp only [bind_assoc, pure_bind]
    exact (relates_note _ _).bind fun _ _ _ => ih

theorem relates_condition (hR : Carries gen.graph R) (hS : gen.setting.Unmarked)
    (hpost : R gen.post post') (hl : gen.graph.loops = .ok gen.loops) {pre : Expr}
    (hpre : pre.Unmarked) :
    Relates R R (gen.condition pre) ((gen.withPost post').condition pre) := by
  unfold Generator.condition
  refine (relates_generate hR hS hpost hl).bind fun e e' he => (relates_note _ _).bind fun _ _ _ => ?_
  refine relates_get.bind fun st st' hst => (relates_notes _ _ hst.obligations).bind fun _ _ _ => relates_pure ?_
  exact hR.implies (hR.keep pre hpre.ordinary) (hR.conjoin he hst.obligations)

end

/-- With two postconditions there is no verification condition for the same reason, or there are
related ones. -/
theorem buildVc_related {R : Expr → Expr → Prop} {S : Setting} {pre post' : Expr}
    (hR : Carries S.graph R) (hS : S.Unmarked) (hpre : pre.Unmarked) (hpost : R S.post post') :
    (∃ f, buildVc pre S.post S.graph S.contracts = .error f ∧ buildVc pre post' S.graph S.contracts = .error f) ∨
      ∃ vc vc', buildVc pre S.post S.graph S.contracts = .ok vc ∧
        buildVc pre post' S.graph S.contracts = .ok vc' ∧
        R vc vc' := by
  rw [buildVc_def, buildVc_def]
  cases hl : S.graph.loops with
  | error f => exact .inl ⟨_, rfl, rfl⟩
  | ok ls =>
    let gen : Generator := ⟨S.graph, S.post, S.contracts, ls⟩
    have hstart : State.Related R {} {} := ⟨rfl, fun _ => .none, .nil⟩
    have hgen : gen.setting.Unmarked := hS
    have hrel : Relates R R (gen.condition pre) ((gen.withPost post').condition pre) :=
      relates_condition hR hgen hpost hl hpre
    have hrun := hrel {} {} hstart
    show (∃ f, ((gen.condition pre).exec {}).1 = .error f ∧ (((gen.withPost post').condition pre).exec {}).1 = .error f) ∨
      ∃ vc vc', ((gen.condition pre).exec {}).1 = .ok vc ∧ (((gen.withPost post').condition pre).exec {}).1 = .ok vc' ∧
        R vc vc'
    generalize (gen.condition pre).exec {} = r at hrun ⊢
    generalize ((gen.withPost post').condition pre).exec {} = r' at hrun ⊢
    obtain ⟨r, st⟩ := r
    obtain ⟨r', st'⟩ := r'
    cases r with
    | error e =>
      cases r' with
      | error e' => exact .inl ⟨e, rfl, congrArg _ (Eq.symm hrun)⟩
      | ok vc' => exact hrun.elim
    | ok vc =>
      cases r' with
      | error e' => exact hrun.elim
      | ok vc' => exact .inr ⟨vc, vc', rfl, rfl, hrun.1⟩

end Wp

end ContractVerifier
