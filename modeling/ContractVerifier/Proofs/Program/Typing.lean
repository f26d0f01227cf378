import ContractVerifier.Proofs.Program.Hygiene
import ContractVerifier.Proofs.Smt.Verdict
import ContractVerifier.Proofs.Wp.Exact

/-!
# Verification conditions are well typed

A typed graph, typed conditions and typed contracts give a typed verification condition, in which
every name has one type, and which the solver takes.  The types of fresh names are not known in
advance: the one for the result of a call that nobody keeps depends on the callee.  So a scope grows
with the names that are given.

* `Scope` : the types of names, as far as they have one;
* `Expr.Formula` : a truth value over a scope;
* `Setting.Typed` : a graph, a postcondition and contracts over a scope;
* `Gen.Types` : a computation keeps all formulas typed, over a scope that grows;
* `buildVc_typed` : so does the generator.
-/

namespace ContractVerifier

open ContractVerifier.Flow ContractVerifier.Flow.Graph Source Wp

/-! ## scopes -/

abbrev Scope := String → Option Ty

namespace Scope

/-- Names keep their types, and all new names are fresh ones. -/
structure Le (Γ Δ : Scope) : Prop where
  keeps : ∀ x t, Γ x = some t → Δ x = some t
  fresh : ∀ x t, Δ x = some t → Γ x = some t ∨ ¬ Fresh.Plain x

theorem Le.refl (Γ : Scope) : Γ.Le Γ := ⟨fun _ _ h => h, fun _ _ h => .inl h⟩

theorem Le.trans {Γ Δ Θ : Scope} (h : Γ.Le Δ) (h' : Δ.Le Θ) : Γ.Le Θ := by
  refine ⟨fun x t hx => h'.keeps x t (h.keeps x t hx), fun x t hx => ?_⟩
  rcases h'.fresh x t hx with hx | hx
  · exact h.fresh x t hx
  · exact .inr hx

/-- The scope with one more variable. -/
def add (Γ : Scope) (v : Var) : Scope := fun x => if x = v.name then some v.type else Γ x

theorem add_self (Γ : Scope) (v : Var) : Γ.add v v.name = some v.type := if_pos rfl

theorem le_add {Γ : Scope} {v : Var} (h : Γ v.name = none) (hv : ¬ Fresh.Plain v.name) : Γ.Le (Γ.add v) := by
  unfold add
  refine ⟨fun x t hx => ?_, fun x t hx => ?_⟩
  · have hne : x ≠ v.name := by
      rintro rfl
      rw [h] at hx
      cases hx
    rw [if_neg hne]
    exact hx
  · split at hx
    · rename_i hn
      exact .inr (hn ▸ hv)
    · exact .inl hx

end Scope

namespace Expr

def Over (Γ : Scope) (e : Expr) : Prop := ∀ v ∈ e.vars, Γ v.name = some v.type

structure Formula (Γ : Scope) (e : Expr) : Prop where
  vars : e.Over Γ
  type : e.typeOf = .ok .bool

instance (Γ : Scope) (e : Expr) : Decidable (e.Over Γ) :=
  inferInstanceAs (Decidable (∀ v ∈ e.vars, Γ v.name = some v.type))

instance (Γ : Scope) (e : Expr) : Decidable (e.Formula Γ) :=
  decidable_of_iff (e.Over Γ ∧ e.typeOf = .ok .bool) ⟨fun h => ⟨h.1, h.2⟩, fun h => ⟨h.vars, h.type⟩⟩

variable {Γ Δ : Scope}

theorem over_var {v : Var} (h : Γ v.name = some v.type) : (var v).Over Γ := by
  intro w hw
  rw [List.mem_singleton.1 hw]
  exact h

theorem Over.mono {e : Expr} (h : e.Over Γ) (hle : Γ.Le Δ) : e.Over Δ :=
  fun v hv => hle.keeps _ _ (h v hv)

namespace Formula

theorem mono {e : Expr} (h : e.Formula Γ) (hle : Γ.Le Δ) : e.Formula Δ := ⟨h.vars.mono hle, h.type⟩

theorem bin {op : BinOp} {p q : Expr} (hp : p.Formula Γ) (hq : q.Formula Γ)
    (hop : op.operand.getD .bool = .bool) (htype : op.type = .bool) :
    (Expr.bin op p q).Formula Γ := by
  refine ⟨fun v hv => ?_, htype ▸ typeOf_bin_of hp.type hq.type hop⟩
  rcases List.mem_append.1 hv with hv | hv
  · exact hp.vars v hv
  · exact hq.vars v hv

theorem implies {p q : Expr} (hp : p.Formula Γ) (hq : q.Formula Γ) : (p.implies q).Formula Γ :=
  hp.bin hq rfl rfl

theorem negate {p : Expr} (hp : p.Formula Γ) : p.negate.Formula Γ := ⟨hp.vars, typeOf_un_of hp.type⟩

theorem foldl_and {p : Expr} {es : List Expr} (hp : p.Formula Γ) (h : ∀ e ∈ es, e.Formula Γ) :
    (es.foldl (.bin .and) p).Formula Γ := by
  induction es generalizing p with
  | nil => exact hp
  | cons e es ih =>
    obtain ⟨he, hes⟩ := List.forall_mem_cons.1 h
    exact ih (hp.bin he rfl rfl) hes

theorem conjoin {es : List Expr} (h : ∀ e ∈ es, e.Formula Γ) : (conjoin es).Formula Γ := by
  cases es with
  | nil => exact ⟨nofun, rfl⟩
  | cons e es =>
    obtain ⟨he, hes⟩ := List.forall_mem_cons.1 h
    exact he.foldl_and hes

/-- Every variable is replaced by an expression of its type, or stays. -/
theorem substitute {e : Expr} {m : Keyed String Expr} (h : e.typeOf = .ok .bool)
    (hm : ∀ v ∈ e.vars, ((m.get? v.name).getD (.var v)).Over Γ ∧ ((m.get? v.name).getD (.var v)).typeOf = .ok v.type) :
    (e.substitute m).Formula Γ := by
  refine ⟨fun w hw => ?_, typeOf_substitute h fun v hv => (hm v hv).2⟩
  rcases mem_vars_substitute hw with ⟨hw, hnone⟩ | ⟨v, hv, t, ht, hwt⟩
  · have hvars := (hm w hw).1
    rw [hnone] at hvars
    exact hvars w (List.mem_singleton.2 rfl)
  · have hvars := (hm v hv).1
    rw [ht] at hvars
    exact hvars w hwt

theorem subst {e t : Expr} {x : String} (h : e.Formula Γ) (ht : t.Over Γ)
    (hx : ∀ u, Γ x = some u → u ≠ .unknown → t.typeOf = .ok u) : (e.subst x t).Formula Γ := by
  refine .substitute h.type fun v hv => ?_
  rw [Keyed.get?_cons]
  split
  · rename_i hn
    exact ⟨ht, hx v.type (hn ▸ h.vars v hv) (type_ne_unknown h.type v hv)⟩
  · exact ⟨over_var (h.vars v hv), if_neg (type_ne_unknown h.type v hv)⟩

end Formula

end Expr

/-! ## what is typed -/

/-- The conditions of a contract are formulas over its parameters, and the postcondition also over
the result. -/
structure Contract.Typed (c : Contract) : Prop where
  pre : c.pre.Formula (paramTypes c.params).get?
  post : c.post.Formula (Scope.add (paramTypes c.params).get? ⟨resultName, c.result⟩)

namespace Flow

/-- Values have the types of their targets, and results have the types that the contracts
declare. -/
def Op.Typed (Γ : Scope) (cs : Contracts) : Op → Prop
  | assign x e => Γ x.name = some x.type ∧ e.Over Γ ∧ e.typeOf = .ok x.type
  | call x f args => (∀ w, x = some w → Γ w.name = some w.type ∧ ∀ c, cs.get? f = some c → w.type = c.result) ∧
      ∀ e ∈ args, e.Over Γ

/-- Guards are formulas, and returned values have the type of the result. -/
def Terminator.Typed (Γ : Scope) : Terminator → Prop
  | goto _ => True
  | branch e _ _ => e.Formula Γ
  | ret e => ∀ v, e = some v → v.Over Γ ∧ ∀ t, Γ resultName = some t → v.typeOf = .ok t

structure Block.Typed (Γ : Scope) (cs : Contracts) (b : Block) : Prop where
  ops : ∀ op ∈ b.ops, op.Typed Γ cs
  term : ∀ t, b.term = some t → t.Typed Γ
  invariant : ∀ e, b.invariant = some e → e.Formula Γ

end Flow

namespace Wp

/-- All that is reachable is typed, and no name of the scope can be given as a fresh one. -/
structure Setting.Typed (Γ : Scope) (S : Setting) : Prop where
  names : ∀ x t, Γ x = some t → '#' ∉ x.toList
  post : S.post.Formula Γ
  block : ∀ i b, S.graph.Reaches i → S.graph.block? i = some b → b.Typed Γ S.contracts
  contracts : ∀ f c, S.contracts.get? f = some c → c.Typed

/-! ## computations -/

/-- The names of the scope are those of the program and those given so far, and all formulas that
are kept are typed. -/
structure State.Typed (Γ : Scope) (st : State) : Prop where
  names : ∀ x t, Γ x = some t → Fresh.Plain x ∨ Fresh.Given st.counters x
  cache : ∀ i e, st.cache.get? i = some e → e.Formula Γ
  obligations : ∀ o ∈ st.obligations, o.Formula Γ

namespace Gen

variable {α β : Type} {Γ : Scope}

/-- A result is right over a scope that goes on from `Γ`, and the state is typed over it. -/
def Types (Γ : Scope) (x : Gen α) (Q : Scope → α → Prop) : Prop :=
  ∀ st : State, st.Typed Γ → Spec False x st fun a st' => ∃ Δ, Γ.Le Δ ∧ st'.Typed Δ ∧ Q Δ a

theorem types_pure {a : α} {Q : Scope → α → Prop} (h : Q Γ a) : Types Γ (pure a) Q :=
  fun _ hst => ⟨Γ, .refl Γ, hst, h⟩

theorem Types.bind {x : Gen α} {f : α → Gen β} {P : Scope → α → Prop} {Q : Scope → β → Prop}
    (hx : Types Γ x P) (hf : ∀ Δ a, Γ.Le Δ → P Δ a → Types Δ (f a) Q) : Types Γ (x >>= f) Q := by
  intro st hst
  rw [spec_bind]
  refine (hx st hst).mono ?_
  rintro a st₁ ⟨Δ, hΔ, hst₁, ha⟩
  refine (hf Δ a hΔ ha st₁ hst₁).mono ?_
  rintro b st₂ ⟨Θ, hΘ, hst₂, hb⟩
  exact ⟨Θ, hΔ.trans hΘ, hst₂, hb⟩

theorem types_throw (e : Failure) {Q : Scope → α → Prop} : Types Γ (throw e) Q := fun _ _ => id

theorem types_raise (e : Error) {Q : Scope → α → Prop} : Types Γ (raise e) Q := fun _ _ => id

theorem types_note (s : Step) : Types Γ (note s) fun _ _ => True :=
  fun _ hst => ⟨Γ, .refl Γ, ⟨hst.1, hst.2, hst.3⟩, trivial⟩

/-- A fresh variable is new to the scope. -/
theorem types_freshVar (v : Var) : Types Γ (freshVar v) fun Δ w => Δ w.name = some w.type ∧ w.type = v.type := by
  intro st hst
  have hgiven : Fresh.Given (Fresh.var st.counters v).2 (Fresh.var st.counters v).1.name :=
    Fresh.given_next _ _
  have hgrow : Fresh.Grow st.counters (Fresh.var st.counters v).2 := Fresh.grow_next _ _
  have hnew : Γ (Fresh.var st.counters v).1.name = none := by
    refine Option.eq_none_iff_forall_ne_some.2 fun t ht => ?_
    rcases hst.names _ t ht with hplain | hbefore
    · exact Fresh.not_plain_of_given hgiven hplain
    · exact Fresh.not_given_next _ _ hbefore
  have hle := Scope.le_add hnew (Fresh.not_plain_of_given hgiven)
  refine spec_freshVar.2 ⟨Γ.add (Fresh.var st.counters v).1, hle, ⟨fun x t hx => ?_, fun i e he => (hst.cache i e he).mono hle,
    fun o ho => (hst.obligations o ho).mono hle⟩, Γ.add_self _, rfl⟩
  unfold Scope.add at hx
  split at hx
  · rename_i hn
    exact .inr (hn ▸ hgiven)
  · exact (hst.names x t hx).imp_right fun h => h.mono hgrow

theorem freshVars_cons (v : Var) (vs : List Var) : freshVars (v :: vs) = (do
    let w ← freshVar v
    let ws ← freshVars vs
    pure (w :: ws)) := rfl

theorem types_freshVars (vs : List Var) :
    Types Γ (freshVars vs) fun Δ ws => List.Forall₂ (fun v w => Δ w.name = some w.type ∧ w.type = v.type) vs ws := by
  induction vs generalizing Γ with
  | nil => exact types_pure .nil
  | cons v vs ih =>
    rw [freshVars_cons]
    refine (types_freshVar v).bind fun Δ w _ hw => ih.bind fun Θ ws hΘ hws => types_pure (.cons ⟨?_, hw.2⟩ hws)
    exact hΘ.keeps _ _ hw.1

end Gen

open Gen

/-! ## calls -/

section

variable {Γ : Scope} {c : Contract} {args : List Expr}

theorem formula_requires (hc : c.Typed) (hty : args.map Expr.typeOf = c.params.map fun p => .ok p.type)
    (hargs : ∀ a ∈ args, a.Over Γ) : (c.requires args).Formula Γ := by
  refine .substitute hc.pre.type fun v hv => ?_
  obtain ⟨a, hmem, ha, htype⟩ := Contract.exists_actual hty (hc.pre.vars v hv)
  rw [ha]
  exact ⟨hargs a hmem, htype⟩

theorem formula_ensures (hc : c.Typed) (hty : args.map Expr.typeOf = c.params.map fun p => .ok p.type)
    (hargs : ∀ a ∈ args, a.Over Γ) {r : Var} (hr : Γ r.name = some r.type)
    (hresult : r.type = c.result) :
    (c.ensures args r).Formula Γ := by
  refine .substitute hc.post.type fun v hv => ?_
  have hscope : Scope.add (paramTypes c.params).get? ⟨resultName, c.result⟩ v.name = some v.type :=
    hc.post.vars v hv
  unfold Scope.add at hscope
  rw [Keyed.get?_put]
  by_cases hn : v.name = resultName
  · rw [if_pos hn] at hscope
    have htype : r.type = v.type := hresult.trans (Option.some.inj hscope)
    rw [if_pos hn.symm, Option.getD_some]
    exact ⟨Expr.over_var hr, htype ▸ if_neg (htype ▸ Expr.type_ne_unknown hc.post.type v hv)⟩
  · rw [if_neg hn] at hscope
    obtain ⟨a, hmem, ha, htype⟩ := Contract.exists_actual hty hscope
    rw [if_neg (Ne.symm hn), ha]
    exact ⟨hargs a hmem, htype⟩

end

section

variable {Γ Δ : Scope} {gen : Generator}

theorem types_callWp {line : Option Int} {x : Option Var} {f : String} {args : List Expr}
    {post : Expr} (hcs : ∀ c, gen.contracts.get? f = some c → c.Typed)
    (hop : (Op.call x f args).Typed Γ gen.contracts) (hle : Γ.Le Δ) (hpost : post.Formula Δ) :
    Types Δ (gen.callWp line x f args post) fun Θ e => e.Formula Θ := by
  obtain ⟨htarget, hargs⟩ := hop
  unfold Generator.callWp
  cases hc : gen.contractOf line f args with
  | error e => exact types_raise e
  | ok c =>
    have hget := (contractOf_ok hc).1
    have hty := typeOf_of_contractOf hc
    have hctyped := hcs c hget
    simp only [pure_bind]
    refine (types_freshVar _).bind fun Θ r hΘ hr => (types_note _).bind fun Ξ _ hΞ _ => types_pure ?_
    have hargs' : ∀ a ∈ args, a.Over Ξ := fun a ha => (hargs a ha).mono (hle.trans (hΘ.trans hΞ))
    have hname : Ξ r.name = some r.type := hΞ.keeps _ _ hr.1
    have hresult : r.type = c.result := by
      rw [hr.2]
      cases x with
      | none => rfl
      | some w => exact (htarget w rfl).2 c hget
    have hpost' := hpost.mono (hΘ.trans hΞ)
    refine .conjoin fun e he => ?_
    rcases List.mem_pair.1 he with rfl | rfl
    · exact formula_requires hctyped hty hargs'
    · refine (formula_ensures hctyped hty hargs' hname hresult).implies ?_
      cases x with
      | none => exact hpost'
      | some w =>
        have hw : Ξ w.name = some w.type := (hle.trans (hΘ.trans hΞ)).keeps _ _ (htarget w rfl).1
        refine hpost'.subst (Expr.over_var hname) fun u hu hne => ?_
        rw [hw] at hu
        cases hu
        exact hr.2 ▸ if_neg (hr.2 ▸ hne)

/-! ## blocks -/

/-- Over every scope that goes on from `Γ` the computation gives a formula. -/
def GivesFormula (Γ : Scope) (x : Gen Expr) : Prop :=
  ∀ Δ : Scope, Γ.Le Δ → Types Δ x fun Θ e => e.Formula Θ

theorem types_opsWp {line : Option Int} {ops : List Op} {post : Expr}
    (hcs : ∀ f c, gen.contracts.get? f = some c → c.Typed)
    (hops : ∀ op ∈ ops, op.Typed Γ gen.contracts) (hle : Γ.Le Δ) (hpost : post.Formula Δ) :
    Types Δ (gen.opsWp line ops post) fun Θ e => e.Formula Θ := by
  induction ops with
  | nil => exact types_pure hpost
  | cons op ops ih =>
    obtain ⟨hop, hrest⟩ := List.forall_mem_cons.1 hops
    unfold Generator.opsWp
    refine (ih hrest).bind fun Θ e hΘ he => ?_
    cases op with
    | assign x v =>
      obtain ⟨hx, hv, htype⟩ := hop
      refine types_pure (he.subst (hv.mono (hle.trans hΘ)) fun u hu _ => ?_)
      rw [(hle.trans hΘ).keeps _ _ hx] at hu
      cases hu
      exact htype
    | call x f args => exact types_callWp (hcs f) hop (hle.trans hΘ) he

theorem givesFormula_termWp {wp : Node → Gen Expr} {i : Node} {t : Option Terminator}
    (hpost : gen.post.Formula Γ) (ht : ∀ u, t = some u → u.Typed Γ)
    (hwp : ∀ u, t = some u → ∀ j ∈ u.successors, GivesFormula Γ (wp j)) :
    GivesFormula Γ (gen.termWp wp i t) := by
  intro Δ hle
  cases t with
  | none => exact types_throw _
  | some u =>
    cases u with
    | ret v =>
      cases v with
      | none => exact types_pure (hpost.mono hle)
      | some v =>
        obtain ⟨hv, htype⟩ := ht _ rfl v rfl
        exact types_pure ((hpost.subst hv fun u hu _ => htype u hu).mono hle)
    | goto j => exact hwp _ rfl j (by simp [Terminator.successors]) Δ hle
    | branch g j k =>
      have hg : g.Formula Γ := ht _ rfl
      refine (hwp _ rfl j (by simp [Terminator.successors]) Δ hle).bind fun Θ p hΘ hp => ?_
      refine (hwp _ rfl k (by simp [Terminator.successors]) Θ (hle.trans hΘ)).bind fun Ξ q hΞ hq => types_pure ?_
      have hg' := hg.mono (hle.trans (hΘ.trans hΞ))
      exact .conjoin (List.forall_mem_cons.2 ⟨hg'.implies (hp.mono hΞ), List.forall_mem_singleton.2 (hg'.negate.implies hq)⟩)

theorem givesFormula_blockWp {wp : Node → Gen Expr} {i : Node} {b : Block}
    (hS : gen.setting.Typed Γ) (hb : b.Typed Γ gen.contracts)
    (hwp : ∀ j ∈ b.successors, GivesFormula Γ (wp j)) : GivesFormula Γ (gen.blockWp wp i b) := by
  intro Δ hle
  rw [blockWp_eq]
  refine (givesFormula_termWp hS.post hb.term (fun u hu j hj => hwp j (mem_successors hu hj)) Δ hle).bind fun Θ e hΘ he => ?_
  exact types_opsWp hS.contracts hb.ops (hle.trans hΘ) he

theorem givesFormula_headerInvariant {b : Block} (h : ∀ e, b.invariant = some e → e.Formula Γ) :
    GivesFormula Γ (Generator.headerInvariant b) := by
  intro Δ hle
  unfold Generator.headerInvariant Generator.invariantOf
  cases hi : b.invariant with
  | none => exact types_raise _
  | some e => exact types_pure ((h e hi).mono hle)

/-- The formula of a block is kept. -/
theorem types_visit (i : Node) {e : Expr} (he : e.Formula Γ) : Types Γ (do
    note (.visited i e)
    modify fun st => { st with cache := st.cache.put i e }
    return e) fun Δ e => e.Formula Δ := by
  refine fun st hst => ⟨Γ, .refl Γ, ⟨hst.names, fun j e' hj => ?_, hst.obligations⟩, he⟩
  have hj : (st.cache.put i e).get? j = some e' := hj
  rw [Keyed.get?_put] at hj
  split at hj
  · cases hj
    exact he
  · exact hst.cache j e' hj

theorem types_block (i : Node) : Types Δ (gen.block i) fun _ b => gen.graph.block? i = some b := by
  unfold Generator.block
  split
  · rename_i b hb
    exact types_pure hb
  · exact types_throw _

theorem givesFormula_wp (hS : gen.setting.Typed Γ) (fuel : Nat) {i : Node}
    (hi : gen.graph.Reaches i) :
    GivesFormula Γ (gen.wp fuel i) := by
  induction fuel generalizing i with
  | zero => exact fun _ _ => types_throw _
  | succ fuel ih =>
    intro Δ hle st hst
    unfold Generator.wp
    simp only [spec_bind, spec_get]
    cases hc : st.cache.get? i with
    | some e => exact ⟨Δ, .refl Δ, hst, hst.cache i e hc⟩
    | none =>
      refine (types_block i).bind (fun Θ b hΘ hb => ?_) st hst
      have hblock := hS.block i b hi hb
      split
      · refine (givesFormula_headerInvariant hblock.invariant Θ (hle.trans hΘ)).bind fun Ξ e _ he => types_visit i he
      · refine (givesFormula_blockWp hS hblock (fun j hj => ?_) Θ (hle.trans hΘ)).bind fun Ξ e _ he => types_visit i he
        exact ih (hi.step ((edge_iff hb).2 hj))

/-! ## obligations -/

theorem types_rawObligations (hS : gen.setting.Typed Γ) {h : Node} (hh : gen.graph.Reaches h)
    {b : Block} (hb : gen.graph.block? h = some b) (hle : Γ.Le Δ) {inv : Expr}
    (hinv : inv.Formula Δ) :
    Types Δ (gen.rawObligations h b inv) fun Θ os => ∀ o ∈ os, o.Formula Θ := by
  have hblock := hS.block h b hh hb
  have hwp : ∀ j ∈ b.successors, GivesFormula Γ (gen.wp gen.fuel j) := fun j hj =>
    givesFormula_wp hS gen.fuel (hh.step ((edge_iff hb).2 hj))
  unfold Generator.rawObligations
  split
  · rename_i g j k ht _
    have hg : g.Formula Γ := hblock.term _ ht
    refine (hwp j (mem_successors ht (by simp [Terminator.successors])) Δ hle).bind fun Θ p hΘ hp => ?_
    refine (hwp k (mem_successors ht (by simp [Terminator.successors])) Θ (hle.trans hΘ)).bind fun Ξ q hΞ hq => types_pure ?_
    have hg' := hg.mono (hle.trans (hΘ.trans hΞ))
    have hinv' := hinv.mono (hΘ.trans hΞ)
    refine List.forall_mem_cons.2 ⟨.implies (.conjoin ?_) (hp.mono hΞ), List.forall_mem_singleton.2 (.implies (.conjoin ?_) hq)⟩
    · exact List.forall_mem_cons.2 ⟨hinv', List.forall_mem_singleton.2 hg'⟩
    · exact List.forall_mem_cons.2 ⟨hinv', List.forall_mem_singleton.2 hg'.negate⟩
  · refine (givesFormula_blockWp hS hblock hwp Δ hle).bind fun Θ e hΘ he => types_pure ?_
    exact List.forall_mem_singleton.2 ((hinv.mono hΘ).implies he)

/-- A pair of a name and its replacement comes from a variable and a fresh one. -/
theorem exists_of_mem_renaming {R : Var → Var → Prop} {vs ws : List Var} (h : List.Forall₂ R vs ws)
    {x : String} {t : Expr} (hmem : (x, t) ∈ (vs.map (·.name)).zip (ws.map .var)) :
    ∃ v w, v ∈ vs ∧ R v w ∧ v.name = x ∧ t = .var w := by
  induction h with
  | nil => cases hmem
  | @cons v w vs ws hvw _ ih =>
    rcases List.mem_cons.1 hmem with heq | hmem
    · cases heq
      exact ⟨v, w, List.mem_cons_self .., hvw, rfl, rfl⟩
    · obtain ⟨v', w', hv', hR, hx, ht⟩ := ih hmem
      exact ⟨v', w', List.mem_cons_of_mem _ hv', hR, hx, ht⟩

/-- Fresh variables of the same types keep a formula typed. -/
theorem formula_renamed {o : Expr} {vs ws : List Var} (ho : o.Formula Γ)
    (hvs : ∀ v ∈ vs, Γ v.name = some v.type)
    (hws : List.Forall₂ (fun v w => Γ w.name = some w.type ∧ w.type = v.type) vs ws) :
    (o.substitute ⟨(vs.map (·.name)).zip (ws.map .var)⟩).Formula Γ := by
  refine .substitute ho.type fun v hv => ?_
  have hne := Expr.type_ne_unknown ho.type v hv
  cases hget : Keyed.get? ⟨(vs.map (·.name)).zip (ws.map Expr.var)⟩ v.name with
  | none => exact ⟨Expr.over_var (ho.vars v hv), if_neg hne⟩
  | some t =>
    obtain ⟨u, w, hu, ⟨hw, htype⟩, hname, rfl⟩ :=
      exists_of_mem_renaming hws (Keyed.mem_of_get? hget)
    have huv : u.type = v.type := Option.some.inj ((hvs u hu).symm.trans (hname ▸ ho.vars v hv))
    have hwv : w.type = v.type := htype.trans huv
    exact ⟨Expr.over_var hw, hwv ▸ if_neg (hwv ▸ hne)⟩

theorem typed_target {op : Op} {cs : Contracts} {v : Var} (h : op.Typed Γ cs)
    (hv : op.target = some v) :
    Γ v.name = some v.type := by
  cases op with
  | assign x e =>
    cases hv
    exact h.1
  | call x f args => exact (h.1 v hv).1

theorem types_loopObligations (hS : gen.setting.Typed Γ) {h : Node} (hh : gen.graph.Reaches h)
    (hle : Γ.Le Δ) :
    Types Δ (gen.loopObligations h) fun Θ os => ∀ o ∈ os, o.Formula Θ := by
  unfold Generator.loopObligations
  refine (types_block h).bind fun Θ₁ b h₁ hb => ?_
  have hblock := hS.block h b hh hb
  refine (givesFormula_headerInvariant hblock.invariant Θ₁ (hle.trans h₁)).bind fun Θ₂ inv h₂ hinv => ?_
  have hle₂ := hle.trans (h₁.trans h₂)
  refine (types_rawObligations hS hh hb hle₂ hinv).bind fun Θ₃ os h₃ hos => ?_
  cases hvs : gen.graph.reachable.bind gen.graph.assigned with
  | error f => exact types_throw _
  | ok vs =>
    obtain ⟨hkeys, htargets, -⟩ := reachable_assigned hvs
    have hdeclared : ∀ v ∈ vs.values, Γ v.name = some v.type := by
      intro v hv
      obtain ⟨i, k, op, hi, hk, hop, ht⟩ := htargets v hv
      exact typed_target ((hS.block i k hi hk).ops op hop) ht
    simp only [pure_bind]
    refine (types_freshVars vs.values).bind fun Θ₄ ws h₄ hws => (types_note _).bind fun Θ₅ _ h₅ _ => types_pure ?_
    have hle₅ : Γ.Le Θ₅ := hle₂.trans (h₃.trans (h₄.trans h₅))
    rw [hkeys]
    refine List.forall_mem_map.2 fun o ho => formula_renamed ((hos o ho).mono (h₄.trans h₅)) ?_ ?_
    · exact fun v hv => hle₅.keeps _ _ (hdeclared v hv)
    · exact hws.imp fun v w hw => ⟨h₅.keeps _ _ hw.1, hw.2⟩

theorem types_addObligations (hS : gen.setting.Typed Γ) {hs : List Node}
    (hh : ∀ h ∈ hs, gen.graph.Reaches h) (hle : Γ.Le Δ) :
    Types Δ (gen.addObligations hs) fun _ _ => True := by
  induction hs generalizing Δ with
  | nil => exact types_pure trivial
  | cons h hs ih =>
    obtain ⟨hfirst, hrest⟩ := List.forall_mem_cons.1 hh
    unfold Generator.addObligations
    refine (types_loopObligations hS hfirst hle).bind fun Θ os hΘ hos => ?_
    have hadd : Types Θ (modify fun st => { st with obligations := st.obligations ++ os }) fun _ _ => True :=
      fun st hst => ⟨Θ, .refl Θ, ⟨hst.names, hst.cache, List.forall_mem_append.2 ⟨hst.obligations, hos⟩⟩, trivial⟩
    exact hadd.bind fun Ξ _ hΞ _ => ih hrest (hle.trans (hΘ.trans hΞ))

theorem types_checkInvariants (hs : List Node) : Types Δ (gen.checkInvariants hs) fun _ _ => True := by
  induction hs generalizing Δ with
  | nil => exact types_pure trivial
  | cons h hs ih =>
    unfold Generator.checkInvariants Generator.headerInvariant
    refine (types_block h).bind fun Θ b _ _ => ?_
    split
    · rw [pure_bind]
      exact ih
    · exact Types.bind (P := fun _ _ => True) (types_raise _) fun Ξ _ _ _ => ih

/-! ## conditions -/

theorem types_generate (hS : gen.setting.Typed Γ) (hl : gen.graph.loops = .ok gen.loops) :
    Types Γ gen.generate fun Δ e => e.Formula Δ := by
  have hheader : ∀ h ∈ gen.loops.keys, gen.graph.Reaches h := fun h hh => by
    rw [Keyed.mem_keys_iff, ← Keyed.contains_iff, contains_loops hl] at hh
    exact hh.reaches
  unfold Generator.generate
  refine (types_checkInvariants gen.loops.keys).bind fun Δ _ hΔ _ => ?_
  refine (givesFormula_wp hS gen.fuel Relation.ReflTransGen.refl Δ hΔ).bind fun Θ e hΘ he => ?_
  exact (types_addObligations hS hheader (hΔ.trans hΘ)).bind fun Ξ _ hΞ _ => types_pure (he.mono hΞ)

theorem types_condition {pre : Expr} (hS : gen.setting.Typed Γ)
    (hl : gen.graph.loops = .ok gen.loops) (hpre : pre.Formula Γ) :
    Types Γ (gen.condition pre) fun Δ vc => vc.Formula Δ := by
  unfold Generator.condition
  refine (types_generate hS hl).bind fun Δ e hΔ he => (types_note _).bind fun Θ _ hΘ _ st hst => ?_
  simp only [spec_bind, spec_get]
  refine spec_notes fun steps => ⟨Θ, .refl Θ, ⟨hst.names, hst.cache, hst.obligations⟩, ?_⟩
  exact (hpre.mono (hΔ.trans hΘ)).implies
    (.conjoin (List.forall_mem_cons.2 ⟨he.mono hΘ, hst.obligations⟩))

end

/-- The condition is a formula, over names of the program and fresh ones. -/
theorem formula_buildVc {Γ : Scope} {S : Setting} (hS : S.Typed Γ) {pre vc : Expr}
    (hpre : pre.Formula Γ) (h : buildVc pre S.post S.graph S.contracts = .ok vc) :
    ∃ Δ : Scope, Γ.Le Δ ∧ vc.Formula Δ := by
  rw [buildVc_def] at h
  cases hl : S.graph.loops with
  | error f =>
    rw [hl] at h
    cases h
  | ok ls =>
    simp only [hl] at h
    let gen : Generator := ⟨S.graph, S.post, S.contracts, ls⟩
    have hstart : State.Typed Γ {} :=
      ⟨fun x t hx => .inl (Fresh.plain_of_notMem (hS.names x t hx)), nofun, nofun⟩
    have htypes : Types Γ (gen.condition pre) fun Δ vc => vc.Formula Δ := types_condition hS hl hpre
    obtain ⟨Δ, hle, -, hvc⟩ := (htypes {} hstart).ok (Prod.ext h rfl)
    exact ⟨Δ, hle, hvc⟩

/-- **Verification conditions are well typed.**  Over a typed graph, with typed conditions and
contracts, a condition that is built is a truth value, and each of its names, fresh ones included,
has one type.  So the solver takes it, unless the program has a variable without a name. -/
theorem buildVc_typed {Γ : Scope} {S : Setting} (hS : S.Typed Γ) {pre vc : Expr}
    (hpre : pre.Formula Γ) (h : buildVc pre S.post S.graph S.contracts = .ok vc) :
    vc.typeOf = .ok .bool ∧
      (∀ v ∈ vc.vars, v.type ≠ .unknown ∧ ∀ w ∈ vc.vars, w.name = v.name → w.type = v.type) ∧
      (Γ "" = none → ∃ t enc, ({} : Encoder).encode vc = (.ok t, enc)) := by
  obtain ⟨Δ, hle, hvars, htype⟩ := formula_buildVc hS hpre h
  have hsingle : ∀ v ∈ vc.vars, ∀ w ∈ vc.vars, w.name = v.name → w.type = v.type := by
    intro v hv w hw hn
    have hw' := hvars w hw
    rw [hn, hvars v hv] at hw'
    exact (Option.some.inj hw').symm
  refine ⟨htype, fun v hv => ⟨Expr.type_ne_unknown htype v hv, hsingle v hv⟩, fun hempty => ?_⟩
  have hnamed : ∀ v ∈ vc.vars, v.name ≠ "" := by
    intro v hv hn
    have hv' := hvars v hv
    rw [hn] at hv'
    rcases hle.fresh _ _ hv' with hold | hnew
    · rw [hempty] at hold
      cases hold
    · exact hnew (Fresh.plain_of_notMem (by decide))
  have hwf : vc.WellFormed := ⟨htype, hnamed, fun v hv w hw hn => hsingle w hw v hv hn⟩
  rcases encode_spec vc with ⟨t, enc, ht, -⟩ | ⟨hn, -⟩
  · exact ⟨t, enc, ht⟩
  · exact absurd hwf hn

/-! ## a call whose result nobody keeps -/

namespace Polled

def i : Var := ⟨"i", .int⟩

def n : Var := ⟨"n", .int⟩

def scope : Scope := fun x => if x = "i" ∨ x = "n" ∨ x = resultName then some .int else none

/-- What comes up next, and a number one higher. -/
def contracts : Contracts :=
  ⟨[("poll", ⟨"poll", [], .bool, .truth, .var ⟨resultName, .bool⟩⟩),
    ("succ", ⟨"succ", [⟨"k", .int⟩], .int, .truth,
      .bin .eq (.var ⟨resultName, .int⟩) (.bin .add (.var ⟨"k", .int⟩) (.num 1))⟩)]⟩

/-- A loop that counts up to `n`, behind a call that gives a truth value. -/
def setting : Setting where
  graph := { blocks := [
    { ops := [.call none "poll" [], .assign i (.num 0)], term := some (.goto 1) },
    { term := some (.branch (.bin .lt (.var i) (.var n)) 2 3), invariant := some (.bin .le (.var i) (.var n)) },
    { ops := [.call (some i) "succ" [.var i]], term := some (.goto 1) },
    { term := some (.ret (some (.var i))) }] }
  contracts := contracts
  post := .bin .eq (.var ⟨resultName, .int⟩) (.var n)

def pre : Expr := .bin .le (.num 0) (.var n)

theorem exists_vc : ∃ vc, buildVc pre setting.post setting.graph setting.contracts = .ok vc := by
  have hloops : setting.graph.loops = .ok ⟨[(1, [2, 1])]⟩ := by decide +kernel
  have hreach : setting.graph.reachable = .ok [0, 1, 2, 3] := by decide +kernel
  have hassigned : setting.graph.reachable.bind setting.graph.assigned = .ok ⟨[("i", i)]⟩ :=
    Graph.assigned_of_reachable hreach (by decide) rfl
  simp only [buildVc_def, hloops, Generator.condition, Generator.generate, Keyed.keys,
    List.map_cons, List.map_nil, Generator.addObligations, Generator.loopObligations, hassigned]
  exact ⟨_, rfl⟩

theorem typed_contracts : ∀ f c, contracts.get? f = some c → c.Typed := by
  intro f c hc
  have hmem := Keyed.mem_of_get? hc
  simp only [contracts, List.mem_cons, Prod.mk.injEq, List.not_mem_nil, or_false] at hmem
  rcases hmem with ⟨-, rfl⟩ | ⟨-, rfl⟩ <;> exact ⟨by decide, by decide⟩

theorem typed : setting.Typed scope where
  names := by
    intro x t hx
    unfold scope at hx
    split at hx
    · rename_i hname
      rcases hname with rfl | rfl | rfl <;> decide
    · cases hx
  post := by decide
  contracts := typed_contracts
  block := by
    intro k b _ hb
    have hmem := mem_blocks_of_block hb
    simp only [setting, List.mem_cons, List.not_mem_nil, or_false] at hmem
    rcases hmem with rfl | rfl | rfl | rfl
    · refine ⟨fun op hop => ?_, fun t ht => ?_, nofun⟩
      · rcases List.mem_pair.1 hop with rfl | rfl
        · exact ⟨nofun, nofun⟩
        · exact ⟨by decide, by decide, rfl⟩
      · cases ht
        trivial
    · refine ⟨nofun, fun t ht => ?_, fun e he => ?_⟩
      · cases ht
        exact (by decide : (Expr.bin .lt (.var i) (.var n)).Formula scope)
      · cases he
        decide
    · refine ⟨fun op hop => ?_, fun t ht => ?_, nofun⟩
      · cases List.mem_singleton.1 hop
        refine ⟨fun w hw => ?_, List.forall_mem_singleton.2 (by decide)⟩
        cases hw
        refine ⟨by decide, fun c hc => ?_⟩
        cases hc
        rfl
      · cases ht
        trivial
    · refine ⟨nofun, fun t ht => ?_, nofun⟩
      cases ht
      intro v hv
      cases hv
      refine ⟨by decide, fun u hu => ?_⟩
      cases hu
      rfl

end Polled

/-- The result that is dropped has another type than the one that is returned. -/
theorem polled_typed : ∃ vc, buildVc Polled.pre Polled.setting.post Polled.setting.graph Polled.setting.contracts = .ok vc ∧
    vc.typeOf = .ok .bool ∧ (∀ v ∈ vc.vars, v.type ≠ .unknown ∧ ∀ w ∈ vc.vars, w.name = v.name → w.type = v.type) ∧
    ∃ t enc, ({} : Encoder).encode vc = (.ok t, enc) := by
  obtain ⟨vc, hvc⟩ := Polled.exists_vc
  obtain ⟨htype, hsingle, hencode⟩ :=
    buildVc_typed Polled.typed (by decide : Polled.pre.Formula Polled.scope) hvc
  exact ⟨vc, hvc, htype, hsingle, hencode rfl⟩

/-! ## a variable without a name -/

namespace Unnamed

def scope : Scope := fun x => if x = "" ∨ x = resultName then some .int else none

/-- The variable is returned. -/
def setting : Setting where
  graph := { blocks := [{ term := some (.ret (some (.var ⟨"", .int⟩))) }] }
  contracts := .empty
  post := .bin .eq (.var ⟨resultName, .int⟩) (.num 0)

def vc : Expr := Expr.truth.implies (.bin .eq (.var ⟨"", .int⟩) (.num 0))

theorem typed : setting.Typed scope where
  names := by
    intro x t hx
    unfold scope at hx
    split at hx
    · rename_i hname
      rcases hname with rfl | rfl <;> decide
    · cases hx
  post := by decide
  contracts := nofun
  block := by
    intro k b _ hb
    have hmem := mem_blocks_of_block hb
    cases List.mem_singleton.1 hmem
    refine ⟨nofun, fun t ht => ?_, nofun⟩
    cases ht
    intro v hv
    cases hv
    refine ⟨by decide, fun u hu => ?_⟩
    cases hu
    rfl

end Unnamed

/-- All is typed, the condition is built and is a truth value, and still the solver does not take
it. -/
theorem unnamed_rejected : Unnamed.setting.Typed Unnamed.scope ∧ Expr.truth.Formula Unnamed.scope ∧
    buildVc .truth Unnamed.setting.post Unnamed.setting.graph Unnamed.setting.contracts = .ok Unnamed.vc ∧
    Unnamed.vc.typeOf = .ok .bool ∧ ∃ c enc, ({} : Encoder).encode Unnamed.vc = (.error (.error (.encoding c)), enc) := by
  refine ⟨Unnamed.typed, by decide, by decide +kernel, rfl, ?_⟩
  rcases encode_spec Unnamed.vc with ⟨t, enc, -, -, ht⟩ | ⟨-, stop, enc, hrun⟩
  · exact absurd rfl (ht.names ⟨"", .int⟩ (by simp [Unnamed.vc, Expr.vars, Expr.implies])).1
  · rcases Encoder.failure_cases Unnamed.vc stop with ⟨c, hc⟩ | ⟨hw, -⟩
    · exact ⟨c, enc, hc ▸ hrun⟩
    · refine absurd ?_ hw
      simp [Unnamed.vc, Expr.isWritable, Expr.implies, Expr.truth, Expr.num, Value.isWritable,
        Text.isShort_zero]

end Wp

end ContractVerifier
